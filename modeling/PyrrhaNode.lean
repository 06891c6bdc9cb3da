import PyrrhaNode.GroupConservation
import PyrrhaNode.GroupAuthority
import PyrrhaNode.GroupCovenant
import PyrrhaNode.ChainUndo
import PyrrhaNode.SpendProofComplete
import PyrrhaNode.GrapheneReconcile
import PyrrhaNode.LockTime
import PyrrhaNode.CapdPriority
import PyrrhaNode.PartialMerkle
import PyrrhaNode.CashAddrEnc
import PyrrhaNode.SigEncoding
import PyrrhaNode.TxIdem
import PyrrhaNode.CoinDatabase
import PyrrhaNode.GroupGenesis
import PyrrhaNode.AdmissionRound
import PyrrhaNode.CoinLookup
import PyrrhaNode.AdmissionOrder
import PyrrhaNode.MemPoolRun
import PyrrhaNode.TemplatePushOnly
import PyrrhaNode.ScriptLimits
import PyrrhaNode.ExecBudget
import PyrrhaNode.MedianCalls
import PyrrhaNode.BlockMemory
import PyrrhaNode.Reconsider
import PyrrhaNode.NumberBytes
import PyrrhaNode.ScriptPushes
import PyrrhaNode.RollingFilter
import PyrrhaNode.VariableFastFilter
import PyrrhaNode.VarInt
import PyrrhaNode.ConditionStack
import PyrrhaNode.ActiveChain
import PyrrhaNode.VersionBits
