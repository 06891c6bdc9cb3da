import PyrrhaNode.BigNumTruth
import PyrrhaNode.ByteOps
import PyrrhaNode.DataSig
import PyrrhaNode.Introspection

/-!
# The table of opcodes

What every opcode above `OP_16` does, as the switch of a step has it.  `OP_EXEC` is missing here: it
starts another machine.  An opcode without a row is bad.
-/
namespace PyrrhaNode.OpcodeTable

open Serialize Interpreter ScriptOps MultiSig NumericOps BigNumTruth
open StackOps ByteOps Introspection DataSig

/-- Everything that a script can ask about.  A word that was not initialised holds what `memory`
says, for the state in which it is read and its number among the words read there. -/
structure ExecContext where
  hashes : HashFns
  ripemd160 : Bytes → Uint160
  sha1 : Bytes → Uint160
  checker : Option (BaseSignatureChecker × VerifySignature)
  view : TxView
  memory : ScriptMachine → ℕ → BitVec 64

/-- What the opcodes that check signatures and lock times see. -/
def signatureEnv (env : ScriptEnv ExecContext) : ScriptEnv ScriptImportedState :=
  ⟨env.flags, ⟨env.sis.checker.map Prod.fst⟩, env.maxOps, env.maxConsensusSigOps⟩

/-- Signatures cover the code after the separator. -/
def execCodeSeparator (next : Bytes) (m : ScriptMachine) : ScriptResult :=
  return { m with codeHash := next }

/-- What an opcode does in an environment, with the position after it. -/
abbrev Handler := ScriptEnv ExecContext → Bytes → ScriptMachine → ScriptResult

def controlTable : List (UInt8 × Handler) :=
  [(0x61, fun _ _ => execNop),
   (0x63, fun _ _ => execIf false),
   (0x64, fun _ _ => execIf true),
   (0x67, fun _ _ => execElse),
   (0x68, fun _ _ => execEndIf),
   (0x69, fun _ _ => execVerify),
   (0x6a, fun _ _ => execReturn),
   (0xb0, fun env _ => execUpgradableNop env.flags),
   (0xb1, fun env _ => execCheckLockTimeVerify (signatureEnv env)),
   (0xb2, fun env _ => execCheckSequenceVerify (signatureEnv env)),
   (0xb3, fun env _ => execUpgradableNop env.flags),
   (0xb4, fun env _ => execUpgradableNop env.flags),
   (0xb5, fun env _ => execUpgradableNop env.flags),
   (0xb6, fun env _ => execUpgradableNop env.flags),
   (0xb7, fun env _ => execUpgradableNop env.flags),
   (0xb8, fun env _ => execUpgradableNop env.flags),
   (0xb9, fun env _ => execUpgradableNop env.flags)]

def stackTable : List (UInt8 × Handler) :=
  [(0x6b, fun _ _ => execToAltStack),
   (0x6c, fun _ _ => execFromAltStack),
   (0x6d, fun _ _ => exec2Drop),
   (0x6e, fun _ _ => exec2Dup),
   (0x6f, fun _ _ => exec3Dup),
   (0x70, fun _ _ => exec2Over),
   (0x71, fun _ _ => exec2Rot),
   (0x72, fun _ _ => exec2Swap),
   (0x73, fun _ _ => execIfDup),
   (0x74, fun _ _ => execDepth),
   (0x75, fun _ _ => execDrop),
   (0x76, fun _ _ => execDup),
   (0x77, fun _ _ => execNip),
   (0x78, fun _ _ => execOver),
   (0x79, fun env _ => execPick env.flags false),
   (0x7a, fun env _ => execPick env.flags true),
   (0x7b, fun _ _ => execRot),
   (0x7c, fun _ _ => execSwap),
   (0x7d, fun _ _ => execTuck),
   (0x82, fun _ _ => execSize),
   (0xe9, fun env _ m => execPlace env.flags (env.sis.memory m 0) m)]

def byteTable : List (UInt8 × Handler) :=
  [(0x7e, fun _ _ => execCat),
   (0x7f, fun env _ => execSplit env.flags),
   (0x80, fun env _ m => execNum2Bin env.flags (env.sis.memory m 0) m),
   (0x81, fun env _ => execBin2Num env.flags),
   (0x84, fun _ _ => execAnd),
   (0x85, fun _ _ => execOr),
   (0x86, fun _ _ => execXor),
   (0x87, fun _ _ => execEqual false),
   (0x88, fun _ _ => execEqual true),
   (0xbc, fun _ _ => execReverseBytes)]

def numericTable : List (UInt8 × Handler) :=
  [(0x8b, fun env _ => execUnaryNum env.flags .add1),
   (0x8c, fun env _ => execUnaryNum env.flags .sub1),
   (0x8f, fun env _ => execUnaryNum env.flags .negate),
   (0x90, fun env _ => execUnaryNum env.flags .abs),
   (0x91, fun env _ => execUnaryNum env.flags .not),
   (0x92, fun env _ => execUnaryNum env.flags .notEqual0),
   (0x98, fun env _ m => execLShift env.flags (env.sis.memory m 0) m),
   (0x99, fun env _ m => execRShift env.flags (env.sis.memory m 0) m),
   (0xa5, fun env _ => execWithin env.flags),
   (0xeb, fun _ _ => execSetBmd),
   (0xec, fun _ _ => execBin2BigNum)] ++
  NumOp.all.map fun op => (op.opcode, fun env _ => execBinaryNum env.flags op)

def cryptoTable : List (UInt8 × Handler) :=
  [(0xa6, fun env _ => execHash fun vch => (env.sis.ripemd160 vch).data),
   (0xa7, fun env _ => execHash fun vch => (env.sis.sha1 vch).data),
   (0xa8, fun env _ => execHash fun vch => (env.sis.hashes.sha256 vch).data),
   (0xa9, fun env _ => execHash160 env.sis.hashes),
   (0xaa, fun env _ => execHash fun vch => (env.sis.hashes.hash256 vch).data),
   (0xab, fun _ next => execCodeSeparator next),
   (0xac, fun env _ => execCheckSig (signatureEnv env) false),
   (0xad, fun env _ => execCheckSig (signatureEnv env) true),
   (0xae, fun env _ m =>
      (execCheckMultiSig (signatureEnv env) false m).mapError MultiSigExit.scriptError),
   (0xaf, fun env _ m =>
      (execCheckMultiSig (signatureEnv env) true m).mapError MultiSigExit.scriptError),
   (0xba, fun env _ =>
      execCheckDataSig env.sis.hashes env.flags (env.sis.checker.map Prod.snd) false),
   (0xbb, fun env _ =>
      execCheckDataSig env.sis.hashes env.flags (env.sis.checker.map Prod.snd) true)]

def introspectionTable : List (UInt8 × Handler) :=
  [(0xc0, fun env _ => execNullary env.flags env.sis.view .inputIndex),
   (0xc1, fun env _ => execNullary env.flags env.sis.view .activeBytecode),
   (0xc2, fun env _ => execNullary env.flags env.sis.view .txVersion),
   (0xc3, fun env _ => execNullary env.flags env.sis.view .txInputCount),
   (0xc4, fun env _ => execNullary env.flags env.sis.view .txOutputCount),
   (0xc5, fun env _ => execNullary env.flags env.sis.view .txLockTime),
   (0xc6, fun env _ => execInput env.flags env.sis.view .utxoValue),
   (0xc7, fun env _ => execInput env.flags env.sis.view .utxoBytecode),
   (0xc8, fun env _ => execInput env.flags env.sis.view .outpointHash),
   (0xca, fun env _ => execInput env.flags env.sis.view .inputBytecode),
   (0xcb, fun env _ => execInput env.flags env.sis.view .inputSequenceNumber),
   (0xcc, fun env _ => execOutput env.flags env.sis.view .outputValue),
   (0xcd, fun env _ => execOutput env.flags env.sis.view .outputBytecode),
   (0xea, fun env _ => PushTxState.execPushTxState env.sis.hashes env.sis.view.state)]

def opcodeTable : List (UInt8 × Handler) :=
  controlTable ++ stackTable ++ byteTable ++ numericTable ++ cryptoTable ++ introspectionTable

/-- The opcodes of the table. -/
def plainOps : Opcodes ExecContext := fun env i m =>
  match opcodeTable.find? fun row => row.1 == i.opcode with
  | some row => row.2 env i.next m
  | none => throw .badOpcode

end PyrrhaNode.OpcodeTable
