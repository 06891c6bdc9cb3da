import PyrrhaNode.Coins
import PyrrhaNode.SpendProof
import PyrrhaNode.SpendVerify

/-!
# Checking a double-spend proof

A proof is checked against the output that its outpoint stands for. The script of each
spend is rebuilt from the data in the proof and from the second push of a transaction in
the memory pool that spends the output, and its signature is checked against a message
that is rebuilt from the hashes in the proof.
-/
namespace PyrrhaNode.SpendProofCheck
open ByteCodec Serialize Transaction Script
open Coins Interpreter
open SignatureHash ScriptOps
open SpendVerify SpendProof Loop

inductive Validity where
  | valid
  | missingTransaction
  | missingUTXO
  | invalid
  deriving DecidableEq

def spenderComponents (s : Spender) : Components :=
  ⟨s.hashPrevOutputs, s.hashSequence, s.hashInAmounts, s.hashOutputs⟩

/-- The message that the spender's signature is checked for. Only the low byte of the version
enters it. -/
def spenderMessage (s : Spender) (scriptCode : CScript) : Bytes :=
  sigHashMessage scriptCode s.txVersion.toUInt8 s.lockTime (sigHashTypeOf s.front)
    (spenderComponents s)

def checkSpenderSig (R : ScriptRules) (s : Spender) (vchSigIn vchPubKey scriptCode : Bytes) :
    Bool :=
  if !pubKeyIsValid vchPubKey then false
  else if vchSigIn.isEmpty then false
  else R.verifySchnorr vchPubKey (R.hashes.hash256 (spenderMessage s scriptCode))
    (removeSigHashType vchSigIn)

def dspSignatureChecker (R : ScriptRules) (s : Spender) : BaseSignatureChecker where
  checkSig := checkSpenderSig R s
  checkLockTime _ := true
  checkSequence _ := true

def rebuiltScript (s : Spender) (pubkey : Bytes) : CScript :=
  pushVector s.front ++ pushVector pubkey

/-- Whether the output may be spent by the spender. -/
def verifySpender (R : ScriptRules) (s : Spender) (pubkey : Bytes) (prevOut : CTxOut) :
    ScriptResult :=
  verifySpend R (dspSignatureChecker R s) scriptEnableSigHashForkId (rebuiltScript s pubkey) prevOut

/-- What validation looks up: outputs of transactions in the memory pool, the coins of the
tip, and the transactions in the memory pool by the outpoints that they spend. -/
structure DspView where
  poolOutput : COutPoint → Option CTxOut
  pcoinsTip : CCoinsViewCache
  mapNextTx : COutPoint → Option CTransaction

/-- The output that an outpoint stands for. A cached coin that is spent counts, with the null
output. -/
def prevOutput (view : DspView) (o : COutPoint) : Option CTxOut :=
  match view.poolOutput o with
  | some out => some out
  | none => (view.pcoinsTip.getCoin o).map Coin.out

/-- By convention the spender with the smaller hash comes first. -/
def comesAfter (s₁ s₂ : Spender) : Bool :=
  if s₁.hashOutputs = s₂.hashOutputs then
    decide (ofLeBytes s₂.hashPrevOutputs.data < ofLeBytes s₁.hashPrevOutputs.data)
  else decide (ofLeBytes s₂.hashOutputs.data < ofLeBytes s₁.hashOutputs.data)

/-- The second push of the input that spends the outpoint. -/
def secondPush (tx : CTransaction) (o : COutPoint) : Option Bytes :=
  match tx.vin.find? fun inp => inp.prevout = o with
  | none => some []
  | some inp =>
    match getOp inp.scriptSig with
    | none => none
    | some (_, _, pc) => (getOp pc).map fun op => op.2.1

/-- The check of the two spenders with the key that a transaction brings. -/
def validateSpenders (R : ScriptRules) (p : DoubleSpendProof) (prevOut : CTxOut)
    (tx : CTransaction) : Validity :=
  match secondPush tx p.prevOutpoint with
  | none => .invalid
  | some pubkey =>
    if pubkey.isEmpty then .invalid
    else if !(verifySpender R p.spender1 pubkey prevOut).isOk then .invalid
    else if !(verifySpender R p.spender2 pubkey prevOut).isOk then .invalid
    else .valid

def validate (R : ScriptRules) (view : DspView) (ptx : Option CTransaction)
    (p : DoubleSpendProof) : Validity :=
  if p.prevOutpoint.isNull then .invalid
  else if p.spender1.front.isEmpty || p.spender2.front.isEmpty then .invalid
  else if p.spender1 = p.spender2 then .invalid
  else if comesAfter p.spender1 p.spender2 then .invalid
  else
    match prevOutput view p.prevOutpoint with
    | none => .missingUTXO
    | some prevOut =>
      match ptx.or (view.mapNextTx p.prevOutpoint) with
      | none => .missingTransaction
      | some tx => validateSpenders R p prevOut tx

variable {p : DoubleSpendProof} {R : ScriptRules}

lemma validateSpenders_eq_valid {prevOut : CTxOut}
    {tx : CTransaction} : validateSpenders R p prevOut tx = .valid ↔
      ∃ pubkey, secondPush tx p.prevOutpoint = some pubkey ∧ pubkey ≠ [] ∧
        (∃ m, verifySpender R p.spender1 pubkey prevOut = .ok m) ∧
        ∃ m, verifySpender R p.spender2 pubkey prevOut = .ok m := by
  unfold validateSpenders
  simp only [← exists_eq_ok]
  cases secondPush tx p.prevOutpoint with
  | none => simp
  | some pubkey =>
    dsimp only
    split_ifs with hempty h₁ h₂
    · simp [List.isEmpty_iff.mp hempty]
    · simp_all
    · simp_all
    · simp_all

theorem validate_eq_valid {view : DspView} {ptx : Option CTransaction} :
    validate R view ptx p = .valid ↔
      p.prevOutpoint.isNull = false ∧ p.spender1.front ≠ [] ∧ p.spender2.front ≠ [] ∧
      p.spender1 ≠ p.spender2 ∧ comesAfter p.spender1 p.spender2 = false ∧
      ∃ prevOut tx, prevOutput view p.prevOutpoint = some prevOut ∧
        ptx.or (view.mapNextTx p.prevOutpoint) = some tx ∧
        validateSpenders R p prevOut tx = .valid := by
  unfold validate
  split_ifs with hnull hfront hsame horder
  · simp [hnull]
  · simp only [Bool.or_eq_true, List.isEmpty_iff] at hfront
    constructor
    · intro h
      cases h
    · rintro ⟨-, h₁, h₂, -⟩
      exact (hfront.elim h₁ h₂).elim
  · simp [hsame]
  · simp [horder]
  · simp only [Bool.or_eq_true, List.isEmpty_iff, not_or] at hfront
    rw [Bool.not_eq_true] at hnull horder
    constructor
    · intro h
      refine ⟨hnull, hfront.1, hfront.2, hsame, horder, ?_⟩
      split at h
      case h_1 => cases h
      case h_2 prevOut hprev =>
        split at h
        case h_1 => cases h
        case h_2 tx htx => exact ⟨prevOut, tx, hprev, htx, h⟩
    · rintro ⟨-, -, -, -, -, prevOut, tx, hprev, htx, h⟩
      rw [hprev, htx]
      exact h

end PyrrhaNode.SpendProofCheck
