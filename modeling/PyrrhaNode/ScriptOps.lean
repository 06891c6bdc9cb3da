import PyrrhaNode.Interpreter
import PyrrhaNode.SignatureHash

/-!
# Opcodes of standard scripts

The opcodes that pay-to-public-key outputs are made of, and those that lock a coin until
a height or a time. They look at the transaction through a signature checker. All other
opcodes stay a parameter.
-/
namespace PyrrhaNode.ScriptOps
open ByteCodec Serialize Transaction Script
open Interpreter SignatureHash

def opDup : UInt8 := 0x76
def opEqual : UInt8 := 0x87
def opEqualVerify : UInt8 := 0x88
def opHash160 : UInt8 := 0xa9
def opCheckSig : UInt8 := 0xac
def opCheckLockTimeVerify : UInt8 := 0xb1
def opCheckSequenceVerify : UInt8 := 0xb2

def scriptVerifyP2sh : BitVec 32 := 1#32 <<< 0
def scriptVerifyStrictEnc : BitVec 32 := 1#32 <<< 1
def scriptVerifySigPushOnly : BitVec 32 := 1#32 <<< 5
def scriptVerifyCleanStack : BitVec 32 := 1#32 <<< 8
def scriptVerifyCheckLockTimeVerify : BitVec 32 := 1#32 <<< 9
def scriptVerifyCheckSequenceVerify : BitVec 32 := 1#32 <<< 10
def scriptVerifyNullFail : BitVec 32 := 1#32 <<< 14
def scriptVerifyCompressedPubKeyType : BitVec 32 := 1#32 <<< 15
def scriptEnableSigHashForkId : BitVec 32 := 1#32 <<< 16

def scriptErrEvalFalse : ScriptError := .other 2
def scriptErrEqualVerify : ScriptError := .other 16
def scriptErrCheckSigVerify : ScriptError := .other 18
def scriptErrInvalidStackOperation : ScriptError := .other 23
def scriptErrInvalidAltStackOperation : ScriptError := .other 24
def scriptErrNegativeLockTime : ScriptError := .other 30
def scriptErrUnsatisfiedLockTime : ScriptError := .other 31
def scriptErrSigHashType : ScriptError := .other 32
def scriptErrPubKeyType : ScriptError := .other 37
def scriptErrSigNullFail : ScriptError := .other 39
def scriptErrSigNonSchnorr : ScriptError := .other 41
def scriptErrNonCompressedPubKey : ScriptError := .other 44
def scriptErrNumberOverflow : ScriptError := .other 45
def scriptErrNumberBadEncoding : ScriptError := .other 46
def scriptErrDataRequired : ScriptError := .other 48
def scriptErrBadOperationOnType : ScriptError := .other 103

/-- The questions that opcodes ask about the spending transaction. -/
structure BaseSignatureChecker where
  checkSig : Bytes → Bytes → CScript → Bool
  checkLockTime : ℤ → Bool
  checkSequence : ℤ → Bool

structure ScriptImportedState where
  checker : Option BaseSignatureChecker

/-- Only byte vectors have data; numbers do not. -/
def itemData : StackItem → Except ScriptError Bytes
  | .vch data => return data
  | .bigNum _ => throw scriptErrBadOperationOnType

lemma itemData_eq_ok {item : StackItem} {data : Bytes} (h : itemData item = .ok data) :
    item = .vch data := by
  cases item with
  | vch d => exact congrArg StackItem.vch (Except.ok.inj h)
  | bigNum _ => cases h

/-- The value of an item at the end of a script. Zero may be negative. -/
def itemBool : StackItem → Bool
  | .vch data => !(data.all (· == 0) ||
      (data.dropLast.all (· == 0) && data.getLast? == some 0x80))
  | .bigNum n => decide (n ≠ 0)

def vchTrue : StackItem := .vch [1]
def vchFalse : StackItem := .vch []

def pushItem (m : ScriptMachine) (item : StackItem) : ScriptMachine :=
  { m with stack := m.stack ++ [item] }

/-- The top of the stack and the machine without it. -/
def popItem (m : ScriptMachine) : Except ScriptError (StackItem × ScriptMachine) :=
  match m.stack.getLast? with
  | none => throw scriptErrInvalidStackOperation
  | some item => return (item, { m with stack := m.stack.dropLast })

@[simp] theorem popItem_pushItem (m : ScriptMachine) (item : StackItem) :
    popItem (pushItem m item) = .ok (item, m) := by
  simp [popItem, pushItem]
  rfl

/-- A number is encoded without superfluous bytes. -/
def isMinimallyEncoded (vch : Bytes) (maxIntegerSize : ℕ) : Bool :=
  if maxIntegerSize < vch.length then false
  else
    match vch.getLast? with
    | none => true
    | some last =>
      if last &&& 0x7f = 0 then
        match vch.dropLast.getLast? with
        | none => false
        | some second => second &&& 0x80 != 0
      else true

/-- The number that a vector of at most eight bytes stands for: its highest bit is the sign. -/
def setVch (vch : Bytes) : ℤ :=
  match vch.getLast? with
  | none => 0
  | some last =>
    if last &&& 0x80 ≠ 0 then -(ofLeBytes (vch.dropLast ++ [last &&& 0x7f]) : ℤ)
    else ofLeBytes vch

def scriptNum (vch : Bytes) (fRequireMinimal : Bool) (nMaxNumSize : ℕ) : Except ScriptError ℤ :=
  if nMaxNumSize < vch.length then throw scriptErrNumberOverflow
  else if fRequireMinimal && !isMinimallyEncoded vch nMaxNumSize then
    throw scriptErrNumberBadEncoding
  else return setVch vch

/-- The size bytes of a push and the data. -/
def serializeVector (b : Bytes) : Bytes :=
  if b.length < 0x4c then UInt8.ofNat b.length :: b
  else if b.length ≤ 0xff then opPushData1 :: UInt8.ofNat b.length :: b
  else if b.length ≤ 0xffff then opPushData2 :: (leBytes 2 b.length ++ b)
  else opPushData4 :: (leBytes 4 b.length ++ b)

/-- The shortest script that pushes the data. -/
def pushVector (b : Bytes) : CScript :=
  match b with
  | [] => [op0]
  | [v] =>
    if 1 ≤ v ∧ v ≤ 16 then [0x50 + v]
    else if v = 0x81 then [op1Negate]
    else serializeVector b
  | _ => serializeVector b

lemma length_serializeVector (b : Bytes) :
    b.length < (serializeVector b).length ∧ (serializeVector b).length ≤ b.length + 5 := by
  unfold serializeVector
  split_ifs <;> simp only [List.length_cons, List.length_append, length_leBytes] <;> omega

lemma length_pushVector (b : Bytes) :
    b.length ≤ (pushVector b).length ∧ (pushVector b).length ≤ b.length + 5 := by
  have hlong := length_serializeVector b
  unfold pushVector
  split
  · simp
  · split_ifs
    · simp
    · simp
    · exact ⟨hlong.1.le, hlong.2⟩
  · exact ⟨hlong.1.le, hlong.2⟩

lemma length_lt_pushVector {b : Bytes} (h : 2 ≤ b.length) : b.length < (pushVector b).length := by
  match b with
  | _ :: _ :: _ => exact (length_serializeVector _).1

lemma getOp_serializeVector {b rest : Bytes} (hfits : (b ++ rest).length < 2 ^ 32) :
    ∃ opcode ≤ opPushData4, getOp (serializeVector b ++ rest) = some (opcode, b, rest) := by
  have hb : b.length < 2 ^ 32 := by
    rw [List.length_append] at hfits
    omega
  unfold serializeVector
  split_ifs with h1 h2 h3
  · have hn : (UInt8.ofNat b.length).toNat = b.length :=
      UInt8.toNat_ofNat_of_lt (h1.trans (by decide))
    have hlt : UInt8.ofNat b.length < opPushData1 := UInt8.lt_iff_toNat_lt.mpr (hn.trans_lt h1)
    have hle := UInt8.le_of_lt (UInt8.lt_trans hlt (by decide : opPushData1 < opPushData4))
    refine ⟨_, hle, getOp_of_pushSize hle ?_ hfits⟩
    rw [pushSize, if_pos hlt, hn]
    rfl
  · have hone : leBytes 1 b.length = [UInt8.ofNat b.length] := by
      rw [leBytes, Nat.mod_eq_of_lt (by omega), leBytes]
    refine ⟨opPushData1, by decide, getOp_of_pushSize (by decide) ?_ hfits⟩
    have hsize := pushSize_leBytes 1 (by decide : ¬ opPushData1 < opPushData1) rfl
      (by omega : b.length < 256 ^ 1) (b ++ rest)
    rw [hone] at hsize
    exact hsize
  · refine ⟨opPushData2, by decide, ?_⟩
    exact getOp_of_pushSize (by decide)
      (pushSize_leBytes 2 (by decide) rfl (by omega) (b ++ rest)) hfits
  · refine ⟨opPushData4, by decide, ?_⟩
    exact getOp_of_pushSize (by decide)
      (pushSize_leBytes 4 (by decide) rfl (by omega) (b ++ rest)) hfits

/-- An instruction that pushes the data. -/
structure Pushes (i : Instruction) (b : Bytes) : Prop where
  push : i.opcode ≤ op16
  notReserved : i.opcode ≠ opReserved
  length : i.data.length ≤ b.length
  data : pushedData i = b

lemma pushes_small (v : UInt8) (h : 1 ≤ v ∧ v ≤ 16) (next : Bytes) :
    opPushData4 < 0x50 + v ∧ Pushes ⟨0x50 + v, [], next⟩ [v] := by
  have hall : ∀ n : Fin 256, 1 ≤ UInt8.ofNat n ∧ UInt8.ofNat n ≤ 16 →
      opPushData4 < 0x50 + UInt8.ofNat n ∧ 0x50 + UInt8.ofNat n ≤ op16 ∧
        0x50 + UInt8.ofNat n ≠ opReserved ∧
        serializeNum (((0x50 + UInt8.ofNat n).toNat : ℤ) - 0x50) = [UInt8.ofNat n] := by
    decide +kernel
  have hv := hall ⟨v.toNat, v.toNat_lt⟩
  simp only [UInt8.ofNat_toNat] at hv
  obtain ⟨hlarge, hpush, hreserved, hnum⟩ := hv h
  refine ⟨hlarge, hpush, hreserved, Nat.zero_le _, ?_⟩
  rw [pushedData, if_neg (UInt8.not_le.mpr hlarge), hnum]

lemma pushes_negate (next : Bytes) : Pushes ⟨op1Negate, [], next⟩ [0x81] := by
  have hpush : op1Negate ≤ op16 ∧ op1Negate ≠ opReserved := by decide
  have hdata : (if op1Negate ≤ opPushData4 then []
      else serializeNum ((op1Negate.toNat : ℤ) - 0x50)) = [0x81] := by
    decide +kernel
  exact ⟨hpush.1, hpush.2, Nat.zero_le _, hdata⟩

lemma pushes_data {opcode : UInt8} (h : opcode ≤ opPushData4) (b next : Bytes) :
    Pushes ⟨opcode, b, next⟩ b := by
  refine ⟨UInt8.le_trans h (by decide), ?_, le_rfl, if_pos h⟩
  intro hreserved
  change opcode = opReserved at hreserved
  rw [hreserved] at h
  exact absurd h (by decide)

/-- The shortest push of the data is read as an instruction that pushes it. -/
lemma getOp_pushVector {b rest : Bytes} (hfits : (b ++ rest).length < 2 ^ 32) :
    ∃ opcode data, getOp (pushVector b ++ rest) = some (opcode, data, rest) ∧
      Pushes ⟨opcode, data, rest⟩ b := by
  have hlong : ∃ opcode data, getOp (serializeVector b ++ rest) = some (opcode, data, rest) ∧
      Pushes ⟨opcode, data, rest⟩ b := by
    obtain ⟨opcode, hop, hget⟩ := getOp_serializeVector hfits
    exact ⟨opcode, b, hget, pushes_data hop b rest⟩
  match b with
  | [] => exact ⟨op0, [], getOp_of_pushSize (by decide) rfl hfits, pushes_data (by decide) [] rest⟩
  | [v] =>
    rw [pushVector]
    split_ifs with hsmall hneg
    · obtain ⟨hlarge, hpushes⟩ := pushes_small v hsmall rest
      exact ⟨0x50 + v, [], getOp_of_lt hlarge rest, hpushes⟩
    · subst hneg
      exact ⟨op1Negate, [], getOp_of_lt (by decide) rest, pushes_negate rest⟩
    · exact hlong
  | _ :: _ :: _ => exact hlong

/-- A script without the copies of `b` that start at an opcode. Every round takes at least
one byte away, so the length of the script is fuel enough. -/
def deleteCopies (b : Bytes) : ℕ → Bytes → Bytes
  | 0, pc => pc
  | fuel + 1, pc =>
    if b <+: pc then deleteCopies b fuel (pc.drop b.length)
    else
      match getOp pc with
      | none => pc
      | some (_, _, rest) => pc.take (pc.length - rest.length) ++ deleteCopies b fuel rest

def findAndDelete (script b : Bytes) : CScript :=
  if b = [] then script else deleteCopies b script.length script

lemma findAndDelete_of_length_lt {script b : Bytes} (h : script.length < b.length) :
    findAndDelete script b = script := by
  have hcopies : ∀ fuel pc, pc.length < b.length → deleteCopies b fuel pc = pc := by
    intro fuel
    induction fuel with
    | zero => exact fun _ _ => rfl
    | succ fuel ih =>
      intro pc hpc
      have hpre : ¬ b <+: pc := fun hpre => by have := hpre.length_le; omega
      rw [deleteCopies, if_neg hpre]
      match hop : getOp pc with
      | none => rfl
      | some (opcode, data, rest) =>
        have hlt := length_getOp hop
        obtain ⟨front, rfl⟩ := suffix_of_getOp hop
        simp [ih rest (by omega)]
  unfold findAndDelete
  split_ifs
  · rfl
  · exact hcopies _ _ h

def checkSignatureEncoding (vchSig : Bytes) : Except ScriptError Unit :=
  if vchSig.length = 0 then return ()
  else if vchSig.length < 64 ∨ 68 < vchSig.length then throw scriptErrSigNonSchnorr
  else if !(SigHashType.fromBytes (vchSig.drop 64)).valid then throw scriptErrSigHashType
  else return ()

def isCompressedOrUncompressedPubKey (vchPubKey : Bytes) : Bool :=
  (vchPubKey.head? == some 4 && vchPubKey.length == 65) ||
    ((vchPubKey.head? == some 2 || vchPubKey.head? == some 3) && vchPubKey.length == 33)

def isCompressedPubKey (vchPubKey : Bytes) : Bool :=
  vchPubKey.length == 33 && (vchPubKey.head? == some 2 || vchPubKey.head? == some 3)

def checkPubKeyEncoding (vchPubKey : Bytes) (flags : BitVec 32) : Except ScriptError Unit :=
  if flags &&& scriptVerifyStrictEnc ≠ 0 ∧ !isCompressedOrUncompressedPubKey vchPubKey then
    throw scriptErrPubKeyType
  else if flags &&& scriptVerifyCompressedPubKeyType ≠ 0 ∧ !isCompressedPubKey vchPubKey then
    throw scriptErrNonCompressedPubKey
  else return ()

/-- A truth value is pushed, or the verify variant of an opcode asks for it. -/
def pushOrVerify (m : ScriptMachine) (verify success : Bool) (err : ScriptError) : ScriptResult :=
  if !verify then return pushItem m (if success then vchTrue else vchFalse)
  else if success then return m
  else throw err

def execFromAltStack (m : ScriptMachine) : ScriptResult :=
  match m.altstack.getLast? with
  | none => throw scriptErrInvalidAltStackOperation
  | some item => return pushItem { m with altstack := m.altstack.dropLast } item

def execDup (m : ScriptMachine) : ScriptResult := do
  let (item, _) ← popItem m
  return pushItem m item

def execHash160 (H : HashFns) (m : ScriptMachine) : ScriptResult := do
  let (item, m) ← popItem m
  let data ← itemData item
  return pushItem m (.vch (H.hash160 data).data)

/-- Items of different types are never equal. -/
def execEqual (verify : Bool) (m : ScriptMachine) : ScriptResult := do
  let (a, m) ← popItem m
  let (b, m) ← popItem m
  pushOrVerify m verify (decide (a = b)) scriptErrEqualVerify

/-- Counts a signature check unless the signature is empty. -/
def countSigCheck (m : ScriptMachine) (vchSig : Bytes) : ScriptMachine :=
  if vchSig.length ≠ 0 then
    { m with
      stats := { m.stats with consensusSigCheckCount := m.stats.consensusSigCheckCount + 1 } }
  else m

/-- Whether a signature is accepted for the code, unless the script fails for it. -/
def checkSigResult (env : ScriptEnv ScriptImportedState) (vchSig vchPubKey codeHash : Bytes) :
    Except ScriptError Bool := do
  checkSignatureEncoding vchSig
  checkPubKeyEncoding vchPubKey env.flags
  match env.sis.checker with
  | none => throw scriptErrDataRequired
  | some checker =>
    let fSuccess := checker.checkSig vchSig vchPubKey
      (findAndDelete codeHash (pushVector vchSig))
    if !fSuccess ∧ env.flags &&& scriptVerifyNullFail ≠ 0 ∧ vchSig.length ≠ 0 then
      throw scriptErrSigNullFail
    else return fSuccess

def execCheckSig (env : ScriptEnv ScriptImportedState) (verify : Bool) (m : ScriptMachine) :
    ScriptResult := do
  let (key, m) ← popItem m
  let (sig, m) ← popItem m
  let vchSig ← itemData sig
  let vchPubKey ← itemData key
  let fSuccess ← checkSigResult env vchSig vchPubKey m.codeHash
  pushOrVerify (countSigCheck m vchSig) verify fSuccess scriptErrCheckSigVerify

/-- The operand of a lock-time opcode, of at most five bytes and not negative. The operand
stays on the stack. -/
def lockTimeOperand (env : ScriptEnv ScriptImportedState) (m : ScriptMachine) :
    Except ScriptError ℤ := do
  let (item, _) ← popItem m
  let data ← itemData item
  let n ← scriptNum data (env.flags &&& scriptVerifyMinimalData != 0) 5
  if n < 0 then throw scriptErrNegativeLockTime else return n

def execCheckLockTimeVerify (env : ScriptEnv ScriptImportedState) (m : ScriptMachine) :
    ScriptResult :=
  if env.flags &&& scriptVerifyCheckLockTimeVerify = 0 then return m
  else do
    let nLockTime ← lockTimeOperand env m
    match env.sis.checker with
    | none => throw scriptErrDataRequired
    | some checker =>
      if !checker.checkLockTime nLockTime then throw scriptErrUnsatisfiedLockTime else return m

def sequenceLockTimeDisableFlag : ℕ := 2 ^ 31

/-- An operand with the disable flag makes the opcode do nothing. -/
def execCheckSequenceVerify (env : ScriptEnv ScriptImportedState) (m : ScriptMachine) :
    ScriptResult :=
  if env.flags &&& scriptVerifyCheckSequenceVerify = 0 then return m
  else do
    let nSequence ← lockTimeOperand env m
    if nSequence.toNat &&& sequenceLockTimeDisableFlag ≠ 0 then return m
    else
      match env.sis.checker with
      | none => throw scriptErrDataRequired
      | some checker =>
        if !checker.checkSequence nSequence then throw scriptErrUnsatisfiedLockTime
        else return m

/-- The opcodes above, and `rest` for the others. -/
def standardOps (H : HashFns) (rest : Opcodes ScriptImportedState) :
    Opcodes ScriptImportedState := fun env i m =>
  if i.opcode = opFromAltStack then execFromAltStack m
  else if i.opcode = opDup then execDup m
  else if i.opcode = opHash160 then execHash160 H m
  else if i.opcode = opEqual then execEqual false m
  else if i.opcode = opEqualVerify then execEqual true m
  else if i.opcode = opCheckSig then execCheckSig env false m
  else if i.opcode = opCheckSigVerify then execCheckSig env true m
  else if i.opcode = opCheckLockTimeVerify then execCheckLockTimeVerify env m
  else if i.opcode = opCheckSequenceVerify then execCheckSequenceVerify env m
  else rest env i m

end PyrrhaNode.ScriptOps
