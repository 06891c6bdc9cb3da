import Mathlib.Data.Nat.Nth
import PyrrhaNode.ScriptOps

/-!
# Multisignature checks

`OP_CHECKMULTISIG` takes keys, signatures and an item of check bits from the stack.  The set bits
choose the key of each signature in turn: a cursor moves over the bits while the signatures are
counted up.  An empty item of check bits makes the opcode push false; every other failure ends the
script.
-/
namespace PyrrhaNode.MultiSig

open List ByteCodec Serialize Transaction Interpreter ScriptOps Loop

def opCheckMultiSig : UInt8 := 0xae
def opCheckMultiSigVerify : UInt8 := 0xaf

def maxPubKeysPerMultisig : ℕ := 20

def scriptAllow64BitIntegers : BitVec 32 := 1#32 <<< 24

def scriptErrUnknownError : ScriptError := .other 1
def scriptErrSigCount : ScriptError := .other 8
def scriptErrPubKeyCount : ScriptError := .other 9
def scriptErrInvalidBitCount : ScriptError := .other 14
def scriptErrCheckMultiSigVerify : ScriptError := .other 17
def scriptErrInvalidBitfieldSize : ScriptError := .other 28
def scriptErrInvalidBitRange : ScriptError := .other 29

def decodeBitfield (vch : Bytes) (size : ℕ) : Except ScriptError ℕ :=
  if 32 < size then throw scriptErrInvalidBitfieldSize
  else if vch.length ≠ (size + 7) / 8 then throw scriptErrInvalidBitfieldSize
  else
    let bitfield := vch.zipIdx.foldl (fun bitfield p => bitfield ||| p.1.toNat <<< (8 * p.2)) 0
    if bitfield &&& (2 ^ size - 1) ≠ bitfield then throw scriptErrInvalidBitRange
    else return bitfield

/-- The number of set bits of a word. -/
def countBits (v : ℕ) : ℕ := Nat.count (fun k => v.testBit k) 32

/-- The first set bit from `iKey` on.  The loop of the source has no bound; it ends within the word
if a bit is set there. -/
def findKey (checkBits : ℕ) : ℕ → ℕ → ℕ
  | 0, iKey => iKey
  | bound + 1, iKey =>
    if checkBits >>> iKey &&& 0x01 = 0 then findKey checkBits bound (iKey + 1) else iKey

/-- How the opcode ends the script: at one of the checks that the source calls unreachable, or
elsewhere. -/
inductive MultiSigExit
  | error (e : ScriptError)
  | sanity (e : ScriptError)
  deriving DecidableEq

def MultiSigExit.scriptError : MultiSigExit → ScriptError
  | .error e => e
  | .sanity e => e

def liftError {α : Type} : Except ScriptError α → Except MultiSigExit α
  | .ok a => .ok a
  | .error e => .error (.error e)

/-- The data at depth `i`, where the top of the stack has depth one. -/
def stackTop (stack : List StackItem) (i : ℕ) : Except ScriptError Bytes :=
  if stack.length < i then throw scriptErrUnknownError
  else
    match stack[stack.length - i]? with
    | some item => itemData item
    | none => throw scriptErrUnknownError

def maxIntegerSize (flags : BitVec 32) : ℕ :=
  if flags &&& scriptAllow64BitIntegers ≠ 0 then 8 else 4

def stackNum (flags : BitVec 32) (stack : List StackItem) (i : ℕ) : Except ScriptError ℤ := do
  let vch ← stackTop stack i
  scriptNum vch (flags &&& scriptVerifyMinimalData != 0) (maxIntegerSize flags)

/-- A signature is checked against a key; unlike a single check, a failure ends the script. -/
def checkKeySig (env : ScriptEnv ScriptImportedState) (scriptCode vchSig vchPubKey : Bytes) :
    Except ScriptError Unit := do
  checkSignatureEncoding vchSig
  checkPubKeyEncoding vchPubKey env.flags
  match env.sis.checker with
  | none => throw scriptErrDataRequired
  | some checker =>
    if !checker.checkSig vchSig vchPubKey scriptCode then throw scriptErrCheckMultiSigVerify
    else return ()

/-- One signature: the cursor moves to the key that is checked. -/
def sigRound (env : ScriptEnv ScriptImportedState) (m : ScriptMachine)
    (nKeysCount idxBottomSig idxBottomKey checkBits iSig iKey : ℕ) : Except MultiSigExit ℕ :=
  if checkBits >>> iKey = 0 then .error (.sanity scriptErrInvalidBitRange)
  else
    let iKey := findKey checkBits 32 iKey
    if nKeysCount ≤ iKey then .error (.sanity scriptErrPubKeyCount)
    else liftError do
      let vchSig ← stackTop m.stack (idxBottomSig - iSig)
      let vchPubKey ← stackTop m.stack (idxBottomKey - iKey)
      checkKeySig env m.codeHash vchSig vchPubKey
      return iKey

/-- The loop over the signatures that are left. -/
def sigLoop (env : ScriptEnv ScriptImportedState) (m : ScriptMachine)
    (nKeysCount idxBottomSig idxBottomKey checkBits : ℕ) : ℕ → ℕ → ℕ → Except MultiSigExit ℕ
  | 0, _, iKey => .ok iKey
  | left + 1, iSig, iKey => do
    let iKey ← sigRound env m nKeysCount idxBottomSig idxBottomKey checkBits iSig iKey
    sigLoop env m nKeysCount idxBottomSig idxBottomKey checkBits left (iSig + 1) (iKey + 1)

/-- Whether the signatures are accepted.  The last check of the source cannot fail, since the
success it asks about is set at the start. -/
def checkSigs (env : ScriptEnv ScriptImportedState) (m : ScriptMachine) (nKeysCount nSigsCount : ℕ)
    (vchDummy : Bytes) : Except MultiSigExit Bool :=
  if vchDummy.length = 0 then return false
  else do
    let fSuccess := true
    let checkBits ← liftError (decodeBitfield vchDummy nKeysCount)
    if countBits checkBits ≠ nSigsCount then throw (.error scriptErrInvalidBitCount)
    let iKey ← sigLoop env m nKeysCount (nKeysCount + nSigsCount + 2) (nKeysCount + 1) checkBits
      nSigsCount 0 0
    if checkBits >>> iKey ≠ 0 then throw (.sanity scriptErrInvalidBitCount)
    if !fSuccess ∧ env.flags &&& scriptVerifyNullFail ≠ 0 then throw (.error scriptErrSigNullFail)
    return fSuccess

/-- The machine after the arguments are removed, with the checks counted. -/
def popArgs (m : ScriptMachine) (nKeysCount nSigsCount : ℕ) (vchDummy : Bytes) : ScriptMachine :=
  { m with
    stack := m.stack.take (m.stack.length - (nKeysCount + nSigsCount + 3))
    stats := { m.stats with
      nOpCount := m.stats.nOpCount + nKeysCount
      consensusSigCheckCount := m.stats.consensusSigCheckCount +
        if vchDummy.length = 0 then 0 else nSigsCount } }

/-- The counts of keys and signatures and the item of check bits. -/
def readArgs (env : ScriptEnv ScriptImportedState) (m : ScriptMachine) :
    Except ScriptError (ℕ × ℕ × Bytes) :=
  if m.stack.length < 1 then throw scriptErrInvalidStackOperation
  else do
    let nKeysCount ← stackNum env.flags m.stack 1
    if nKeysCount < 0 ∨ maxPubKeysPerMultisig < nKeysCount then throw scriptErrPubKeyCount
    else if env.maxOps < m.stats.nOpCount + nKeysCount.toNat then throw .opCount
    else if m.stack.length < nKeysCount.toNat + 2 then throw scriptErrInvalidStackOperation
    else do
      let nSigsCount ← stackNum env.flags m.stack (nKeysCount.toNat + 2)
      if nSigsCount < 0 ∨ nKeysCount < nSigsCount then throw scriptErrSigCount
      else if m.stack.length < nKeysCount.toNat + nSigsCount.toNat + 3 then
        throw scriptErrInvalidStackOperation
      else do
        let vchDummy ← stackTop m.stack (nKeysCount.toNat + nSigsCount.toNat + 3)
        return (nKeysCount.toNat, nSigsCount.toNat, vchDummy)

def execCheckMultiSig (env : ScriptEnv ScriptImportedState) (verify : Bool) (m : ScriptMachine) :
    Except MultiSigExit ScriptMachine := do
  let (nKeysCount, nSigsCount, vchDummy) ← liftError (readArgs env m)
  let fSuccess ← checkSigs env m nKeysCount nSigsCount vchDummy
  liftError (pushOrVerify (popArgs m nKeysCount nSigsCount vchDummy) verify fSuccess
    scriptErrCheckMultiSigVerify)

def multiSigOps (rest : Opcodes ScriptImportedState) : Opcodes ScriptImportedState := fun env i m =>
  if i.opcode = opCheckMultiSig then (execCheckMultiSig env false m).mapError (·.scriptError)
  else if i.opcode = opCheckMultiSigVerify then
    (execCheckMultiSig env true m).mapError (·.scriptError)
  else rest env i m

/-- An item that stands for the bits of so many keys. -/
structure IsBitfield (vch : Bytes) (size bits : ℕ) : Prop where
  length_eq : vch.length = (size + 7) / 8
  value_eq : ofLeBytes vch = bits
  lt : bits < 2 ^ size

variable (vch : Bytes) {size : ℕ}

lemma foldl_bitfield :
    vch.zipIdx.foldl (fun bitfield p => bitfield ||| p.1.toNat <<< (8 * p.2)) 0 =
      ofLeBytes vch := by
  induction vch using List.reverseRecOn with
  | nil => rfl
  | append_singleton vch b ih =>
    have hlt : ofLeBytes vch < 2 ^ (8 * vch.length) := by
      rw [Nat.pow_mul]
      exact ofLeBytes_lt vch
    rw [zipIdx_append, foldl_append, ih, ofLeBytes_append_singleton]
    simp only [zipIdx_singleton, Nat.zero_add, foldl_cons, foldl_nil]
    rw [Nat.or_comm, ← Nat.shiftLeft_add_eq_or_of_lt hlt, Nat.add_comm]

lemma decodeBitfield_eq_ok_iff {vch : Bytes} {bits : ℕ} (hsize : size ≤ 32) :
    decodeBitfield vch size = .ok bits ↔ IsBitfield vch size bits := by
  rw [decodeBitfield, if_neg (by omega), ite_throw_eq_ok]
  simp only [foldl_bitfield]
  rw [ite_throw_eq_ok, not_not, not_not, Nat.and_two_pow_sub_one_eq_mod]
  constructor
  · rintro ⟨hlength, hrange, hok⟩
    obtain rfl := Except.ok.inj hok
    exact ⟨hlength, rfl, hrange ▸ Nat.mod_lt _ (Nat.two_pow_pos _)⟩
  · rintro ⟨hlength, rfl, hlt⟩
    exact ⟨hlength, Nat.mod_eq_of_lt hlt, rfl⟩

lemma decodeBitfield_cases (hsize : size ≤ 32) :
    (∃ bits, decodeBitfield vch size = .ok bits ∧ IsBitfield vch size bits) ∨
      (∃ e, decodeBitfield vch size = .error e) ∧ ∀ bits, ¬IsBitfield vch size bits := by
  cases hdecode : decodeBitfield vch size with
  | ok bits => exact Or.inl ⟨bits, rfl, (decodeBitfield_eq_ok_iff hsize).mp hdecode⟩
  | error e =>
    refine Or.inr ⟨⟨e, rfl⟩, fun bits hbits => ?_⟩
    rw [(decodeBitfield_eq_ok_iff hsize).mpr hbits] at hdecode
    cases hdecode

section Cursor

variable {bits iKey : ℕ}

lemma testBit_iff_and_one : bits.testBit iKey = true ↔ ¬bits >>> iKey &&& 0x01 = 0 := by
  rw [Nat.testBit]
  simp

lemma findKey_spec {bound k : ℕ} (hset : bits.testBit k = true) (hlow : iKey ≤ k)
    (hhigh : k < iKey + bound) :
    bits.testBit (findKey bits bound iKey) = true ∧
      Nat.count (fun k => bits.testBit k) (findKey bits bound iKey) =
        Nat.count (fun k => bits.testBit k) iKey := by
  induction bound generalizing iKey with
  | zero => omega
  | succ bound ih =>
    rw [findKey]
    split_ifs with hzero
    · have hclear : ¬bits.testBit iKey = true := fun hbit => testBit_iff_and_one.mp hbit hzero
      have hne : iKey ≠ k := fun heq => hclear (heq ▸ hset)
      obtain ⟨hbit, hcount⟩ := @ih (iKey + 1) (by omega) (by omega)
      refine ⟨hbit, ?_⟩
      rw [hcount, Nat.count_succ, if_neg hclear, Nat.add_zero]
    · exact ⟨testBit_iff_and_one.mpr hzero, rfl⟩

lemma exists_testBit_of_count_lt (h : Nat.count (fun k => bits.testBit k) iKey < countBits bits) :
    ∃ k, iKey ≤ k ∧ k < 32 ∧ bits.testBit k = true := by
  by_contra hnone
  push Not at hnone
  have hle : countBits bits ≤ Nat.count (fun k => bits.testBit k) iKey := by
    rcases Nat.le_total 32 iKey with hk | hk
    · exact Nat.count_monotone _ hk
    obtain ⟨d, hd⟩ := Nat.exists_eq_add_of_le hk
    rw [countBits, hd, Nat.count_add]
    have hzero : Nat.count (fun k => bits.testBit (iKey + k) = true) d = 0 := by
      rw [Nat.count_iff_forall_not]
      exact fun k hk => hnone (iKey + k) (Nat.le_add_right _ _) (by omega)
    rw [hzero, Nat.add_zero]
  omega

lemma shiftRight_eq_zero_of_count (hlt : bits < 2 ^ 32)
    (h : Nat.count (fun k => bits.testBit k) iKey = countBits bits) : bits >>> iKey = 0 := by
  apply Nat.eq_of_testBit_eq
  intro j
  rw [Nat.testBit_shiftRight, Nat.zero_testBit, Bool.eq_false_iff]
  intro hset
  have hword : iKey + j < 32 := by
    by_contra hge
    rw [Nat.testBit_lt_two_pow (hlt.trans_le (Nat.pow_le_pow_right (by decide) (by omega)))] at hset
    cases hset
  have hstrict := Nat.count_strict_mono (p := fun k => bits.testBit k = true) hset hword
  have hmono := Nat.count_monotone (fun k => bits.testBit k = true) (Nat.le_add_right iKey j)
  rw [countBits] at h
  omega

end Cursor

/-- The arguments of the opcode: check bits, signatures and keys with their counts, the bottom of
each group first, over the rest of the stack. -/
structure MultiSigArgs (flags : BitVec 32) where
  below : List StackItem
  checkBits : StackItem
  sigs : List StackItem
  sigCount : Bytes
  keys : List StackItem
  keyCount : Bytes
  keyCount_eq : scriptNum keyCount (flags &&& scriptVerifyMinimalData != 0)
    (maxIntegerSize flags) = .ok keys.length
  sigCount_eq : scriptNum sigCount (flags &&& scriptVerifyMinimalData != 0)
    (maxIntegerSize flags) = .ok sigs.length
  keys_le : keys.length ≤ maxPubKeysPerMultisig
  sigs_le : sigs.length ≤ keys.length

lemma stackTop_middle {stack front middle back : List StackItem} {item : StackItem} {i depth : ℕ}
    (hstack : stack = front ++ (middle ++ back)) (hitem : middle[i]? = some item)
    (hdepth : depth + i = middle.length + back.length) : stackTop stack depth = itemData item := by
  obtain ⟨hi, -⟩ := List.getElem?_eq_some_iff.mp hitem
  have hlength : stack.length = front.length + (middle.length + back.length) := by
    rw [hstack, length_append, length_append]
  have hat : stack[stack.length - depth]? = some item := by
    have hindex : stack.length - depth = front.length + i := by omega
    rw [hindex, hstack, List.getElem?_append_right (by omega), Nat.add_sub_cancel_left,
      List.getElem?_append_left hi, hitem]
  rw [stackTop, if_neg (by omega), hat]

namespace MultiSigArgs

variable {flags : BitVec 32} (args : MultiSigArgs flags)

def stack : List StackItem :=
  args.below ++ (args.checkBits :: (args.sigs ++ (.vch args.sigCount :: (args.keys ++
    [.vch args.keyCount]))))

lemma length_stack :
    args.stack.length = args.below.length + (args.keys.length + args.sigs.length + 3) := by
  simp only [stack, length_append, length_cons, length_nil]
  omega

lemma take_stack :
    args.stack.take (args.stack.length - (args.keys.length + args.sigs.length + 3)) =
      args.below := by
  rw [args.length_stack, Nat.add_sub_cancel]
  exact take_left

lemma stackNum_keyCount : stackNum flags args.stack 1 = .ok args.keys.length := by
  have hstack : args.stack = (args.below ++ args.checkBits :: (args.sigs ++
      .vch args.sigCount :: args.keys)) ++ ([.vch args.keyCount] ++ []) := by simp [stack]
  have htop : stackTop args.stack 1 = .ok args.keyCount := stackTop_middle hstack (i := 0) rfl rfl
  rw [stackNum, htop]
  exact args.keyCount_eq

lemma stackNum_sigCount :
    stackNum flags args.stack (args.keys.length + 2) = .ok args.sigs.length := by
  have hstack : args.stack = (args.below ++ args.checkBits :: args.sigs) ++
      ([.vch args.sigCount] ++ (args.keys ++ [.vch args.keyCount])) := by simp [stack]
  rw [stackNum, stackTop_middle hstack (i := 0) rfl (by simp; omega)]
  exact args.sigCount_eq

lemma stackTop_checkBits :
    stackTop args.stack (args.keys.length + args.sigs.length + 3) = itemData args.checkBits := by
  have hstack : args.stack = args.below ++ ([args.checkBits] ++ (args.sigs ++
      .vch args.sigCount :: (args.keys ++ [.vch args.keyCount]))) := by simp [stack]
  exact stackTop_middle hstack (i := 0) rfl (by simp; omega)

lemma stackTop_sig {i : ℕ} {sig : StackItem} (h : args.sigs[i]? = some sig) :
    stackTop args.stack (args.keys.length + args.sigs.length + 2 - i) = itemData sig := by
  obtain ⟨hi, -⟩ := List.getElem?_eq_some_iff.mp h
  have hstack : args.stack = (args.below ++ [args.checkBits]) ++ (args.sigs ++
      .vch args.sigCount :: (args.keys ++ [.vch args.keyCount])) := by simp [stack]
  exact stackTop_middle hstack h (by simp; omega)

lemma stackTop_key {k : ℕ} {key : StackItem} (h : args.keys[k]? = some key) :
    stackTop args.stack (args.keys.length + 1 - k) = itemData key := by
  obtain ⟨hk, -⟩ := List.getElem?_eq_some_iff.mp h
  have hstack : args.stack = (args.below ++ args.checkBits :: (args.sigs ++
      [.vch args.sigCount])) ++ (args.keys ++ [.vch args.keyCount]) := by simp [stack]
  exact stackTop_middle hstack h (by simp; omega)

end MultiSigArgs

/-- A signature is accepted for a key. -/
def Verifies (env : ScriptEnv ScriptImportedState) (scriptCode : CScript) (sig key : StackItem) :
    Prop :=
  ∃ vchSig vchPubKey, sig = .vch vchSig ∧ key = .vch vchPubKey ∧
    checkSignatureEncoding vchSig = .ok () ∧ checkPubKeyEncoding vchPubKey env.flags = .ok () ∧
    ∃ checker, env.sis.checker = some checker ∧
      checker.checkSig vchSig vchPubKey scriptCode = true

variable {env : ScriptEnv ScriptImportedState} {m : ScriptMachine}

lemma checkKeySig_eq_ok_iff {scriptCode vchSig vchPubKey : Bytes} :
    checkKeySig env scriptCode vchSig vchPubKey = .ok () ↔
      checkSignatureEncoding vchSig = .ok () ∧ checkPubKeyEncoding vchPubKey env.flags = .ok () ∧
      ∃ checker, env.sis.checker = some checker ∧
        checker.checkSig vchSig vchPubKey scriptCode = true := by
  simp only [checkKeySig, bind_eq_ok, Unique.exists_iff]
  refine and_congr_right fun _ => and_congr_right fun _ => ?_
  cases env.sis.checker with
  | none => simp
  | some checker =>
    simp only [ite_throw_eq_ok, Bool.not_eq_true', Bool.not_eq_false, Option.some.injEq,
      exists_eq_left']
    exact and_iff_left rfl

/-- The check of two items. -/
def checkItems (env : ScriptEnv ScriptImportedState) (scriptCode : CScript) (sig key : StackItem) :
    Except ScriptError Unit := do
  let vchSig ← itemData sig
  let vchPubKey ← itemData key
  checkKeySig env scriptCode vchSig vchPubKey

lemma checkItems_eq_ok_iff {scriptCode : CScript} {sig key : StackItem} :
    checkItems env scriptCode sig key = .ok () ↔ Verifies env scriptCode sig key := by
  rw [checkItems, bind_eq_ok]
  constructor
  · rintro ⟨vchSig, hsig, hrest⟩
    obtain ⟨vchPubKey, hkey, hcheck⟩ := bind_eq_ok.mp hrest
    exact ⟨vchSig, vchPubKey, itemData_eq_ok hsig, itemData_eq_ok hkey,
      checkKeySig_eq_ok_iff.mp hcheck⟩
  · rintro ⟨vchSig, vchPubKey, rfl, rfl, hcheck⟩
    exact ⟨vchSig, rfl, checkKeySig_eq_ok_iff.mpr hcheck⟩

section Signatures

variable (args : MultiSigArgs env.flags) {bits iSig iKey : ℕ}

/-- Signature `i`, counted from the bottom, is accepted for the key at the set bit `i`. -/
def SigVerifies (env : ScriptEnv ScriptImportedState) (scriptCode : CScript)
    (args : MultiSigArgs env.flags) (bits i : ℕ) : Prop :=
  ∀ sig, args.sigs[i]? = some sig →
    ∃ key, args.keys[Nat.nth (fun k => bits.testBit k = true) i]? = some key ∧
      Verifies env scriptCode sig key

/-- A round of the loop checks the signature against the key at its set bit; the two checks
before it do not fail. -/
lemma sigRound_eq {sig : StackItem} (hstack : m.stack = args.stack)
    (hlt : bits < 2 ^ args.keys.length) (hbits : countBits bits = args.sigs.length)
    (hsig : args.sigs[iSig]? = some sig)
    (hcount : Nat.count (fun k => bits.testBit k = true) iKey = iSig) :
    ∃ k key, Nat.nth (fun k => bits.testBit k = true) iSig = k ∧
      Nat.count (fun k => bits.testBit k = true) (k + 1) = iSig + 1 ∧
      args.keys[k]? = some key ∧
      sigRound env m args.keys.length (args.keys.length + args.sigs.length + 2)
          (args.keys.length + 1) bits iSig iKey =
        liftError (do checkItems env m.codeHash sig key; return k) := by
  obtain ⟨hiSig, -⟩ := List.getElem?_eq_some_iff.mp hsig
  have hfew : Nat.count (fun k => bits.testBit k = true) iKey < countBits bits := by omega
  obtain ⟨j, hlow, hword, hset⟩ := exists_testBit_of_count_lt hfew
  obtain ⟨hkey, hsame⟩ := findKey_spec hset hlow (show j < iKey + 32 by omega)
  have hahead : bits >>> iKey ≠ 0 := by
    intro hzero
    have hbit : (bits >>> iKey).testBit (j - iKey) = true := by
      rw [Nat.testBit_shiftRight, Nat.add_sub_cancel' hlow, hset]
    rw [hzero, Nat.zero_testBit] at hbit
    cases hbit
  have hrange : findKey bits 32 iKey < args.keys.length := by
    by_contra hge
    rw [Nat.testBit_lt_two_pow (hlt.trans_le (Nat.pow_le_pow_right (by decide) (by omega)))] at hkey
    cases hkey
  rw [hcount] at hsame
  have hkeyAt := List.getElem?_eq_getElem hrange
  refine ⟨findKey bits 32 iKey, args.keys[findKey bits 32 iKey], ?_, ?_, hkeyAt, ?_⟩
  · rw [← hsame, Nat.nth_count hkey]
  · rw [Nat.count_succ, hsame, if_pos hkey]
  · rw [sigRound, if_neg hahead]
    rw [if_neg (by omega), hstack, args.stackTop_sig hsig, args.stackTop_key hkeyAt, checkItems]
    simp only [bind_assoc]

/-- The loop ends behind the last set bit if all signatures that are left are accepted, and ends the
script otherwise. -/
lemma sigLoop_cases (hstack : m.stack = args.stack) (hlt : bits < 2 ^ args.keys.length)
    (hbits : countBits bits = args.sigs.length) {left : ℕ} (hleft : iSig + left = args.sigs.length)
    (hcount : Nat.count (fun k => bits.testBit k = true) iKey = iSig) :
    (∃ iKey', sigLoop env m args.keys.length (args.keys.length + args.sigs.length + 2)
          (args.keys.length + 1) bits left iSig iKey = .ok iKey' ∧
        Nat.count (fun k => bits.testBit k = true) iKey' = args.sigs.length ∧
        ∀ i, iSig ≤ i → SigVerifies env m.codeHash args bits i) ∨
      (∃ e, sigLoop env m args.keys.length (args.keys.length + args.sigs.length + 2)
          (args.keys.length + 1) bits left iSig iKey = .error (.error e)) ∧
        ¬∀ i, iSig ≤ i → SigVerifies env m.codeHash args bits i := by
  induction left generalizing iSig iKey with
  | zero =>
    refine Or.inl ⟨iKey, rfl, by omega, ?_⟩
    intro i hi sig hsig
    obtain ⟨hlength, -⟩ := List.getElem?_eq_some_iff.mp hsig
    omega
  | succ left ih =>
    have hsig := List.getElem?_eq_getElem (show iSig < args.sigs.length by omega)
    obtain ⟨k, key, hnth, hnext, hkey, hround⟩ := sigRound_eq args hstack hlt hbits hsig hcount
    rw [sigLoop, hround]
    cases hcheck : checkItems env m.codeHash args.sigs[iSig] key with
    | error e =>
      refine Or.inr ⟨⟨e, rfl⟩, fun hall => ?_⟩
      obtain ⟨key', hkey', hverifies⟩ := hall iSig (le_refl _) _ hsig
      rw [hnth, hkey, Option.some.injEq] at hkey'
      rw [← hkey', ← checkItems_eq_ok_iff, hcheck] at hverifies
      cases hverifies
    | ok u =>
      have hverifies : SigVerifies env m.codeHash args bits iSig := by
        intro sig hsig'
        rw [hsig, Option.some.injEq] at hsig'
        rw [hnth, ← hsig']
        exact ⟨key, hkey, checkItems_eq_ok_iff.mp hcheck⟩
      rcases ih (by omega) hnext with ⟨iKey', hloop, hend, hrest⟩ | ⟨⟨e, hloop⟩, hrest⟩
      · refine Or.inl ⟨iKey', hloop, hend, ?_⟩
        intro i hi
        rcases Nat.eq_or_lt_of_le hi with rfl | hi
        · exact hverifies
        · exact hrest i hi
      · exact Or.inr ⟨⟨e, hloop⟩, fun hall => hrest fun i hi => hall i (by omega)⟩

/-- The item of check bits chooses keys for which all signatures are accepted. -/
def Accepts (env : ScriptEnv ScriptImportedState) (scriptCode : CScript)
    (args : MultiSigArgs env.flags) : Prop :=
  ∃ vchDummy bits, args.checkBits = .vch vchDummy ∧ IsBitfield vchDummy args.keys.length bits ∧
    countBits bits = args.sigs.length ∧ ∀ i, SigVerifies env scriptCode args bits i

/-- An item of check bits that is not empty is accepted or ends the script. -/
lemma checkSigs_cases {vchDummy : Bytes} (hstack : m.stack = args.stack)
    (hdummy : args.checkBits = .vch vchDummy) (hne : vchDummy ≠ []) :
    checkSigs env m args.keys.length args.sigs.length vchDummy = .ok true ∧
        Accepts env m.codeHash args ∨
      (∃ e, checkSigs env m args.keys.length args.sigs.length vchDummy = .error (.error e)) ∧
        ¬Accepts env m.codeHash args := by
  have hkeys : args.keys.length ≤ 20 := args.keys_le
  have hempty : vchDummy.length ≠ 0 := by rwa [ne_eq, length_eq_zero_iff]
  rw [checkSigs, if_neg hempty]
  rcases decodeBitfield_cases vchDummy (show args.keys.length ≤ 32 by omega) with
    ⟨bits, hdecode, hfield⟩ | ⟨⟨e, hdecode⟩, hfield⟩
  · have haccepts : Accepts env m.codeHash args ↔ countBits bits = args.sigs.length ∧
        ∀ i, SigVerifies env m.codeHash args bits i := by
      constructor
      · rintro ⟨vch, bits', hvch, hfield', hrest⟩
        obtain rfl : vchDummy = vch := StackItem.vch.inj (hdummy.symm.trans hvch)
        obtain rfl : bits = bits' := hfield.value_eq.symm.trans hfield'.value_eq
        exact hrest
      · exact fun hrest => ⟨vchDummy, bits, hdummy, hfield, hrest⟩
    rw [hdecode, haccepts]
    by_cases hbits : countBits bits = args.sigs.length
    swap
    · simp [liftError, hbits, bind, Except.bind, throw, throwThe, MonadExceptOf.throw]
    have hword : bits < 2 ^ 32 :=
      hfield.lt.trans_le (Nat.pow_le_pow_right (by decide) (by omega))
    rcases sigLoop_cases args hstack hfield.lt hbits (Nat.zero_add _) (Nat.count_zero _) with
      ⟨iKey, hloop, hcount, hall⟩ | ⟨⟨e, hloop⟩, hall⟩
    · refine Or.inl ⟨?_, hbits, fun i => hall i (Nat.zero_le i)⟩
      have hend := shiftRight_eq_zero_of_count hword (hcount.trans hbits.symm)
      simp [liftError, hbits, hloop, hend, bind, Except.bind, pure, Except.pure]
    · refine Or.inr ⟨⟨e, ?_⟩, fun hrest => hall fun i _ => hrest.2 i⟩
      simp [liftError, hbits, hloop, bind, Except.bind]
  · refine Or.inr ⟨⟨e, by rw [hdecode]; rfl⟩, ?_⟩
    rintro ⟨vch, bits, hvch, hfield', -⟩
    obtain rfl : vchDummy = vch := StackItem.vch.inj (hdummy.symm.trans hvch)
    exact hfield bits hfield'

end Signatures

section Outcome

variable (args : MultiSigArgs env.flags) {stack : List StackItem}

/-- The arguments are read unless the keys exceed the limit for operations. -/
lemma readArgs_of_args (hstack : m.stack = args.stack) :
    readArgs env m =
      if env.maxOps < m.stats.nOpCount + args.keys.length then .error .opCount
      else do
        let vchDummy ← itemData args.checkBits
        return (args.keys.length, args.sigs.length, vchDummy) := by
  have hlength := args.length_stack
  have hkeys : (args.keys.length : ℤ) ≤ maxPubKeysPerMultisig := Int.ofNat_le.mpr args.keys_le
  have hsigs : (args.sigs.length : ℤ) ≤ args.keys.length := Int.ofNat_le.mpr args.sigs_le
  rw [readArgs, hstack, if_neg (by omega), args.stackNum_keyCount]
  show (if (args.keys.length : ℤ) < 0 ∨ (maxPubKeysPerMultisig : ℤ) < args.keys.length then _
    else _) = _
  rw [if_neg (by omega), Int.toNat_natCast]
  split_ifs with hops hshort
  · rfl
  · omega
  · rw [args.stackNum_sigCount]
    show (if (args.sigs.length : ℤ) < 0 ∨ (args.keys.length : ℤ) < args.sigs.length then _
      else _) = _
    rw [if_neg (by omega), Int.toNat_natCast, if_neg (by omega), args.stackTop_checkBits]

lemma exists_append_of_le {α : Type} {l : List α} {k : ℕ} (h : k ≤ l.length) :
    ∃ front back, l = front ++ back ∧ front.length = k :=
  ⟨l.take k, l.drop k, (take_append_drop k l).symm, length_take_of_le h⟩

/-- A stack that is long enough is divided into items as the arguments are. -/
lemma exists_items {nKeys nSigs : ℕ} (h : nKeys + nSigs + 3 ≤ stack.length) :
    ∃ below checkBits sigs sigCount keys keyCount, sigs.length = nSigs ∧ keys.length = nKeys ∧
      stack = below ++ (checkBits :: (sigs ++ (sigCount :: (keys ++ [keyCount])))) := by
  obtain ⟨below, top, rfl, hbelow⟩ :=
    exists_append_of_le (show stack.length - (nKeys + nSigs + 3) ≤ stack.length by omega)
  rw [length_append] at h hbelow
  have htop : top.length = nKeys + nSigs + 3 := by omega
  obtain ⟨checkBits, top, rfl⟩ := exists_cons_of_length_pos (show 0 < top.length by omega)
  rw [length_cons] at htop
  obtain ⟨sigs, top, rfl, hsigs⟩ := exists_append_of_le (show nSigs ≤ top.length by omega)
  rw [length_append] at htop
  obtain ⟨sigCount, top, rfl⟩ := exists_cons_of_length_pos (show 0 < top.length by omega)
  rw [length_cons] at htop
  obtain ⟨keys, top, rfl, hkeys⟩ := exists_append_of_le (show nKeys ≤ top.length by omega)
  rw [length_append] at htop
  obtain ⟨keyCount, rfl⟩ := length_eq_one_iff.mp (show top.length = 1 by omega)
  exact ⟨below, checkBits, sigs, sigCount, keys, keyCount, hsigs, hkeys, rfl⟩

lemma stackNum_middle {flags : BitVec 32} {front back : List StackItem} {item : StackItem}
    {depth : ℕ} {n : ℤ} (hstack : stack = front ++ ([item] ++ back))
    (hdepth : depth = back.length + 1) (h : stackNum flags stack depth = .ok n) :
    ∃ vch, item = .vch vch ∧
      scriptNum vch (flags &&& scriptVerifyMinimalData != 0) (maxIntegerSize flags) = .ok n := by
  obtain ⟨vch, htop, hnum⟩ := bind_eq_ok.mp h
  rw [stackTop_middle hstack (i := 0) rfl (by simp; omega)] at htop
  exact ⟨vch, itemData_eq_ok htop, hnum⟩

lemma exists_args_of_readArgs {found : ℕ × ℕ × Bytes} (h : readArgs env m = .ok found) :
    ∃ args : MultiSigArgs env.flags, m.stack = args.stack := by
  rw [readArgs, ite_throw_eq_ok, bind_eq_ok] at h
  obtain ⟨-, nKeysCount, hkeyCount, h⟩ := h
  rw [ite_throw_eq_ok, ite_throw_eq_ok, ite_throw_eq_ok, bind_eq_ok] at h
  obtain ⟨hkeys, -, -, nSigsCount, hsigCount, h⟩ := h
  rw [ite_throw_eq_ok, ite_throw_eq_ok] at h
  obtain ⟨hsigs, hlength, -⟩ := h
  obtain ⟨below, checkBits, sigs, sigCountItem, keys, keyCountItem, hsigsLength, hkeysLength,
    hstack⟩ := exists_items (Nat.not_lt.mp hlength)
  have hkeyStack : m.stack = (below ++ checkBits :: (sigs ++ sigCountItem :: keys)) ++
      ([keyCountItem] ++ []) := by simp [hstack]
  have hsigStack : m.stack = (below ++ checkBits :: sigs) ++
      ([sigCountItem] ++ (keys ++ [keyCountItem])) := by simp [hstack]
  obtain ⟨keyCount, rfl, hkeyNum⟩ := stackNum_middle hkeyStack rfl hkeyCount
  obtain ⟨sigCount, rfl, hsigNum⟩ := stackNum_middle hsigStack (by simp; omega) hsigCount
  have hkeyEq : nKeysCount = keys.length := by omega
  have hsigEq : nSigsCount = sigs.length := by omega
  refine ⟨⟨below, checkBits, sigs, sigCount, keys, keyCount, hkeyEq ▸ hkeyNum, hsigEq ▸ hsigNum,
    ?_, by omega⟩, hstack⟩
  rw [not_or, not_lt, not_lt, hkeyEq] at hkeys
  exact Int.ofNat_le.mp hkeys.2

/-- The outcome of the opcode on a machine with arguments. -/
lemma execCheckMultiSig_cases (verify : Bool) (hstack : m.stack = args.stack) :
    (m.stats.nOpCount + args.keys.length ≤ env.maxOps ∧ args.checkBits = .vch [] ∧
        execCheckMultiSig env verify m = liftError (pushOrVerify
          (popArgs m args.keys.length args.sigs.length []) verify false
          scriptErrCheckMultiSigVerify)) ∨
      (m.stats.nOpCount + args.keys.length ≤ env.maxOps ∧ args.checkBits ≠ .vch [] ∧
        Accepts env m.codeHash args ∧
        ∃ vchDummy, execCheckMultiSig env verify m = liftError (pushOrVerify
          (popArgs m args.keys.length args.sigs.length vchDummy) verify true
          scriptErrCheckMultiSigVerify)) ∨
      (m.stats.nOpCount + args.keys.length ≤ env.maxOps → args.checkBits ≠ .vch [] ∧
        ¬Accepts env m.codeHash args) ∧
        ∃ e, execCheckMultiSig env verify m = .error (.error e) := by
  by_cases hops : m.stats.nOpCount + args.keys.length ≤ env.maxOps
  swap
  · refine Or.inr (Or.inr ⟨fun hc => absurd hc hops, .opCount, ?_⟩)
    rw [execCheckMultiSig, readArgs_of_args args hstack, if_pos (by omega)]
    rfl
  have hread := readArgs_of_args args hstack
  rw [if_neg (by omega)] at hread
  cases hdummy : args.checkBits with
  | bigNum n =>
    refine Or.inr (Or.inr ⟨fun _ => ⟨by simp, ?_⟩, scriptErrBadOperationOnType, ?_⟩)
    · rintro ⟨vch, bits, hvch, -⟩
      rw [hdummy] at hvch
      cases hvch
    · rw [execCheckMultiSig, hread, hdummy]
      rfl
  | vch vchDummy =>
    rw [hdummy] at hread
    by_cases hempty : vchDummy = []
    · subst hempty
      refine Or.inl ⟨hops, rfl, ?_⟩
      rw [execCheckMultiSig, hread]
      rfl
    · have hne : StackItem.vch vchDummy ≠ .vch [] := fun heq => hempty (StackItem.vch.inj heq)
      refine Or.inr ?_
      rcases checkSigs_cases args hstack hdummy hempty with ⟨hok, haccepts⟩ | ⟨⟨e, herror⟩, hnot⟩
      · refine Or.inl ⟨hops, hne, haccepts, vchDummy, ?_⟩
        rw [execCheckMultiSig, hread]
        show (checkSigs env m args.keys.length args.sigs.length vchDummy >>= _) = _
        rw [hok]
        rfl
      · refine Or.inr ⟨fun _ => ⟨hne, hnot⟩, e, ?_⟩
        rw [execCheckMultiSig, hread]
        show (checkSigs env m args.keys.length args.sigs.length vchDummy >>= _) = _
        rw [herror]
        rfl

/-- What the opcode leaves on the stack. -/
def Leaves (rest : Opcodes ScriptImportedState) (env : ScriptEnv ScriptImportedState) (next : Bytes)
    (m : ScriptMachine) (stack : List StackItem) : Prop :=
  ∃ m', multiSigOps rest env ⟨opCheckMultiSig, [], next⟩ m = .ok m' ∧ m'.stack = stack

/-- All signature items are empty. -/
def NullSigs (args : MultiSigArgs env.flags) : Prop := ∀ sig ∈ args.sigs, sig = .vch []

/-- What the opcode is meant to do with its arguments. -/
structure Correct (rest : Opcodes ScriptImportedState) (env : ScriptEnv ScriptImportedState)
    (next : Bytes) (m : ScriptMachine) (args : MultiSigArgs env.flags) : Prop where
  pushes_true : Leaves rest env next m (args.below ++ [vchTrue]) ↔ Accepts env m.codeHash args
  null_fail : env.flags &&& scriptVerifyNullFail ≠ 0 →
    Leaves rest env next m (args.below ++ [vchFalse]) →
    args.checkBits = .vch [] ∧ NullSigs args
  aborts : ¬Accepts env m.codeHash args →
    ¬(args.checkBits = .vch [] ∧ (env.flags &&& scriptVerifyNullFail ≠ 0 → NullSigs args)) →
    ∃ e, multiSigOps rest env ⟨opCheckMultiSig, [], next⟩ m = .error e
  not_sanity : ∀ e, execCheckMultiSig env false m ≠ .error (.sanity e)

/-- When it does: no empty check bits for no keys, no signature next to empty check bits where
failures must be null, and no more keys than operations are left. -/
def Expected (env : ScriptEnv ScriptImportedState) (m : ScriptMachine)
    (args : MultiSigArgs env.flags) : Prop :=
  (args.checkBits = .vch [] → args.keys ≠ []) ∧
    if m.stats.nOpCount + args.keys.length ≤ env.maxOps then
      env.flags &&& scriptVerifyNullFail ≠ 0 → args.checkBits = .vch [] → NullSigs args
    else ¬Accepts env m.codeHash args

lemma leaves_iff_of_ok {rest : Opcodes ScriptImportedState} {next : Bytes} {m' : ScriptMachine}
    (h : execCheckMultiSig env false m = .ok m') :
    Leaves rest env next m stack ↔ m'.stack = stack := by
  have hop : multiSigOps rest env ⟨opCheckMultiSig, [], next⟩ m = .ok m' := by
    rw [multiSigOps, h]
    rfl
  rw [Leaves, hop]
  simp

lemma accepts_of_empty (hdummy : args.checkBits = .vch []) :
    Accepts env m.codeHash args ↔ args.keys = [] := by
  constructor
  · rintro ⟨vch, bits, hvch, hfield, -⟩
    obtain rfl : [] = vch := StackItem.vch.inj (hdummy.symm.trans hvch)
    have hlength := hfield.length_eq
    rw [← length_eq_zero_iff]
    simp only [length_nil] at hlength
    omega
  · intro hkeys
    have hsigs : args.sigs = [] := by
      rw [← length_eq_zero_iff]
      have hle := args.sigs_le
      rw [hkeys] at hle
      exact Nat.le_zero.mp hle
    refine ⟨[], 0, hdummy, ⟨by rw [hkeys]; rfl, rfl, by simp⟩, by rw [hsigs]; rfl, ?_⟩
    intro i sig hsig
    rw [hsigs] at hsig
    cases hsig

/-- The stack after the arguments are replaced by a truth value. -/
lemma exec_of_pushOrVerify {vchDummy : Bytes} {success : Bool} (hstack : m.stack = args.stack)
    (h : execCheckMultiSig env false m = liftError (pushOrVerify
      (popArgs m args.keys.length args.sigs.length vchDummy) false success
      scriptErrCheckMultiSigVerify)) :
    ∃ m', execCheckMultiSig env false m = .ok m' ∧
      m'.stack = args.below ++ [if success then vchTrue else vchFalse] := by
  refine ⟨_, h, ?_⟩
  rw [← args.take_stack, ← hstack]
  rfl

section Cases

variable {args} {rest : Opcodes ScriptImportedState} {next : Bytes} {m' : ScriptMachine}

lemma correct_iff_of_empty (hops : m.stats.nOpCount + args.keys.length ≤ env.maxOps)
    (hdummy : args.checkBits = .vch []) (hok : execCheckMultiSig env false m = .ok m')
    (hfalse : m'.stack = args.below ++ [vchFalse]) :
    Correct rest env next m args ↔ Expected env m args := by
  have htrue : m'.stack ≠ args.below ++ [vchTrue] := by
    rw [hfalse, ne_eq, append_cancel_left_eq]
    decide
  have hkeys := accepts_of_empty (m := m) args hdummy
  rw [Expected, if_pos hops]
  constructor
  · intro h
    refine ⟨fun _ hnil => htrue ?_, fun hflag _ => ?_⟩
    · exact (leaves_iff_of_ok hok).mp (h.pushes_true.mpr (hkeys.mpr hnil))
    · exact (h.null_fail hflag ((leaves_iff_of_ok hok).mpr hfalse)).2
  · rintro ⟨hne, hnull⟩
    refine ⟨?_, fun hflag _ => ⟨hdummy, hnull hflag hdummy⟩, ?_, by simp [hok]⟩
    · rw [leaves_iff_of_ok hok, hkeys]
      exact iff_of_false htrue (hne hdummy)
    · intro _ hc
      exact absurd ⟨hdummy, fun hflag => hnull hflag hdummy⟩ hc

lemma correct_iff_of_error {e : ScriptError}
    (hexec : execCheckMultiSig env false m = .error (.error e)) :
    Correct rest env next m args ↔ ¬Accepts env m.codeHash args := by
  have hop : multiSigOps rest env ⟨opCheckMultiSig, [], next⟩ m = .error e :=
    by rw [multiSigOps, hexec]; rfl
  have hleaves : ∀ stack, ¬Leaves rest env next m stack := by
    rintro stack ⟨m', hok, -⟩
    rw [hop] at hok
    cases hok
  constructor
  · intro h haccepts
    exact hleaves _ (h.pushes_true.mpr haccepts)
  · intro hnot
    exact ⟨iff_of_false (hleaves _) hnot, fun _ hc => absurd hc (hleaves _),
      fun _ _ => ⟨e, hop⟩, by simp [hexec]⟩

end Cases

/-- Whether the opcode does what it is meant to do is decided by the arguments; without arguments
it ends the script, and not at a check that the source calls unreachable. -/
theorem checkMultiSig_correct_iff (rest : Opcodes ScriptImportedState)
    (env : ScriptEnv ScriptImportedState) (next : Bytes) (m : ScriptMachine) :
    (∀ args : MultiSigArgs env.flags, m.stack = args.stack →
      (Correct rest env next m args ↔ Expected env m args)) ∧
    ((∀ args : MultiSigArgs env.flags, m.stack ≠ args.stack) →
      ∃ e, execCheckMultiSig env false m = .error (.error e)) := by
  constructor
  · intro args hstack
    rcases execCheckMultiSig_cases args false hstack with
      ⟨hops, hdummy, hexec⟩ | ⟨hops, hdummy, haccepts, vchDummy, hexec⟩ | ⟨hcases, e, hexec⟩
    · obtain ⟨m', hok, hfalse⟩ := exec_of_pushOrVerify args hstack hexec
      exact correct_iff_of_empty hops hdummy hok hfalse
    · obtain ⟨m', hok, htrue⟩ := exec_of_pushOrVerify args hstack hexec
      rw [Expected, if_pos hops]
      have hfalse : m'.stack ≠ args.below ++ [vchFalse] := by
        rw [htrue, ne_eq, append_cancel_left_eq]
        decide
      refine iff_of_true ⟨?_, ?_, fun hc => absurd haccepts hc, by simp [hok]⟩
        ⟨fun hc => absurd hc hdummy, fun _ hc => absurd hc hdummy⟩
      · rw [leaves_iff_of_ok hok]
        exact iff_of_true htrue haccepts
      · intro _ hc
        exact absurd ((leaves_iff_of_ok hok).mp hc) hfalse
    · rw [correct_iff_of_error hexec, Expected]
      split_ifs with hops
      · obtain ⟨hdummy, hnot⟩ := hcases hops
        exact iff_of_true hnot ⟨fun hc => absurd hc hdummy, fun _ hc => absurd hc hdummy⟩
      · refine ⟨fun hnot => ⟨fun hdummy hkeys => ?_, hnot⟩, fun h => h.2⟩
        exact hnot ((accepts_of_empty args hdummy).mpr hkeys)
  · intro hnone
    cases hread : readArgs env m with
    | error e =>
      refine ⟨e, ?_⟩
      rw [execCheckMultiSig, hread]
      rfl
    | ok found =>
      obtain ⟨args, hstack⟩ := exists_args_of_readArgs hread
      exact absurd hstack (hnone args)

end Outcome

/-- A signature has to begin as its key does, and failures must be null. -/
def matchingEnv : ScriptEnv ScriptImportedState where
  flags := scriptVerifyNullFail
  sis := ⟨some ⟨fun sig key _ => sig.head? == key.head?, fun _ => true, fun _ => true⟩⟩
  maxOps := 201
  maxConsensusSigOps := 0

def noOps : Opcodes ScriptImportedState := fun _ _ _ => .error .badOpcode

/-- Two signatures and three keys. -/
def twoOfThree (checkBits sig₁ sig₂ : Bytes) : MultiSigArgs matchingEnv.flags where
  below := []
  checkBits := .vch checkBits
  sigs := [.vch sig₁, .vch sig₂]
  sigCount := [2]
  keys := [.vch [2], .vch [3], .vch [4]]
  keyCount := [3]
  keyCount_eq := by rfl
  sigCount_eq := by rfl
  keys_le := by decide
  sigs_le := Nat.le_succ 2

def zeroOfZero : MultiSigArgs matchingEnv.flags where
  below := []
  checkBits := .vch []
  sigs := []
  sigCount := []
  keys := []
  keyCount := []
  keyCount_eq := by rfl
  sigCount_eq := by rfl
  keys_le := by decide
  sigs_le := by decide

/-- A machine with these arguments. -/
def machineWith (args : MultiSigArgs matchingEnv.flags) : ScriptMachine :=
  { ScriptMachine.init with stack := args.stack }

/-- The first and the last of three keys have signed. -/
def firstAndLast : MultiSigArgs matchingEnv.flags :=
  twoOfThree [5] (2 :: List.replicate 63 0) (4 :: List.replicate 63 0)

theorem checkMultiSig_correct_twoOfThree :
    (Correct noOps matchingEnv [] (machineWith firstAndLast) firstAndLast ∧
      Leaves noOps matchingEnv [] (machineWith firstAndLast) [vchTrue]) ∧
      ∃ e, execCheckMultiSig matchingEnv false ScriptMachine.init = .error (.error e) := by
  constructor
  · refine ⟨((checkMultiSig_correct_iff noOps matchingEnv [] (machineWith firstAndLast)).1 _
      rfl).mpr ⟨fun _ => cons_ne_nil _ _, fun _ hempty => ?_⟩, _, rfl, rfl⟩
    cases hempty
  · refine (checkMultiSig_correct_iff noOps matchingEnv [] ScriptMachine.init).2 ?_
    intro args hstack
    have hlength := args.length_stack
    rw [← hstack] at hlength
    simp only [ScriptMachine.init, length_nil] at hlength
    omega

/-- A signature next to empty check bits makes the opcode push false although failures must be
null, and no signature of no keys makes it push false although all bits are as they should be. -/
theorem checkMultiSig_pushes_false :
    Leaves noOps matchingEnv [] (machineWith (twoOfThree [] [2] [4])) [vchFalse] ∧
      matchingEnv.flags &&& scriptVerifyNullFail ≠ 0 ∧ ¬NullSigs (twoOfThree [] [2] [4]) ∧
      ¬Correct noOps matchingEnv [] (machineWith (twoOfThree [] [2] [4])) (twoOfThree [] [2] [4]) ∧
      Leaves noOps matchingEnv [] (machineWith zeroOfZero) [vchFalse] ∧
      Accepts matchingEnv (machineWith zeroOfZero).codeHash zeroOfZero := by
  have hleaves : Leaves noOps matchingEnv [] (machineWith (twoOfThree [] [2] [4])) [vchFalse] :=
    ⟨_, rfl, rfl⟩
  have hflag : matchingEnv.flags &&& scriptVerifyNullFail ≠ 0 := by decide
  have hsigs : ¬NullSigs (twoOfThree [] [2] [4]) := by
    intro hnull
    have hsig := hnull (.vch [2]) mem_cons_self
    cases hsig
  refine ⟨hleaves, hflag, hsigs, ?_, ⟨_, rfl, rfl⟩, (accepts_of_empty zeroOfZero rfl).mpr rfl⟩
  intro h
  exact hsigs (h.null_fail hflag hleaves).2

end PyrrhaNode.MultiSig
