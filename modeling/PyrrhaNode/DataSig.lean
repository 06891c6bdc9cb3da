import PyrrhaNode.SpendVerify

/-!
# Signatures of data

`OP_CHECKDATASIG` checks a signature of a message that is on the stack.  Such a signature carries no
type, so it has 64 bytes or none.  The function that checks encodings shares its body with the check
of transaction signatures: it notes a signature of another length as an error, but it goes on and
refuses only lengths that no transaction signature has either.
-/
namespace PyrrhaNode.DataSig

open Serialize Interpreter ScriptOps SpendVerify Loop

def opCheckDataSig : UInt8 := 0xba
def opCheckDataSigVerify : UInt8 := 0xbb

def scriptErrCheckDataSigVerify : ScriptError := .other 19

/-- `SigHashType::MAX_LEN`. -/
def sigHashTypeMaxLen : ℕ := 4

/-- `CheckSignatureEncodingSigHashChoice`: the error that makes it return false, or what it leaves
in `serror` when it returns true. -/
def checkSignatureEncodingSigHashChoice (vchSig : Bytes) (_flags : BitVec 32)
    (serror : Option ScriptError) (checkSigHash : Bool) :
    Except ScriptError (Option ScriptError) :=
  let sigSize := vchSig.length
  if sigSize = 0 then return serror
  else
    -- the error is set without a return
    let serror := if !checkSigHash ∧ sigSize ≠ 64 then some scriptErrSigNonSchnorr else serror
    if sigSize < 64 ∨ 64 + sigHashTypeMaxLen < sigSize then throw scriptErrSigNonSchnorr
    else if checkSigHash ∧ !(sigHashTypeOf vchSig).valid then throw scriptErrSigHashType
    else return serror

/-- `CheckDataSignatureEncoding`. -/
def checkDataSignatureEncoding (vchSig : Bytes) (flags : BitVec 32) (serror : Option ScriptError) :
    Except ScriptError (Option ScriptError) :=
  checkSignatureEncodingSigHashChoice vchSig flags serror false

/-- A signature, a key and the hash that is signed. -/
abbrev VerifySignature := Bytes → Bytes → Uint256 → Bool

/-- `BaseSignatureChecker::VerifySignature`. -/
def verifySignature (verifySchnorr : VerifySchnorr) : VerifySignature :=
  fun vchSig pubkey sighash =>
    if vchSig.length = 64 then verifySchnorr pubkey sighash vchSig else false

/-- What the verifier of the checker is asked about, and the answer that the opcode pushes or the
error that ends the script. -/
structure DataSigCheck where
  asked : List Bytes
  result : Except ScriptError Bool

def checkDataSig (H : HashFns) (flags : BitVec 32) (checker : Option VerifySignature)
    (vchSig vchMessage vchPubKey : Bytes) : DataSigCheck :=
  match checkDataSignatureEncoding vchSig flags none, checkPubKeyEncoding vchPubKey flags with
  | .error e, _ => ⟨[], .error e⟩
  | .ok _, .error e => ⟨[], .error e⟩
  | .ok _, .ok _ =>
    if vchSig.length = 0 then ⟨[], .ok false⟩
    else
      match checker with
      | none => ⟨[], .error scriptErrDataRequired⟩
      | some verifier =>
        let fSuccess := verifier vchSig vchPubKey (H.sha256 vchMessage)
        ⟨[vchSig], if !fSuccess ∧ flags &&& scriptVerifyNullFail ≠ 0 then
          .error scriptErrSigNullFail else .ok fSuccess⟩

def execCheckDataSig (H : HashFns) (flags : BitVec 32) (checker : Option VerifySignature)
    (verify : Bool) (m : ScriptMachine) : ScriptResult := do
  let (key, m) ← popItem m
  let (message, m) ← popItem m
  let (sig, m) ← popItem m
  let vchSig ← itemData sig
  let vchMessage ← itemData message
  let vchPubKey ← itemData key
  let fSuccess ← (checkDataSig H flags checker vchSig vchMessage vchPubKey).result
  pushOrVerify (countSigCheck m vchSig) verify fSuccess scriptErrCheckDataSigVerify

/-- Lengths of transaction signatures with a type are accepted for data as well. -/
lemma checkDataSignatureEncoding_ok_iff (s : Bytes) (flags : BitVec 32)
    (serror : Option ScriptError) :
    (∃ e, checkDataSignatureEncoding s flags serror = .ok e) ↔
      s.length = 0 ∨ 64 ≤ s.length ∧ s.length ≤ 68 := by
  unfold checkDataSignatureEncoding checkSignatureEncodingSigHashChoice
  by_cases hempty : s.length = 0
  · simp only [hempty]
    exact iff_of_true ⟨serror, rfl⟩ (by simp)
  simp only [hempty, if_false, false_or, Bool.false_eq_true, false_and, ite_throw_eq_ok,
    exists_and_left, sigHashTypeMaxLen]
  constructor
  · omega
  · intro hlength
    exact ⟨by omega, _, rfl⟩

variable {H : HashFns} {flags : BitVec 32} {checker : Option VerifySignature}
  {s message pubKey : Bytes}

lemma asked_checkDataSig {verifier : VerifySignature} (hs : 64 ≤ s.length ∧ s.length ≤ 68)
    (hkey : checkPubKeyEncoding pubKey flags = .ok ()) :
    (checkDataSig H flags (some verifier) s message pubKey).asked = [s] := by
  obtain ⟨e, he⟩ := (checkDataSignatureEncoding_ok_iff s flags none).mpr (Or.inr hs)
  have hne : s.length ≠ 0 := by omega
  simp only [checkDataSig, he, hkey, if_neg hne]

/-- The verifier is asked and a result is given only for a signature that passes the check of
encodings, and for a key that does and a checker that is there unless the signature is empty. -/
lemma checkDataSig_cases (H : HashFns) (flags : BitVec 32) (checker : Option VerifySignature)
    (s message pubKey : Bytes) :
    s.length = 0 ∧ (checkDataSig H flags checker s message pubKey).asked = [] ∨
      (64 ≤ s.length ∧ s.length ≤ 68 ∧ checkPubKeyEncoding pubKey flags = .ok () ∧
        checker.isSome = true ∧ (checkDataSig H flags checker s message pubKey).asked = [s]) ∨
      (checkDataSig H flags checker s message pubKey).asked = [] ∧
        ∃ e, (checkDataSig H flags checker s message pubKey).result = .error e := by
  cases hsig : checkDataSignatureEncoding s flags none with
  | error e => exact Or.inr (Or.inr (by simp [checkDataSig, hsig]))
  | ok left =>
    cases hkey : checkPubKeyEncoding pubKey flags with
    | error e => exact Or.inr (Or.inr (by simp [checkDataSig, hsig, hkey]))
    | ok _ =>
      rcases (checkDataSignatureEncoding_ok_iff s flags none).mp ⟨left, hsig⟩ with hzero | hlength
      · exact Or.inl ⟨hzero, by simp [checkDataSig, hsig, hkey, hzero]⟩
      · have hne : s.length ≠ 0 := by omega
        cases checker with
        | none => exact Or.inr (Or.inr (by simp [checkDataSig, hsig, hkey, hne]))
        | some verifier =>
          exact Or.inr (Or.inl ⟨hlength.1, hlength.2, rfl, rfl, asked_checkDataSig hlength hkey⟩)

/-- The check of encodings lets exactly the lengths 65 to 68 pass that data signatures do not have.
The opcode asks its verifier about such a signature, whatever the verifier is, when the key is
well formed; otherwise it asks about and accepts signatures of 64 bytes and the empty one. -/
theorem dataSignature_length_iff (H : HashFns) (flags : BitVec 32)
    (checker : Option VerifySignature) (serror : Option ScriptError) (verify : Bool)
    (s message pubKey : Bytes) (m : ScriptMachine) :
    (((∃ e, checkDataSignatureEncoding s flags serror = .ok e) → s = [] ∨ s.length = 64) ↔
      ¬(65 ≤ s.length ∧ s.length ≤ 68)) ∧
    (((∀ sig ∈ (checkDataSig H flags checker s message pubKey).asked, sig.length = 64) ∧
      ∀ m', execCheckDataSig H flags checker verify
        (pushItem (pushItem (pushItem m (.vch s)) (.vch message)) (.vch pubKey)) = .ok m' →
          s = [] ∨ s.length = 64) ↔
      ¬(65 ≤ s.length ∧ s.length ≤ 68 ∧ checkPubKeyEncoding pubKey flags = .ok () ∧
        checker.isSome = true)) := by
  have hnil : s = [] ↔ s.length = 0 := List.length_eq_zero_iff.symm
  rw [checkDataSignatureEncoding_ok_iff, hnil]
  refine ⟨by omega, ?_⟩
  constructor
  · rintro ⟨hasked, -⟩ ⟨hlow, hhigh, hkey, hchecker⟩
    obtain ⟨verifier, rfl⟩ := Option.isSome_iff_exists.mp hchecker
    rw [asked_checkDataSig ⟨by omega, hhigh⟩ hkey] at hasked
    have := hasked s (List.mem_singleton.mpr rfl)
    omega
  · intro hcond
    rcases checkDataSig_cases H flags checker s message pubKey with
      ⟨hzero, hasked⟩ | ⟨hlow, hhigh, hkey, hchecker, hasked⟩ | ⟨hasked, e, he⟩
    · exact ⟨by simp [hasked], fun _ _ => Or.inl hzero⟩
    · have hlength : s.length = 64 := by
        by_contra hne
        exact hcond ⟨by omega, hhigh, hkey, hchecker⟩
      exact ⟨by simp [hasked, hlength], fun _ _ => Or.inr hlength⟩
    · refine ⟨by simp [hasked], fun m' h => ?_⟩
      unfold execCheckDataSig at h
      rw [popItem_pushItem] at h
      change (popItem _ >>= _) = _ at h
      rw [popItem_pushItem] at h
      change (popItem _ >>= _) = _ at h
      rw [popItem_pushItem] at h
      change ((checkDataSig H flags checker s message pubKey).result >>= _) = _ at h
      rw [he] at h
      cases h

/-- A signature of 65 bytes passes the check of encodings; without the flag against wrong
signatures the opcode pushes false for it. -/
theorem longDataSig_pushes_false :
    checkDataSignatureEncoding (List.replicate 65 0) 0 none = .ok (some scriptErrSigNonSchnorr) ∧
    (checkDataSig lengthHash 0 (some (verifySignature fun _ _ _ => true)) (List.replicate 65 0) []
      []).asked = [List.replicate 65 0] ∧
    (execCheckDataSig lengthHash 0 (some (verifySignature fun _ _ _ => true)) false
      { ScriptMachine.init with stack := [.vch (List.replicate 65 0), .vch [], .vch []] }).map
        ScriptMachine.stack = .ok [vchFalse] := by
  decide

end PyrrhaNode.DataSig
