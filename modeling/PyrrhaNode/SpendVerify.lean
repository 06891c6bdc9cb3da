import PyrrhaNode.SatoVerify
import PyrrhaNode.TemplateVerify

/-!
# Verifying a spend

All script kinds are verified with the opcodes of standard scripts. The signatures of an
input are checked against the transaction that it belongs to.
-/
namespace PyrrhaNode.SpendVerify
open Serialize Transaction Script
open ScriptAttributes Interpreter SignatureHash
open ScriptOps SatoVerify TemplateVerify Loop

def maxScriptTemplateOps : ℕ := 50000

/-- How signatures are verified: by public key, hash and the 64 bytes of a signature. -/
abbrev VerifySchnorr := Bytes → Uint256 → Bytes → Bool

/-- What a node verifies scripts with. The main network has no pay-to-script-hash. -/
structure ScriptRules where
  hashes : HashFns
  verifySchnorr : VerifySchnorr
  otherOps : Opcodes ScriptImportedState
  mainNet : Bool

def pubKeyIsValid (vch : Bytes) : Bool :=
  match vch.head? with
  | none => false
  | some chHeader =>
    if chHeader = 2 ∨ chHeader = 3 then vch.length == 33
    else if chHeader = 4 ∨ chHeader = 6 ∨ chHeader = 7 then vch.length == 65
    else false

/-- The type that follows the 64 bytes of a signature. -/
def sigHashTypeOf (sig : Bytes) : SigHashType :=
  if sig.length < 64 then SigHashType.invalid else SigHashType.fromBytes (sig.drop 64)

/-- The 64 bytes of a signature. -/
def removeSigHashType (vchSig : Bytes) : Bytes :=
  vchSig.take 64 ++ List.replicate (64 - vchSig.length) 0

def lockTimeThreshold : ℕ := 500000000
def sequenceFinal : UInt32 := 0xffffffff
def sequenceLockTimeTypeFlag : ℕ := 2 ^ 22
def sequenceLockTimeMask : ℕ := 0xffff

/-- Lock times are compared with lock times of their own kind, and the input must not be
final. -/
def checkLockTime (txTo : CTransaction) (nIn : UInt32) (nLockTime : ℤ) : Bool :=
  if ¬ ((txTo.nLockTime.toNat < lockTimeThreshold ∧ nLockTime < lockTimeThreshold) ∨
      (lockTimeThreshold ≤ txTo.nLockTime.toNat ∧ lockTimeThreshold ≤ nLockTime)) then false
  else if txTo.nLockTime.toNat < nLockTime then false
  else
    match txTo.vin[nIn.toNat]? with
    | none => false
    | some inp => decide (inp.nSequence ≠ sequenceFinal)

/-- The bits of a sequence number that have a meaning. -/
def maskSequence (nSequence : ℕ) : ℕ :=
  nSequence &&& (sequenceLockTimeTypeFlag ||| sequenceLockTimeMask)

/-- Sequence numbers are compared by their masked bits and with numbers of their own kind. -/
def checkSequence (txTo : CTransaction) (nIn : UInt32) (nSequence : ℤ) : Bool :=
  match txTo.vin[nIn.toNat]? with
  | none => false
  | some inp =>
    if inp.nSequence.toNat &&& sequenceLockTimeDisableFlag ≠ 0 then false
    else if ¬ ((maskSequence inp.nSequence.toNat < sequenceLockTimeTypeFlag ∧
        maskSequence nSequence.toNat < sequenceLockTimeTypeFlag) ∨
      (sequenceLockTimeTypeFlag ≤ maskSequence inp.nSequence.toNat ∧
        sequenceLockTimeTypeFlag ≤ maskSequence nSequence.toNat)) then false
    else if maskSequence inp.nSequence.toNat < maskSequence nSequence.toNat then false
    else true

/-- Whether a signature of an input is good. -/
def checkTxSig (R : ScriptRules) (txTo : CTransaction) (nIn : UInt32)
    (vchSigIn vchPubKey scriptCode : Bytes) : Bool :=
  if !pubKeyIsValid vchPubKey then false
  else if vchSigIn.isEmpty then false
  else if !(sigHashTypeOf vchSigIn).valid then false
  else
    match signatureHashPyrrha R.hashes scriptCode txTo nIn (sigHashTypeOf vchSigIn) with
    | none => false
    | some sighash => R.verifySchnorr vchPubKey sighash (removeSigHashType vchSigIn)

def transactionSignatureChecker (R : ScriptRules) (txTo : CTransaction) (nIn : UInt32) :
    BaseSignatureChecker where
  checkSig := checkTxSig R txTo nIn
  checkLockTime := checkLockTime txTo nIn
  checkSequence := checkSequence txTo nIn

def ops (R : ScriptRules) : Opcodes ScriptImportedState := standardOps R.hashes R.otherOps

def templateEnv (checker : BaseSignatureChecker) (flags : BitVec 32) :
    ScriptEnv ScriptImportedState :=
  ⟨flags, ⟨some checker⟩, maxScriptTemplateOps, 0xffffffff⟩

def satoEnv (R : ScriptRules) (checker : BaseSignatureChecker) (flags : BitVec 32) :
    ScriptEnv ScriptImportedState :=
  ⟨if R.mainNet then flags &&& ~~~scriptVerifyP2sh else flags, ⟨some checker⟩, maxSatoScriptOps,
    0xffffffff⟩

/-- Whether a spend of the output is accepted. -/
def verifySpend (R : ScriptRules) (checker : BaseSignatureChecker) (flags : BitVec 32)
    (scriptSig : CScript) (out : CTxOut) : ScriptResult :=
  verifyScript R.hashes (templateEnv checker flags) (ops R)
    (verifySatoScript (satoEnv R checker flags) (ops R)) scriptSig out.scriptType out.scriptPubKey

/-- Whether an input of a transaction may spend the output. -/
def verifyInput (R : ScriptRules) (flags : BitVec 32) (tx : CTransaction) (nIn : UInt32)
    (scriptSig : CScript) (out : CTxOut) : ScriptResult :=
  verifySpend R (transactionSignatureChecker R tx nIn) flags scriptSig out

/-- A checker refuses an empty signature. -/
def RefusesEmpty (checker : BaseSignatureChecker) : Prop :=
  ∀ key scriptCode, checker.checkSig [] key scriptCode = false

lemma refusesEmpty_transactionSignatureChecker (R : ScriptRules) (txTo : CTransaction)
    (nIn : UInt32) : RefusesEmpty (transactionSignatureChecker R txTo nIn) := by
  intro key scriptCode
  show checkTxSig R txTo nIn [] key scriptCode = false
  simp [checkTxSig]

lemma checkSignatureEncoding_eq_ok {sig : Bytes} (hne : sig ≠ []) :
    checkSignatureEncoding sig = .ok () ↔
      64 ≤ sig.length ∧ sig.length ≤ 68 ∧ (SigHashType.fromBytes (sig.drop 64)).valid = true := by
  unfold checkSignatureEncoding
  rw [if_neg fun h => hne (List.length_eq_zero_iff.mp h), ite_throw_eq_ok, ite_throw_eq_ok]
  simp only [not_or, Nat.not_lt, and_assoc]
  refine and_congr_right fun _ => and_congr_right fun _ => ?_
  rw [Bool.not_eq_true', Bool.not_eq_false]
  exact and_iff_left rfl

variable {env : ScriptEnv ScriptImportedState} {checker : BaseSignatureChecker} {key : Bytes}
  {R : ScriptRules}

/-- An accepted signature is well formed and the checker accepts it for the whole script. -/
lemma checkSigResult_eq_true {sig code : Bytes} (hchecker : env.sis.checker = some checker)
    (hempty : RefusesEmpty checker) (hcode : code.length ≤ 64) :
    checkSigResult env sig key code = .ok true ↔
      sig ≠ [] ∧ checkSignatureEncoding sig = .ok () ∧
        checkPubKeyEncoding key env.flags = .ok () ∧ checker.checkSig sig key code = true := by
  have hdelete : sig ≠ [] → checkSignatureEncoding sig = .ok () →
      findAndDelete code (pushVector sig) = code := by
    intro hne hencoding
    obtain ⟨hlong, -⟩ := (checkSignatureEncoding_eq_ok hne).mp hencoding
    exact findAndDelete_of_length_lt
      (hcode.trans_lt (hlong.trans_lt (length_lt_pushVector (by omega))))
  unfold checkSigResult
  rw [bind_eq_ok]
  constructor
  · rintro ⟨⟨⟩, hencoding, h⟩
    obtain ⟨⟨⟩, hkey, h⟩ := bind_eq_ok.mp h
    rw [hchecker] at h
    obtain ⟨-, h⟩ := ite_throw_eq_ok.mp h
    have hsig := Except.ok.inj h
    have hne : sig ≠ [] := by
      rintro rfl
      rw [hempty] at hsig
      cases hsig
    rw [hdelete hne hencoding] at hsig
    exact ⟨hne, hencoding, hkey, hsig⟩
  · rintro ⟨hne, hencoding, hkey, hsig⟩
    refine ⟨(), hencoding, bind_eq_ok.mpr ⟨(), hkey, ?_⟩⟩
    rw [hchecker]
    dsimp only
    rw [hdelete hne hencoding, hsig]
    rfl

lemma instructions_p2pkt : instructions p2pkt =
    ([⟨opFromAltStack, [], [opCheckSigVerify]⟩, ⟨opCheckSigVerify, [], []⟩], true) := by
  decide +kernel

/-- A run of the template takes a signature from the satisfier and checks it for the last
argument. -/
theorem templateRun_p2pkt {constraint satisfier : CScript} {final : ScriptMachine}
    (hops : 2 ≤ env.maxOps) (h : TemplateRun env (ops R) p2pkt constraint satisfier final) :
    ∃ sig key, pushes satisfier = [.vch sig] ∧ (pushes constraint).getLast? = some (.vch key) ∧
      checkSigResult env sig key p2pkt = .ok true := by
  obtain ⟨-, -, -, hrun⟩ := ScriptMachine.eval_eq_ok.mp h.evaluated
  rw [instructions_p2pkt] at hrun
  have hbegin : (templateMachine constraint satisfier).beginStep p2pkt =
      running (templateMachine constraint satisfier) p2pkt 0 (pushes satisfier) := rfl
  obtain ⟨m₁, h₁, hrun⟩ := foldlM_cons_eq_ok.mp hrun
  have hexec : execFromAltStack (running (templateMachine constraint satisfier) p2pkt 1
      (pushes satisfier)) = .ok m₁ := exec_of_step (by decide) (by decide) (by omega) h₁
  obtain ⟨m₂, h₂, hrun⟩ := foldlM_cons_eq_ok.mp hrun
  cases hrun
  unfold execFromAltStack at hexec
  cases hlast : (running (templateMachine constraint satisfier) p2pkt 1
      (pushes satisfier)).altstack.getLast? with
  | none =>
    rw [hlast] at hexec
    cases hexec
  | some item =>
    rw [hlast] at hexec
    obtain rfl : m₁ = running { templateMachine constraint satisfier with
      altstack := (pushes constraint).dropLast } p2pkt 1 (pushes satisfier ++ [item]) :=
        (Except.ok.inj hexec).symm
    obtain ⟨below, sig, key, b, hstack, hb, hfinal⟩ :=
      execCheckSig_eq_ok (exec_of_step (by decide) (by decide) (by omega) h₂)
    obtain ⟨hbelow, hitem⟩ := List.append_inj' hstack rfl
    simp only [pushOrVerify, Bool.not_true, Bool.false_eq_true, if_false] at hfinal
    split_ifs at hfinal with hverified
    cases hfinal
    have hclean := h.clean
    rw [stack_countSigCheck] at hclean
    obtain rfl : below = [] := hclean
    refine ⟨sig, key, hbelow, hlast.trans (congrArg some (List.singleton_inj.mp hitem)), ?_⟩
    rw [hb, hverified]

/-- An output that pays to a public key, by the hash of the key or by the template. -/
inductive PaysTo (H : HashFns) (key : Bytes) (out : CTxOut) : Prop where
  | pubKeyHash (htype : out.scriptType = .satoscript)
      (hscript : out.scriptPubKey = payToPubKeyHash (H.hash160 key).data)
  | pubKeyTemplate (group : CGroupTokenInfo) (argsHash : Bytes)
      (htype : out.scriptType = .template)
      (hscript : getScriptTemplate .template out.scriptPubKey = .ok group p2pktId argsHash [])
      (hargs : checkScriptHash H argsHash (pushVector key) = .ok ())

/-- The script that signatures for the output cover. -/
def scriptCodeOf (out : CTxOut) : CScript :=
  if out.scriptType = .template then p2pkt else out.scriptPubKey

/-- No two of the messages have the same hash. -/
structure CollisionFree (H : HashFns) (messages : Set Bytes) : Prop where
  hash160 : Set.InjOn H.hash160 messages
  hash256 : Set.InjOn H.hash256 messages

lemma length_of_pubKeyIsValid (h : pubKeyIsValid key = true) :
    key.length = 33 ∨ key.length = 65 := by
  unfold pubKeyIsValid at h
  split at h
  · cases h
  · split_ifs at h
    · exact .inl (beq_iff_eq.mp h)
    · exact .inr (beq_iff_eq.mp h)

lemma length_le_of_pubKeyIsValid (h : pubKeyIsValid key = true) :
    key.length ≤ 65 := by
  have hlength := length_of_pubKeyIsValid h
  omega

lemma pushes_pushVector {b : Bytes} (h : b.length < 2 ^ 32) : pushes (pushVector b) = [.vch b] := by
  obtain ⟨opcode, data, hop, hpush⟩ :=
    getOp_pushVector (by simpa using h : (b ++ []).length < 2 ^ 32)
  rw [List.append_nil] at hop
  rw [pushes, instructions_of_getOp hop, instructions_nil]
  exact congrArg (fun d => [StackItem.vch d]) hpush.data

/-- An accepted spend of an output that pays to a key by the template pushes the arguments
and a signature of the key. -/
theorem verifySpend_template {flags : BitVec 32} {scriptSig : CScript} {out : CTxOut}
    {argsHash : Bytes} {group : CGroupTokenInfo} {m : ScriptMachine} {messages : Set Bytes}
    (hchecker : RefusesEmpty checker) (htype : out.scriptType = .template)
    (hscript : getScriptTemplate .template out.scriptPubKey = .ok group p2pktId argsHash [])
    (hargs : checkScriptHash R.hashes argsHash (pushVector key) = .ok ())
    (hkey : key.length < 2 ^ 32) (hfree : CollisionFree R.hashes messages)
    (hmem : pushVector key ∈ messages) (hfirst : ∀ b ∈ firstPushes scriptSig, b ∈ messages)
    (h : verifySpend R checker flags scriptSig out = .ok m) :
    ∃ opcode satisfier sig, getOp scriptSig = some (opcode, pushVector key, satisfier) ∧
      pushes satisfier = [.vch sig] ∧ sig ≠ [] ∧ checkSignatureEncoding sig = .ok () ∧
      checker.checkSig sig key p2pkt = true := by
  rw [verifySpend, htype] at h
  obtain ⟨g, th, ah, visible, templat, pc, hidden, satisfier, hget, hload, hloadArgs, hrun⟩ :=
    verifyScript_template.mp h
  cases hscript.symm.trans hget
  obtain ⟨rfl, rfl⟩ : templat = p2pkt ∧ pc = scriptSig := by
    rcases loadCheckTemplateHash_cases hload with ⟨-, hconvert, hpc⟩ | ⟨hnot, -⟩
    · exact ⟨(Option.some.inj hconvert).symm, hpc⟩
    · exact absurd (by decide) hnot
  rcases loadArgs_cases hloadArgs with ⟨hnone, -⟩ | ⟨-, opcode, hop, hcheck⟩
  · rw [checkScriptHash, if_neg (by omega), if_neg (by omega)] at hargs
    cases hargs
  have hhidden : hidden = pushVector key :=
    checkScriptHash_inj hfree.hash160 hfree.hash256
      (hfirst _ ((mem_firstPushes hload).2 opcode hidden satisfier hop)) hmem hcheck hargs
  subst hhidden
  obtain ⟨sig, key', hsig, hlast, hresult⟩ := templateRun_p2pkt (show 2 ≤ 50000 by omega)
    (verifyTemplate_run hrun)
  rw [List.append_nil, pushes_pushVector hkey] at hlast
  cases hlast
  obtain ⟨hne, hencoding, -, haccepted⟩ :=
    (checkSigResult_eq_true rfl hchecker (by decide)).mp hresult
  exact ⟨opcode, satisfier, sig, hop, hsig, hne, hencoding, haccepted⟩

end PyrrhaNode.SpendVerify
