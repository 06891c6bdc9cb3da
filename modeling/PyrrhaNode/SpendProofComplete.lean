import Mathlib
import PyrrhaNode.SpendProofCreate
import PyrrhaNode.SpendProofSound

/-!
# Which double spends have a valid proof

Two transactions that pass script verification spend the same output of a key. A proof
can always be created for them. It is valid if the output pays to the hash of the key. It is
never valid if the output pays to the key by the template, because the first push of such a
spend is the arguments script and not the signature.
-/
namespace PyrrhaNode.SpendProofComplete
open List ByteCodec Serialize Transaction TxId
open Script ScriptAttributes Interpreter
open SignatureHash ScriptOps SatoVerify
open TemplateVerify SpendVerify SpendProof
open SpendProofCheck SpendProofSound SpendProofCreate
open WriteBackCache Loop

/-- The message of a signature that covers all inputs and outputs. -/
def allMessage (H : HashFns) (code : CScript) (tx : CTransaction) : Bytes :=
  sigHashMessage code tx.nVersion tx.nLockTime .all (componentsOf H tx.vin tx.vout)

section AllMessage
variable {H : HashFns} {tx : CTransaction} {messages : Set Bytes} {code : CScript}
  (inputs : List CTxIn)

lemma signedInputs_all (hfit : CountsFit tx) (nIn : UInt32) :
    signedInputs tx nIn SigHashInput.all = some tx.vin := by
  rw [signedInputs, Nat.mod_eq_of_lt hfit.vin, take_length]

lemma signedOutputs_all (hfit : CountsFit tx) :
    signedOutputs tx SigHashOutput.all = some tx.vout := by
  rw [signedOutputs, Nat.mod_eq_of_lt hfit.vout, take_length]

lemma verifySchnorr_of_checkTxSig {R : ScriptRules} {nIn : UInt32} {sig key code : Bytes}
    (hfit : CountsFit tx) (hall : sigHashTypeOf sig = .all)
    (h : checkTxSig R tx nIn sig key code = true) :
    pubKeyIsValid key = true ∧
      R.verifySchnorr key (R.hashes.hash256 (allMessage R.hashes code tx))
        (removeSigHashType sig) = true := by
  unfold checkTxSig at h
  split_ifs at h with hkey hempty htype
  rw [hall] at h
  split at h
  case h_1 => cases h
  case h_2 sighash hsighash =>
    obtain ⟨-, inputs, outputs, hinputs, houtputs, rfl⟩ := signatureHashPyrrha_ok hsighash
    cases (signedInputs_all hfit nIn).symm.trans hinputs
    cases (signedOutputs_all hfit).symm.trans houtputs
    exact ⟨by simpa using hkey, h⟩

lemma length_prevoutMessage :
    (prevoutMessage inputs).length = 33 * inputs.length := by
  induction inputs with
  | nil => rfl
  | cons inp inputs ih =>
    have hhash := inp.prevout.hash.size_eq
    have hcons : prevoutMessage (inp :: inputs) =
      ser8 inp.type ++ serOutPoint inp.prevout ++ prevoutMessage inputs := rfl
    simp only [hcons, ser8, serOutPoint, serUint256, length_append,
      length_cons, length_nil]
    omega

lemma length_sequenceMessage :
    (sequenceMessage inputs).length = 4 * inputs.length := by
  induction inputs with
  | nil => rfl
  | cons inp inputs ih =>
    have hcons : sequenceMessage (inp :: inputs) =
      ser32 inp.nSequence ++ sequenceMessage inputs := rfl
    simp only [hcons, ser32, length_append, length_leBytes, length_cons]
    omega

end AllMessage

section Record
variable {H : HashFns} {tx : CTransaction} {inp : CTxIn} {i : ℕ}

lemma spenderRecord_eq (H : HashFns) (tx : CTransaction) (inp : CTxIn) (i : ℕ) :
    ∃ a b c d, spenderRecord H tx inp i =
    ⟨tx.nVersion.toUInt32, inp.nSequence, tx.nLockTime, a, b, c, d,
      [getSignature inp.scriptSig]⟩ := by
  unfold spenderRecord hashTx
  dsimp only
  split_ifs
  · exact ⟨_, _, _, _, rfl⟩
  · exact ⟨_, _, _, _, rfl⟩
  · split
    · exact ⟨_, _, _, _, rfl⟩
    · split
      · exact ⟨_, _, _, _, rfl⟩
      · exact ⟨_, _, _, _, rfl⟩

lemma front_spenderRecord : (spenderRecord H tx inp i).front = getSignature inp.scriptSig := by
  obtain ⟨a, b, c, d, h⟩ := spenderRecord_eq H tx inp i
  rw [h]
  rfl

lemma spenderMessage_spenderRecord (code : CScript) :
    spenderMessage (spenderRecord H tx inp i) code =
      sigHashMessage code tx.nVersion tx.nLockTime (sigHashTypeOf (getSignature inp.scriptSig))
        (spenderComponents (spenderRecord H tx inp i)) := by
  obtain ⟨a, b, c, d, h⟩ := spenderRecord_eq H tx inp i
  rw [spenderMessage, front_spenderRecord, h]
  simp

lemma spenderComponents_invalid
    (hinvalid : (sigHashTypeOf (getSignature inp.scriptSig)).valid = false) :
    spenderComponents (spenderRecord H tx inp i) =
      ⟨Uint256.null, Uint256.null, Uint256.null, Uint256.null⟩ := by
  have hfront : (unhashedSpender tx inp).front = getSignature inp.scriptSig := rfl
  rw [spenderRecord, hashTx, hfront]
  simp only [hinvalid, Bool.not_false, if_true, ite_self]
  rfl

lemma spenderComponents_all (hfit : CountsFit tx) (hi : tx.vin[i]? = some inp)
    (hall : sigHashTypeOf (getSignature inp.scriptSig) = .all) :
    spenderComponents (spenderRecord H tx inp i) = componentsOf H tx.vin tx.vout := by
  have hlt : i < tx.vin.length := (List.getElem?_eq_some_iff.mp hi).1
  have hindex : (UInt32.ofNat i).toNat = i := by
    exact Nat.mod_eq_of_lt (hlt.trans hfit.vin)
  have hfront : (unhashedSpender tx inp).front = getSignature inp.scriptSig := rfl
  have hinputs : signedInputs tx (UInt32.ofNat i) SigHashType.all.inp = some tx.vin :=
    signedInputs_all hfit _
  have houtputs : signedOutputs tx SigHashType.all.out = some tx.vout := signedOutputs_all hfit
  rw [spenderRecord, hashTx, hfront, hall]
  rw [if_neg (by omega), hinputs]
  rw [houtputs]
  rfl

lemma spenderMessage_all (hfit : CountsFit tx) (hi : tx.vin[i]? = some inp)
    (hall : sigHashTypeOf (getSignature inp.scriptSig) = .all) (code : CScript) :
    spenderMessage (spenderRecord H tx inp i) code = allMessage H code tx := by
  rw [spenderMessage_spenderRecord, spenderComponents_all hfit hi hall, hall, allMessage]

end Record

/-- An input that carries two pushes and whose signature covers the whole transaction. -/
structure Signed (R : ScriptRules) (code key sig first second : Bytes) (tx : CTransaction)
    (inp : CTxIn) : Prop where
  pushes : ∃ opcode next opcode' next', getOp inp.scriptSig = some (opcode, first, next) ∧
    getOp next = some (opcode', second, next')
  encoding : sig ≠ [] ∧ checkSignatureEncoding sig = .ok ()
  validKey : pubKeyIsValid key = true
  all : sigHashTypeOf sig = .all
  verified : R.verifySchnorr key (R.hashes.hash256 (allMessage R.hashes code tx))
    (removeSigHashType sig) = true

section Signed
variable {R : ScriptRules} {code key sig first second : Bytes} {tx : CTransaction} {inp : CTxIn}

variable (h : Signed R code key sig first second tx inp)
include h

lemma Signed.getSignature :
    getSignature inp.scriptSig = first := by
  obtain ⟨opcode, next, -, -, hop, -⟩ := h.pushes
  rw [SpendProofCreate.getSignature, hop]

lemma Signed.secondPush {o : COutPoint}
    (hfind : (tx.vin.find? fun inp => inp.prevout = o) = some inp) :
    secondPush tx o = some second := by
  obtain ⟨opcode, next, opcode', next', hop, hop'⟩ := h.pushes
  rw [SpendProofCheck.secondPush, hfind]
  dsimp only
  rw [hop]
  dsimp only
  rw [hop']
  rfl

lemma Signed.firstPushes :
    firstPushes inp.scriptSig = [first, second] := by
  obtain ⟨opcode, next, opcode', next', hop, hop'⟩ := h.pushes
  simp [TemplateVerify.firstPushes, instructions_of_getOp hop, instructions_of_getOp hop']

lemma Signed.length_sig :
    64 ≤ sig.length ∧ sig.length ≤ 68 := by
  obtain ⟨hlower, hupper, -⟩ := (checkSignatureEncoding_eq_ok h.encoding.1).mp h.encoding.2
  exact ⟨hlower, hupper⟩

end Signed

/-- The push of a spend that is the signature: the first one of a pay-to-public-key-hash spend,
the one after the arguments of a template spend. -/
def signatureOf (out : CTxOut) (scriptSig : CScript) : Option StackItem :=
  if out.scriptType = .template then (pushes scriptSig)[1]? else (pushes scriptSig)[0]?

variable {H : HashFns} {out : CTxOut} {key : Bytes} {messages : Set Bytes}

lemma template_of_paysTo (h : PaysTo H key out) (htype : out.scriptType = .template) :
    ∃ group argsHash, getScriptTemplate .template out.scriptPubKey = .ok group p2pktId argsHash [] ∧
      checkScriptHash H argsHash (pushVector key) = .ok () := by
  cases h with
  | pubKeyHash htype' _ => cases htype.symm.trans htype'
  | pubKeyTemplate group argsHash _ hscript hargs => exact ⟨group, argsHash, hscript, hargs⟩

section Accepted
variable {R : ScriptRules} {flags : BitVec 32} {tx : CTransaction} {nIn : UInt32} {inp : CTxIn}
  {out : CTxOut} {key : Bytes} {m : ScriptMachine}

lemma satoEnv_flags_and {flag : BitVec 32} (checker : BaseSignatureChecker)
    (h : ~~~scriptVerifyP2sh &&& flag = flag) :
    (satoEnv R checker flags).flags &&& flag = flags &&& flag := by
  unfold satoEnv
  cases R.mainNet with
  | false => rfl
  | true =>
    rw [if_pos rfl, BitVec.and_assoc, h]

/-- A clean spend of a pay-to-public-key-hash output pushes a signature and a key. -/
lemma verifyInput_pubKeyHash {pubKeyHash : Bytes} {scriptSig : CScript}
    (hlen : pubKeyHash.length = 20) (hpushOnly : flags &&& scriptVerifySigPushOnly ≠ 0)
    (hclean : flags &&& scriptVerifyCleanStack ≠ 0) (htype : out.scriptType = .satoscript)
    (hscript : out.scriptPubKey = payToPubKeyHash pubKeyHash)
    (h : verifyInput R flags tx nIn scriptSig out = .ok m) :
    ∃ sig key, pushes scriptSig = [.vch sig, .vch key] ∧
      (R.hashes.hash160 key).data = pubKeyHash ∧ sig ≠ [] ∧ checkSignatureEncoding sig = .ok () ∧
      checkTxSig R tx nIn sig key (payToPubKeyHash pubKeyHash) = true := by
  rw [verifyInput, verifySpend, verifyScript, htype, hscript] at h
  have hcode : (payToPubKeyHash pubKeyHash).length ≤ 64 := by simp [payToPubKeyHash, hlen]
  obtain ⟨hpush, ⟨sm, heval⟩, sig, key, hpushes⟩ :=
    pushes_of_verifySatoScript (show 4 ≤ 201 by omega) hlen
      (by rwa [satoEnv_flags_and _ (by decide)]) (by rwa [satoEnv_flags_and _ (by decide)]) h
  obtain ⟨hhash, hresult⟩ := (verifySatoScript_payToPubKeyHash (show 4 ≤ 201 by omega) hlen hpush
    hpushes heval).mp ⟨m, h⟩
  obtain ⟨hne, hencoding, -, haccepted⟩ := (checkSigResult_eq_true rfl
    (refusesEmpty_transactionSignatureChecker R tx nIn) hcode).mp hresult
  exact ⟨sig, key, hpushes, hhash, hne, hencoding, haccepted⟩

variable {messages : Set Bytes} (hfit : CountsFit tx) (hfree : CollisionFree R.hashes messages)
  (hfirst : ∀ b ∈ firstPushes inp.scriptSig, b ∈ messages)
  (hall : ∀ sig, signatureOf out inp.scriptSig = some (.vch sig) → sigHashTypeOf sig = .all)
  (h : verifyInput R flags tx nIn inp.scriptSig out = .ok m)
include hfit hfree hfirst hall h

/-- The first push is the signature, the second the key. -/
lemma signed_pubKeyHash (hpushOnly : flags &&& scriptVerifySigPushOnly ≠ 0)
    (hclean : flags &&& scriptVerifyCleanStack ≠ 0) (htype : out.scriptType = .satoscript)
    (hscript : out.scriptPubKey = payToPubKeyHash (R.hashes.hash160 key).data)
    (hkey : key ∈ messages) :
    ∃ sig, Signed R (payToPubKeyHash (R.hashes.hash160 key).data) key sig sig key tx inp := by
  obtain ⟨sig, key', hpushes, hhash, hne, hencoding, hchecked⟩ :=
    verifyInput_pubKeyHash (R.hashes.hash160 key).size_eq hpushOnly hclean htype hscript h
  have hsigAll : sigHashTypeOf sig = .all := by
    refine hall sig ?_
    rw [signatureOf, if_neg (by rw [htype]; decide), hpushes]
    rfl
  obtain ⟨hvalid, hverified⟩ := verifySchnorr_of_checkTxSig hfit hsigAll hchecked
  have hlong := (checkSignatureEncoding_eq_ok hne).mp hencoding
  have hkeyLong := length_of_pubKeyIsValid hvalid
  obtain ⟨opcode, next, hop, hnext⟩ := getOp_of_pushes hpushes (by omega)
  obtain ⟨opcode', next', hop', -⟩ := getOp_of_pushes hnext (by omega)
  have hmem : key' ∈ firstPushes inp.scriptSig := by
    simp [firstPushes, instructions_of_getOp hop, instructions_of_getOp hop']
  obtain rfl : key' = key := hfree.hash160 (hfirst _ hmem) hkey (Uint160.ext hhash)
  exact ⟨sig, ⟨opcode, next, opcode', next', hop, hop'⟩, ⟨hne, hencoding⟩, hvalid, hsigAll,
    hverified⟩

/-- The first push is the arguments script, the second the signature. -/
lemma signed_pubKeyTemplate (hpays : PaysTo R.hashes key out) (htype : out.scriptType = .template)
    (hkey : pubKeyIsValid key = true) (hargsMem : pushVector key ∈ messages) :
    ∃ sig, Signed R p2pkt key sig (pushVector key) sig tx inp := by
  have hlength := length_le_of_pubKeyIsValid hkey
  obtain ⟨group, argsHash, hscript, hargs⟩ := template_of_paysTo hpays htype
  obtain ⟨opcode, satisfier, sig, hop, hpushes, hne, hencoding, hchecked⟩ :=
    verifySpend_template (refusesEmpty_transactionSignatureChecker R tx nIn) htype hscript hargs
      (by omega) hfree hargsMem hfirst h
  have hsigAll : sigHashTypeOf sig = .all := by
    refine hall sig ?_
    rw [signatureOf, if_pos htype, Interpreter.pushes, instructions_of_getOp hop]
    show (Interpreter.pushes satisfier)[0]? = some (.vch sig)
    rw [hpushes]
    rfl
  obtain ⟨hvalid, hverified⟩ := verifySchnorr_of_checkTxSig hfit hsigAll hchecked
  have hlong := (checkSignatureEncoding_eq_ok hne).mp hencoding
  obtain ⟨opcode', next', hop', -⟩ := getOp_of_pushes hpushes (by omega)
  exact ⟨sig, ⟨opcode, satisfier, opcode', next', hop, hop'⟩, ⟨hne, hencoding⟩, hvalid, hsigAll,
    hverified⟩

end Accepted

/-- A signature verifies for one message only. -/
def BindsMessage (R : ScriptRules) : Prop :=
  ∀ key hash hash' sig, R.verifySchnorr key hash sig = true → R.verifySchnorr key hash' sig = true →
    hash = hash'

/-- The messages that are hashed for a spend and for its record in a proof. -/
def spendMessages (H : HashFns) (out : CTxOut) (key : Bytes) (tx : CTransaction) (inp : CTxIn)
    (i : ℕ) : List Bytes :=
  [idemMessage tx, satisfierMessage tx, idMessage H tx, key, pushVector key,
    spenderMessage (spenderRecord H tx inp i) (scriptCodeOf out)] ++
    coveredMessages H (scriptCodeOf out) tx .all tx.vin tx.vout ++ firstPushes inp.scriptSig

/-- The messages of a spend are known. -/
structure Known (H : HashFns) (messages : Set Bytes) (out : CTxOut) (key : Bytes)
    (tx : CTransaction) (inp : CTxIn) (i : ℕ) : Prop where
  ids : txIdMessages H tx ⊆ messages
  pubkey : key ∈ messages
  args : pushVector key ∈ messages
  record : spenderMessage (spenderRecord H tx inp i) (scriptCodeOf out) ∈ messages
  covered : ∀ b ∈ coveredMessages H (scriptCodeOf out) tx .all tx.vin tx.vout, b ∈ messages
  first : ∀ b ∈ firstPushes inp.scriptSig, b ∈ messages

lemma known_of_spendMessages {tx : CTransaction} {inp : CTxIn} {i : ℕ}
    (h : ∀ b ∈ spendMessages H out key tx inp i, b ∈ messages) :
    Known H messages out key tx inp i where
  ids := by
    rintro b (rfl | rfl | rfl)
    all_goals exact h _ (by simp [spendMessages])
  pubkey := h _ (by simp [spendMessages])
  args := h _ (by simp [spendMessages])
  record := h _ (by simp [spendMessages])
  covered b hb := h b (by simp [spendMessages, hb])
  first b hb := h b (by simp [spendMessages, hb])

section Spenders
variable {R : ScriptRules} {out : CTxOut} {key sig : Bytes} {tx : CTransaction} {inp : CTxIn}
  {i : ℕ} {messages : Set Bytes}

lemma pushVector_ne_nil (hkey : pubKeyIsValid key = true) : pushVector key ≠ [] := by
  have hlength := length_of_pubKeyIsValid hkey
  have hlong : key.length < (pushVector key).length := length_lt_pushVector (by omega)
  exact ne_nil_of_length_pos (by omega)

/-- The record of a pay-to-public-key-hash spend is accepted for the key. -/
lemma verifySpender_of_signed (hfit : CountsFit tx) (hi : tx.vin[i]? = some inp)
    (htype : out.scriptType = .satoscript)
    (hscript : out.scriptPubKey = payToPubKeyHash (R.hashes.hash160 key).data)
    (h : Signed R (payToPubKeyHash (R.hashes.hash160 key).data) key sig sig key tx inp) :
    ∃ m, verifySpender R (spenderRecord R.hashes tx inp i) key out = .ok m := by
  have hfront : (spenderRecord R.hashes tx inp i).front = sig :=
    front_spenderRecord.trans h.getSignature
  have hmessage : spenderMessage (spenderRecord R.hashes tx inp i) _ = _ :=
    spenderMessage_all hfit hi (by rw [h.getSignature, h.all])
      (payToPubKeyHash (R.hashes.hash160 key).data)
  refine (verifySpender_pubKeyHash (R.hashes.hash160 key).size_eq htype hscript).mpr
    ⟨rfl, ?_, ?_, ?_⟩
  · rw [hfront]
    exact h.encoding.1
  · rw [hfront]
    exact h.encoding.2
  · rw [hfront, checkSpenderSig, hmessage, h.verified]
    simp [h.validKey, h.encoding.1]

/-- A record that carries the arguments of a template spend is accepted for the second push of
another spend only if that is a signature for the message of the record. -/
lemma verifySchnorr_of_verifySpender {s : Spender} {m : ScriptMachine}
    (hpays : PaysTo R.hashes key out) (htype : out.scriptType = .template)
    (hkey : pubKeyIsValid key = true) (hfree : CollisionFree R.hashes messages)
    (hargsMem : pushVector key ∈ messages) (hsigMem : sig ∈ messages)
    (hsig : 64 ≤ sig.length ∧ sig.length ≤ 68) (hfront : s.front = pushVector key)
    (h : verifySpender R s sig out = .ok m) :
    R.verifySchnorr key (R.hashes.hash256 (spenderMessage s p2pkt)) (removeSigHashType sig) =
      true := by
  obtain ⟨group, argsHash, hscript, hargs⟩ := template_of_paysTo hpays htype
  have hlength := length_of_pubKeyIsValid hkey
  have hlong : 2 < (pushVector key).length :=
    (by omega : 2 < key.length).trans (length_lt_pushVector (by omega))
  have hkeyMax := (length_pushVector key).2
  have hsigMax := (length_pushVector sig).2
  have hfits : (pushVector key ++ pushVector sig).length < 2 ^ 32 := by
    rw [length_append]
    omega
  obtain ⟨opcode, data, hop, hpush⟩ := getOp_pushVector hfits
  obtain ⟨opcode', data', hop', hpush'⟩ :=
    getOp_pushVector (by simp; omega : (sig ++ []).length < 2 ^ 32)
  have hdata : data = pushVector key :=
    (pushedData_of_length (by rw [hpush.data]; exact hlong)).trans hpush.data
  have hdata' : data' = sig :=
    (pushedData_of_length (by rw [hpush'.data]; omega)).trans hpush'.data
  subst hdata hdata'
  rw [append_nil] at hop'
  rw [verifySpender, rebuiltScript, hfront] at h
  obtain ⟨_, satisfier, sig', hget, hpushes, -, -, hchecked⟩ :=
    verifySpend_template (refusesEmpty_dspSignatureChecker R s) htype hscript hargs (by omega) hfree
      hargsMem (by
        intro b hb
        have hboth : b = pushVector key ∨ b = data' := by
          simpa [firstPushes, instructions_of_getOp hop, instructions_of_getOp hop'] using hb
        rcases hboth with rfl | rfl
        · exact hargsMem
        · exact hsigMem) h
  cases hop.symm.trans hget
  rw [pushes_pushVector (by omega)] at hpushes
  cases hpushes
  exact verifySchnorr_of_checkSpenderSig hchecked

end Spenders

section Pair
variable {R : ScriptRules} {out : CTxOut} {key : Bytes} {t₁ t₂ tx : CTransaction}
  {in₁ in₂ inp : CTxIn} {i₁ i₂ : ℕ} {messages : Set Bytes}

/-- A record that carries the arguments of a template spend does not have the message of a
signature that covers the whole transaction, unless its arguments stand for that type. -/
lemma sigHashType_of_spenderMessage_eq (hfree : CollisionFree R.hashes messages)
    (hmem : ∀ b ∈ coveredMessages R.hashes p2pkt tx .all tx.vin tx.vout, b ∈ messages)
    (hne : tx.vin ≠ [])
    (h : spenderMessage (spenderRecord R.hashes t₁ in₁ i₁) p2pkt = allMessage R.hashes p2pkt tx) :
    sigHashTypeOf (getSignature in₁.scriptSig) = .all := by
  rw [spenderMessage_spenderRecord] at h
  obtain ⟨-, -, -, htype, hcomponents⟩ := sigHashMessage_inj (by decide) (by decide) h
  cases hvalid : (sigHashTypeOf (getSignature in₁.scriptSig)).valid with
  | true => exact SigHashType.eq_of_appendToSig_eq hvalid rfl htype
  | false =>
    rw [spenderComponents_invalid hvalid, Components.mk.injEq] at hcomponents
    have heq := congrArg List.length (hfree.hash256 (hmem _ (by simp [coveredMessages]))
      (hmem _ (by simp [coveredMessages])) (hcomponents.1.symm.trans hcomponents.2.1))
    rw [length_prevoutMessage, length_sequenceMessage] at heq
    have hpos := length_pos_iff.mpr hne
    omega

variable {view : DspView} {ptx : Option CTransaction} {o : COutPoint} (hnull : o.isNull = false)
  (hout : prevOutput view o = some out) (htx : ptx.or (view.mapNextTx o) = some tx)
include hnull hout htx

/-- A proof of two pay-to-public-key-hash spends is valid. -/
lemma validate_pubKeyHash {sig₁ sig₂ : Bytes} (hfit₁ : CountsFit t₁) (hfit₂ : CountsFit t₂)
    (hi₁ : t₁.vin[i₁]? = some in₁) (hi₂ : t₂.vin[i₂]? = some in₂)
    (htype : out.scriptType = .satoscript)
    (hscript : out.scriptPubKey = payToPubKeyHash (R.hashes.hash160 key).data)
    (hs₁ : Signed R (payToPubKeyHash (R.hashes.hash160 key).data) key sig₁ sig₁ key t₁ in₁)
    (hs₂ : Signed R (payToPubKeyHash (R.hashes.hash160 key).data) key sig₂ sig₂ key t₂ in₂)
    (hmessages : spenderMessage (spenderRecord R.hashes t₁ in₁ i₁)
        (payToPubKeyHash (R.hashes.hash160 key).data) ≠
      spenderMessage (spenderRecord R.hashes t₂ in₂ i₂)
        (payToPubKeyHash (R.hashes.hash160 key).data)) (hpush : secondPush tx o = some key) :
    validate R view ptx (sortedProof o (spenderRecord R.hashes t₁ in₁ i₁)
      (spenderRecord R.hashes t₂ in₂ i₂)) = .valid := by
  refine (validate_sortedProof hnull ?_ ?_ hout htx hpush).mpr ⟨?_, ?_, ?_, ?_⟩
  · rw [front_spenderRecord, hs₁.getSignature]
    exact hs₁.encoding.1
  · rw [front_spenderRecord, hs₂.getSignature]
    exact hs₂.encoding.1
  · intro hsame
    exact hmessages (congrArg (fun s => spenderMessage s _) hsame)
  · rintro rfl
    exact absurd hs₁.validKey (by decide)
  · exact verifySpender_of_signed hfit₁ hi₁ htype hscript hs₁
  · exact verifySpender_of_signed hfit₂ hi₂ htype hscript hs₂

/-- A proof of two template spends is not valid: both records are checked with the signature of
the spending transaction, which is good for one message only. -/
lemma validate_pubKeyTemplate {sig : Bytes} (hideal : BindsMessage R)
    (hpays : PaysTo R.hashes key out) (htype : out.scriptType = .template)
    (hfree : CollisionFree R.hashes messages) (hargsMem : pushVector key ∈ messages)
    (hsigMem : sig ∈ messages)
    (hmem₁ : spenderMessage (spenderRecord R.hashes t₁ in₁ i₁) p2pkt ∈ messages)
    (hmem₂ : spenderMessage (spenderRecord R.hashes t₂ in₂ i₂) p2pkt ∈ messages)
    (hmem : ∀ b ∈ coveredMessages R.hashes p2pkt tx .all tx.vin tx.vout, b ∈ messages)
    (hfirst₁ : getSignature in₁.scriptSig = pushVector key)
    (hfirst₂ : getSignature in₂.scriptSig = pushVector key) (hne : tx.vin ≠ [])
    (hs : Signed R p2pkt key sig (pushVector key) sig tx inp)
    (hmessages : sigHashTypeOf (getSignature in₁.scriptSig) = .all →
      sigHashTypeOf (getSignature in₂.scriptSig) = .all →
      spenderMessage (spenderRecord R.hashes t₁ in₁ i₁) p2pkt ≠
        spenderMessage (spenderRecord R.hashes t₂ in₂ i₂) p2pkt)
    (hpush : secondPush tx o = some sig) :
    validate R view ptx (sortedProof o (spenderRecord R.hashes t₁ in₁ i₁)
      (spenderRecord R.hashes t₂ in₂ i₂)) ≠ .valid := by
  have hfront := pushVector_ne_nil hs.validKey
  -- The signature of the spending transaction is good for the message of that transaction.
  have hsame : ∀ s : Spender, s.front = pushVector key → spenderMessage s p2pkt ∈ messages →
      (∃ m, verifySpender R s sig out = .ok m) →
      spenderMessage s p2pkt = allMessage R.hashes p2pkt tx := by
    rintro s hs' hmem' ⟨m, h⟩
    have hverified := verifySchnorr_of_verifySpender hpays htype hs.validKey hfree hargsMem
      hsigMem hs.length_sig hs' h
    exact hfree.hash256 hmem' (hmem _ (by simp [coveredMessages, allMessage]))
      (hideal _ _ _ _ hverified hs.verified)
  rw [Ne, validate_sortedProof hnull (by rw [front_spenderRecord, hfirst₁]; exact hfront)
    (by rw [front_spenderRecord, hfirst₂]; exact hfront) hout htx hpush]
  rintro ⟨-, -, h₁, h₂⟩
  have heq₁ := hsame _ (front_spenderRecord.trans hfirst₁) hmem₁ h₁
  have heq₂ := hsame _ (front_spenderRecord.trans hfirst₂) hmem₂ h₂
  exact hmessages (sigHashType_of_spenderMessage_eq hfree hmem hne heq₁)
    (sigHashType_of_spenderMessage_eq hfree hmem hne heq₂) (heq₁.trans heq₂.symm)

end Pair

/-- Both transactions spend the outpoint. -/
def Shared (t₁ t₂ : CTransaction) (o : COutPoint) : Prop :=
  (∃ inp ∈ t₁.vin, inp.prevout = o) ∧ ∃ inp ∈ t₂.vin, inp.prevout = o

/-- A transaction that passes script verification and whose signatures for the outpoints cover
all of it. -/
structure Accepted (R : ScriptRules) (flags : BitVec 32) (view : DspView)
    (outpoints : COutPoint → Prop) (tx : CTransaction) : Prop where
  fits : CountsFit tx
  verified : ∀ i inp out, tx.vin[i]? = some inp → prevOutput view inp.prevout = some out →
    ∃ m, verifyInput R flags tx (UInt32.ofNat i) inp.scriptSig out = .ok m
  all : ∀ inp ∈ tx.vin, outpoints inp.prevout → ∀ out, prevOutput view inp.prevout = some out →
    ∀ sig, signatureOf out inp.scriptSig = some (.vch sig) → sigHashTypeOf sig = .all

/-- Two accepted transactions with different idems that spend outputs of keys, one of which is
in the memory pool or at hand. -/
structure Conflict (R : ScriptRules) (flags : BitVec 32) (view : DspView)
    (ptx : Option CTransaction) (keyOf : COutPoint → Bytes) (t₁ t₂ : CTransaction) : Prop where
  idem_ne : getTxIdem R.hashes t₁ ≠ getTxIdem R.hashes t₂
  shared : ∃ o, Shared t₁ t₂ o
  notNull : ∀ o, Shared t₁ t₂ o → o.isNull = false
  coin : ∀ o, Shared t₁ t₂ o → ∃ out, prevOutput view o = some out ∧ out.nValue ≠ -1 ∧
    PaysTo R.hashes (keyOf o) out ∧ pubKeyIsValid (keyOf o) = true
  inPool : ∀ o, Shared t₁ t₂ o →
    ptx.or (view.mapNextTx o) = some t₁ ∨ ptx.or (view.mapNextTx o) = some t₂
  accepted₁ : Accepted R flags view (Shared t₁ t₂) t₁
  accepted₂ : Accepted R flags view (Shared t₁ t₂) t₂

lemma isValidType_of_paysTo (h : PaysTo H key out) :
    isValidType out = true := by
  cases h with
  | pubKeyHash htype hscript =>
    have hlen := (H.hash160 key).size_eq
    rw [isValidType, if_neg (by rw [htype]; decide), hscript]
    simp [matchPayToPubkeyHash, payToPubKeyHash, hlen]
  | pubKeyTemplate group argsHash htype hscript hargs =>
    have hlen : argsHash.length = 20 ∨ argsHash.length = 32 := by
      by_contra hnot
      rw [not_or] at hnot
      rw [checkScriptHash, if_neg hnot.1, if_neg hnot.2] at hargs
      cases hargs
    rw [isValidType, htype, hscript]
    rcases hlen with hlen | hlen <;> simp [hlen]

/-- A proof can be created for two conflicting transactions. It is valid exactly if the first
outpoint that they share pays to the hash of a key. -/
theorem create_validate_iff (R : ScriptRules) (flags : BitVec 32) (view : DspView)
    (ptx : Option CTransaction) (keyOf : COutPoint → Bytes) (t₁ t₂ : CTransaction)
    (messages : Set Bytes) (hpushOnly : flags &&& scriptVerifySigPushOnly ≠ 0)
    (hclean : flags &&& scriptVerifyCleanStack ≠ 0)
    (hconflict : Conflict R flags view ptx keyOf t₁ t₂) (hideal : BindsMessage R)
    (hfree : CollisionFree R.hashes messages)
    (hmem : ∀ in₁ i₁ in₂ i₂ out, firstShared t₁ t₂ = some ((in₁, i₁), in₂, i₂) →
      prevOutput view in₁.prevout = some out →
      ∀ b ∈ spendMessages R.hashes out (keyOf in₁.prevout) t₁ in₁ i₁ ++
        spendMessages R.hashes out (keyOf in₁.prevout) t₂ in₂ i₂, b ∈ messages) :
    ∃ p, create R.hashes view t₁ t₂ = .ok p ∧ (validate R view ptx p = .valid ↔
      ∃ first second out, firstShared t₁ t₂ = some (first, second) ∧
        prevOutput view first.1.prevout = some out ∧ out.scriptType = .satoscript) := by
  obtain ⟨o', ⟨inp₁, hinp₁, hprevout₁⟩, inp₂, hinp₂, hprevout₂⟩ := hconflict.shared
  obtain ⟨⟨⟨in₁, i₁⟩, in₂, i₂⟩, hshared⟩ :=
    exists_firstShared hinp₁ hinp₂ (hprevout₁.trans hprevout₂.symm)
  obtain ⟨hsame, hi₁, hi₂, hfind₁, hfind₂⟩ := firstShared_eq_some hshared
  have hin₁ : in₁ ∈ t₁.vin := mem_of_getElem? hi₁
  have hin₂ : in₂ ∈ t₂.vin := mem_of_getElem? hi₂
  have ho : Shared t₁ t₂ in₁.prevout := ⟨⟨in₁, hin₁, rfl⟩, in₂, hin₂, hsame⟩
  have hnull := hconflict.notNull _ ho
  obtain ⟨out, hout, hvalue, hpays, hkey⟩ := hconflict.coin _ ho
  have hout₂ : prevOutput view in₂.prevout = some out := by rwa [hsame]
  have hmem' := hmem in₁ i₁ in₂ i₂ out hshared hout
  generalize keyOf in₁.prevout = key at hpays hkey hmem'
  have hknown₁ : Known R.hashes messages out key t₁ in₁ i₁ :=
    known_of_spendMessages fun b hb => hmem' b (mem_append_left _ hb)
  have hknown₂ : Known R.hashes messages out key t₂ in₂ i₂ :=
    known_of_spendMessages fun b hb => hmem' b (mem_append_right _ hb)
  have hid : getTxId R.hashes t₁ ≠ getTxId R.hashes t₂ := by
    intro h
    have hinj := hfree.hash256.mono (Set.union_subset hknown₁.ids hknown₂.ids)
    exact hconflict.idem_ne (congrArg R.hashes.hash256 (messages_eq_of_getTxId_eq _ _ _ hinj h).1)
  have hcoin := viewMemPoolGetCoin_of_prevOutput hout hvalue
  have hvalid := isValidType_of_paysTo hpays
  have hfit₁ := hconflict.accepted₁.fits
  have hfit₂ := hconflict.accepted₂.fits
  obtain ⟨m₁, hm₁⟩ := hconflict.accepted₁.verified _ _ _ hi₁ hout
  obtain ⟨m₂, hm₂⟩ := hconflict.accepted₂.verified _ _ _ hi₂ hout₂
  have hall₁ := hconflict.accepted₁.all in₁ hin₁ ho out hout
  have hall₂ := hconflict.accepted₂.all in₂ hin₂ (by rwa [hsame]) out hout₂
  have hcode := fits_scriptCodeOf hpays
  have hmessages : sigHashTypeOf (getSignature in₁.scriptSig) = .all →
      sigHashTypeOf (getSignature in₂.scriptSig) = .all →
      spenderMessage (spenderRecord R.hashes t₁ in₁ i₁) (scriptCodeOf out) ≠
        spenderMessage (spenderRecord R.hashes t₂ in₂ i₂) (scriptCodeOf out) := by
    intro h₁ h₂ h
    rw [spenderMessage_all hfit₁ hi₁ h₁, spenderMessage_all hfit₂ hi₂ h₂] at h
    obtain ⟨-, hversion, hlock, -, hvin, hvout⟩ := covered_eq_of_sigHashMessage_eq hfree.hash256
      hknown₁.covered hknown₂.covered hcode hcode hfit₁.scriptPubKey hfit₂.scriptPubKey h
    refine hconflict.idem_ne ?_
    rw [getTxIdem, getTxIdem, idemMessage_eq_of_signedFields hversion hlock hvin hvout]
  cases hpays' : hpays with
  | pubKeyHash htype hscript =>
    have hcode : scriptCodeOf out = payToPubKeyHash (R.hashes.hash160 key).data := by
      rw [scriptCodeOf, if_neg (by rw [htype]; decide), hscript]
    rw [hcode] at hmessages
    obtain ⟨sig₁, hs₁⟩ := signed_pubKeyHash hfit₁ hfree hknown₁.first hall₁ hm₁ hpushOnly hclean
      htype hscript hknown₁.pubkey
    obtain ⟨sig₂, hs₂⟩ := signed_pubKeyHash hfit₂ hfree hknown₂.first hall₂ hm₂ hpushOnly hclean
      htype hscript hknown₂.pubkey
    have htx : ∃ tx, ptx.or (view.mapNextTx in₁.prevout) = some tx ∧
        secondPush tx in₁.prevout = some key := by
      rcases hconflict.inPool _ ho with htx | htx
      · exact ⟨t₁, htx, hs₁.secondPush hfind₁⟩
      · exact ⟨t₂, htx, hs₂.secondPush hfind₂⟩
    obtain ⟨tx, htx, hpush⟩ := htx
    refine ⟨_, create_eq_ok hid hshared hcoin hvalid
      (by rw [hs₁.getSignature]; exact hs₁.encoding.1)
      (by rw [hs₂.getSignature]; exact hs₂.encoding.1) hnull, iff_of_true ?_ ?_⟩
    · exact validate_pubKeyHash hnull hout htx hfit₁ hfit₂ hi₁ hi₂ htype hscript hs₁ hs₂
        (hmessages (by rw [hs₁.getSignature, hs₁.all]) (by rw [hs₂.getSignature, hs₂.all])) hpush
    · exact ⟨_, _, out, hshared, hout, htype⟩
  | pubKeyTemplate _ _ htype =>
    have hcode : scriptCodeOf out = p2pkt := by rw [scriptCodeOf, if_pos htype]
    have hcovered₁ := hknown₁.covered
    have hcovered₂ := hknown₂.covered
    have hrecord₁ := hknown₁.record
    have hrecord₂ := hknown₂.record
    rw [hcode] at hmessages hcovered₁ hcovered₂ hrecord₁ hrecord₂
    obtain ⟨sig₁, hs₁⟩ := signed_pubKeyTemplate hfit₁ hfree hknown₁.first hall₁ hm₁ hpays
      htype hkey hknown₁.args
    obtain ⟨sig₂, hs₂⟩ := signed_pubKeyTemplate hfit₂ hfree hknown₂.first hall₂ hm₂ hpays
      htype hkey hknown₂.args
    have hfirst := pushVector_ne_nil hkey
    refine ⟨_, create_eq_ok hid hshared hcoin hvalid (by rw [hs₁.getSignature]; exact hfirst)
      (by rw [hs₂.getSignature]; exact hfirst) hnull, iff_of_false ?_ ?_⟩
    · rcases hconflict.inPool _ ho with htx | htx
      · exact validate_pubKeyTemplate hnull hout htx hideal hpays htype hfree hknown₁.args
          (hknown₁.first _ (by simp [hs₁.firstPushes])) hrecord₁ hrecord₂ hcovered₁
          hs₁.getSignature hs₂.getSignature (ne_nil_of_mem hin₁) hs₁ hmessages
          (hs₁.secondPush hfind₁)
      · exact validate_pubKeyTemplate hnull hout htx hideal hpays htype hfree hknown₁.args
          (hknown₂.first _ (by simp [hs₂.firstPushes])) hrecord₁ hrecord₂ hcovered₂
          hs₁.getSignature hs₂.getSignature (ne_nil_of_mem hin₂) hs₂ hmessages
          (hs₂.secondPush hfind₂)
    · rintro ⟨_, _, out', hshared', hout', htype'⟩
      cases hshared.symm.trans hshared'
      cases hout.symm.trans hout'
      rw [htype] at htype'
      cases htype'

/-- Rules under which a signature is the hash of its message, twice. -/
def bindingRules : ScriptRules where
  hashes := residueHash
  verifySchnorr _ sighash sig := decide (sig = sighash.data ++ sighash.data)
  otherOps _ _ _ := .error .badOpcode
  mainNet := false

lemma bindsMessage_bindingRules : BindsMessage bindingRules := by
  intro key hash hash' sig h h'
  have heq := (of_decide_eq_true h).symm.trans (of_decide_eq_true h')
  have hdata := (append_inj heq (hash.size_eq.trans hash'.size_eq.symm)).1
  cases hash'
  cases hdata
  rfl

def inputWith (scriptSig : CScript) : CTxIn := ⟨0, outpointA, scriptSig, 0, 1000⟩

/-- A transaction that spends one output. -/
def spendWith (scriptSig : CScript) (nValue : CAmount) : CTransaction :=
  ⟨0, [inputWith scriptSig], [⟨0, nValue, [op1]⟩], 0⟩

/-- The signature of such a transaction, which does not depend on its satisfier. -/
def signatureFor (code : CScript) (nValue : CAmount) : Bytes :=
  let sighash := residueHash.hash256 (allMessage residueHash code (spendWith [] nValue))
  sighash.data ++ sighash.data

def keyHashSig (nValue : CAmount) : CScript :=
  pushVector (signatureFor keyOut.scriptPubKey nValue) ++ pushVector testKey

/-- An output that pays to the key by the template. -/
def templateOut : CTxOut :=
  ⟨1, 1000, [op0, op1, 20] ++ (residueHash.hash160 (pushVector testKey)).data⟩

def templateSig (nValue : CAmount) : CScript :=
  pushVector (pushVector testKey) ++ pushVector (signatureFor p2pkt nValue)

/-- The output and one of its spends are in the memory pool. -/
def poolWith (out : CTxOut) (tx : CTransaction) : DspView where
  poolOutput o := if o = outpointA then some out else none
  pcoinsTip := ⟨Cache.above fun _ => none, Uint256.null, Uint256.null⟩
  mapNextTx o := if o = outpointA then some tx else none

def cleanFlags : BitVec 32 :=
  scriptVerifySigPushOnly ||| scriptVerifyCleanStack ||| scriptEnableSigHashForkId

section OneInput
variable {out : CTxOut} {s₁ s₂ : CScript} {v₁ v₂ : CAmount}

lemma shared_spendWith (o : COutPoint) :
    Shared (spendWith s₁ v₁) (spendWith s₂ v₂) o ↔ o = outpointA := by
  simp [Shared, spendWith, inputWith, eq_comm]

lemma prevOutput_poolWith (tx : CTransaction) :
    prevOutput (poolWith out tx) outpointA = some out := by
  simp [prevOutput, poolWith]

lemma accepted_spendWith {tx : CTransaction} {s : CScript} {v : CAmount} (sig : Bytes)
    {outpoints : COutPoint → Prop}
    (hverified : (verifyInput bindingRules cleanFlags (spendWith s v) 0 s out).isOk = true)
    (hsig : signatureOf out s = some (.vch sig)) (hall : sigHashTypeOf sig = .all) :
    Accepted bindingRules cleanFlags (poolWith out tx) outpoints (spendWith s v) where
  fits := ⟨by simp [spendWith], by simp [spendWith], by simp [spendWith, Fits]⟩
  verified := by
    intro i inp out' hi hout
    obtain ⟨rfl, rfl⟩ : i = 0 ∧ inputWith s = inp := by
      cases i with
      | zero => exact ⟨rfl, Option.some.inj hi⟩
      | succ i => simp [spendWith] at hi
    cases (prevOutput_poolWith tx).symm.trans hout
    exact exists_eq_ok.mp hverified
  all := by
    intro inp hinp _ out' hout sig' hsig'
    obtain rfl : inp = inputWith s := mem_singleton.mp hinp
    cases (prevOutput_poolWith tx).symm.trans hout
    cases hsig.symm.trans hsig'
    exact hall

lemma conflict_spendWith (hpays : PaysTo residueHash testKey out) (hvalue : out.nValue ≠ -1)
    (hidem : getTxIdem residueHash (spendWith s₁ v₁) ≠ getTxIdem residueHash (spendWith s₂ v₂))
    (h₁ : Accepted bindingRules cleanFlags (poolWith out (spendWith s₁ v₁))
      (Shared (spendWith s₁ v₁) (spendWith s₂ v₂)) (spendWith s₁ v₁))
    (h₂ : Accepted bindingRules cleanFlags (poolWith out (spendWith s₁ v₁))
      (Shared (spendWith s₁ v₁) (spendWith s₂ v₂)) (spendWith s₂ v₂)) :
    Conflict bindingRules cleanFlags (poolWith out (spendWith s₁ v₁)) none (fun _ => testKey)
      (spendWith s₁ v₁) (spendWith s₂ v₂) where
  idem_ne := hidem
  shared := ⟨outpointA, (shared_spendWith _).mpr rfl⟩
  notNull o ho := by
    rw [(shared_spendWith o).mp ho]
    decide +kernel
  coin o ho := by
    rw [(shared_spendWith o).mp ho]
    exact ⟨out, prevOutput_poolWith _, hvalue, hpays, by decide⟩
  inPool o ho := by
    rw [(shared_spendWith o).mp ho]
    simp [poolWith]
  accepted₁ := h₁
  accepted₂ := h₂

end OneInput

def keySpend (nValue : CAmount) : CTransaction := spendWith (keyHashSig nValue) nValue

def keyPool : DspView := poolWith keyOut (keySpend 800)

theorem create_validate_iff_keyHashSig :
    ∃ p, create residueHash keyPool (keySpend 800) (keySpend 900) = .ok p ∧
      validate bindingRules keyPool none p = .valid := by
  have hconflict : Conflict bindingRules cleanFlags keyPool none (fun _ => testKey)
      (keySpend 800) (keySpend 900) :=
    conflict_spendWith (.pubKeyHash rfl rfl) (by decide) (by decide +kernel)
      (accepted_spendWith (signatureFor keyOut.scriptPubKey 800) (by decide +kernel)
        (by decide +kernel) (by decide +kernel))
      (accepted_spendWith (signatureFor keyOut.scriptPubKey 900) (by decide +kernel)
        (by decide +kernel) (by decide +kernel))
  have hfree : CollisionFree residueHash {b | b ∈
      spendMessages residueHash keyOut testKey (keySpend 800) (inputWith (keyHashSig 800)) 0 ++
      spendMessages residueHash keyOut testKey (keySpend 900) (inputWith (keyHashSig 900)) 0} :=
    collisionFree_of_nodup (by decide +kernel) (by decide +kernel)
  obtain ⟨p, hcreate, hvalid⟩ := create_validate_iff bindingRules cleanFlags keyPool none
    (fun _ => testKey) (keySpend 800) (keySpend 900) _ (by decide) (by decide) hconflict
    bindsMessage_bindingRules hfree (by
      intro in₁ i₁ in₂ i₂ out hshared hout b hb
      cases hshared
      cases (prevOutput_poolWith _).symm.trans hout
      exact hb)
  exact ⟨p, hcreate, hvalid.mpr ⟨_, _, keyOut, rfl, prevOutput_poolWith _, rfl⟩⟩

def templateSpend (nValue : CAmount) : CTransaction := spendWith (templateSig nValue) nValue

def templatePool : DspView := poolWith templateOut (templateSpend 800)

/-- Two spends of an output that pays to a key by the template have none. -/
theorem create_templateSig_invalid :
    Conflict bindingRules cleanFlags templatePool none (fun _ => testKey) (templateSpend 800)
        (templateSpend 900) ∧
      ∃ p, create residueHash templatePool (templateSpend 800) (templateSpend 900) = .ok p ∧
        validate bindingRules templatePool none p = .invalid := by
  have hresult : (create residueHash templatePool (templateSpend 800)
      (templateSpend 900)).toOption.map (validate bindingRules templatePool none) =
        some .invalid := by
    decide +kernel
  constructor
  · exact conflict_spendWith (.pubKeyTemplate _ _ rfl (by rfl) (by decide +kernel)) (by decide)
      (by decide +kernel)
      (accepted_spendWith (signatureFor p2pkt 800) (by decide +kernel) (by decide +kernel)
        (by decide +kernel))
      (accepted_spendWith (signatureFor p2pkt 900) (by decide +kernel) (by decide +kernel)
        (by decide +kernel))
  · cases hcreate : create residueHash templatePool (templateSpend 800) (templateSpend 900) with
    | error e =>
      rw [hcreate] at hresult
      cases hresult
    | ok p =>
      rw [hcreate] at hresult
      exact ⟨p, rfl, Option.some.inj hresult⟩

end PyrrhaNode.SpendProofComplete
