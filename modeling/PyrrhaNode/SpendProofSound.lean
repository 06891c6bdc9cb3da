import PyrrhaNode.SpendProofCheck

/-!
# What a valid double-spend proof proves

Signatures are ideal: one verifies for a key only if the owner of the key signed the
message. A valid proof then shows that the owner signed two messages. They are signatures
of two different spends of one outpoint exactly if the two records differ in a field that
signatures cover and both commit to the outpoint; validation asks for neither.
-/
namespace PyrrhaNode.SpendProofSound
open List ByteCodec Serialize Transaction Script
open Interpreter
open SignatureHash ScriptOps SatoVerify
open TemplateVerify SpendVerify SpendProof
open SpendProofCheck WriteBackCache

/-- What the owner of a key was asked to sign. -/
structure SignRequest where
  scriptCode : CScript
  tx : CTransaction
  nIn : UInt32
  sigHashType : SigHashType

def SignRequest.sigHash (H : HashFns) (r : SignRequest) : Option Uint256 :=
  signatureHashPyrrha H r.scriptCode r.tx r.nIn r.sigHashType

def SignRequest.messages (H : HashFns) (r : SignRequest) : List Bytes :=
  sigHashMessages H r.scriptCode r.tx r.nIn r.sigHashType

/-- The signature covers an input that spends the outpoint. -/
def SignRequest.Spends (r : SignRequest) (o : COutPoint) : Prop :=
  ∃ inputs, signedInputs r.tx r.nIn r.sigHashType.inp = some inputs ∧
    ∃ inp ∈ inputs, inp.prevout = o

/-- A signature verifies for the key only if its owner signed the hash of a request. -/
def Unforgeable (R : ScriptRules) (key : Bytes) (signed : Set SignRequest) : Prop :=
  ∀ sighash sig, R.verifySchnorr key sighash sig = true →
    ∃ r ∈ signed, r.sigHash R.hashes = some sighash

/-- The owner signed two spends of the outpoint that differ in something signatures cover. -/
def SignedTwice (H : HashFns) (signed : Set SignRequest) (o : COutPoint) : Prop :=
  ∃ r₁ ∈ signed, ∃ r₂ ∈ signed, r₁.Spends o ∧ r₂.Spends o ∧ r₁.sigHash H ≠ r₂.sigHash H

/-- The messages that are hashed when a proof is checked. -/
def proofMessages (key pubkey scriptCode : Bytes) (p : DoubleSpendProof) : List Bytes :=
  [key, pushVector key, pubkey] ++ [p.spender1, p.spender2].flatMap fun s =>
    spenderMessage s scriptCode :: firstPushes (rebuiltScript s pubkey)

section Spender
variable {R : ScriptRules} {s : Spender} {key pubkey : Bytes} {prevOut : CTxOut}
  {m : ScriptMachine} {messages : Set Bytes}

lemma refusesEmpty_dspSignatureChecker (R : ScriptRules) (s : Spender) :
    RefusesEmpty (dspSignatureChecker R s) := by
  intro key scriptCode
  show checkSpenderSig R s [] key scriptCode = false
  simp [checkSpenderSig]

lemma verifySchnorr_of_checkSpenderSig {sig code : Bytes}
    (h : checkSpenderSig R s sig key code = true) :
    R.verifySchnorr key (R.hashes.hash256 (spenderMessage s code)) (removeSigHashType sig) =
      true := by
  unfold checkSpenderSig at h
  split_ifs at h
  exact h

lemma pushes_rebuiltScript {a b : Bytes} (h : (pushVector a ++ pushVector b).length < 2 ^ 32) :
    isPushOnly (pushVector a ++ pushVector b) = true ∧
      pushes (pushVector a ++ pushVector b) = [.vch a, .vch b] := by
  have hle := (length_pushVector a).1
  rw [length_append] at h
  obtain ⟨i, j, hinstructions, hi, hj⟩ := instructions_pushTwo
    (by rw [length_append]; omega : (a ++ pushVector b).length < 2 ^ 32)
  refine ⟨by simp [isPushOnly, hinstructions, hi.push, hj.push], ?_⟩
  rw [pushes, hinstructions, map_cons, map_cons, hi.data, hj.data]
  rfl

lemma satoEnv_flags (R : ScriptRules) (checker : BaseSignatureChecker) :
    (satoEnv R checker scriptEnableSigHashForkId).flags &&& scriptVerifyMinimalData = 0 ∧
      (satoEnv R checker scriptEnableSigHashForkId).flags &&& scriptVerifyStrictEnc = 0 ∧
      (satoEnv R checker scriptEnableSigHashForkId).flags &&&
        scriptVerifyCompressedPubKeyType = 0 := by
  unfold satoEnv
  cases R.mainNet <;> dsimp only <;> decide

/-- A pay-to-public-key-hash output: the first push is the signature, the second the key. -/
lemma verifySpender_pubKeyHash {pubKeyHash : Bytes} (hlen : pubKeyHash.length = 20)
    (htype : prevOut.scriptType = .satoscript)
    (hscript : prevOut.scriptPubKey = payToPubKeyHash pubKeyHash) :
    (∃ m, verifySpender R s pubkey prevOut = .ok m) ↔
      (R.hashes.hash160 pubkey).data = pubKeyHash ∧ s.front ≠ [] ∧
      checkSignatureEncoding s.front = .ok () ∧
      checkSpenderSig R s s.front pubkey (payToPubKeyHash pubKeyHash) = true := by
  have hcode : (payToPubKeyHash pubKeyHash).length ≤ 64 := by simp [payToPubKeyHash, hlen]
  obtain ⟨hminimal, hstrict, hcompressed⟩ := satoEnv_flags R (dspSignatureChecker R s)
  have hresult : checkSigResult (satoEnv R (dspSignatureChecker R s) scriptEnableSigHashForkId)
      s.front pubkey (payToPubKeyHash pubKeyHash) = .ok true ↔ _ :=
    checkSigResult_eq_true rfl (refusesEmpty_dspSignatureChecker R s) hcode
  rw [verifySpender, verifySpend, verifyScript, htype, if_neg (by decide), hscript]
  constructor
  · rintro ⟨m, h⟩
    obtain ⟨-, sm, heval, -⟩ :=
      (verifySatoScript_eq_ok (not_isPayToScriptHash_payToPubKeyHash hlen)).mp h
    have hsize : (rebuiltScript s pubkey).length ≤ 10000 := (ScriptMachine.eval_eq_ok.mp heval).1
    obtain ⟨hpush, hpushes⟩ := pushes_rebuiltScript (hsize.trans_lt (by norm_num))
    obtain ⟨hhash, hsig⟩ := (verifySatoScript_payToPubKeyHash (show 4 ≤ 201 by omega) hlen hpush
      hpushes
      heval).mp ⟨m, h⟩
    obtain ⟨hne, hencoding, -, haccepted⟩ := hresult.mp hsig
    exact ⟨hhash, hne, hencoding, haccepted⟩
  · rintro ⟨hhash, hne, hencoding, haccepted⟩
    have hfront := ((checkSignatureEncoding_eq_ok hne).mp hencoding).2.1
    have hkey : pubkey.length ≤ 65 := by
      refine length_le_of_pubKeyIsValid ?_
      unfold checkSpenderSig at haccepted
      split_ifs at haccepted with hvalid
      simpa using hvalid
    have heval : ScriptMachine.init.eval _ (ops R) (pushVector s.front ++ pushVector pubkey) = _ :=
      eval_pushTwo (hfront.trans (by decide)) (hkey.trans (by decide)) hminimal
    have hsize : (pushVector s.front ++ pushVector pubkey).length < 2 ^ 32 := by
      have h₁ := (length_pushVector s.front).2
      have h₂ := (length_pushVector pubkey).2
      rw [length_append]
      omega
    obtain ⟨hpush, hpushes⟩ := pushes_rebuiltScript hsize
    refine (verifySatoScript_payToPubKeyHash (show 4 ≤ 201 by omega) hlen hpush hpushes heval).mpr
      ⟨hhash, hresult.mpr ⟨hne, hencoding, ?_, haccepted⟩⟩
    unfold checkPubKeyEncoding
    rw [if_neg fun h => h.1 hstrict, if_neg fun h => h.1 hcompressed]
    rfl

/-- The owner of the key signed the message of an accepted spender. -/
lemma exists_verifySchnorr (hpays : PaysTo R.hashes key prevOut) (hkey : pubKeyIsValid key = true)
    (hfree : CollisionFree R.hashes messages) (hkeyMem : key ∈ messages)
    (hargsMem : pushVector key ∈ messages) (hpubkeyMem : pubkey ∈ messages)
    (hfirst : ∀ b ∈ firstPushes (rebuiltScript s pubkey), b ∈ messages)
    (h : verifySpender R s pubkey prevOut = .ok m) :
    ∃ sig, R.verifySchnorr key (R.hashes.hash256 (spenderMessage s (scriptCodeOf prevOut))) sig =
      true := by
  cases hpays with
  | pubKeyHash htype hscript =>
    obtain ⟨hhash, -, -, haccepted⟩ :=
      (verifySpender_pubKeyHash (R.hashes.hash160 key).size_eq htype hscript).mp ⟨m, h⟩
    obtain rfl : pubkey = key := hfree.hash160 hpubkeyMem hkeyMem (Uint160.ext hhash)
    rw [scriptCodeOf, if_neg (by rw [htype]; decide), hscript]
    exact ⟨_, verifySchnorr_of_checkSpenderSig haccepted⟩
  | pubKeyTemplate group argsHash htype hscript hargs =>
    have hlen := length_le_of_pubKeyIsValid hkey
    obtain ⟨-, -, sig, -, -, -, -, haccepted⟩ :=
      verifySpend_template (refusesEmpty_dspSignatureChecker R s) htype hscript hargs
        (by omega) hfree hargsMem hfirst h
    rw [scriptCodeOf, if_pos htype]
    exact ⟨_, verifySchnorr_of_checkSpenderSig haccepted⟩

lemma fits_scriptCodeOf (hpays : PaysTo R.hashes key prevOut) : Fits (scriptCodeOf prevOut) := by
  cases hpays with
  | pubKeyHash htype hscript =>
    rw [scriptCodeOf, if_neg (by rw [htype]; decide), hscript]
    simp [Fits, payToPubKeyHash, (R.hashes.hash160 key).size_eq]
  | pubKeyTemplate group argsHash htype hscript hargs =>
    rw [scriptCodeOf, if_pos htype]
    decide

end Spender

/-- What the message of a spender is made of. -/
def covered (s : Spender) : UInt8 × UInt32 × Bytes × Components :=
  (s.txVersion.toUInt8, s.lockTime, (sigHashTypeOf s.front).appendToSig, spenderComponents s)

lemma spenderMessage_eq_iff {s₁ s₂ : Spender} {code : Bytes} (hcode : Fits code) :
    spenderMessage s₁ code = spenderMessage s₂ code ↔ covered s₁ = covered s₂ := by
  constructor
  · intro h
    obtain ⟨-, hversion, hlock, htype, hcomponents⟩ := sigHashMessage_inj hcode hcode h
    rw [covered, covered, hversion, hlock, htype, hcomponents]
  · intro h
    simp only [covered, Prod.mk.injEq] at h
    obtain ⟨hversion, hlock, htype, hcomponents⟩ := h
    rw [spenderMessage, spenderMessage, sigHashMessage, sigHashMessage, hversion, hlock, htype,
      hcomponents]

/-- The hash of the previous outputs in a record is the hash of known inputs, one of which
spends the outpoint. -/
def CommitsTo (H : HashFns) (messages : Set Bytes) (s : Spender) (o : COutPoint) : Prop :=
  ∃ inputs, (∃ inp ∈ inputs, inp.prevout = o) ∧ prevoutMessage inputs ∈ messages ∧
    H.hash256 (prevoutMessage inputs) = s.hashPrevOutputs

section Requests
variable {H : HashFns} {messages : Set Bytes} {r : SignRequest} {s : Spender} {code : Bytes}

/-- Such a request spends the outpoint exactly if the record commits to it. -/
lemma spends_iff_commitsTo (hfree : CollisionFree H messages)
    (hmem : ∀ b ∈ r.messages H, b ∈ messages) (hspender : spenderMessage s code ∈ messages)
    (hfits : Fits r.scriptCode) (hcode : Fits code)
    (h : r.sigHash H = some (H.hash256 (spenderMessage s code))) (o : COutPoint) :
    r.Spends o ↔ CommitsTo H messages s o := by
  obtain ⟨-, inputs, outputs, hinputs, houtputs, hresult⟩ := signatureHashPyrrha_ok h
  simp only [SignRequest.messages, sigHashMessages, hinputs, houtputs] at hmem
  have hmessage := hfree.hash256 (hmem _ (by simp [coveredMessages])) hspender hresult.symm
  obtain ⟨-, -, -, -, hcomponents⟩ := sigHashMessage_inj hfits hcode hmessage
  have hknown : prevoutMessage inputs ∈ messages := hmem _ (by simp [coveredMessages])
  have hhash : H.hash256 (prevoutMessage inputs) = s.hashPrevOutputs :=
    congrArg Components.hashPrevouts hcomponents
  constructor
  · rintro ⟨inputs', hinputs', hspends⟩
    cases hinputs.symm.trans hinputs'
    exact ⟨inputs, hspends, hknown, hhash⟩
  · rintro ⟨inputs', ⟨inp', hinp', rfl⟩, hknown', hhash'⟩
    have hsame := hfree.hash256 hknown' hknown (hhash'.trans hhash.symm)
    have hmap := map_eq_of_prevoutMessage_eq hsame
    have hin : (inp'.type, inp'.prevout) ∈ inputs.map fun inp => (inp.type, inp.prevout) :=
      hmap ▸ mem_map_of_mem hinp'
    obtain ⟨inp, hinp, heq⟩ := mem_map.mp hin
    exact ⟨inputs, hinputs, inp, hinp, (Prod.mk.inj heq).2⟩

end Requests

/-- The two signatures of the proof were made by the owner of the key for two different spends
of the outpoint. -/
def ProvesDoubleSpend (H : HashFns) (signed : Set SignRequest) (scriptCode : CScript)
    (p : DoubleSpendProof) : Prop :=
  ∃ r₁ ∈ signed, ∃ r₂ ∈ signed,
    r₁.sigHash H = some (H.hash256 (spenderMessage p.spender1 scriptCode)) ∧
    r₂.sigHash H = some (H.hash256 (spenderMessage p.spender2 scriptCode)) ∧
    r₁.Spends p.prevOutpoint ∧ r₂.Spends p.prevOutpoint ∧ r₁.sigHash H ≠ r₂.sigHash H

/-- A valid proof proves a double spend exactly if its records differ in a field that signatures
cover and both commit to the outpoint. -/
theorem validate_proves_iff (R : ScriptRules) (view : DspView) (ptx : Option CTransaction)
    (p : DoubleSpendProof) (key : Bytes) (prevOut : CTxOut) (signed : Set SignRequest)
    (messages : Set Bytes) (hout : prevOutput view p.prevOutpoint = some prevOut)
    (hpays : PaysTo R.hashes key prevOut) (hkey : pubKeyIsValid key = true)
    (hideal : Unforgeable R key signed) (hfree : CollisionFree R.hashes messages)
    (hsigned : ∀ r ∈ signed, Fits r.scriptCode ∧ ∀ b ∈ r.messages R.hashes, b ∈ messages)
    (hproof : ∀ tx pubkey, ptx.or (view.mapNextTx p.prevOutpoint) = some tx →
      secondPush tx p.prevOutpoint = some pubkey →
      ∀ b ∈ proofMessages key pubkey (scriptCodeOf prevOut) p, b ∈ messages)
    (hvalid : validate R view ptx p = .valid) :
    ProvesDoubleSpend R.hashes signed (scriptCodeOf prevOut) p ↔
      covered p.spender1 ≠ covered p.spender2 ∧
        CommitsTo R.hashes messages p.spender1 p.prevOutpoint ∧
        CommitsTo R.hashes messages p.spender2 p.prevOutpoint := by
  obtain ⟨-, -, -, -, -, prevOut', tx, hout', htx, hspenders⟩ := validate_eq_valid.mp hvalid
  cases hout.symm.trans hout'
  obtain ⟨pubkey, hpush, -, ⟨m₁, hm₁⟩, m₂, hm₂⟩ := validateSpenders_eq_valid.mp hspenders
  have hmem := hproof tx pubkey htx hpush
  have hcode := fits_scriptCodeOf hpays
  have hmsg₁ := hmem (spenderMessage p.spender1 (scriptCodeOf prevOut)) (by simp [proofMessages])
  have hmsg₂ := hmem (spenderMessage p.spender2 (scriptCodeOf prevOut)) (by simp [proofMessages])
  have hkeyMem := hmem key (by simp [proofMessages])
  have hargsMem := hmem (pushVector key) (by simp [proofMessages])
  have hpubkeyMem := hmem pubkey (by simp [proofMessages])
  constructor
  · rintro ⟨r₁, hr₁, r₂, hr₂, hs₁, hs₂, hspends₁, hspends₂, hne⟩
    refine ⟨fun hcovered => hne ?_, ?_, ?_⟩
    · rw [hs₁, hs₂, (spenderMessage_eq_iff hcode).mpr hcovered]
    · exact (spends_iff_commitsTo hfree (hsigned r₁ hr₁).2 hmsg₁ (hsigned r₁ hr₁).1 hcode hs₁ _).mp
        hspends₁
    · exact (spends_iff_commitsTo hfree (hsigned r₂ hr₂).2 hmsg₂ (hsigned r₂ hr₂).1 hcode hs₂ _).mp
        hspends₂
  · rintro ⟨hcovered, hcommits₁, hcommits₂⟩
    obtain ⟨sig₁, hsig₁⟩ := exists_verifySchnorr hpays hkey hfree hkeyMem hargsMem hpubkeyMem
      (fun b hb => hmem b (by simp [proofMessages, hb])) hm₁
    obtain ⟨sig₂, hsig₂⟩ := exists_verifySchnorr hpays hkey hfree hkeyMem hargsMem hpubkeyMem
      (fun b hb => hmem b (by simp [proofMessages, hb])) hm₂
    obtain ⟨r₁, hr₁, hs₁⟩ := hideal _ _ hsig₁
    obtain ⟨r₂, hr₂, hs₂⟩ := hideal _ _ hsig₂
    refine ⟨r₁, hr₁, r₂, hr₂, hs₁, hs₂, ?_, ?_, fun hsame => hcovered ?_⟩
    · exact (spends_iff_commitsTo hfree (hsigned r₁ hr₁).2 hmsg₁ (hsigned r₁ hr₁).1 hcode hs₁ _).mpr
        hcommits₁
    · exact (spends_iff_commitsTo hfree (hsigned r₂ hr₂).2 hmsg₂ (hsigned r₂ hr₂).1 hcode hs₂ _).mpr
        hcommits₂
    · rw [hs₁, hs₂, Option.some.injEq] at hsame
      exact (spenderMessage_eq_iff hcode).mp (hfree.hash256 hmsg₁ hmsg₂ hsame)

/-- Hash functions that keep a message modulo a large number. -/
def residueHash : HashFns where
  sha256 m := ⟨leBytes 32 (ofLeBytes m % (2 ^ 255 - 19)), by simp⟩
  hash256 m := ⟨leBytes 32 (ofLeBytes m % (2 ^ 255 - 19)), by simp⟩
  hash160 m := ⟨leBytes 20 (ofLeBytes m % (2 ^ 160 - 47)), by simp⟩

/-- Rules under which exactly the given requests have signatures. -/
def rulesFor (signed : List SignRequest) : ScriptRules where
  hashes := residueHash
  verifySchnorr _ sighash _ := signed.any fun r => decide (r.sigHash residueHash = some sighash)
  otherOps _ _ _ := .error .badOpcode
  mainNet := false

lemma unforgeable_rulesFor (signed : List SignRequest) (key : Bytes) :
    Unforgeable (rulesFor signed) key {r | r ∈ signed} := by
  intro sighash sig h
  obtain ⟨r, hr, hhash⟩ := any_eq_true.mp h
  exact ⟨r, hr, of_decide_eq_true hhash⟩

def testKey : Bytes := 2 :: List.replicate 32 7
def testSig : Bytes := List.replicate 64 9

def keyOut : CTxOut := ⟨0, 1000, payToPubKeyHash (residueHash.hash160 testKey).data⟩

def outpointA : COutPoint := ⟨residueHash.hash256 [1]⟩
def outpointB : COutPoint := ⟨residueHash.hash256 [2]⟩

/-- Spends an output of the key. -/
def spendOf (o : COutPoint) (nValue : CAmount) : CTransaction where
  nVersion := 0
  vin := [⟨0, o, pushVector testSig ++ pushVector testKey, 0, 1000⟩]
  vout := [⟨0, nValue, [op1]⟩]
  nLockTime := 0

def requestOf (tx : CTransaction) : SignRequest := ⟨keyOut.scriptPubKey, tx, 0, SigHashType.all⟩

def spenderOf (tx : CTransaction) (outSequence : UInt32) : Spender where
  txVersion := 0
  outSequence := outSequence
  lockTime := 0
  hashPrevOutputs := residueHash.hash256 (prevoutMessage tx.vin)
  hashSequence := residueHash.hash256 (sequenceMessage tx.vin)
  hashOutputs := residueHash.hash256 (outputsMessage tx.vout)
  hashInAmounts := residueHash.hash256 (inputAmountMessage tx.vin)
  pushData := [testSig]

def firstSpend : SignRequest := requestOf (spendOf outpointA 800)
def secondSpend : SignRequest := requestOf (spendOf outpointA 900)
def otherSpend : SignRequest := requestOf (spendOf outpointB 900)

/-- The proof of a spend and another one. -/
def proofOf (tx : CTransaction) (outSequence : UInt32) : DoubleSpendProof :=
  ⟨outpointA, spenderOf (spendOf outpointA 800) 0, spenderOf tx outSequence⟩

/-- The first spend is in the memory pool, and so is the transaction with the output. -/
def testView : DspView where
  poolOutput o := if o = outpointA then some keyOut else none
  pcoinsTip := ⟨Cache.above fun _ => none, Uint256.null, Uint256.null⟩
  mapNextTx o := if o = outpointA then some (spendOf outpointA 800) else none

/-- All messages that are hashed in the runs below. -/
def knownMessages : List Bytes :=
  [firstSpend, secondSpend, otherSpend].flatMap (SignRequest.messages residueHash) ++
    [proofOf (spendOf outpointA 800) 1, proofOf (spendOf outpointA 900) 0,
      proofOf (spendOf outpointB 900) 0].flatMap (proofMessages testKey testKey keyOut.scriptPubKey)

lemma collisionFree_of_nodup {H : HashFns} {l : List Bytes} (h160 : (l.dedup.map H.hash160).Nodup)
    (h256 : (l.dedup.map H.hash256).Nodup) : CollisionFree H {b | b ∈ l} where
  hash160 _ ha _ hb := inj_on_of_nodup_map h160 (mem_dedup.mpr ha) (mem_dedup.mpr hb)
  hash256 _ ha _ hb := inj_on_of_nodup_map h256 (mem_dedup.mpr ha) (mem_dedup.mpr hb)

lemma collisionFree_knownMessages : CollisionFree residueHash {b | b ∈ knownMessages} :=
  collisionFree_of_nodup (by decide +kernel) (by decide +kernel)

theorem validate_proves_iff_secondSpend :
    validate (rulesFor [firstSpend, secondSpend]) testView none
        (proofOf (spendOf outpointA 900) 0) = .valid ∧
      ProvesDoubleSpend residueHash {r | r ∈ [firstSpend, secondSpend]} keyOut.scriptPubKey
        (proofOf (spendOf outpointA 900) 0) := by
  have hvalid : validate (rulesFor [firstSpend, secondSpend]) testView none
      (proofOf (spendOf outpointA 900) 0) = .valid := by
    decide +kernel
  have hpush : secondPush (spendOf outpointA 800) outpointA = some testKey := by decide +kernel
  have hsigned : ∀ r ∈ [firstSpend, secondSpend], Fits r.scriptCode ∧
      ∀ b ∈ r.messages residueHash, b ∈ knownMessages := by
    decide +kernel
  have hproof : ∀ b ∈ proofMessages testKey testKey keyOut.scriptPubKey
      (proofOf (spendOf outpointA 900) 0), b ∈ knownMessages := by
    decide +kernel
  have hcommits : ∀ s ∈ [spenderOf (spendOf outpointA 800) 0, spenderOf (spendOf outpointA 900) 0],
      (∃ inp ∈ (spendOf outpointA 800).vin, inp.prevout = outpointA) ∧
        prevoutMessage (spendOf outpointA 800).vin ∈ knownMessages ∧
        residueHash.hash256 (prevoutMessage (spendOf outpointA 800).vin) = s.hashPrevOutputs := by
    decide +kernel
  refine ⟨hvalid, (validate_proves_iff (rulesFor [firstSpend, secondSpend]) testView none
    (proofOf (spendOf outpointA 900) 0) testKey keyOut {r | r ∈ [firstSpend, secondSpend]}
    {b | b ∈ knownMessages} (by decide +kernel) (.pubKeyHash rfl rfl) (by decide)
    (unforgeable_rulesFor _ _) collisionFree_knownMessages hsigned ?_ hvalid).mpr
    ⟨by decide +kernel, ⟨_, hcommits _ (by simp [proofOf])⟩, ⟨_, hcommits _ (by simp [proofOf])⟩⟩⟩
  intro tx pubkey htx hsecond
  cases htx
  cases hpush.symm.trans hsecond
  exact hproof

lemma not_spends_otherSpend : ¬ otherSpend.Spends outpointA := by
  have hinputs : signedInputs otherSpend.tx otherSpend.nIn otherSpend.sigHashType.inp =
      some (spendOf outpointB 900).vin := rfl
  have hne : ∀ inp ∈ (spendOf outpointB 900).vin, inp.prevout ≠ outpointA := by decide +kernel
  rintro ⟨inputs, hsigned, inp, hmem, hprevout⟩
  cases hinputs.symm.trans hsigned
  exact hne inp hmem hprevout

/-- Two proofs that are valid although only one spend of the outpoint was signed: both records
may carry one signature and differ in `outSequence`, which is not covered, and the second
signature may be that of a spend of another output of the same key. -/
theorem validate_single_spend :
    PaysTo residueHash testKey keyOut ∧ prevOutput testView outpointA = some keyOut ∧
      CollisionFree residueHash {b | b ∈ knownMessages} ∧
      (Unforgeable (rulesFor [firstSpend]) testKey {r | r ∈ [firstSpend]} ∧
        validate (rulesFor [firstSpend]) testView none (proofOf (spendOf outpointA 800) 1) =
          .valid ∧
        ¬ SignedTwice residueHash {r | r ∈ [firstSpend]} outpointA) ∧
      Unforgeable (rulesFor [firstSpend, otherSpend]) testKey {r | r ∈ [firstSpend, otherSpend]} ∧
        validate (rulesFor [firstSpend, otherSpend]) testView none
          (proofOf (spendOf outpointB 900) 0) = .valid ∧
        ¬ SignedTwice residueHash {r | r ∈ [firstSpend, otherSpend]} outpointA := by
  refine ⟨.pubKeyHash rfl rfl, by decide +kernel, collisionFree_knownMessages,
    ⟨unforgeable_rulesFor _ _, by decide +kernel, ?_⟩, unforgeable_rulesFor _ _,
    by decide +kernel, ?_⟩
  · rintro ⟨r₁, hr₁, r₂, hr₂, -, -, hne⟩
    rw [Set.mem_ofPred_eq, mem_singleton] at hr₁ hr₂
    exact hne (by rw [hr₁, hr₂])
  · have honly : ∀ r ∈ [firstSpend, otherSpend], r.Spends outpointA → r = firstSpend := by
      intro r hr hspends
      rcases mem_pair.mp hr with rfl | rfl
      · rfl
      · exact absurd hspends not_spends_otherSpend
    rintro ⟨r₁, hr₁, r₂, hr₂, hspends₁, hspends₂, hne⟩
    exact hne (by rw [honly r₁ hr₁ hspends₁, honly r₂ hr₂ hspends₂])

end PyrrhaNode.SpendProofSound
