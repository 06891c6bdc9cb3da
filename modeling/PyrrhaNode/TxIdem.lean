import PyrrhaNode.BlockUndo
import PyrrhaNode.SignatureHash
import PyrrhaNode.TxId

/-!
# What an idem names

The idem of a transaction leaves its satisfier scripts out.  Transactions with the same idem agree
in everything else, so they spend the same coins, create the same coins under the same outpoints,
and any child of one is a child of the other.
-/
namespace PyrrhaNode.TxIdem

open List ByteCodec Serialize Transaction Script SignatureHash Coins BlockConnect BlockUndo Loop

/-- The transactions agree in everything but their satisfier scripts. -/
structure SameChange (t₁ t₂ : CTransaction) : Prop where
  nVersion : t₁.nVersion = t₂.nVersion
  nLockTime : t₁.nLockTime = t₂.nLockTime
  vout : t₁.vout = t₂.vout
  vin : t₁.vin.map signedFields = t₂.vin.map signedFields

/-- An input as written into the idem, by its fields. -/
def serSignedFields (f : SignedFields) : Bytes :=
  ser8 f.type ++ serOutPoint f.prevout ++ ser32 f.nSequence ++ serInt64 f.amount

lemma serSignedFields_prefixFree : PrefixFreeOn Set.univ serSignedFields := by
  intro a _ b _ xs ys he
  simp only [serSignedFields, append_assoc] at he
  obtain ⟨htype, he⟩ := ser8_prefixFree _ trivial _ trivial _ _ he
  obtain ⟨hprevout, he⟩ := serOutPoint_prefixFree _ trivial _ trivial _ _ he
  obtain ⟨hsequence, he⟩ := ser32_prefixFree _ trivial _ trivial _ _ he
  obtain ⟨hamount, he⟩ := serInt64_prefixFree _ trivial _ trivial _ _ he
  exact ⟨by cases a; cases b; simp_all, he⟩

lemma serVector_serTxInIdem (vin : List CTxIn) :
    serVector serTxInIdem vin = serVector serSignedFields (vin.map signedFields) := by
  rw [serVector, serVector, length_map, flatMap_map]
  rfl

lemma idemMessage_eq_iff {t₁ t₂ : CTransaction} (hfit₁ : t₁.SizesFit) (hfit₂ : t₂.SizesFit) :
    idemMessage t₁ = idemMessage t₂ ↔ SameChange t₁ t₂ := by
  constructor
  · intro he
    simp only [idemMessage, serVector_serTxInIdem, append_assoc] at he
    obtain ⟨hversion, he⟩ := ser8_prefixFree _ trivial _ trivial _ _ he
    have hvin₁ : Fits (t₁.vin.map signedFields) := by
      rw [Fits, length_map]
      exact hfit₁.vin
    have hvin₂ : Fits (t₂.vin.map signedFields) := by
      rw [Fits, length_map]
      exact hfit₂.vin
    obtain ⟨hvin, he⟩ := serVector_prefixFree serSignedFields_prefixFree
      _ ⟨hvin₁, fun _ _ => trivial⟩ _ ⟨hvin₂, fun _ _ => trivial⟩ _ _ he
    obtain ⟨hvout, he⟩ := serVector_prefixFree serTxOut_prefixFree
      _ ⟨hfit₁.vout, hfit₁.scriptPubKey⟩ _ ⟨hfit₂.vout, hfit₂.scriptPubKey⟩ _ _ he
    exact ⟨hversion, ser32_prefixFree.injOn trivial trivial he, hvout, hvin⟩
  · intro h
    exact idemMessage_eq_of_signedFields h.nVersion h.nLockTime h.vin h.vout

section Change

variable {t₁ t₂ : CTransaction} {H : HashFns}

variable (h : SameChange t₁ t₂) (view : CCoinsViewCache) (nHeight : ℕ)
include h

lemma SameChange.getTxIdem_eq : getTxIdem H t₁ = getTxIdem H t₂ := by
  rw [getTxIdem, getTxIdem,
    idemMessage_eq_of_signedFields h.nVersion h.nLockTime h.vin h.vout]

lemma SameChange.outpointAt_eq (n : UInt32) :
    outpointAt H t₁ n = outpointAt H t₂ n := by
  rw [outpointAt, outpointAt, h.getTxIdem_eq]

lemma SameChange.isCoinBase_eq : t₁.isCoinBase = t₂.isCoinBase := by
  have hlength := congrArg List.length h.vin
  rw [length_map, length_map] at hlength
  rw [CTransaction.isCoinBase, CTransaction.isCoinBase, Bool.eq_iff_iff,
    isEmpty_iff_length_eq_zero, isEmpty_iff_length_eq_zero, hlength]

omit h in
/-- Spending reads the prevouts of the inputs only. -/
lemma spendInputs_eq_of_signedFields {vin₁ vin₂ : List CTxIn}
    (h : vin₁.map signedFields = vin₂.map signedFields) (view : CCoinsViewCache) :
    spendInputs view vin₁ = spendInputs view vin₂ := by
  induction vin₁ generalizing vin₂ view with
  | nil =>
    rw [map_eq_nil_iff.mp h.symm]
  | cons inp vin₁ ih =>
    cases vin₂ with
    | nil => cases h
    | cons inp' vin₂ =>
      rw [map_cons, map_cons, List.cons.injEq] at h
      have hprevout : inp.prevout = inp'.prevout := congrArg SignedFields.prevout h.1
      rw [spendInputs, spendInputs, hprevout, ih h.2]

lemma SameChange.addCoins_eq :
    addCoins H view t₁ nHeight = addCoins H view t₂ nHeight := by
  have hstep : addOutputCoin H t₁ nHeight = addOutputCoin H t₂ nHeight := by
    funext cache out
    rw [addOutputCoin, addOutputCoin, coinOf, coinOf, h.outpointAt_eq, h.isCoinBase_eq]
  rw [addCoins, addCoins, hstep, h.vout]

lemma SameChange.updateCoins_eq :
    updateCoins H t₁ view nHeight = updateCoins H t₂ view nHeight := by
  simp only [updateCoins, spendCoins, h.isCoinBase_eq, spendInputs_eq_of_signedFields h.vin,
    h.addCoins_eq]

end Change

lemma spendInputs_valid {view : CCoinsViewCache} (hv : view.Valid) (vin : List CTxIn) :
    (spendInputs view vin).1.Valid := by
  induction vin generalizing view with
  | nil => exact hv
  | cons inp vin ih => exact ih (CCoinsViewCache.spendCoin_spec hv inp.prevout).1

/-- The outputs of the transaction are new to a view that has spent its inputs. -/
structure NewOutputs (H : HashFns) (tx : CTransaction) (view : CCoinsViewCache) (nHeight : ℕ) :
    Prop where
  valid : view.Valid
  missing : ∀ p ∈ newCoins H nHeight tx, (spendCoins tx view).1.coinAt p.1 = none
  nodup : tx.isCoinBase = true → ((newCoins H nHeight tx).map Prod.fst).Nodup

/-- A transaction leaves the coins of its spendable outputs unspent. -/
lemma NewOutputs.unspent {H : HashFns} {tx : CTransaction} {view view' : CCoinsViewCache}
    {nHeight : ℕ} {undo : List Coin} (hnew : NewOutputs H tx view nHeight)
    (h : updateCoins H tx view nHeight = .ok (view', undo)) {n : ℕ} {out : CTxOut}
    (hout : tx.vout[n]? = some out) (hspendable : isUnspendable out.scriptPubKey = false) :
    view'.Unspent (outpointAt H tx (UInt32.ofNat n)) (coinOf tx nHeight out) := by
  obtain ⟨added, hadd, hok⟩ := bind_eq_ok.mp h
  cases hok
  have hvalid : (spendCoins tx view).1.Valid := by
    rw [spendCoins]
    split_ifs
    · exact hnew.valid
    · exact spendInputs_valid hnew.valid tx.vin
  have hafter := (added_nil hvalid).addOutputs hnew.missing hnew.nodup hadd
  refine CCoinsViewCache.coinAt_eq_some.mp (hafter.coinAt
    (p := (outpointAt H tx (UInt32.ofNat n), coinOf tx nHeight out)) ?_)
  rw [nil_append, coinsOf, mem_map]
  refine ⟨(out, n), ?_, rfl⟩
  rw [mem_filter, mem_zipIdx_iff_getElem?]
  exact ⟨hout, by simp [hspendable]⟩

/-- Without collisions the idem is equal iff the transactions agree in everything but their
satisfier scripts, which it does not read.  Such transactions have the same outpoints and change
the coins alike, and an input that was built on an output of one finds the coin of the other. -/
theorem getTxIdem_eq_iff_sameChange (H : HashFns) (t₁ t₂ : CTransaction) (hfit₁ : t₁.SizesFit)
    (hfit₂ : t₂.SizesFit) (hinj : Set.InjOn H.hash256 {idemMessage t₁, idemMessage t₂}) :
    (getTxIdem H t₁ = getTxIdem H t₂ ↔ SameChange t₁ t₂) ∧
    (∀ scripts, scripts.length = t₁.scriptSigs.length →
      getTxIdem H (TxId.withScriptSigs t₁ scripts) = getTxIdem H t₁) ∧
    (SameChange t₁ t₂ →
      (∀ n, outpointAt H t₁ n = outpointAt H t₂ n) ∧
      ∀ view nHeight, updateCoins H t₁ view nHeight = updateCoins H t₂ view nHeight ∧
        ∀ view₂ undo₂, NewOutputs H t₂ view nHeight →
          updateCoins H t₂ view nHeight = .ok (view₂, undo₂) →
          ∀ child : CTransaction, ∀ inp ∈ child.vin, ∀ n out, t₁.vout[n]? = some out →
            isUnspendable out.scriptPubKey = false →
            inp.prevout = outpointAt H t₁ (UInt32.ofNat n) →
            view₂.Unspent inp.prevout (coinOf t₂ nHeight out)) := by
  refine ⟨⟨?_, fun h => h.getTxIdem_eq⟩, ?_, ?_⟩
  · intro heq
    exact (idemMessage_eq_iff hfit₁ hfit₂).mp (hinj (by simp) (by simp) heq)
  · intro scripts hlength
    rw [getTxIdem, getTxIdem, TxId.idemMessage_withScriptSigs t₁ scripts hlength]
  · intro h
    refine ⟨h.outpointAt_eq, fun view nHeight => ⟨h.updateCoins_eq view nHeight, ?_⟩⟩
    intro view₂ undo₂ hnew hupdate child inp _ n out hout hspendable hprevout
    rw [h.vout] at hout
    rw [hprevout, h.outpointAt_eq]
    exact hnew.unspent hupdate hout hspendable

/-- The transaction with another satisfier script. -/
def malleatedTx : CTransaction := TxId.withScriptSigs spendTx [[op1]]

/-- Spends the output of the transaction with the original script. -/
def childTx : CTransaction where
  nVersion := 0
  vin := [⟨0, outpointAt lengthHash spendTx 0, [], 0xffffffff, 1000000000⟩]
  vout := []
  nLockTime := 0

theorem getTxIdem_eq_malleatedTx :
    spendTx ≠ malleatedTx ∧ getTxIdem lengthHash spendTx = getTxIdem lengthHash malleatedTx ∧
      ∃ view undo, updateCoins lengthHash malleatedTx emptyView 1 = .ok (view, undo) ∧
        ∀ inp ∈ childTx.vin,
          view.Unspent inp.prevout (coinOf malleatedTx 1 ⟨0, 1000000000, [op1]⟩) := by
  have hmessage : idemMessage malleatedTx = idemMessage spendTx := by decide +kernel
  have hidem := getTxIdem_eq_iff_sameChange lengthHash spendTx malleatedTx
    ⟨by decide, by decide, by decide⟩ ⟨by decide, by decide, by decide⟩ (by simp [hmessage])
  have hsame : SameChange spendTx malleatedTx := ⟨rfl, rfl, rfl, rfl⟩
  have hnew : NewOutputs lengthHash malleatedTx emptyView 1 := by
    refine ⟨CCoinsViewCache.valid_above _ _ _, ?_, fun hcb => absurd hcb (by decide)⟩
    decide +kernel
  obtain ⟨found, hupdate⟩ : ∃ found, updateCoins lengthHash malleatedTx emptyView 1 = .ok found :=
    exists_eq_ok.mp (by decide +kernel)
  refine ⟨by decide, hidem.1.mpr hsame, found.1, found.2, hupdate, ?_⟩
  intro inp hinp
  have hprevout : inp.prevout = outpointAt lengthHash spendTx (UInt32.ofNat 0) := by
    rw [mem_singleton.mp hinp]
    rfl
  exact ((hidem.2.2 hsame).2 emptyView 1).2 found.1 found.2 hnew hupdate childTx inp hinp 0
    ⟨0, 1000000000, [op1]⟩ rfl (by decide) hprevout

end PyrrhaNode.TxIdem
