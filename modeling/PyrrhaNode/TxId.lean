import PyrrhaNode.Terminated
import PyrrhaNode.Transaction

/-!
# What a transaction id commits to

The satisfier hash closes each satisfier script with the byte `0xff` and does not
write the lengths of the scripts. The id of a transaction therefore pins down the
idem, and it pins down the satisfier scripts exactly when there is at most one input
or none of the scripts contains that byte.
-/
namespace PyrrhaNode.TxId
open ByteCodec Serialize Terminated Transaction

/-- The messages that are hashed for the id of a transaction. -/
def txIdMessages (H : HashFns) (tx : CTransaction) : Set Bytes :=
  {idemMessage tx, satisfierMessage tx, idMessage H tx}

/-- The id of `t₁` commits to the bytes of `t₁`: a transaction with the same id has
the same idem and the same satisfier scripts, unless two of the hashed messages collide. -/
def CommitsToBytes (H : HashFns) (t₁ : CTransaction) : Prop :=
  ∀ t₂ : CTransaction, t₂.SizesFit →
    Set.InjOn H.hash256 (txIdMessages H t₁ ∪ txIdMessages H t₂) →
    getTxId H t₁ = getTxId H t₂ →
    getTxIdem H t₁ = getTxIdem H t₂ ∧ t₁.scriptSigs = t₂.scriptSigs

lemma satisfierMessage_eq (tx : CTransaction) :
    satisfierMessage tx =
      leBytes 4 tx.scriptSigs.length ++ terminated opInvalidOpcode tx.scriptSigs := by
  simp [satisfierMessage, terminated, CTransaction.scriptSigs, List.flatMap_map]

theorem messages_eq_of_getTxId_eq (H : HashFns) (t₁ t₂ : CTransaction)
    (hinj : Set.InjOn H.hash256 (txIdMessages H t₁ ∪ txIdMessages H t₂))
    (he : getTxId H t₁ = getTxId H t₂) :
    idemMessage t₁ = idemMessage t₂ ∧ satisfierMessage t₁ = satisfierMessage t₂ := by
  have hid : idMessage H t₁ = idMessage H t₂ :=
    hinj (by simp [txIdMessages]) (by simp [txIdMessages]) he
  obtain ⟨hidem, hsat⟩ := serUint256_prefixFree _ trivial _ trivial _ _ hid
  have hsat' := serUint256_prefixFree.injOn trivial trivial hsat
  exact ⟨hinj (by simp [txIdMessages]) (by simp [txIdMessages]) hidem,
    hinj (by simp [txIdMessages]) (by simp [txIdMessages]) hsat'⟩

/-- The transaction with its satisfier scripts replaced. -/
def withScriptSigs (tx : CTransaction) (l : List CScript) : CTransaction :=
  { tx with vin := List.zipWith (fun i s => { i with scriptSig := s }) tx.vin l }

section WithScriptSigs
variable (tx : CTransaction) (l : List CScript) (hl : l.length = tx.scriptSigs.length)
include hl

lemma length_vin_withScriptSigs : (withScriptSigs tx l).vin.length = tx.vin.length := by
  simp only [CTransaction.scriptSigs] at hl
  simp [withScriptSigs, hl]

lemma scriptSigs_withScriptSigs : (withScriptSigs tx l).scriptSigs = l := by
  simp only [CTransaction.scriptSigs] at hl
  simp only [withScriptSigs, CTransaction.scriptSigs]
  generalize tx.vin = vin at hl
  induction vin generalizing l with
  | nil => simp_all
  | cons i vin ih =>
    match l with
    | [] => simp at hl
    | s :: l => simp [ih l (by simpa using hl)]

lemma idemMessage_withScriptSigs : idemMessage (withScriptSigs tx l) = idemMessage tx := by
  have hlen := length_vin_withScriptSigs tx l hl
  have hflat : (withScriptSigs tx l).vin.flatMap serTxInIdem = tx.vin.flatMap serTxInIdem := by
    simp only [CTransaction.scriptSigs] at hl
    simp only [withScriptSigs]
    clear hlen
    generalize tx.vin = vin at hl
    induction vin generalizing l with
    | nil => simp
    | cons i vin ih =>
      match l with
      | [] => simp at hl
      | s :: l => simp [ih l (by simpa using hl), serTxInIdem]
  simp only [idemMessage, serVector, hlen, hflat]
  rfl

end WithScriptSigs

/-- The transaction id commits to the bytes of a transaction exactly when it has at
most one input or none of its satisfier scripts contains the closing byte. -/
theorem getTxId_commits_iff (H : HashFns) (t₁ : CTransaction) (hfit : t₁.SizesFit)
    (hH : Set.InjOn H.hash256 (txIdMessages H t₁)) :
    CommitsToBytes H t₁ ↔ (t₁.vin.length ≤ 1 ∨ ∀ i ∈ t₁.vin, opInvalidOpcode ∉ i.scriptSig) := by
  have hiff := terminated_unique_iff opInvalidOpcode t₁.scriptSigs
  have hcond : (t₁.scriptSigs.length ≤ 1 ∨ ∀ s ∈ t₁.scriptSigs, opInvalidOpcode ∉ s) ↔
      (t₁.vin.length ≤ 1 ∨ ∀ i ∈ t₁.vin, opInvalidOpcode ∉ i.scriptSig) := by
    simp [CTransaction.scriptSigs]
  rw [← hcond, ← hiff]
  constructor
  · intro hcommit l hl he
    have hidem := idemMessage_withScriptSigs t₁ l hl
    have hsat : satisfierMessage (withScriptSigs t₁ l) = satisfierMessage t₁ := by
      rw [satisfierMessage_eq, satisfierMessage_eq, scriptSigs_withScriptSigs t₁ l hl, hl, he]
    have hid : idMessage H (withScriptSigs t₁ l) = idMessage H t₁ := by
      rw [idMessage, idMessage, hsat, getTxIdem, getTxIdem, hidem]
    have hmsgs : txIdMessages H (withScriptSigs t₁ l) = txIdMessages H t₁ := by
      rw [txIdMessages, txIdMessages, hsat, hid, hidem]
    have hfit' : (withScriptSigs t₁ l).SizesFit :=
      ⟨by rw [Fits, length_vin_withScriptSigs t₁ l hl]; exact hfit.vin, hfit.vout,
        hfit.scriptPubKey⟩
    have h := hcommit (withScriptSigs t₁ l) hfit' (by rwa [hmsgs, Set.union_self])
      (by rw [getTxId, getTxId, hid])
    rw [scriptSigs_withScriptSigs t₁ l hl] at h
    exact h.2.symm
  · intro hunique t₂ hfit₂ hinj he
    obtain ⟨hidem, hsat⟩ := messages_eq_of_getTxId_eq H t₁ t₂ hinj he
    have hlen : t₂.scriptSigs.length = t₁.scriptSigs.length := by
      simpa [CTransaction.scriptSigs] using
        (length_vin_eq_of_idemMessage_eq t₁ t₂ hfit hfit₂ hidem).symm
    rw [satisfierMessage_eq, satisfierMessage_eq, hlen] at hsat
    refine ⟨by rw [getTxIdem, getTxIdem, hidem], (hunique _ hlen ?_).symm⟩
    exact (List.append_cancel_left hsat).symm

/-- A transaction with two inputs, both null, and the given satisfier scripts. -/
def twoInputTx (s₁ s₂ : CScript) : CTransaction where
  nVersion := 0
  vin := [⟨0, ⟨Uint256.null⟩, s₁, 0xffffffff, 0⟩, ⟨0, ⟨Uint256.null⟩, s₂, 0xffffffff, 0⟩]
  vout := []
  nLockTime := 0

theorem getTxId_commits_iff_twoInputTx :
    CommitsToBytes lengthHash (twoInputTx [1] [2]) ↔
      ((twoInputTx [1] [2]).vin.length ≤ 1 ∨
        ∀ i ∈ (twoInputTx [1] [2]).vin, opInvalidOpcode ∉ i.scriptSig) := by
  refine getTxId_commits_iff lengthHash (twoInputTx [1] [2]) ⟨by decide, by decide, by decide⟩ ?_
  intro a ha b hb he
  rcases ha with rfl | rfl | rfl <;> rcases hb with rfl | rfl | rfl <;>
    first | rfl | exact absurd he (by decide)

/-- Moving a script that is the closing byte from the first input to the second
changes the transaction and none of the messages hashed for its id. -/
theorem getTxId_twoInputTx_collides :
    (∀ H : HashFns,
      txIdMessages H (twoInputTx [0xff] []) = txIdMessages H (twoInputTx [] [0xff]) ∧
      getTxId H (twoInputTx [0xff] []) = getTxId H (twoInputTx [] [0xff])) ∧
    (twoInputTx [0xff] []).scriptSigs ≠ (twoInputTx [] [0xff]).scriptSigs :=
  ⟨fun _ => ⟨rfl, rfl⟩, by decide⟩

end PyrrhaNode.TxId
