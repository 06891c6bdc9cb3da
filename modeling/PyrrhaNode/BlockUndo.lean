import PyrrhaNode.BlockSupply

/-!
# Disconnecting a block undoes connecting it

Connecting a block adds the coins of all its outputs to a view and then takes away the
coins of all inputs. Both passes are described by the coins in between: the view before
is that one without the outputs, the view after is that one without the inputs. Each
input is taken away once, so that restoring the inputs in any order leads back to the
coins in between, whichever transactions of the block spend which others.
-/
namespace PyrrhaNode.BlockUndo
open List Serialize Transaction Script
open Coins WriteBackCache Money TxVerify
open BlockConnect BlockSupply SignedWord Loop

/-- A coin that undo data can restore: it is spendable and has a height. -/
structure Restorable (coin : Coin) : Prop where
  spendable : isUnspendable coin.out.scriptPubKey = false
  height : coin.nHeight ≠ 0

/-- The coins of the spendable ones among the outputs of a transaction. -/
def coinsOf (H : HashFns) (nHeight : ℕ) (tx : CTransaction) (outs : List (CTxOut × ℕ)) :
    List (COutPoint × Coin) :=
  (outs.filter fun out => !isUnspendable out.1.scriptPubKey).map fun out =>
    (outpointAt H tx (UInt32.ofNat out.2), coinOf tx nHeight out.1)

/-- The coins that a transaction creates. -/
def newCoins (H : HashFns) (nHeight : ℕ) (tx : CTransaction) : List (COutPoint × Coin) :=
  coinsOf H nHeight tx tx.vout.zipIdx

variable {tx : CTransaction}

lemma coinOf_height_ne_zero {nHeight : ℕ} {out : CTxOut} (hpos : 0 < nHeight)
    (hmax : nHeight < 2 ^ 31) : (coinOf tx nHeight out).nHeight ≠ 0 := by
  intro hzero
  have hnat := congrArg BitVec.toNat hzero
  rw [coinOf, BitVec.toNat_ofNat, Nat.mod_eq_of_lt hmax] at hnat
  exact hpos.ne' hnat

/-- The view has the given coins and those that were added. -/
structure Added (coins : COutPoint → Option Coin) (added : List (COutPoint × Coin))
    (view : CCoinsViewCache) : Prop where
  valid : view.Valid
  entries : ∀ p ∈ added, ∃ entry, view.cache.entries.get p.1 = some entry ∧ entry.value = p.2
  unspent : ∀ p ∈ added, p.2.isSpent = false
  nodup : (added.map Prod.fst).Nodup
  rest : without view.coinAt (added.map Prod.fst).toFinset = coins

section Adding
variable {coins : COutPoint → Option Coin} {added : List (COutPoint × Coin)}
  {view view' : CCoinsViewCache} {H : HashFns} {nHeight : ℕ}

lemma added_nil (hv : view.Valid) : Added view.coinAt [] view :=
  ⟨hv, by simp, by simp, by simp, by simp⟩

lemma Added.coinAt (h : Added coins added view) {p : COutPoint × Coin} (hp : p ∈ added) :
    view.coinAt p.1 = some p.2 := by
  obtain ⟨entry, hentry, hvalue⟩ := h.entries p hp
  refine CCoinsViewCache.coinAt_eq_some.mpr ⟨h.unspent p hp, ?_⟩
  rw [CCoinsViewCache.getCoin, Cache.get, hentry]
  exact congrArg some hvalue

/-- Adds a coin that is not there yet. Only a writer that may overwrite has to promise that
the coin was not added before. -/
lemma Added.addCoin (hadd : Added coins added view) {outpoint : COutPoint} {coin : Coin}
    {overwrite : Bool} (hspendable : isUnspendable coin.out.scriptPubKey = false)
    (hnew : coins outpoint = none) (hover : overwrite = true → outpoint ∉ added.map Prod.fst)
    (h : view.addCoin outpoint coin overwrite = .ok view') :
    Added coins (added ++ [(outpoint, coin)]) view' := by
  obtain ⟨hlive, ⟨hun, -⟩ | ⟨-, hold, -⟩⟩ := CCoinsViewCache.addCoin_cases h
  · rw [hspendable] at hun
    cases hun
  have hnotin : outpoint ∉ added.map Prod.fst := by
    cases overwrite with
    | true => exact hover rfl
    | false =>
      intro hmem
      obtain ⟨p, hp, rfl⟩ := mem_map.mp hmem
      obtain ⟨entry, hentry, hvalue⟩ := hadd.entries p hp
      have hspent := hold rfl entry hentry
      rw [hvalue, hadd.unspent p hp] at hspent
      cases hspent
  have hmissing : without view.coinAt (added.map Prod.fst).toFinset outpoint = none := by
    rw [hadd.rest, hnew]
  have hfree : view.coinAt outpoint = none := by
    rwa [without_of_notMem (by simpa using hnotin)] at hmissing
  obtain ⟨hvalid, hcoinAt, hchange, hentry⟩ :=
    CCoinsViewCache.addCoin_spec hadd.valid (fun _ => hfree) hspendable h
  refine ⟨hvalid, fun p hp => ?_, fun p hp => ?_, ?_, ?_⟩
  · rcases mem_append.mp hp with hp | hp
    · have hne : p.1 ≠ outpoint := ne_of_mem_of_not_mem (mem_map_of_mem hp) hnotin
      rw [hchange.entries_of_ne hne]
      exact hadd.entries p hp
    · obtain rfl : p = (outpoint, coin) := by simpa using hp
      exact hentry
  · rcases mem_append.mp hp with hp | hp
    · exact hadd.unspent p hp
    · obtain rfl : p = (outpoint, coin) := by simpa using hp
      exact hlive
  · simpa [nodup_append, hadd.nodup] using fun a b hab => ne_of_mem_of_not_mem
      (mem_map_of_mem hab) hnotin
  · rw [← hadd.rest, ← without_update_insert hmissing]
    congr 1
    ext o
    simp

lemma Added.addOutputs {outs : List (CTxOut × ℕ)} (hadd : Added coins added view)
    (hnew : ∀ p ∈ coinsOf H nHeight tx outs, coins p.1 = none)
    (hcb : tx.isCoinBase = true → ((added ++ coinsOf H nHeight tx outs).map Prod.fst).Nodup)
    (h : outs.foldlM (addOutputCoin H tx nHeight) view = .ok view') :
    Added coins (added ++ coinsOf H nHeight tx outs) view' := by
  induction outs generalizing added view with
  | nil =>
    cases h
    simpa [coinsOf] using hadd
  | cons out outs ih =>
    obtain ⟨mid, hmid, hrest⟩ := foldlM_cons_eq_ok.mp h
    by_cases hun : isUnspendable out.1.scriptPubKey = true
    · have hskip : coinsOf H nHeight tx (out :: outs) = coinsOf H nHeight tx outs := by
        simp [coinsOf, hun]
      obtain ⟨-, ⟨-, rfl⟩ | ⟨hnot, -⟩⟩ := CCoinsViewCache.addCoin_cases hmid
      · rw [hskip] at hnew hcb ⊢
        exact ih hadd hnew hcb hrest
      · exact absurd hun (by simpa [coinOf] using hnot)
    · have hcons : coinsOf H nHeight tx (out :: outs) =
          (outpointAt H tx (UInt32.ofNat out.2), coinOf tx nHeight out.1) ::
            coinsOf H nHeight tx outs := by
        simp [coinsOf, hun]
      rw [hcons] at hnew hcb ⊢
      rw [append_cons] at hcb ⊢
      refine ih (hadd.addCoin (by simpa [coinOf] using hun) (hnew _ mem_cons_self) ?_ hmid)
        (fun p hp => hnew p (by simp [hp])) hcb hrest
      intro hover hmem
      have hnodup := hcb hover
      simp only [map_append, nodup_append] at hnodup
      exact hnodup.1.2.2 _ hmem _ (by simp) rfl

lemma Added.addBlock {txs : List (CTransaction × ℕ)} {state state' : CCoinsViewCache × Uint256}
    (hadd : Added coins added state.1) (htxs : ∀ tx ∈ txs, tx.1.isCoinBase = false)
    (hnew : ∀ tx ∈ txs, ∀ p ∈ newCoins H nHeight tx.1, coins p.1 = none)
    (h : txs.foldlM (addBlockTx H nHeight) state = .ok state') :
    Added coins (added ++ (txs.map Prod.fst).flatMap (newCoins H nHeight)) state'.1 := by
  induction txs generalizing added state with
  | nil =>
    cases h
    simpa using hadd
  | cons tx txs ih =>
    obtain ⟨mid, hmid, h⟩ := foldlM_cons_eq_ok.mp h
    have hstep := hadd.addOutputs (hnew tx (by simp))
      (fun hcb => absurd hcb (by simp [htxs tx (by simp)])) (addBlockTx_addCoins hmid)
    have hrest := ih hstep (fun t ht => htxs t (by simp [ht]))
      (fun t ht => hnew t (by simp [ht])) h
    simpa [newCoins] using hrest

end Adding

/-- The view has the given coins but those of the listed outpoints. -/
structure AllBut (coins : COutPoint → Option Coin) (missing : List COutPoint)
    (view : CCoinsViewCache) : Prop where
  valid : view.Valid
  nodup : missing.Nodup
  rest : view.coinAt = without coins missing.toFinset

def prevouts (txs : List CTransaction) : List COutPoint :=
  txs.flatMap fun tx => tx.vin.map CTxIn.prevout

section Spending
variable {coins : COutPoint → Option Coin} {missing : List COutPoint} {view : CCoinsViewCache}

variable (h : AllBut coins missing view)
include h

lemma AllBut.perm {missing' : List COutPoint}
    (hperm : missing.Perm missing') : AllBut coins missing' view :=
  ⟨h.valid, hperm.nodup_iff.mp h.nodup, by rw [h.rest, toFinset_eq_of_perm _ _ hperm]⟩

variable {o : COutPoint}

lemma AllBut.spendCoin (ho : o ∉ missing) :
    AllBut coins (missing ++ [o]) (view.spendCoin o).1 ∧
      ∀ coin, coins o = some coin → (view.spendCoin o).2 = coin := by
  obtain ⟨hvalid, hcoinAt, hspent⟩ := CCoinsViewCache.spendCoin_spec h.valid o
  refine ⟨⟨hvalid, ?_, ?_⟩, fun coin hcoin => ?_⟩
  · simpa [nodup_append, h.nodup] using fun a ha => ne_of_mem_of_not_mem ha ho
  · rw [hcoinAt, h.rest, update_without_none]
    congr 1
    ext a
    simp
  · exact hspent coin (by rw [h.rest, without_of_notMem (by simpa using ho), hcoin])

lemma AllBut.spendInputs {vin : List CTxIn} (hnodup : (vin.map CTxIn.prevout).Nodup)
    (hhave : ∀ inp ∈ vin, ∃ coin, view.coinAt inp.prevout = some coin) :
    AllBut coins (missing ++ vin.map CTxIn.prevout) (spendInputs view vin).1 ∧
      List.Forall₂ (fun inp coin => coins inp.prevout = some coin) vin
        (spendInputs view vin).2 := by
  induction vin generalizing view missing with
  | nil =>
    refine ⟨?_, List.Forall₂.nil⟩
    simpa [Coins.spendInputs] using h
  | cons inp vin ih =>
    obtain ⟨hinp, hnodup⟩ := nodup_cons.mp hnodup
    obtain ⟨coin, hcoin⟩ := hhave inp (by simp)
    rw [h.rest, without_eq_some] at hcoin
    have hnot : inp.prevout ∉ missing := by simpa using hcoin.1
    obtain ⟨hspent, hundo⟩ := h.spendCoin hnot
    have hstill : ∀ other ∈ vin, ∃ coin,
        (view.spendCoin inp.prevout).1.coinAt other.prevout = some coin := by
      intro other hother
      obtain ⟨c, hc⟩ := hhave other (by simp [hother])
      have hne : other.prevout ≠ inp.prevout :=
        ne_of_mem_of_not_mem (mem_map_of_mem hother) hinp
      refine ⟨c, ?_⟩
      rw [(CCoinsViewCache.spendCoin_spec h.valid inp.prevout).2.1, Function.update_of_ne hne]
      exact hc
    obtain ⟨hrest, hundos⟩ := ih hspent hnodup hstill
    refine ⟨?_, List.Forall₂.cons ?_ hundos⟩
    · simpa [Coins.spendInputs] using hrest
    · rw [hundo coin hcoin.2]
      exact hcoin.2

end Spending

section Connecting
variable {H : HashFns} {params : ConsensusParams} {checks : BlockChecks} {nHeight : ℕ}
  {coins : COutPoint → Option Coin} {missing : List COutPoint}

end Connecting

section Restoring
variable {coins : COutPoint → Option Coin} {missing : List COutPoint} {view : CCoinsViewCache}

variable (hcoins : ∀ o coin, coins o = some coin → coin.isSpent = false ∧ Restorable coin)
include hcoins

end Restoring

section Blocks
variable {H : HashFns} {params : ConsensusParams} {checks : BlockChecks} {nHeight : ℕ}
  {block : CBlock} {coinbase : CTransaction} {txs : List CTransaction} {view : CCoinsViewCache}

/-- No output of the block has a coin in the view. -/
def OutputsNew (H : HashFns) (block : CBlock) (view : CCoinsViewCache) : Prop :=
  ∀ tx ∈ block.vtx, ∀ n : UInt32, n.toNat < tx.vout.length →
    view.coinAt (outpointAt H tx n) = none

lemma OutputsNew.newCoins (h : OutputsNew H block view) (hmem : tx ∈ block.vtx)
    (hchecked : Checked tx) :
    ∀ p ∈ newCoins H nHeight tx, view.coinAt p.1 = none := by
  intro p hp
  obtain ⟨out, hout, rfl⟩ := mem_map.mp hp
  have hget := mem_zipIdx_iff_getElem?.mp (mem_filter.mp hout).1
  have hlt := (List.getElem?_eq_some_iff.mp hget).1
  have hle := hchecked.outputs
  unfold maxTxNumVout at hle
  exact h tx hmem _ (by rw [UInt32.toNat_ofNat', Nat.mod_eq_of_lt (by omega)]; exact hlt)

end Blocks

/-- A view without coins on the first block. -/
def emptyView : CCoinsViewCache :=
  ⟨Cache.above fun _ => none, testParams.hashGenesisBlock, Uint256.null⟩

end PyrrhaNode.BlockUndo
