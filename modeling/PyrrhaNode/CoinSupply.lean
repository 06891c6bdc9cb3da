import PyrrhaNode.BlockConnect

/-!
# The value of the coins of a view

The value that a view holds is bounded by what it held before and what was added. An
added coin adds its value, a spent coin takes away its value, and a coin that is hidden
below a fresh entry is counted with the entry.
-/
namespace PyrrhaNode.CoinSupply
open Serialize Transaction Coins WriteBackCache
open Money Loop

/-- The value of a coin; a spent coin has none. -/
def coinWeight (coin : Coin) : ℤ := max 0 coin.out.nValue.toInt

variable (coin : Coin)

lemma coinWeight_nonneg : 0 ≤ coinWeight coin := le_max_left _ _

lemma coinWeight_of_isSpent (h : coin.isSpent = true) : coinWeight coin = 0 := by
  have hvalue : coin.out.nValue = -1 := eq_of_beq h
  rw [coinWeight, hvalue]
  decide

lemma coinWeight_of_inRange {coin : Coin} (h : InRange coin.out.nValue.toInt) :
    coinWeight coin = coin.out.nValue.toInt := max_eq_right h.1

/-- The coins that a view holds over a store `base` of potential `φ` are worth at most `b`. -/
structure Bounded (base : COutPoint → Option Coin) (φ : COutPoint → ℤ) (view : CCoinsViewCache)
    (b : ℤ) : Prop where
  coherent : view.Coherent
  store : view.cache.base = base
  covers : ∀ o, (base o).elim 0 coinWeight ≤ φ o
  sums : SumsWithin (view.cache.potential coinWeight φ) b

section Views
variable {base : COutPoint → Option Coin} {φ : COutPoint → ℤ} {view view' : CCoinsViewCache} {b : ℤ}

lemma Bounded.nonneg (h : Bounded base φ view b) : 0 ≤ b := by
  simpa using h.sums ∅

lemma Bounded.mono (h : Bounded base φ view b) {b' : ℤ} (hb : b ≤ b') : Bounded base φ view b' :=
  ⟨h.coherent, h.store, h.covers, fun s => (h.sums s).trans hb⟩

lemma Bounded.weight_le (h : Bounded base φ view b) (o : COutPoint) :
    view.cache.weight coinWeight o ≤ view.cache.potential coinWeight φ o :=
  Cache.weight_le_potential coinWeight_nonneg (by
    rw [Cache.baseWeight, h.store]
    exact h.covers o)

lemma weight_nonneg (view : CCoinsViewCache) (o : COutPoint) :
    0 ≤ view.cache.weight coinWeight o := by
  unfold Cache.weight
  cases view.cache.get o with
  | none => exact le_refl 0
  | some coin => exact coinWeight_nonneg coin

lemma weight_eq_accessCoin (view : CCoinsViewCache) (o : COutPoint) :
    view.cache.weight coinWeight o = coinWeight (view.accessCoin o) := by
  unfold Cache.weight CCoinsViewCache.accessCoin CCoinsViewCache.getCoin
  cases view.cache.get o with
  | none => rfl
  | some coin => rfl

variable (hb : Bounded base φ view b) {outpoint : COutPoint}
include hb

lemma Bounded.addCoin {coin : Coin} {overwrite : Bool}
    (h : view.addCoin outpoint coin overwrite = .ok view') :
    Bounded base φ view' (b + coinWeight coin) := by
  have hcoin := coinWeight_nonneg coin
  have hcoh := hb.coherent.addCoin h
  obtain ⟨-, ⟨-, rfl⟩ | ⟨-, hnew, rfl⟩⟩ := CCoinsViewCache.addCoin_cases h
  · exact hb.mono (by omega)
  · have hchange := Cache.put_changesAt view.cache outpoint coin overwrite
    have hweight := weight_nonneg view outpoint
    have hpot := hb.weight_le outpoint
    refine ⟨hcoh, hchange.base.trans hb.store, hb.covers,
      hb.sums.update (fun o ho => hchange.potential_of_ne ho) ?_ ?_⟩
    · cases overwrite with
      | false =>
        rw [Cache.potential_put_new coinWeight_of_isSpent hb.coherent (hnew rfl)]
      | true =>
        rw [Cache.potential_put_overwrite]
        omega
    · omega

lemma Bounded.spendCoin (outpoint : COutPoint) :
    Bounded base φ (view.spendCoin outpoint).1 (b - coinWeight (view.accessCoin outpoint)) := by
  have hcoh := hb.coherent.spendCoin outpoint
  rw [CCoinsViewCache.spendCoin_fst] at hcoh ⊢
  have hfetch := Cache.fetch_changesAt view.cache outpoint Coin.isSpent
  have hremove := Cache.remove_changesAt (view.cache.fetch Coin.isSpent outpoint) outpoint coinEmpty
  have hpot := hb.weight_le outpoint
  rw [weight_eq_accessCoin] at hpot
  refine ⟨hcoh, (hremove.base.trans hfetch.base).trans hb.store, hb.covers,
    hb.sums.update (k := outpoint) (fun o ho => ?_) ?_ ?_⟩
  · rw [hremove.potential_of_ne ho, hfetch.potential_of_ne ho]
  · rw [Cache.potential_fetch_remove coinWeight_of_isSpent (by decide), weight_eq_accessCoin]
    omega
  · omega

omit hb in
lemma getCoin_spendCoin_of_ne {o : COutPoint} (h : o ≠ outpoint) :
    (view.spendCoin outpoint).1.getCoin o = view.getCoin o := by
  rw [CCoinsViewCache.spendCoin_fst]
  have hremove := Cache.remove_changesAt (view.cache.fetch Coin.isSpent outpoint) outpoint coinEmpty
  have hfetch := Cache.fetch_changesAt view.cache outpoint Coin.isSpent
  exact (hremove.get_of_ne h).trans (hfetch.get_of_ne h)

lemma Bounded.spendInputs {vin : List CTxIn} (hnodup : (vin.map CTxIn.prevout).Nodup) :
    Bounded base φ (spendInputs view vin).1
      (b - (vin.map fun inp => coinWeight (view.accessCoin inp.prevout)).sum) := by
  induction vin generalizing view b with
  | nil => simpa [Coins.spendInputs] using hb
  | cons inp vin ih =>
    obtain ⟨hinp, hnodup⟩ := List.nodup_cons.mp hnodup
    have hrest := ih (hb.spendCoin inp.prevout) hnodup
    have haccess : ∀ other ∈ vin, (view.spendCoin inp.prevout).1.accessCoin other.prevout =
        view.accessCoin other.prevout := by
      intro other hother
      have hne : other.prevout ≠ inp.prevout := by
        intro he
        exact hinp (he ▸ List.mem_map_of_mem hother)
      rw [CCoinsViewCache.accessCoin, getCoin_spendCoin_of_ne hne, CCoinsViewCache.accessCoin]
    have hsum : (vin.map fun other =>
        coinWeight ((view.spendCoin inp.prevout).1.accessCoin other.prevout)).sum =
        (vin.map fun other => coinWeight (view.accessCoin other.prevout)).sum := by
      congr 1
      exact List.map_congr_left fun other hother => by rw [haccess other hother]
    rw [hsum] at hrest
    simpa [Coins.spendInputs, sub_sub] using hrest

lemma Bounded.addCoins {H : HashFns} {tx : CTransaction} {nHeight : ℕ}
    (hvalues : ∀ out ∈ tx.vout, InRange out.nValue.toInt)
    (h : addCoins H view tx nHeight = .ok view') : Bounded base φ view' (b + valueSum tx.vout) := by
  have hinv := foldlM_invariant
    (fun done v => Bounded base φ v (b + valueSum (done.map Prod.fst))) ?_ h
    (by simpa [valueSum] using hb)
  · simpa using hinv
  · intro done out v v' hmem hdone hstep
    have hout : InRange out.1.nValue.toInt := hvalues out.1 (List.fst_mem_of_mem_zipIdx hmem)
    have hcoin : coinWeight (coinOf tx nHeight out.1) = out.1.nValue.toInt :=
      coinWeight_of_inRange hout
    have hnext := hdone.addCoin hstep
    rw [hcoin] at hnext
    simpa [valueSum, add_assoc] using hnext

end Views

end PyrrhaNode.CoinSupply
