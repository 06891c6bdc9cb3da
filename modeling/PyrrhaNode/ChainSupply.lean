import PyrrhaNode.BlockSupply

/-!
# The supply of coins

A node connects blocks one after the other to its cache of coins over an empty
database. Between two blocks coins are read into the cache, dropped from it and written
to the database in any order. The value of the coins stays within the subsidies of the
blocks connected so far, whatever the blocks are, and no sum that was formed on the way
overflowed.
-/
namespace PyrrhaNode.ChainSupply
open Serialize Transaction Coins WriteBackCache
open Money BlockConnect CoinSupply BlockSupply
open Subsidy SignedWord Loop

/-- The coins at the tip and the height of the next block. -/
structure ChainState where
  pcoinsTip : CCoinsViewCache
  nHeight : ℕ

/-- No block, no coins. -/
def ChainState.init : ChainState :=
  ⟨⟨Cache.above fun _ => none, Uint256.null, Uint256.null⟩, 0⟩

/-- What happens at the tip. -/
inductive TipEvent where
  | connect (checks : BlockChecks) (block : CBlock)
  | fetch (outpoint : COutPoint)
  | uncache (outpoint : COutPoint)
  | write (keep : Bool) (outpoint : COutPoint)

/-- Connects a block to a view of its own and pushes that view to the tip. -/
def connectTip (A : Arithmetic) (H : HashFns) (params : ConsensusParams) (checks : BlockChecks)
    (block : CBlock) (s : ChainState) : Except String ChainState := do
  let connected ← connectBlock A H params checks block s.nHeight
    (CCoinsViewCache.ofBase s.pcoinsTip)
  let pcoinsTip ← connected.1.flush s.pcoinsTip
  return ⟨pcoinsTip, s.nHeight + 1⟩

def tipStep (A : Arithmetic) (H : HashFns) (params : ConsensusParams) (s : ChainState) :
    TipEvent → Except String ChainState
  | .connect checks block => connectTip A H params checks block s
  | .fetch outpoint => return { s with pcoinsTip := s.pcoinsTip.fetchCoin outpoint }
  | .uncache outpoint => return { s with pcoinsTip := s.pcoinsTip.uncache outpoint }
  | .write keep outpoint => return { s with pcoinsTip := s.pcoinsTip.writeCoin keep outpoint }

/-- A run from the empty chain. -/
def runTip (A : Arithmetic) (H : HashFns) (params : ConsensusParams) (events : List TipEvent) :
    Except String ChainState :=
  events.foldlM (tipStep A H params) ChainState.init

/-- The value of the unspent coin of an outpoint. -/
def unspentValue (view : CCoinsViewCache) (outpoint : COutPoint) : ℤ :=
  if view.haveCoin outpoint then (view.accessCoin outpoint).out.nValue.toInt else 0

/-- The coins of a view and all that it hides are worth at most `b`. -/
def Supply (view : CCoinsViewCache) (b : ℤ) : Prop :=
  ∃ φ, Bounded view.cache.base φ view b

lemma unspentValue_le (view : CCoinsViewCache) (o : COutPoint) :
    unspentValue view o ≤ view.cache.weight coinWeight o := by
  unfold unspentValue
  split_ifs
  · rw [weight_eq_accessCoin]
    exact le_max_right _ _
  · exact weight_nonneg view o

lemma Supply.sum_le {view : CCoinsViewCache} {b : ℤ} (h : Supply view b)
    (outpoints : Finset COutPoint) : ∑ o ∈ outpoints, unspentValue view o ≤ b := by
  obtain ⟨φ, hb⟩ := h
  calc ∑ o ∈ outpoints, unspentValue view o
      ≤ ∑ o ∈ outpoints, view.cache.potential coinWeight φ o :=
        Finset.sum_le_sum fun o _ => (unspentValue_le view o).trans (hb.weight_le o)
    _ ≤ b := hb.sums outpoints

section Steps
variable {view : CCoinsViewCache} {b : ℤ} {φ : COutPoint → ℤ}

lemma Supply.fetchCoin (h : Supply view b) (outpoint : COutPoint) :
    Supply (view.fetchCoin outpoint) b := by
  obtain ⟨φ, hb⟩ := h
  have hbase := (view.cache.fetch_changesAt outpoint Coin.isSpent).base
  refine ⟨φ, ⟨Cache.Coherent.fetch hb.coherent outpoint, rfl, ?_, fun s => ?_⟩⟩
  · rw [CCoinsViewCache.fetchCoin, hbase]
    exact hb.covers
  · rw [CCoinsViewCache.fetchCoin]
    simp only [Cache.potential_fetch coinWeight_of_isSpent]
    exact hb.sums s

lemma Supply.uncache (h : Supply view b) (outpoint : COutPoint) :
    Supply (view.uncache outpoint) b := by
  obtain ⟨φ, hb⟩ := h
  have hbase := (view.cache.uncache_changesAt outpoint).base
  refine ⟨φ, ⟨Cache.Coherent.uncache hb.coherent outpoint, rfl, ?_, fun s => ?_⟩⟩
  · rw [CCoinsViewCache.uncache, hbase]
    exact hb.covers
  · rw [CCoinsViewCache.uncache]
    simp only [Cache.potential_uncache hb.coherent]
    exact hb.sums s

lemma Supply.writeCoin (h : Supply view b) (keep : Bool) (outpoint : COutPoint) :
    Supply (view.writeCoin keep outpoint) b := by
  obtain ⟨φ, hb⟩ := h
  obtain ⟨φ', hcovers, hle⟩ := Cache.exists_potential_store coinWeight_nonneg
    coinWeight_of_isSpent hb.covers keep outpoint
  refine ⟨φ', ⟨Cache.Coherent.store hb.coherent keep outpoint, rfl, hcovers, fun s => ?_⟩⟩
  exact (Finset.sum_le_sum fun o _ => hle o).trans (hb.sums s)

lemma Bounded.ofBase (hb : Bounded view.cache.base φ view b) :
    Bounded view.getCoin (view.cache.potential coinWeight φ) (CCoinsViewCache.ofBase view) b :=
  ⟨CCoinsViewCache.coherent_ofBase view, rfl, hb.weight_le, hb.sums⟩

lemma Supply.flush {child view' : CCoinsViewCache} {b' : ℤ} (hb : Bounded view.cache.base φ view b)
    (hchild : Bounded view.getCoin (view.cache.potential coinWeight φ) child b')
    (h : child.flush view = .ok view') : Supply view' b' := by
  obtain ⟨cache, hwrite, h⟩ := bind_eq_ok.mp h
  cases h
  obtain ⟨hbase, -⟩ := Cache.batchWrite_eq hwrite
  refine ⟨φ, ⟨hb.coherent.batchWrite hwrite, rfl, ?_, fun s => ?_⟩⟩
  · rw [hbase]
    exact hb.covers
  · simp only [Cache.potential_batchWrite coinWeight_of_isSpent hchild.coherent hchild.store hwrite]
    exact hchild.sums s

end Steps

section Runs
variable {H : HashFns} {params : ConsensusParams} {s s' : ChainState}

lemma getBlockSubsidy_inRange (hparams : Shipped params) (nHeight : ℕ) :
    InRange (getBlockSubsidy nHeight params).toInt := by
  have hmax := subsidySum_le_maxMoney hparams (nHeight + 1)
  have hsum := subsidySum_nonneg hparams nHeight
  have hmoney : maxMoney.toInt = 2100000000000000 := by decide
  rw [subsidySum, Finset.sum_range_succ, ← subsidySum] at hmax
  exact ⟨getBlockSubsidy_nonneg hparams nHeight, by omega⟩

/-- A step keeps the supply within the subsidies and does not overflow. -/
lemma tipStep_supply (hparams : Shipped params) {event : TipEvent}
    (hs : Supply s.pcoinsTip (subsidySum params s.nHeight))
    (h : tipStep wrapping H params s event = .ok s') :
    tipStep trapping H params s event = .ok s' ∧
      Supply s'.pcoinsTip (subsidySum params s'.nHeight) := by
  cases event with
  | connect checks block =>
    obtain ⟨φ, hb⟩ := hs
    obtain ⟨⟨view, vtxundo⟩, hconnect, h⟩ := bind_eq_ok.mp h
    obtain ⟨tip, hflush, h⟩ := bind_eq_ok.mp h
    cases h
    obtain ⟨htrap, hview⟩ := connectBlock_ok (Bounded.ofBase hb)
      (subsidySum_le_maxMoney hparams s.nHeight) (getBlockSubsidy_inRange hparams s.nHeight)
      hconnect
    refine ⟨bind_eq_ok.mpr ⟨_, htrap, bind_eq_ok.mpr ⟨tip, hflush, rfl⟩⟩, ?_⟩
    rw [subsidySum, Finset.sum_range_succ]
    exact Supply.flush hb hview hflush
  | fetch outpoint =>
    cases h
    exact ⟨rfl, hs.fetchCoin outpoint⟩
  | uncache outpoint =>
    cases h
    exact ⟨rfl, hs.uncache outpoint⟩
  | write keep outpoint =>
    cases h
    exact ⟨rfl, hs.writeCoin keep outpoint⟩

lemma supply_init (params : ConsensusParams) :
    Supply ChainState.init.pcoinsTip (subsidySum params ChainState.init.nHeight) := by
  refine ⟨fun _ => 0, ⟨Cache.coherent_above _ _, rfl, fun _ => le_refl 0, fun S => ?_⟩⟩
  exact le_of_eq (Finset.sum_eq_zero fun _ _ => rfl)

/-- In every run, the unspent coins are worth at most the subsidies of the blocks, these
are worth at most the maximal amount of money, and no sum overflowed: with sums that trap
the run ends in the same state. -/
theorem runTip_supply (hparams : Shipped params) {events : List TipEvent}
    (h : runTip wrapping H params events = .ok s) :
    (∀ outpoints : Finset COutPoint,
      ∑ o ∈ outpoints, unspentValue s.pcoinsTip o ≤ subsidySum params s.nHeight) ∧
      subsidySum params s.nHeight ≤ maxMoney.toInt ∧
      runTip trapping H params events = .ok s := by
  have hinv := foldlM_invariant
    (fun done s => done.foldlM (tipStep trapping H params) ChainState.init = .ok s ∧
      Supply s.pcoinsTip (subsidySum params s.nHeight))
    ?_ h ⟨rfl, supply_init params⟩
  · exact ⟨hinv.2.sum_le, subsidySum_le_maxMoney hparams s.nHeight, hinv.1⟩
  · rintro done event s s' - ⟨hrun, hs⟩ hstep
    obtain ⟨htrap, hs'⟩ := tipStep_supply hparams hs hstep
    exact ⟨foldlM_append_eq_ok.mpr ⟨s, hrun, foldlM_cons_eq_ok.mpr ⟨s', htrap, rfl⟩⟩, hs'⟩

end Runs

def testEvents : List TipEvent :=
  [.connect noChecks ⟨lengthHash.hash256 [0], Uint256.null, []⟩,
    .connect noChecks testBlock,
    .write false (outpointAt lengthHash spendTx 0), .fetch (outpointAt lengthHash spendTx 0)]

theorem runTip_supply_testEvents : ∃ s,
    runTip wrapping lengthHash testParams testEvents = .ok s ∧
      unspentValue s.pcoinsTip (outpointAt lengthHash spendTx 0) = 1000000000 ∧
      (∀ outpoints : Finset COutPoint,
        ∑ o ∈ outpoints, unspentValue s.pcoinsTip o ≤ subsidySum testParams 2) ∧
      runTip trapping lengthHash testParams testEvents = .ok s := by
  have hvalue : ((runTip wrapping lengthHash testParams testEvents).toOption.map fun s =>
      (s.nHeight, unspentValue s.pcoinsTip (outpointAt lengthHash spendTx 0))) =
      some (2, 1000000000) := by
    decide +kernel
  cases hrun : runTip wrapping lengthHash testParams testEvents with
  | error e =>
    rw [hrun] at hvalue
    cases hvalue
  | ok s =>
    rw [hrun] at hvalue
    obtain ⟨hheight, hcoin⟩ := Prod.mk.inj (Option.some.inj hvalue)
    obtain ⟨hsum, -, htrap⟩ := runTip_supply (by decide) hrun
    rw [hheight] at hsum
    exact ⟨s, rfl, hcoin, hsum, htrap⟩

end PyrrhaNode.ChainSupply
