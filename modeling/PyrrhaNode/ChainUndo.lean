import PyrrhaNode.BlockUndo
import PyrrhaNode.ChainSupply

/-!
# Coins of a chain can be restored

Every coin at the tip was created by a block above the first one, whose transactions
are skipped, and was added because it is spendable. A view over the tip therefore meets
what disconnecting needs, for every chain of blocks with 31-bit heights.
-/
namespace PyrrhaNode.ChainUndo
open Serialize Transaction Coins
open WriteBackCache BlockConnect BlockSupply
open ChainSupply BlockUndo SignedWord Loop

/-- Clean entries agree with the view below, and every coin can be restored. -/
structure Restoring (view : CCoinsViewCache) : Prop where
  coherent : view.Coherent
  coins : ∀ o coin, view.Holds o coin → Restorable coin

section Blocks
variable {A : Arithmetic} {H : HashFns} {params : ConsensusParams} {checks : BlockChecks}
  {nHeight : ℕ} {view : CCoinsViewCache}

lemma Restoring.ofBase (h : Restoring view) : Restoring (CCoinsViewCache.ofBase view) where
  coherent := CCoinsViewCache.coherent_ofBase view
  coins := fun o coin hholds => h.coins o coin ⟨hholds.1, Cache.holds_of_get hholds.2⟩

lemma Restoring.addBlock (hpos : 0 < nHeight) (hmax : nHeight < 2 ^ 31)
    {txs : List (CTransaction × ℕ)} {state state' : CCoinsViewCache × Uint256}
    (hstate : Restoring state.1) (h : txs.foldlM (addBlockTx H nHeight) state = .ok state') :
    Restoring state'.1 := by
  refine foldlM_invariant (fun _ s => Restoring s.1) ?_ h hstate
  intro done tx s s' _ hs hstep
  obtain ⟨hcoh, hheld⟩ := addCoins_holds hs.coherent (addBlockTx_addCoins hstep)
  refine ⟨hcoh, fun o coin hholds => ?_⟩
  rcases hheld o coin hholds with hold | ⟨out, -, hspendable, rfl⟩
  · exact hs.coins o coin hold
  · exact ⟨hspendable, coinOf_height_ne_zero hpos hmax⟩

lemma Restoring.connectTx {state state' : ConnectState} {tx : CTransaction × ℕ}
    (hstate : Restoring state.view)
    (h : connectTx A H params checks nHeight state tx = .ok state') : Restoring state'.view := by
  obtain ⟨nFees, -, h⟩ := bind_eq_ok.mp h
  cases h
  dsimp only
  unfold spendCoins
  split_ifs
  · exact hstate
  · obtain ⟨hcoh, hheld⟩ := spendInputs_holds tx.1.vin hstate.coherent
    exact ⟨hcoh, fun o coin hholds => hstate.coins o coin (hheld o coin hholds)⟩

lemma Restoring.connectBlock {block : CBlock} {view' : CCoinsViewCache} {vtxundo : List (List Coin)}
    (hview : Restoring view) (hheight : block.hash = params.hashGenesisBlock ∨ 0 < nHeight)
    (hmax : nHeight < 2 ^ 31)
    (h : connectBlock A H params checks block nHeight view = .ok (view', vtxundo)) :
    Restoring view' := by
  unfold BlockConnect.connectBlock at h
  by_cases hgenesis : block.hash = params.hashGenesisBlock
  · rw [if_pos hgenesis] at h
    cases h
    exact ⟨hview.coherent, hview.coins⟩
  rw [if_neg hgenesis] at h
  have hpos := hheight.resolve_left hgenesis
  obtain ⟨u, -, h⟩ := bind_eq_ok.mp h
  obtain ⟨-, h⟩ := ite_throw_eq_ok.mp h
  obtain ⟨state, hstate, h⟩ := bind_eq_ok.mp h
  obtain ⟨v, -, h⟩ := bind_eq_ok.mp h
  cases h
  obtain ⟨added, hadded, hstate⟩ := bind_eq_ok.mp hstate
  obtain ⟨last, hlast, hstate⟩ := bind_eq_ok.mp hstate
  obtain ⟨-, hstate⟩ := ite_throw_eq_ok.mp hstate
  cases hstate
  have hfirst : Restoring added.1 := Restoring.addBlock hpos hmax hview hadded
  have hsecond := foldlM_invariant (fun _ (s : ConnectState) => Restoring s.view)
    (fun _ _ _ _ _ hs hstep => hs.connectTx hstep) hlast hfirst
  exact ⟨hsecond.coherent, hsecond.coins⟩

end Blocks

section Runs
variable {A : Arithmetic} {H : HashFns} {params : ConsensusParams} {s s' : ChainState}
  {event : TipEvent}

lemma tipStep_height (h : tipStep A H params s event = .ok s') :
    s.nHeight ≤ s'.nHeight ∧
      ((∃ checks block, event = .connect checks block) → 0 < s'.nHeight) := by
  cases event with
  | connect checks block =>
    obtain ⟨connected, -, h⟩ := bind_eq_ok.mp h
    obtain ⟨tip, -, h⟩ := bind_eq_ok.mp h
    cases h
    exact ⟨Nat.le_succ _, fun _ => Nat.succ_pos _⟩
  | fetch | uncache | write =>
    cases h
    simp

lemma tipStep_restoring (hheight : (∀ checks block, event = .connect checks block →
      block.hash = params.hashGenesisBlock) ∨ 0 < s.nHeight) (hs : Restoring s.pcoinsTip)
    (h : tipStep A H params s event = .ok s')
    (hmax : s'.nHeight ≤ 2 ^ 31) : Restoring s'.pcoinsTip := by
  cases event with
  | connect checks block =>
    obtain ⟨⟨view, vtxundo⟩, hconnect, h⟩ := bind_eq_ok.mp h
    obtain ⟨tip, hflush, h⟩ := bind_eq_ok.mp h
    cases h
    have hview := hs.ofBase.connectBlock (hheight.imp_left fun hg => hg checks block rfl) hmax
      hconnect
    obtain ⟨cache, hwrite, hflush⟩ := bind_eq_ok.mp hflush
    cases hflush
    refine ⟨hs.coherent.batchWrite hwrite, fun o coin hholds => ?_⟩
    rcases Cache.holds_of_batchWrite hwrite hholds.2 with hold | hchild
    · exact hs.coins o coin ⟨hholds.1, hold⟩
    · exact hview.coins o coin ⟨hholds.1, hchild⟩
  | fetch outpoint =>
    cases h
    exact ⟨Cache.Coherent.fetch hs.coherent outpoint,
      fun o coin hholds => hs.coins o coin ⟨hholds.1, Cache.holds_of_fetch hholds.2⟩⟩
  | uncache outpoint =>
    cases h
    exact ⟨Cache.Coherent.uncache hs.coherent outpoint, fun o coin hholds =>
      hs.coins o coin ⟨hholds.1, Cache.holds_of_uncache hs.coherent hholds.2⟩⟩
  | write keep outpoint =>
    cases h
    exact ⟨Cache.Coherent.store hs.coherent keep outpoint,
      fun o coin hholds => hs.coins o coin ⟨hholds.1, Cache.holds_of_store hholds.2⟩⟩

lemma restoring_init : Restoring ChainState.init.pcoinsTip :=
  ⟨Cache.coherent_above _ _, fun o coin hholds => by cases hholds.2⟩

/-- After every run that starts with the first block of the network, a new view over the
tip is valid and all its coins can be restored. -/
theorem runTip_restorable {checks : BlockChecks} {genesis : CBlock} {events : List TipEvent}
    (hgenesis : genesis.hash = params.hashGenesisBlock)
    (h : runTip A H params (.connect checks genesis :: events) = .ok s)
    (hmax : s.nHeight ≤ 2 ^ 31) :
    (CCoinsViewCache.ofBase s.pcoinsTip).Valid ∧
      ∀ o coin, (CCoinsViewCache.ofBase s.pcoinsTip).coinAt o = some coin → Restorable coin := by
  obtain ⟨first, hfirst, h⟩ := foldlM_cons_eq_ok.mp h
  have hinv := foldlM_invariant
    (fun _ s => 0 < s.nHeight ∧ (s.nHeight ≤ 2 ^ 31 → Restoring s.pcoinsTip)) ?_ h ?_
  · have hs := (hinv.2 hmax).ofBase
    refine ⟨CCoinsViewCache.valid_above _ _ _, fun o coin hcoin => hs.coins o coin ?_⟩
    exact (CCoinsViewCache.coinAt_eq_some.mp hcoin).holds
  · rintro - event t t' - ⟨hpos, ht⟩ hstep
    have hle := (tipStep_height hstep).1
    exact ⟨by omega, fun hmax' => tipStep_restoring (.inr hpos) (ht (by omega)) hstep hmax'⟩
  · refine ⟨(tipStep_height hfirst).2 ⟨_, _, rfl⟩,
      fun hmax' => tipStep_restoring (.inl ?_) restoring_init hfirst hmax'⟩
    rintro checks' block heq
    cases heq
    exact hgenesis

end Runs

theorem runTip_restorable_testEvents : ∃ s,
    runTip wrapping lengthHash testParams testEvents = .ok s ∧
      (CCoinsViewCache.ofBase s.pcoinsTip).Valid ∧
      ∀ o coin, (CCoinsViewCache.ofBase s.pcoinsTip).coinAt o = some coin → Restorable coin := by
  have hheight : (runTip wrapping lengthHash testParams testEvents).toOption.map
      ChainState.nHeight = some 2 := by decide +kernel
  cases hrun : runTip wrapping lengthHash testParams testEvents with
  | error e => simp [hrun, Except.toOption] at hheight
  | ok s =>
    have htwo : s.nHeight = 2 := by simpa [hrun, Except.toOption] using hheight
    exact ⟨s, rfl, runTip_restorable rfl hrun (by omega)⟩

end PyrrhaNode.ChainUndo
