import PyrrhaNode.CacheLookup
import PyrrhaNode.CoinLayers

/-!
# Lookups of coins beside calls that change them

A lookup of a coin that is not cached lets go of the lock while it reads the view below, and
inserts the coin under the lock again.  The calls that change coins hold the lock throughout.
An insertion that meets a coin spent meanwhile takes the dirty flag of its entry away, and the
spend is not written when the cache is flushed.  In runs in which this does not happen, lookups
change nothing that is written.
-/
namespace PyrrhaNode.CoinLookup
open Serialize Transaction Script Loop
open WriteBackCache Coins CoinLayers

/-- A cache and the lookups that have read the view below, with what they read. -/
structure LookupState where
  view : CCoinsViewCache
  pending : List (COutPoint × Coin)

/-- The sections of the calls on a cache that hold its lock. -/
inductive Section where
  /-- `GetCoin` or `HaveCoin` looks for the entry, lets go of the lock and reads below. -/
  | findCoin (outpoint : COutPoint)
  /-- `GetCoinFromDB` reads below. -/
  | getCoinFromDB (outpoint : COutPoint)
  /-- One of these inserts what it read. -/
  | insertCoin (outpoint : COutPoint) (coin : Coin)
  /-- `AccessCoin` keeps the shared lock. -/
  | accessCoin (outpoint : COutPoint)
  | spendCoin (outpoint : COutPoint)
  | addCoin (outpoint : COutPoint) (coin : Coin) (possibleOverwrite : Bool)
  | batchWrite (child : CCoinsViewCache)

/-- The calls that are not lookups. -/
def Section.modifies : Section → Bool
  | .spendCoin _ => true
  | .addCoin _ _ _ => true
  | .batchWrite _ => true
  | _ => false

/-- A lookup that has to read the view below goes on if there is a coin. -/
def readBelow (s : LookupState) (outpoint : COutPoint) : LookupState :=
  match s.view.cache.base outpoint with
  | none => s
  | some coin => { s with pending := (outpoint, coin) :: s.pending }

def insertCoin (s : LookupState) (outpoint : COutPoint) (coin : Coin) : LookupState where
  view := { s.view with cache := s.view.cache.insertFetched Coin.isSpent outpoint coin }
  pending := s.pending.erase (outpoint, coin)

def step (s : LookupState) : Section → Except String LookupState
  | .findCoin outpoint =>
    return if (s.view.cache.entries.get outpoint).isSome then s else readBelow s outpoint
  | .getCoinFromDB outpoint => return readBelow s outpoint
  | .insertCoin outpoint coin =>
    if (outpoint, coin) ∈ s.pending then return insertCoin s outpoint coin
    else throw "no such lookup"
  | .accessCoin outpoint => return { s with view := s.view.fetchCoin outpoint }
  | .spendCoin outpoint => return { s with view := (s.view.spendCoin outpoint).1 }
  | .addCoin outpoint coin possibleOverwrite => do
      let view ← s.view.addCoin outpoint coin possibleOverwrite
      return { s with view := view }
  | .batchWrite child => do
      let view ← child.flush s.view
      return { s with view := view }

def run (s : LookupState) (sections : List Section) : Except String LookupState :=
  sections.foldlM step s

/-- What `Flush` writes to the view below: the dirty entries and the best block. -/
def flushed (s : LookupState) : (COutPoint → Option (Entry Coin)) × Uint256 :=
  (s.view.cache.changes, s.view.hashBlock)

/-- The section meets no entry at which a lookup and a change get in each other's way: an
insertion no spent coin, unless its entry is fresh and not dirty, and a call that may overwrite
no entry that is fresh, not dirty and spent. -/
def Harmless (s : LookupState) : Section → Prop
  | .insertCoin outpoint _ => ∀ e, s.view.cache.entries.get outpoint = some e →
      e.value.isSpent = true → e.dirty = false ∧ e.fresh = true
  | .addCoin outpoint _ true => ∀ e, s.view.cache.entries.get outpoint = some e →
      e.value.isSpent = true → e.dirty = true ∨ e.fresh = false
  | .batchWrite child => ∀ outpoint u e, s.view.cache.entries.get outpoint = some u →
      child.cache.entries.get outpoint = some e → u.value.isSpent = true → u.dirty = false →
      u.fresh = true → e.dirty = true → e.fresh = true
  | _ => True

/-- Runs whose sections are all harmless. -/
inductive HarmlessRun : LookupState → List Section → LookupState → Prop where
  | nil (s : LookupState) : HarmlessRun s [] s
  | cons {s t s' : LookupState} {a : Section} {rest : List Section} (hstep : step s a = .ok t)
      (hharmless : Harmless s a) (hrest : HarmlessRun t rest s') : HarmlessRun s (a :: rest) s'

/-- The state of a run with lookups beside that of the changes alone. -/
structure Follows (s t : LookupState) : Prop where
  adds : Cache.Adds Coin.isSpent s.view.cache t.view.cache
  block : s.view.hashBlock = t.view.hashBlock
  pending : ∀ p ∈ s.pending, s.view.cache.base p.1 = some p.2

variable {s t : LookupState}

section

variable (h : Follows s t)
include h

lemma Follows.flushed_eq : flushed s = flushed t := by
  rw [flushed, flushed, h.adds.changes_eq, h.block]

lemma Follows.readBelow (outpoint : COutPoint) :
    Follows (readBelow s outpoint) t := by
  rw [CoinLookup.readBelow]
  cases hbase : s.view.cache.base outpoint with
  | none => exact h
  | some coin =>
    refine ⟨h.adds, h.block, fun p hp => ?_⟩
    rcases List.mem_cons.mp hp with rfl | hp
    · exact hbase
    · exact h.pending p hp

variable {s' : LookupState} {outpoint : COutPoint}
  {view : CCoinsViewCache} {coin : Coin} {possibleOverwrite : Bool} {a : Section}

lemma Follows.lookup (hstep : step s a = .ok s') (hharmless : Harmless s a)
    (ha : a.modifies = false) :
    Follows s' t := by
  cases a with
  | findCoin outpoint =>
    cases hstep
    split_ifs
    · exact h
    · exact h.readBelow outpoint
  | getCoinFromDB outpoint =>
    cases hstep
    exact h.readBelow outpoint
  | insertCoin outpoint coin =>
    rw [step] at hstep
    split_ifs at hstep with hmem
    cases hstep
    exact ⟨h.adds.insertFetched (h.pending _ hmem) hharmless, h.block,
      fun p hp => h.pending p (List.mem_of_mem_erase hp)⟩
  | accessCoin outpoint =>
    cases hstep
    refine ⟨h.adds.fetch_left, h.block, fun p hp => ?_⟩
    rw [← h.pending p hp]
    exact congrFun (Cache.fetch_changesAt _ _ _).base p.1
  | spendCoin | addCoin | batchWrite => cases ha

lemma Follows.spendCoin (outpoint : COutPoint) :
    Follows { s with view := (s.view.spendCoin outpoint).1 }
      { t with view := (t.view.spendCoin outpoint).1 } := by
  have heq : (s.view.fetchCoin outpoint).cache.entries.get outpoint =
      (t.view.fetchCoin outpoint).cache.entries.get outpoint := h.adds.entries_fetch_eq
  have hfetch := (Cache.fetch_changesAt s.view.cache outpoint Coin.isSpent).base
  rw [CCoinsViewCache.spendCoin, CCoinsViewCache.spendCoin, heq]
  cases (t.view.fetchCoin outpoint).cache.entries.get outpoint with
  | none =>
    refine ⟨h.adds.fetch, h.block, fun p hp => ?_⟩
    rw [← h.pending p hp]
    exact congrFun hfetch p.1
  | some e =>
    refine ⟨h.adds.fetch_remove coinEmpty, h.block, fun p hp => ?_⟩
    rw [← h.pending p hp, ← hfetch]
    exact congrFun (Cache.remove_changesAt _ outpoint coinEmpty).base p.1

omit h in
lemma addCoin_eq_ok {view' : CCoinsViewCache} :
    view.addCoin outpoint coin possibleOverwrite = .ok view' ↔
      coin.isSpent = false ∧
        (isUnspendable coin.out.scriptPubKey = true ∧ view = view' ∨
          isUnspendable coin.out.scriptPubKey = false ∧
            (possibleOverwrite = false → ∀ e, view.cache.entries.get outpoint = some e →
              e.value.isSpent = true) ∧
            { view with cache := view.cache.put outpoint coin possibleOverwrite } = view') := by
  rw [CCoinsViewCache.addCoin]
  cases coin.isSpent with
  | true => simp
  | false =>
    cases isUnspendable coin.out.scriptPubKey with
    | true => simp [pure, Except.pure]
    | false =>
      cases possibleOverwrite with
      | true => simp [pure, Except.pure]
      | false =>
        cases view.cache.entries.get outpoint with
        | none => simp [pure, Except.pure]
        | some e =>
          cases hspent : e.value.isSpent <;>
            simp [hspent, pure, Except.pure]

lemma Follows.addCoin (hharmless : Harmless s (.addCoin outpoint coin possibleOverwrite))
    (hadd : s.view.addCoin outpoint coin possibleOverwrite = .ok view) :
    ∃ view', t.view.addCoin outpoint coin possibleOverwrite = .ok view' ∧
      Follows { s with view := view } { t with view := view' } := by
  obtain ⟨hcoin, ⟨hskip, rfl⟩ | ⟨hkeep, hnew, rfl⟩⟩ := addCoin_eq_ok.mp hadd
  · exact ⟨t.view, addCoin_eq_ok.mpr ⟨hcoin, .inl ⟨hskip, rfl⟩⟩, h⟩
  · have hnew' : possibleOverwrite = false → ∀ e, t.view.cache.entries.get outpoint = some e →
        e.value.isSpent = true := by
      intro hno e he
      rcases h.adds.entry outpoint with heq | ⟨hnone, -⟩
      · exact hnew hno e (heq.trans he)
      · rw [hnone] at he
        cases he
    refine ⟨_, addCoin_eq_ok.mpr ⟨hcoin, .inr ⟨hkeep, hnew', rfl⟩⟩, ?_, h.block, fun p hp => ?_⟩
    · refine h.adds.put hnew fun hover => ?_
      rw [hover] at hharmless
      exact hharmless
    · rw [← h.pending p hp]
      exact congrFun (Cache.put_changesAt _ _ _ _).base p.1

lemma Follows.batchWrite {child : CCoinsViewCache} (hharmless : Harmless s (.batchWrite child))
    (hwrite : child.flush s.view = .ok view) :
    ∃ view', child.flush t.view = .ok view' ∧
      Follows { s with view := view } { t with view := view' } := by
  obtain ⟨c, hc, hview⟩ := bind_eq_ok.mp hwrite
  cases hview
  obtain ⟨d, hd, hadds⟩ := h.adds.batchWrite hharmless hc
  refine ⟨_, bind_eq_ok.mpr ⟨d, hd, rfl⟩, hadds, rfl, fun p hp => ?_⟩
  rw [← h.pending p hp]
  exact congrFun (Cache.batchWrite_eq hc).1 p.1

/-- A call that changes coins does the same without the lookups. -/
lemma Follows.change (hstep : step s a = .ok s') (hharmless : Harmless s a)
    (ha : a.modifies = true) :
    ∃ t', step t a = .ok t' ∧ Follows s' t' := by
  cases a with
  | findCoin | getCoinFromDB | insertCoin | accessCoin => cases ha
  | spendCoin outpoint =>
    cases hstep
    exact ⟨_, rfl, h.spendCoin outpoint⟩
  | addCoin outpoint coin possibleOverwrite =>
    obtain ⟨view, hview, hs⟩ := bind_eq_ok.mp hstep
    cases hs
    obtain ⟨view', hview', hfollows⟩ := h.addCoin hharmless hview
    exact ⟨_, bind_eq_ok.mpr ⟨view', hview', rfl⟩, hfollows⟩
  | batchWrite child =>
    obtain ⟨view, hview, hs⟩ := bind_eq_ok.mp hstep
    cases hs
    obtain ⟨view', hview', hfollows⟩ := h.batchWrite hharmless hview
    exact ⟨_, bind_eq_ok.mpr ⟨view', hview', rfl⟩, hfollows⟩

end

/-- The lookups of a harmless run can be left out. -/
lemma HarmlessRun.follows {sections : List Section} (hrun : HarmlessRun s sections s')
    (h : Follows s t) :
    ∃ t', run t (sections.filter Section.modifies) = .ok t' ∧ Follows s' t' := by
  induction hrun generalizing t with
  | nil s => exact ⟨t, rfl, h⟩
  | @cons s u s' a rest hstep hharmless _ ih =>
    cases ha : a.modifies with
    | false =>
      rw [List.filter_cons_of_neg (by simp [ha])]
      exact ih (h.lookup hstep hharmless ha)
    | true =>
      rw [List.filter_cons_of_pos ha]
      obtain ⟨v, hv, hfollows⟩ := h.change hstep hharmless ha
      obtain ⟨t', ht', hend⟩ := ih hfollows
      exact ⟨t', foldlM_cons_eq_ok.mpr ⟨v, hv, ht'⟩, hend⟩

/-- From every cache, a run whose sections are all harmless writes at the next flush what the
calls that change coins would have written alone. -/
theorem flushed_eq_of_harmlessRun {view : CCoinsViewCache} {sections : List Section}
    {s : LookupState} (hrun : HarmlessRun ⟨view, []⟩ sections s) :
    ∃ t, run ⟨view, []⟩ (sections.filter Section.modifies) = .ok t ∧ flushed s = flushed t := by
  have hstart : Follows ⟨view, []⟩ ⟨view, []⟩ := ⟨Cache.Adds.refl _, rfl, by simp⟩
  obtain ⟨t, ht, hfollows⟩ := hrun.follows hstart
  exact ⟨t, ht, hfollows.flushed_eq⟩

/-- A cache without entries over a view with one coin. -/
def oneCoinCache : CCoinsViewCache :=
  ⟨Cache.above fun outpoint => if outpoint = someOutpoint then some someCoin else none,
    Uint256.null, Uint256.null⟩

/-- The coin is spent while a lookup has let go of the lock: nothing is written, although the
spend alone is written. -/
theorem lookup_loses_spend :
    (run ⟨oneCoinCache, []⟩ [.findCoin someOutpoint, .spendCoin someOutpoint,
        .insertCoin someOutpoint someCoin]).toOption.map (fun s => (flushed s).1 someOutpoint) =
      some none ∧
    (run ⟨oneCoinCache, []⟩ [.spendCoin someOutpoint]).toOption.map
        (fun s => (flushed s).1 someOutpoint) = some (some ⟨coinEmpty, true, false⟩) := by
  decide +kernel

theorem flushed_eq_lookup_first :
    ∃ s t, HarmlessRun ⟨oneCoinCache, []⟩ [.findCoin someOutpoint,
        .insertCoin someOutpoint someCoin, .spendCoin someOutpoint] s ∧
      run ⟨oneCoinCache, []⟩ [.spendCoin someOutpoint] = .ok t ∧ flushed s = flushed t := by
  obtain ⟨s, hrun⟩ : ∃ s, HarmlessRun ⟨oneCoinCache, []⟩ [.findCoin someOutpoint,
      .insertCoin someOutpoint someCoin, .spendCoin someOutpoint] s := by
    have hfind : step ⟨oneCoinCache, []⟩ (.findCoin someOutpoint) =
        .ok ⟨oneCoinCache, [(someOutpoint, someCoin)]⟩ := by
      rfl
    have hinsert : step ⟨oneCoinCache, [(someOutpoint, someCoin)]⟩
        (.insertCoin someOutpoint someCoin) =
        .ok (insertCoin ⟨oneCoinCache, [(someOutpoint, someCoin)]⟩ someOutpoint someCoin) := by
      rfl
    refine ⟨_, .cons hfind trivial (.cons hinsert ?_ (.cons rfl trivial (.nil _)))⟩
    rintro e ⟨⟩
  obtain ⟨t, ht, heq⟩ := flushed_eq_of_harmlessRun hrun
  exact ⟨s, t, hrun, ht, heq⟩

end PyrrhaNode.CoinLookup
