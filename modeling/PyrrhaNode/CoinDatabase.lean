import PyrrhaNode.CoinLayers

/-!
# Writing coins to the database

The database executes batches of changes and the change of its best block one after the other,
each as a whole.  The coins of a cache are written in several batches; the best block is written
before the last one.  If the node stops in between, the database names a block whose changes it
does not have.
-/
namespace PyrrhaNode.CoinDatabase

open List Serialize Transaction Coins WriteBackCache CacheStack

inductive DbOp where
  | erase (outpoint : COutPoint)
  | write (outpoint : COutPoint) (coin : Coin)
  deriving DecidableEq

/-- What the database executes as a whole. -/
inductive DbWrite where
  | batch (ops : List DbOp)
  | bestBlock (hashBlock : Uint256)
  deriving DecidableEq

structure CoinDb where
  coins : COutPoint → Option Coin
  bestBlock : Option Uint256

def DbOp.outpoint : DbOp → COutPoint
  | erase outpoint => outpoint
  | write outpoint _ => outpoint

def DbOp.apply (coins : COutPoint → Option Coin) : DbOp → COutPoint → Option Coin
  | erase outpoint => Function.update coins outpoint none
  | write outpoint coin => Function.update coins outpoint (some coin)

def CoinDb.execute (db : CoinDb) : DbWrite → CoinDb
  | .batch ops => { db with coins := ops.foldl DbOp.apply db.coins }
  | .bestBlock hashBlock => { db with bestBlock := some hashBlock }

def CoinDb.executeAll (db : CoinDb) (writes : List DbWrite) : CoinDb := writes.foldl execute db

/-- The changes of coins among some writes. -/
def performed (writes : List DbWrite) : List DbOp :=
  writes.flatMap fun
    | .batch ops => ops
    | .bestBlock _ => []

/-- The serialised key of a coin is a character and the hash of the outpoint. -/
def coinKeySize : ℕ := 33

/-- What a change adds to `CDBBatch::SizeEstimate`; `valueSize` is the size of a serialised
coin. -/
def opSize (valueSize : Coin → ℕ) : DbOp → ℕ
  | .erase _ => 2 + (if 127 < coinKeySize then 1 else 0) + coinKeySize
  | .write _ coin =>
    3 + (if 127 < coinKeySize then 1 else 0) + coinKeySize +
      (if 127 < valueSize coin then 1 else 0) + valueSize coin

/-- The state of the loop of `BatchWrite`. -/
structure BatchState where
  mapCoins : Entries COutPoint Coin
  batch : List DbOp
  sizeEstimate : ℕ
  writes : List DbWrite

def coinOp (outpoint : COutPoint) (coin : Coin) : DbOp :=
  if coin.isSpent then .erase outpoint else .write outpoint coin

/-- What is left in the cache of a coin that was written: a spent coin leaves it, another one
leaves it too unless it is kept, which depends on the state of the node. -/
def entryLeft (keep : Bool) (coin : Coin) : Option (Entry Coin) :=
  if coin.isSpent then none else if keep then some ⟨coin, false, false⟩ else none

/-- One round of the loop. -/
def batchStep (valueSize : Coin → ℕ) (batchSize : ℕ) (keep : COutPoint → Bool) (s : BatchState)
    (outpoint : COutPoint) : BatchState :=
  match s.mapCoins.get outpoint with
  | none => s
  | some entry =>
    if !entry.dirty then s
    else
      let op := coinOp outpoint entry.value
      let mapCoins := s.mapCoins.modify outpoint fun _ =>
        entryLeft (keep outpoint) entry.value
      if batchSize < s.sizeEstimate + opSize valueSize op then
        ⟨mapCoins, [], 0, s.writes ++ [.batch (s.batch ++ [op])]⟩
      else ⟨mapCoins, s.batch ++ [op], s.sizeEstimate + opSize valueSize op, s.writes⟩

/-- The loop over the entries of a cache. -/
def batchLoop (valueSize : Coin → ℕ) (batchSize : ℕ) (keep : COutPoint → Bool)
    (mapCoins : Entries COutPoint Coin) : BatchState :=
  mapCoins.keys.foldl (batchStep valueSize batchSize keep) ⟨mapCoins, [], 0, []⟩

/-- The writes that the database is given, in their order. -/
def batchWrite (valueSize : Coin → ℕ) (batchSize : ℕ) (keep : COutPoint → Bool)
    (mapCoins : Entries COutPoint Coin) (hashBlock : Uint256) : List DbWrite :=
  let s := batchLoop valueSize batchSize keep mapCoins
  s.writes ++ (if hashBlock.isNull then [] else [.bestBlock hashBlock]) ++ [.batch s.batch]

/-- The change for a dirty entry. -/
def dirtyOp (mapCoins : Entries COutPoint Coin) (outpoint : COutPoint) : Option DbOp :=
  ((mapCoins.get outpoint).filter fun entry => entry.dirty).map fun entry =>
    coinOp outpoint entry.value

/-- What the changes of the dirty entries add to the size estimate, in the order of the map. -/
def dirtySizes (valueSize : Coin → ℕ) (mapCoins : Entries COutPoint Coin) : List ℕ :=
  (mapCoins.keys.filterMap (dirtyOp mapCoins)).map (opSize valueSize)

/-- The sizes can be cut into groups each of which passes the limit with its last size and not
before. -/
def FillsBatches (limit : ℕ) (sizes : List ℕ) : Prop :=
  ∃ groups : List (List ℕ), groups.flatten = sizes ∧
    ∀ group ∈ groups, group.dropLast.sum ≤ limit ∧ limit < group.sum

/-- The changes so far, written or not. -/
def BatchState.ops (s : BatchState) : List DbOp := performed s.writes ++ s.batch

section Batches

variable {limit : ℕ} {group sizes : List ℕ}

/-- Of two lists that pass the limit only with their last size, none is a longer beginning of
some sizes than the other. -/
lemma eq_of_isPrefix {group' : List ℕ} (h : group' <+: group) (hlast : group.dropLast.sum ≤ limit)
    (hpast : limit < group'.sum) : group' = group := by
  by_contra hne
  have hlength : group'.length ≤ group.length - 1 := by
    have := h.length_le.lt_of_ne fun heq => hne (h.eq_of_length heq)
    omega
  have hbefore : group' <+: group.dropLast := by
    rw [dropLast_eq_take]
    exact prefix_take_iff.mpr ⟨h, hlength⟩
  have hle := hbefore.sublist.sum_le_sum fun _ _ => Nat.zero_le _
  omega

/-- The first group of sizes that fill batches is determined by the limit. -/
lemma fillsBatches_append_iff (hlast : group.dropLast.sum ≤ limit) (hpast : limit < group.sum) :
    FillsBatches limit (group ++ sizes) ↔ FillsBatches limit sizes := by
  constructor
  · rintro ⟨_ | ⟨first, rest⟩, hflatten, hgroups⟩
    · rw [flatten_nil, eq_comm, append_eq_nil_iff] at hflatten
      simp [hflatten.1] at hpast
    · rw [flatten_cons] at hflatten
      obtain ⟨hfirst, hpast'⟩ := hgroups first (by simp)
      have heq : first = group := by
        rcases prefix_or_prefix_of_prefix ⟨_, hflatten⟩ (prefix_append group sizes) with h | h
        · exact eq_of_isPrefix h hlast hpast'
        · exact (eq_of_isPrefix h hfirst hpast).symm
      subst heq
      exact ⟨rest, append_cancel_left hflatten, fun g hg => hgroups g (by simp [hg])⟩
  · rintro ⟨groups, rfl, hgroups⟩
    exact ⟨group :: groups, by simp, forall_mem_cons.mpr ⟨⟨hlast, hpast⟩, hgroups⟩⟩

lemma fillsBatches_iff_of_sum_le (h : sizes.sum ≤ limit) :
    FillsBatches limit sizes ↔ sizes = [] := by
  constructor
  · rintro ⟨_ | ⟨first, rest⟩, rfl, hgroups⟩
    · rfl
    · have hpast := (hgroups first (by simp)).2
      rw [flatten_cons, sum_append] at h
      omega
  · rintro rfl
    exact ⟨[], rfl, by simp⟩

end Batches

section Loop

variable (valueSize : Coin → ℕ) (batchSize : ℕ) (keep : COutPoint → Bool)
  {mapCoins : Entries COutPoint Coin} {outpoint : COutPoint} {op : DbOp} (s : BatchState)
  (outpoints : List COutPoint)

@[simp] lemma outpoint_coinOp (outpoint : COutPoint) (coin : Coin) :
    (coinOp outpoint coin).outpoint = outpoint := by
  unfold coinOp
  split_ifs <;> rfl

lemma outpoint_dirtyOp (h : dirtyOp mapCoins outpoint = some op) : op.outpoint = outpoint := by
  obtain ⟨entry, -, rfl⟩ := Option.map_eq_some_iff.mp h
  exact outpoint_coinOp ..

/-- What a round does: nothing for a clean or missing entry; otherwise the entry is replaced, and
the batch with its change is written if it passes the limit, and kept if not. -/
lemma batchStep_cases (outpoint : COutPoint) :
    (dirtyOp s.mapCoins outpoint = none ∧ batchStep valueSize batchSize keep s outpoint = s) ∨
      ∃ entry, s.mapCoins.get outpoint = some entry ∧ entry.dirty = true ∧
        let op := coinOp outpoint entry.value
        let left := s.mapCoins.modify outpoint fun _ => entryLeft (keep outpoint) entry.value
        (batchSize < s.sizeEstimate + opSize valueSize op ∧
          batchStep valueSize batchSize keep s outpoint =
            ⟨left, [], 0, s.writes ++ [.batch (s.batch ++ [op])]⟩) ∨
        (s.sizeEstimate + opSize valueSize op ≤ batchSize ∧
          batchStep valueSize batchSize keep s outpoint =
            ⟨left, s.batch ++ [op], s.sizeEstimate + opSize valueSize op, s.writes⟩) := by
  unfold batchStep dirtyOp
  cases s.mapCoins.get outpoint with
  | none => exact .inl ⟨rfl, rfl⟩
  | some entry =>
    cases hdirty : entry.dirty with
    | false => exact .inl ⟨by simp [hdirty], by simp [hdirty]⟩
    | true =>
      refine .inr ⟨entry, rfl, hdirty, ?_⟩
      simp only [hdirty, Bool.not_true, Bool.false_eq_true, if_false]
      split_ifs with hpast
      · exact .inl ⟨hpast, rfl⟩
      · exact .inr ⟨not_lt.mp hpast, rfl⟩

lemma dirtyOp_of_get {entry : Entry Coin} (hget : mapCoins.get outpoint = some entry)
    (hdirty : entry.dirty = true) :
    dirtyOp mapCoins outpoint = some (coinOp outpoint entry.value) := by
  simp [dirtyOp, hget, hdirty]

lemma ops_batchStep (outpoint : COutPoint) :
    (batchStep valueSize batchSize keep s outpoint).ops =
      s.ops ++ (dirtyOp s.mapCoins outpoint).toList := by
  obtain ⟨hop, heq⟩ | ⟨entry, hget, hdirty, ⟨-, heq⟩ | ⟨-, heq⟩⟩ :=
    batchStep_cases valueSize batchSize keep s outpoint
  · rw [heq, hop, Option.toList_none, append_nil]
  · rw [dirtyOp_of_get hget hdirty, heq]
    simp [performed, BatchState.ops]
  · rw [dirtyOp_of_get hget hdirty, heq]
    simp [BatchState.ops]

lemma get_batchStep_of_ne {other : COutPoint} (h : other ≠ outpoint) :
    (batchStep valueSize batchSize keep s outpoint).mapCoins.get other = s.mapCoins.get other := by
  obtain ⟨-, heq⟩ | ⟨entry, -, -, ⟨-, heq⟩ | ⟨-, heq⟩⟩ :=
    batchStep_cases valueSize batchSize keep s outpoint
  · rw [heq]
  · rw [heq, s.mapCoins.get_modify_of_ne h]
  · rw [heq, s.mapCoins.get_modify_of_ne h]

/-- The other entries are still to be written after a round. -/
lemma filterMap_dirtyOp_batchStep (h : outpoint ∉ outpoints) :
    outpoints.filterMap (dirtyOp (batchStep valueSize batchSize keep s outpoint).mapCoins) =
      outpoints.filterMap (dirtyOp s.mapCoins) := by
  refine filterMap_congr fun other hother => ?_
  have hne : other ≠ outpoint := fun heq => h (heq ▸ hother)
  rw [dirtyOp, get_batchStep_of_ne valueSize batchSize keep s hne, dirtyOp]

lemma ops_foldl_batchStep (s : BatchState) (hnodup : outpoints.Nodup) :
    (outpoints.foldl (batchStep valueSize batchSize keep) s).ops =
      s.ops ++ outpoints.filterMap (dirtyOp s.mapCoins) := by
  induction outpoints generalizing s with
  | nil => simp
  | cons outpoint rest ih =>
    obtain ⟨hnotMem, hrest⟩ := nodup_cons.mp hnodup
    rw [foldl_cons, ih _ hrest, ops_batchStep,
      filterMap_dirtyOp_batchStep valueSize batchSize keep s rest hnotMem]
    cases h : dirtyOp s.mapCoins outpoint with
    | none => simp [filterMap_cons_none h]
    | some op => simp [filterMap_cons_some h]

lemma ops_batchLoop (mapCoins : Entries COutPoint Coin) :
    (batchLoop valueSize batchSize keep mapCoins).ops =
      mapCoins.keys.filterMap (dirtyOp mapCoins) := by
  rw [batchLoop, ops_foldl_batchStep _ _ _ _ _ mapCoins.nodup]
  rfl

/-- The loop leaves its batch empty exactly if the sizes of the changes that it had and of those
that follow fill batches. -/
lemma batch_foldl_batchStep_eq_nil_iff (s : BatchState) (hnodup : outpoints.Nodup)
    (hsum : s.sizeEstimate = (s.batch.map (opSize valueSize)).sum)
    (hle : s.sizeEstimate ≤ batchSize) :
    (outpoints.foldl (batchStep valueSize batchSize keep) s).batch = [] ↔
      FillsBatches batchSize (s.batch.map (opSize valueSize) ++
        (outpoints.filterMap (dirtyOp s.mapCoins)).map (opSize valueSize)) := by
  induction outpoints generalizing s with
  | nil =>
    rw [filterMap_nil, map_nil, append_nil, fillsBatches_iff_of_sum_le (hsum ▸ hle), map_eq_nil_iff]
    rfl
  | cons outpoint rest ih =>
    obtain ⟨hnotMem, hrest⟩ := nodup_cons.mp hnodup
    have hsame := filterMap_dirtyOp_batchStep valueSize batchSize keep s rest hnotMem
    rw [foldl_cons]
    obtain ⟨hop, heq⟩ | ⟨entry, hget, hdirty, ⟨hpast, heq⟩ | ⟨hkept, heq⟩⟩ :=
      batchStep_cases valueSize batchSize keep s outpoint
    · rw [heq, ih s hrest hsum hle, filterMap_cons_none hop]
    · have hop := dirtyOp_of_get hget hdirty
      rw [heq] at hsame ⊢
      rw [ih _ hrest rfl (Nat.zero_le _), hsame, filterMap_cons_some hop, map_cons]
      change FillsBatches batchSize (map _ (rest.filterMap _)) ↔ _
      rw [append_cons, fillsBatches_append_iff]
      · rwa [dropLast_concat, ← hsum]
      · rwa [sum_append, sum_singleton, ← hsum]
    · have hop := dirtyOp_of_get hget hdirty
      rw [heq] at hsame ⊢
      rw [ih _ hrest (by simp [hsum]) hkept, hsame, filterMap_cons_some hop]
      simp

lemma batch_batchLoop_eq_nil_iff (mapCoins : Entries COutPoint Coin) :
    (batchLoop valueSize batchSize keep mapCoins).batch = [] ↔
      FillsBatches batchSize (dirtySizes valueSize mapCoins) :=
  batch_foldl_batchStep_eq_nil_iff valueSize batchSize keep _ _ mapCoins.nodup rfl (Nat.zero_le _)

lemma nodup_ops (mapCoins : Entries COutPoint Coin) :
    (batchLoop valueSize batchSize keep mapCoins).ops.Nodup := by
  rw [ops_batchLoop]
  refine List.Nodup.filterMap ?_ mapCoins.nodup
  intro o₁ o₂ op h₁ h₂
  rw [← outpoint_dirtyOp h₁, ← outpoint_dirtyOp h₂]

lemma mem_ops_batchLoop :
    op ∈ (batchLoop valueSize batchSize keep mapCoins).ops ↔
      ∃ outpoint entry, mapCoins.get outpoint = some entry ∧ entry.dirty = true ∧
        op = coinOp outpoint entry.value := by
  rw [ops_batchLoop, mem_filterMap]
  constructor
  · rintro ⟨outpoint, -, h⟩
    obtain ⟨entry, hentry, rfl⟩ := Option.map_eq_some_iff.mp h
    obtain ⟨hget, hdirty⟩ := Option.filter_eq_some_iff.mp hentry
    exact ⟨outpoint, entry, hget, hdirty, rfl⟩
  · rintro ⟨outpoint, entry, hget, hdirty, rfl⟩
    refine ⟨outpoint, ?_, by simp [dirtyOp, hget, hdirty]⟩
    by_contra hnotMem
    rw [mapCoins.get_of_notMem outpoint hnotMem] at hget
    cases hget

lemma batches_foldl_batchStep (s : BatchState) (h : ∀ w ∈ s.writes, ∃ ops, w = .batch ops) :
    ∀ w ∈ (outpoints.foldl (batchStep valueSize batchSize keep) s).writes,
      ∃ ops, w = .batch ops := by
  induction outpoints generalizing s with
  | nil => exact h
  | cons outpoint rest ih =>
    refine ih _ fun w hw => ?_
    obtain ⟨-, heq⟩ | ⟨entry, -, -, ⟨-, heq⟩ | ⟨-, heq⟩⟩ :=
      batchStep_cases valueSize batchSize keep s outpoint
    · rw [heq] at hw
      exact h w hw
    · rw [heq] at hw
      rcases mem_append.mp hw with hw | hw
      · exact h w hw
      · exact ⟨_, mem_singleton.mp hw⟩
    · rw [heq] at hw
      exact h w hw

lemma bestBlock_executeAll {writes : List DbWrite} (db : CoinDb)
    (h : ∀ w ∈ writes, ∃ ops, w = .batch ops) :
    (db.executeAll writes).bestBlock = db.bestBlock := by
  induction writes generalizing db with
  | nil => rfl
  | cons w rest ih =>
    obtain ⟨ops, rfl⟩ := h w (by simp)
    exact ih _ fun w hw => h w (by simp [hw])

/-- Seen as one step, the loop is the flush of a cache to the coins below it: the coins of the
database after all changes and the entries that are left are those of `storeAll`. -/
theorem foldl_batchStep_refines (coins : COutPoint → Option Coin) (outpoints : List COutPoint)
    (s : BatchState) :
    let s' := outpoints.foldl (batchStep valueSize batchSize keep) s
    (⟨s'.ops.foldl DbOp.apply coins, s'.mapCoins⟩ : Cache COutPoint Coin) =
      outpoints.foldl (fun c o => c.store Coin.isSpent (keep o) o)
        ⟨s.ops.foldl DbOp.apply coins, s.mapCoins⟩ := by
  induction outpoints generalizing s with
  | nil => rfl
  | cons outpoint rest ih =>
    have hround : (⟨(batchStep valueSize batchSize keep s outpoint).ops.foldl DbOp.apply coins,
        (batchStep valueSize batchSize keep s outpoint).mapCoins⟩ : Cache COutPoint Coin) =
        Cache.store Coin.isSpent (keep outpoint) ⟨s.ops.foldl DbOp.apply coins, s.mapCoins⟩
          outpoint := by
      rw [ops_batchStep, foldl_append, Cache.store]
      obtain ⟨hop, heq⟩ | ⟨entry, hget, hdirty, hdone⟩ :=
        batchStep_cases valueSize batchSize keep s outpoint
      · rw [heq, hop]
        cases hget : s.mapCoins.get outpoint with
        | none => rfl
        | some entry =>
          have hclean : entry.dirty = false := by simpa [dirtyOp, hget] using hop
          simp [hclean]
      · have hmap : (batchStep valueSize batchSize keep s outpoint).mapCoins =
            s.mapCoins.modify outpoint fun _ => entryLeft (keep outpoint) entry.value := by
          rcases hdone with ⟨-, heq⟩ | ⟨-, heq⟩ <;> rw [heq]
        rw [hmap, dirtyOp_of_get hget hdirty]
        simp only [hget, hdirty]
        cases hspent : entry.value.isSpent with
        | true | false => simp [coinOp, entryLeft, hspent, DbOp.apply, Cache.setEntry]
    rw [foldl_cons, foldl_cons, ← hround]
    exact ih _

end Loop

/-- The changes of all dirty entries are among the writes. -/
def AllWritten (mapCoins : Entries COutPoint Coin) (writes : List DbWrite) : Prop :=
  ∀ outpoint entry, mapCoins.get outpoint = some entry → entry.dirty = true →
    coinOp outpoint entry.value ∈ performed writes

/-- Wherever the node stops, the database names the new block only if all dirty entries have been
written. -/
def NeverClaimsTooMuch (db : CoinDb) (mapCoins : Entries COutPoint Coin) (hashBlock : Uint256)
    (writes : List DbWrite) : Prop :=
  ∀ done, done <+: writes → (db.executeAll done).bestBlock = some hashBlock →
    AllWritten mapCoins done

section Interruptions

variable {valueSize : Coin → ℕ} {batchSize : ℕ} {keep : COutPoint → Bool} {db : CoinDb}
  {mapCoins : Entries COutPoint Coin} {hashBlock : Uint256} {writes done : List DbWrite}

variable (valueSize batchSize keep) in
lemma allWritten_iff : AllWritten mapCoins writes ↔
    ∀ op ∈ (batchLoop valueSize batchSize keep mapCoins).ops, op ∈ performed writes := by
  constructor
  · intro h op hop
    obtain ⟨outpoint, entry, hget, hdirty, rfl⟩ := (mem_ops_batchLoop _ _ _).mp hop
    exact h outpoint entry hget hdirty
  · intro h outpoint entry hget hdirty
    exact h _ ((mem_ops_batchLoop _ _ _).mpr ⟨outpoint, entry, hget, hdirty, rfl⟩)

lemma performed_subset (h : writes <+: done) :
    performed writes ⊆ performed done := by
  obtain ⟨rest, rfl⟩ := h
  rw [performed, performed, flatMap_append]
  exact subset_append_left _ _

lemma neverClaims_of_lastBatch (hold : db.bestBlock ≠ some hashBlock)
    (hlast : (batchLoop valueSize batchSize keep mapCoins).batch = []) :
    NeverClaimsTooMuch db mapCoins hashBlock
      (batchWrite valueSize batchSize keep mapCoins hashBlock) := by
  intro done hdone hbest
  have hloop : (batchLoop valueSize batchSize keep mapCoins).writes <+:
      batchWrite valueSize batchSize keep mapCoins hashBlock :=
    ⟨_, (append_assoc _ _ _).symm⟩
  rcases prefix_or_prefix_of_prefix hdone hloop with hshort | hlong
  · rw [bestBlock_executeAll db fun w hw =>
      batches_foldl_batchStep valueSize batchSize keep _ _ (by simp) w (hshort.subset hw)] at hbest
    exact absurd hbest hold
  · refine (allWritten_iff valueSize batchSize keep).mpr fun op hop => performed_subset hlong ?_
    rwa [BatchState.ops, hlast, append_nil] at hop

lemma neverClaims_of_isNull (hold : db.bestBlock ≠ some hashBlock)
    (hnull : hashBlock.isNull = true) :
    NeverClaimsTooMuch db mapCoins hashBlock
      (batchWrite valueSize batchSize keep mapCoins hashBlock) := by
  intro done hdone hbest
  have hbatches : ∀ w ∈ done, ∃ ops, w = .batch ops := by
    intro w hw
    have hmem := hdone.subset hw
    simp only [batchWrite, hnull, if_true, append_nil, mem_append,
      mem_singleton] at hmem
    rcases hmem with hmem | rfl
    · exact batches_foldl_batchStep valueSize batchSize keep _ _ (by simp) w hmem
    · exact ⟨_, rfl⟩
  rw [bestBlock_executeAll db hbatches] at hbest
  exact absurd hbest hold

end Interruptions

/-- The database never names a block whose changes it does not have exactly if there are no
changes, or if it did not name the block before and either does not get its name or the sizes of
the changes fill batches, so that none is left for the last one. -/
theorem batchWrite_neverClaims_iff (valueSize : Coin → ℕ) (batchSize : ℕ) (keep : COutPoint → Bool)
    (db : CoinDb) (mapCoins : Entries COutPoint Coin) (hashBlock : Uint256) :
    NeverClaimsTooMuch db mapCoins hashBlock
        (batchWrite valueSize batchSize keep mapCoins hashBlock) ↔
      (∀ outpoint entry, mapCoins.get outpoint = some entry → entry.dirty = false) ∨
        (db.bestBlock ≠ some hashBlock ∧ (hashBlock.isNull = true ∨
          FillsBatches batchSize (dirtySizes valueSize mapCoins))) := by
  rw [← batch_batchLoop_eq_nil_iff valueSize batchSize keep]
  constructor
  · intro h
    by_cases hclean : ∀ outpoint entry, mapCoins.get outpoint = some entry → entry.dirty = false
    · exact .inl hclean
    push Not at hclean
    obtain ⟨outpoint, entry, hget, hdirty⟩ := hclean
    refine .inr ⟨fun hold => ?_, ?_⟩
    · exact absurd (h [] nil_prefix hold outpoint entry hget (by simpa using hdirty))
        not_mem_nil
    · cases hnull : hashBlock.isNull with
      | true => exact .inl rfl
      | false =>
        have hwritten := h ((batchLoop valueSize batchSize keep mapCoins).writes ++
          [.bestBlock hashBlock]) (by simp [batchWrite, hnull])
          (by simp [CoinDb.executeAll, CoinDb.execute])
        have hnodup := nodup_ops valueSize batchSize keep mapCoins
        rw [BatchState.ops, nodup_append'] at hnodup
        refine .inr (eq_nil_iff_forall_not_mem.mpr fun op hop => ?_)
        have hdone := (allWritten_iff valueSize batchSize keep).mp hwritten op
          (mem_append_right _ hop)
        exact hnodup.2.2 (by simpa [performed] using hdone) hop
  · rintro (hclean | ⟨hold, hnull | hlast⟩)
    · intro done _ _ outpoint entry hget hdirty
      rw [hclean outpoint entry hget] at hdirty
      cases hdirty
    · exact neverClaims_of_isNull hold hnull
    · exact neverClaims_of_lastBatch hold hlast

def emptyDb : CoinDb := ⟨fun _ => none, none⟩

/-- A cache with one new coin. -/
def oneNewCoin : Entries COutPoint Coin :=
  DefaultMap.empty.modify CoinLayers.someOutpoint fun _ => some ⟨CoinLayers.someCoin, true, true⟩

def someBlock : Uint256 := .ofByte 7

/-- With the limit of 16 MiB the new coin is in the last batch, and the block is named before. -/
theorem batchWrite_names_block_early :
    batchWrite (fun _ => 40) (2 ^ 24) (fun _ => true) oneNewCoin someBlock =
        [.bestBlock someBlock, .batch [.write CoinLayers.someOutpoint CoinLayers.someCoin]] ∧
      (emptyDb.executeAll [.bestBlock someBlock]).bestBlock = some someBlock ∧
      (emptyDb.executeAll [.bestBlock someBlock]).coins CoinLayers.someOutpoint = none := by
  refine ⟨by decide +kernel, rfl, rfl⟩

end PyrrhaNode.CoinDatabase
