import PyrrhaNode.WriteBackCache

/-!
# The contents of a write-back cache

A cache whose clean entries agree with the store and whose fresh entries hide nothing
behaves as a partial map of live values: a write of a new key and a removal change this
map at one key, however the entries are flagged. Maps without the keys of a finite set
describe what is left after a number of removals, in any order.
-/
namespace PyrrhaNode.WriteBackCache
open Function

/-- A partial map without the keys of a set. -/
def without {κ β : Type} [DecidableEq κ] (m : κ → Option β) (s : Finset κ) : κ → Option β :=
  fun k => if k ∈ s then none else m k

section Without
variable {κ β : Type} [DecidableEq κ] {m : κ → Option β} {s : Finset κ} {k : κ} {v : β}

@[simp] theorem without_empty (m : κ → Option β) : without m ∅ = m := by
  ext k
  simp [without]

theorem without_of_mem (h : k ∈ s) : without m s k = none := if_pos h

theorem without_of_notMem (h : k ∉ s) : without m s k = m k := if_neg h

theorem without_eq_some : without m s k = some v ↔ k ∉ s ∧ m k = some v := by
  by_cases h : k ∈ s <;> simp [without]

theorem update_without_none : update (without m s) k none = without m (insert k s) := by
  ext1 j
  by_cases hjk : j = k
  · subst hjk
    simp [without]
  · simp [without, hjk]

theorem without_update_insert (h : without m s k = none) :
    without (update m k (some v)) (insert k s) = without m s := by
  ext1 j
  by_cases hjk : j = k
  · subst hjk
    rw [without_of_mem (Finset.mem_insert_self j s), h]
  · simp [without, hjk]

end Without

namespace Cache

variable {κ β : Type} [DecidableEq κ] {dead : β → Bool} {c : Cache κ β} {v : β} {k j : κ}

/-- The live value of a key. -/
def live (dead : β → Bool) (c : Cache κ β) : κ → Option β :=
  fun k => (c.get k).filter fun v => !dead v

/-- Clean entries agree with the store, and fresh entries hide no live value of it. -/
structure Faithful (dead : β → Bool) (c : Cache κ β) : Prop where
  coherent : Coherent dead c
  sound : Sound dead c

section Contents
variable {dead : β → Bool} {c c' : Cache κ β} {j k : κ} {v nil : β}

theorem live_eq_some : c.live dead k = some v ↔ dead v = false ∧ c.get k = some v := by
  simp [live, and_comm]

theorem live_eq_none : c.live dead k = none ↔ ∀ v, c.get k = some v → dead v = true := by
  simp [live]

theorem faithful_above (dead : β → Bool) (base : κ → Option β) : Faithful dead (above base) where
  coherent := coherent_above dead base
  sound := by
    intro k e he
    cases he

theorem live_fetch (k : κ) : (c.fetch dead k).live dead = c.live dead := by
  ext1 j
  rw [live, live, get_fetch]

theorem ChangesAt.live_eq (h : ChangesAt c k c') {r : Option β}
    (hk : (c'.get k).filter (fun v => !dead v) = r) :
    c'.live dead = update (c.live dead) k r := by
  ext1 j
  by_cases hjk : j = k
  · subst hjk
    rw [update_self]
    exact hk
  · rw [update_of_ne hjk, live, live, h.get_of_ne hjk]

theorem Sound.changesAt (hc : Sound dead c) (h : ChangesAt c k c')
    (hk : ∀ e, c'.entries.get k = some e → e.fresh = true → ∀ v, c.base k = some v →
      dead v = true) : Sound dead c' := by
  intro j e he hfresh
  rw [h.base]
  by_cases hjk : j = k
  · subst hjk
    exact hk e he hfresh
  · rw [h.entries_of_ne hjk] at he
    exact hc j e he hfresh

theorem Faithful.fetch (hc : Faithful dead c) (k : κ) : Faithful dead (c.fetch dead k) := by
  refine ⟨hc.coherent.fetch k, hc.sound.changesAt (c.fetch_changesAt k dead) ?_⟩
  intro e he hfresh v hv
  unfold Cache.fetch at he
  split at he
  · rename_i u hentry hbase
    rw [get_entries_setEntry_self] at he
    cases he
    rw [hbase] at hv
    cases hv
    exact hfresh
  · exact hc.sound k e he hfresh v hv

theorem get_entries_put (c : Cache κ β) (k : κ) (v : β) (overwrite : Bool) :
    ∃ e, (c.put k v overwrite).entries.get k = some e ∧ e.value = v := by
  unfold put
  split
  all_goals exact ⟨_, get_entries_setEntry_self c k _, rfl⟩

theorem live_put (hlive : dead v = false) (overwrite : Bool) :
    (c.put k v overwrite).live dead = update (c.live dead) k (some v) := by
  obtain ⟨e, he, hv⟩ := c.get_entries_put k v overwrite
  refine (c.put_changesAt k v overwrite).live_eq ?_
  simp [get, he, hv, hlive]

/-- A write that is not said to overwrite has to be for a key without a live value. -/
theorem Faithful.put (hc : Faithful dead c) {overwrite : Bool}
    (hnew : overwrite = false → c.live dead k = none) (v : β) :
    Faithful dead (c.put k v overwrite) := by
  refine ⟨hc.coherent.put k v overwrite,
    hc.sound.changesAt (c.put_changesAt k v overwrite) fun e he hfresh u hu => ?_⟩
  unfold Cache.put at he
  split at he
  · rename_i hentry
    rw [get_entries_setEntry_self] at he
    cases he
    have hnone := live_eq_none.mp (hnew (by simpa using hfresh)) u
    rw [get, hentry] at hnone
    exact hnone hu
  · rename_i old hold
    rw [get_entries_setEntry_self] at he
    cases he
    simp only [Bool.or_eq_true, Bool.and_eq_true, Bool.not_eq_true'] at hfresh
    rcases hfresh with hfresh | ⟨hover, hclean⟩
    · exact hc.sound k old hold hfresh u hu
    · have hbase := (hc.coherent k old hold hclean).1
      rw [hbase] at hu
      cases hu
      refine live_eq_none.mp (hnew hover) old.value ?_
      rw [get, hold]

theorem live_fetch_remove (hc : Faithful dead c) (hnil : dead nil = true) :
    ((c.fetch dead k).remove nil k).live dead = update (c.live dead) k none := by
  have hfetch := hc.fetch k
  have hfetched : (c.fetch dead k).live dead = c.live dead := live_fetch k
  rw [← hfetched]
  refine ((c.fetch dead k).remove_changesAt k nil).live_eq ?_
  unfold remove
  cases he : (c.fetch dead k).entries.get k with
  | none =>
    have hnone : (c.fetch dead k).get k = none := by
      rw [get_fetch, get_eq_none_of_fetch he]
    simp [hnone]
  | some e =>
    by_cases hfresh : e.fresh = true
    · simp only [hfresh, if_true]
      simp only [get, get_entries_setEntry_self, Option.filter_eq_none_iff]
      intro v hv
      simp [hfetch.sound k e he hfresh v hv]
    · simp [get, hfresh, hnil]

theorem entries_remove_congr (h : c.entries = c'.entries) :
    (c.remove nil k).entries = (c'.remove nil k).entries := by
  unfold remove
  rw [h]
  cases c'.entries.get k with
  | none => exact h
  | some e =>
    dsimp only
    split_ifs <;> simp only [setEntry, h]

theorem Faithful.remove (hc : Faithful dead c) (nil : β) (k : κ) :
    Faithful dead (c.remove nil k) := by
  refine ⟨hc.coherent.remove nil k,
    hc.sound.changesAt (c.remove_changesAt k nil) fun e he hfresh u hu => ?_⟩
  unfold Cache.remove at he
  split at he
  · exact hc.sound k e he hfresh u hu
  · split_ifs at he
    · simp at he
    · rw [get_entries_setEntry_self] at he
      cases he
      cases hfresh

end Contents

theorem holds_of_uncache (hc : Coherent dead c) (h : (c.uncache k).Holds j v) : c.Holds j v := by
  by_cases hjk : j = k
  · subst hjk
    unfold uncache at h
    split at h
    · exact h
    rename_i e he
    split_ifs at h with hclean
    · simp only [Bool.and_eq_true, Bool.not_eq_true'] at hclean
      rw [holds_of_none (get_entries_setEntry_self c j _), base_setEntry,
        (hc j e he hclean.1).1] at h
      exact (holds_of_some he).mpr (.inl (Option.some.inj h))
    · exact h
  · exact ((c.uncache_changesAt k).holds_of_ne hjk).mp h

theorem holds_of_store {keep : Bool} (h : (c.store dead keep k).Holds j v) : c.Holds j v := by
  obtain heq | ⟨e, he, u, r, heq, hcase⟩ := store_cases dead keep c k
  · rwa [heq] at h
  · rw [heq] at h
    by_cases hjk : j = k
    · subst hjk
      refine (holds_of_some he).mpr (.inl ?_)
      rcases hcase with ⟨hu, -, hr⟩ | ⟨hu, -, hr | hr⟩
      · simp [Holds, hu, hr] at h
      · simpa [Holds, hu, hr] using h
      · simpa [Holds, hr] using h
    · simpa [Holds, get_entries_setEntry_of_ne c j k r hjk, update_of_ne hjk] using h

theorem holds_of_batchWrite {child parent parent' : Cache κ β}
    (h : batchWrite dead child parent = .ok parent') (hv : parent'.Holds k v) :
    parent.Holds k v ∨ child.Holds k v := by
  obtain ⟨hbase, hentries⟩ := batchWrite_eq h
  rcases flushEntry_cases (hentries k) with ⟨hsame, -⟩ | ⟨e, he, -, hcase⟩
  · rw [Holds, hsame, hbase] at hv
    exact .inl hv
  rcases hcase with ⟨hus, -, -, hr⟩ | ⟨hus, hr⟩ | ⟨u, hus, -, ⟨hfresh, -, hr⟩ | hr⟩
  · rw [holds_of_none hr, hbase] at hv
    exact .inl ((holds_of_none hus).mpr hv)
  · rw [holds_of_some hr, hbase] at hv
    rcases hv with hv | ⟨-, hv⟩
    · exact .inr ((holds_of_some he).mpr (.inl hv))
    · exact .inl ((holds_of_none hus).mpr hv)
  · rw [holds_of_none hr, hbase] at hv
    exact .inl ((holds_of_some hus).mpr (.inr ⟨hfresh, hv⟩))
  · rw [holds_of_some hr, hbase] at hv
    rcases hv with hv | hv
    · exact .inr ((holds_of_some he).mpr (.inl hv))
    · exact .inl ((holds_of_some hus).mpr (.inr hv))

end Cache

end PyrrhaNode.WriteBackCache
