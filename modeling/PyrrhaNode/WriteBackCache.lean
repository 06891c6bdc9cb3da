import Mathlib.Algebra.BigOperators.Group.Finset.Basic
import PyrrhaNode.DefaultMap
import PyrrhaNode.Loop

/-!
# Write-back caches

A cache keeps entries over a store that it reads through. A dirty entry may differ
from the store; a fresh entry claims that the store has no live value for its key, so
that it is dropped and not kept as a dead entry when its value is removed. The claim
is not checked when an entry is made. A live value of the store under a fresh entry is
therefore hidden, and seen again after the entry is dropped. The potential of a key
counts what is seen and what is hidden, and no operation creates any of it.
-/
namespace PyrrhaNode.WriteBackCache
open Function Loop

/-- The sums of a function over finite sets stay within a bound. -/
def SumsWithin {κ : Type} (f : κ → ℤ) (b : ℤ) : Prop := ∀ s : Finset κ, ∑ k ∈ s, f k ≤ b

/-- Changing the function at one point by `d` changes the bound by `d`, as long as the
changed value may still be nonnegative. -/
theorem SumsWithin.update {κ : Type} [DecidableEq κ] {f f' : κ → ℤ} {b d : ℤ} {k : κ}
    (h : SumsWithin f b) (hne : ∀ j, j ≠ k → f' j = f j) (hk : f' k ≤ f k + d)
    (hnonneg : 0 ≤ f k + d) : SumsWithin f' (b + d) := by
  have herase : ∀ s : Finset κ, ∑ j ∈ s.erase k, f' j = ∑ j ∈ s.erase k, f j := fun s =>
    Finset.sum_congr rfl fun j hj => hne j (Finset.ne_of_mem_erase hj)
  intro s
  have hinsert := h (insert k s)
  rw [← Finset.add_sum_erase (insert k s) f (Finset.mem_insert_self k s),
    Finset.erase_insert_eq_erase] at hinsert
  by_cases hks : k ∈ s
  · rw [← Finset.add_sum_erase s f' hks, herase]
    linarith
  · rw [← Finset.erase_eq_of_notMem hks, herase]
    linarith

structure Entry (β : Type) where
  value : β
  dirty : Bool
  fresh : Bool
  deriving DecidableEq

/-- Entries over a store. -/
structure Cache (κ β : Type) [DecidableEq κ] where
  base : κ → Option β
  entries : DefaultMap κ (Option (Entry β))

namespace Cache

variable {κ β : Type} [DecidableEq κ]

/-- A cache without entries. -/
def above (base : κ → Option β) : Cache κ β := ⟨base, .empty⟩

/-- The value that is seen for a key. -/
def get (c : Cache κ β) (k : κ) : Option β :=
  match c.entries.get k with
  | some e => some e.value
  | none => c.base k

def setEntry (c : Cache κ β) (k : κ) (e : Option (Entry β)) : Cache κ β :=
  { c with entries := c.entries.modify k fun _ => e }

/-- Reads a value through into the cache. -/
def fetch (dead : β → Bool) (c : Cache κ β) (k : κ) : Cache κ β :=
  match c.entries.get k, c.base k with
  | none, some v => c.setEntry k (some ⟨v, false, dead v⟩)
  | _, _ => c

/-- Writes a value. An entry that was not dirty becomes fresh, unless the writer says
that a value may be overwritten. -/
def put (c : Cache κ β) (k : κ) (v : β) (overwrite : Bool) : Cache κ β :=
  match c.entries.get k with
  | none => c.setEntry k (some ⟨v, true, !overwrite⟩)
  | some e => c.setEntry k (some ⟨v, true, e.fresh || !overwrite && !e.dirty⟩)

/-- Removes the value of an entry: a fresh entry is dropped, another one is kept with
the dead value. -/
def remove (nil : β) (c : Cache κ β) (k : κ) : Cache κ β :=
  match c.entries.get k with
  | none => c
  | some e => if e.fresh then c.setEntry k none else c.setEntry k (some ⟨nil, true, false⟩)

/-- Drops an entry that says no more than the store. -/
def uncache (c : Cache κ β) (k : κ) : Cache κ β :=
  match c.entries.get k with
  | none => c
  | some e => if !e.dirty && !e.fresh then c.setEntry k none else c

/-- The entry after the entry `it` of a cache above is written to the entry `us`. -/
def flushEntry (dead : β → Bool) (us it : Option (Entry β)) :
    Except String (Option (Entry β)) :=
  match it with
  | none => return us
  | some e =>
    if !e.dirty then return us
    else
      match us with
      | none =>
        if e.fresh && dead e.value then return none
        else return some ⟨e.value, true, e.fresh⟩
      | some u =>
        if e.fresh && !dead u.value then throw
          "FRESH flag misapplied to cache entry for base transaction with spendable outputs"
        else if u.fresh && dead e.value then return none
        else return some ⟨e.value, true, u.fresh⟩

def batchWriteStep (dead : β → Bool) (child parent : Cache κ β) (k : κ) :
    Except String (Cache κ β) := do
  let e ← flushEntry dead (parent.entries.get k) (child.entries.get k)
  return parent.setEntry k e

/-- Writes the entries of a cache to the cache below it. -/
def batchWrite (dead : β → Bool) (child parent : Cache κ β) : Except String (Cache κ β) :=
  child.entries.keys.foldlM (batchWriteStep dead child) parent

/-- Writes an entry to the store, which keeps no dead values, and keeps it as a clean entry
or drops it. -/
def store (dead : β → Bool) (keep : Bool) (c : Cache κ β) (k : κ) : Cache κ β :=
  match c.entries.get k with
  | none => c
  | some e =>
    if !e.dirty then c
    else if dead e.value then ⟨update c.base k none, (c.setEntry k none).entries⟩
    else ⟨update c.base k (some e.value),
      (c.setEntry k (if keep then some ⟨e.value, false, false⟩ else none)).entries⟩

section Entries
variable (c : Cache κ β) (j k : κ) (e : Option (Entry β))

@[simp] theorem base_setEntry : (c.setEntry k e).base = c.base := rfl

@[simp] theorem get_entries_setEntry_self : (c.setEntry k e).entries.get k = e := by
  simp [setEntry]

theorem get_entries_setEntry_of_ne (h : j ≠ k) :
    (c.setEntry k e).entries.get j = c.entries.get j := by
  simp [setEntry, c.entries.get_modify_of_ne h]

end Entries

/-- What the operations do to entries: each changes at most the entry of its own key. -/
inductive ChangesAt (c : Cache κ β) (k : κ) : Cache κ β → Prop where
  | same : ChangesAt c k c
  | set (e : Option (Entry β)) : ChangesAt c k (c.setEntry k e)

section Changes
variable {c c' : Cache κ β} {j k : κ}

theorem ChangesAt.base (h : ChangesAt c k c') : c'.base = c.base := by
  cases h <;> rfl

theorem ChangesAt.entries_of_ne (h : ChangesAt c k c') (hne : j ≠ k) :
    c'.entries.get j = c.entries.get j := by
  cases h with
  | same => rfl
  | set e => exact get_entries_setEntry_of_ne c j k e hne

theorem ChangesAt.get_of_ne (h : ChangesAt c k c') (hne : j ≠ k) : c'.get j = c.get j := by
  simp [get, h.entries_of_ne hne, h.base]

variable (c k)

theorem fetch_changesAt (dead : β → Bool) : ChangesAt c k (c.fetch dead k) := by
  unfold fetch
  split
  · exact .set _
  · exact .same

theorem put_changesAt (v : β) (overwrite : Bool) : ChangesAt c k (c.put k v overwrite) := by
  unfold put
  split <;> exact .set _

theorem remove_changesAt (nil : β) : ChangesAt c k (c.remove nil k) := by
  unfold remove
  split
  · exact .same
  · split_ifs <;> exact .set _

theorem uncache_changesAt : ChangesAt c k (c.uncache k) := by
  unfold uncache
  split
  · exact .same
  · split_ifs
    · exact .set _
    · exact .same

end Changes

/-- Entries that are not dirty agree with the store, and are fresh when they are dead. -/
def Coherent (dead : β → Bool) (c : Cache κ β) : Prop :=
  ∀ k e, c.entries.get k = some e → e.dirty = false →
    c.base k = some e.value ∧ e.fresh = dead e.value

section Coherence
variable {dead : β → Bool} {c c' : Cache κ β}

theorem coherent_above (dead : β → Bool) (base : κ → Option β) : Coherent dead (above base) := by
  intro k e he
  cases he

variable (hc : Coherent dead c)
include hc

theorem Coherent.changesAt {k : κ} (h : ChangesAt c k c')
    (hk : ∀ e, c'.entries.get k = some e → e.dirty = false →
      c.base k = some e.value ∧ e.fresh = dead e.value) : Coherent dead c' := by
  intro j e he hdirty
  rw [h.base]
  by_cases hjk : j = k
  · subst hjk
    exact hk e he hdirty
  · rw [h.entries_of_ne hjk] at he
    exact hc j e he hdirty

theorem Coherent.fetch (k : κ) : Coherent dead (c.fetch dead k) := by
  refine hc.changesAt (c.fetch_changesAt k dead) fun e he hdirty => ?_
  unfold Cache.fetch at he
  split at he
  · rename_i v _ hbase
    rw [get_entries_setEntry_self] at he
    cases he
    exact ⟨hbase, rfl⟩
  · exact hc k e he hdirty

theorem Coherent.put (k : κ) (v : β) (overwrite : Bool) :
    Coherent dead (c.put k v overwrite) := by
  refine hc.changesAt (c.put_changesAt k v overwrite) fun e he hdirty => ?_
  unfold Cache.put at he
  split at he <;>
  · rw [get_entries_setEntry_self] at he
    cases he
    cases hdirty

theorem Coherent.remove (nil : β) (k : κ) :
    Coherent dead (c.remove nil k) := by
  refine hc.changesAt (c.remove_changesAt k nil) fun e he hdirty => ?_
  unfold Cache.remove at he
  split at he
  · exact hc k e he hdirty
  · split_ifs at he
    · simp at he
    · rw [get_entries_setEntry_self] at he
      cases he
      cases hdirty

theorem Coherent.uncache (k : κ) : Coherent dead (c.uncache k) := by
  refine hc.changesAt (c.uncache_changesAt k) fun e he hdirty => ?_
  unfold Cache.uncache at he
  split at he
  · exact hc k e he hdirty
  · split_ifs at he
    · simp at he
    · exact hc k e he hdirty

end Coherence

/-! ## Potentials

The store has the potential `φ`, which is at least the weight of the value that it
shows. -/

section Potential
variable (w : β → ℤ) (φ : κ → ℤ)

/-- The weight of the value that is seen for a key. -/
def weight (c : Cache κ β) (k : κ) : ℤ := (c.get k).elim 0 w

/-- The weight of the value of the store. -/
def baseWeight (c : Cache κ β) (k : κ) : ℤ := (c.base k).elim 0 w

/-- What is seen for a key and what is hidden below it. -/
def potential (c : Cache κ β) (k : κ) : ℤ :=
  match c.entries.get k with
  | none => φ k
  | some e => w e.value + if e.fresh then φ k else φ k - c.baseWeight w k

variable {w φ} {dead : β → Bool} {c c' : Cache κ β} {j k : κ} {e : Entry β} {nil : β}

theorem potential_of_none (h : c.entries.get k = none) : c.potential w φ k = φ k := by
  simp [potential, h]

theorem potential_of_some (h : c.entries.get k = some e) :
    c.potential w φ k = w e.value + if e.fresh then φ k else φ k - c.baseWeight w k := by
  simp [potential, h]

theorem weight_of_none (h : c.entries.get k = none) : c.weight w k = c.baseWeight w k := by
  simp [weight, get, h, baseWeight]

theorem weight_of_some (h : c.entries.get k = some e) :
    c.weight w k = w e.value := by
  simp [weight, get, h]

theorem ChangesAt.potential_of_ne (h : ChangesAt c k c') (hne : j ≠ k) :
    c'.potential w φ j = c.potential w φ j := by
  simp [potential, baseWeight, h.entries_of_ne hne, h.base]

/-- The potential covers what is seen, when the potential of the store does. -/
theorem weight_le_potential (hw : ∀ v, 0 ≤ w v) (hφ : c.baseWeight w k ≤ φ k) :
    c.weight w k ≤ c.potential w φ k := by
  have hbase : 0 ≤ c.baseWeight w k := by
    unfold baseWeight
    cases c.base k with
    | none => exact le_refl 0
    | some v => exact hw v
  cases he : c.entries.get k with
  | none =>
    rw [weight_of_none he, potential_of_none he]
    exact hφ
  | some e =>
    rw [weight_of_some he, potential_of_some he]
    split_ifs <;> omega

theorem potential_fetch (hdead : ∀ v, dead v = true → w v = 0) (k : κ) :
    (c.fetch dead k).potential w φ j = c.potential w φ j := by
  by_cases hjk : j = k
  · subst hjk
    unfold fetch
    split
    · rename_i v hentry hbase
      simp only [potential, baseWeight, base_setEntry, hentry, hbase]
      by_cases hv : dead v = true
      · simp [hdead v hv]
      · simp [hv]
    · rfl
  · exact (c.fetch_changesAt k dead).potential_of_ne hjk

theorem get_fetch (k : κ) : (c.fetch dead k).get j = c.get j := by
  by_cases hjk : j = k
  · subst hjk
    unfold fetch
    split
    · rename_i v hentry hbase
      simp [get, hentry, hbase]
    · rfl
  · exact (c.fetch_changesAt k dead).get_of_ne hjk

theorem potential_uncache (hc : Coherent dead c) (k : κ) :
    (c.uncache k).potential w φ j = c.potential w φ j := by
  by_cases hjk : j = k
  · subst hjk
    unfold uncache
    split
    · rfl
    rename_i e he
    split_ifs with hclean
    · simp only [Bool.and_eq_true, Bool.not_eq_true'] at hclean
      obtain ⟨hbase, -⟩ := hc j e he hclean.1
      simp [potential, baseWeight, he, hbase, hclean.2]
    · rfl
  · exact (c.uncache_changesAt k).potential_of_ne hjk

theorem potential_put_new (hdead : ∀ v, dead v = true → w v = 0) (hc : Coherent dead c)
    (hnew : ∀ e, c.entries.get k = some e → dead e.value = true) (v : β) :
    (c.put k v false).potential w φ k = c.potential w φ k + w v := by
  unfold put
  split
  · rename_i hentry
    simp only [potential, hentry]
    simp [add_comm]
  rename_i e he
  have hzero := hdead _ (hnew e he)
  cases hdirty : e.dirty with
  | true => simp [potential, baseWeight, he, hzero, add_comm]
  | false =>
    obtain ⟨-, hfresh⟩ := hc k e he hdirty
    simp [potential, he, hzero, hfresh, hnew e he, add_comm]

theorem potential_put_overwrite (v : β) :
    (c.put k v true).potential w φ k = c.potential w φ k - c.weight w k + w v := by
  unfold put
  split
  · rename_i hentry
    simp only [potential, weight, get, hentry, baseWeight]
    simp
    ring
  · rename_i e he
    simp only [potential, weight, get, he, baseWeight]
    simp
    ring

theorem potential_remove (hnil : w nil = 0) (he : c.entries.get k = some e) :
    (c.remove nil k).potential w φ k = c.potential w φ k - w e.value := by
  simp only [remove, he]
  split_ifs with hfresh <;> simp [potential, baseWeight, he, hnil, hfresh]

theorem get_eq_none_of_fetch (h : (c.fetch dead k).entries.get k = none) : c.get k = none := by
  unfold fetch at h
  split at h
  · simp at h
  rename_i hno
  cases he : c.entries.get k with
  | some e =>
    rw [he] at h
    cases h
  | none =>
    cases hbase : c.base k with
    | none => simp [get, he, hbase]
    | some v => exact absurd hbase (hno v he)

/-- Reading a value through and removing it takes away its weight. -/
theorem potential_fetch_remove (hdead : ∀ v, dead v = true → w v = 0) (hnil : w nil = 0) :
    ((c.fetch dead k).remove nil k).potential w φ k = c.potential w φ k - c.weight w k := by
  have hget : (c.fetch dead k).get k = c.get k := get_fetch k
  cases he : (c.fetch dead k).entries.get k with
  | none =>
    have hremove : (c.fetch dead k).remove nil k = c.fetch dead k := by
      simp [remove, he]
    rw [hremove, potential_fetch hdead, weight, get_eq_none_of_fetch he, Option.elim_none,
      sub_zero]
  | some e =>
    rw [potential_remove hnil he, potential_fetch hdead, weight, ← hget, get, he]
    rfl

end Potential

/-- The value is seen for the key, or hidden and may be seen later. -/
def Holds (c : Cache κ β) (k : κ) (v : β) : Prop :=
  match c.entries.get k with
  | none => c.base k = some v
  | some e => e.value = v ∨ e.fresh = true ∧ c.base k = some v

/-- No live value is hidden. -/
def Sound (dead : β → Bool) (c : Cache κ β) : Prop :=
  ∀ k e, c.entries.get k = some e → e.fresh = true → ∀ v, c.base k = some v → dead v = true

section Held
variable {dead : β → Bool} {c : Cache κ β} {j k : κ} {u v : β}

theorem holds_of_none (h : c.entries.get k = none) : c.Holds k v ↔ c.base k = some v := by
  simp [Holds, h]

theorem holds_of_some {e : Entry β} (h : c.entries.get k = some e) :
    c.Holds k v ↔ e.value = v ∨ e.fresh = true ∧ c.base k = some v := by
  simp [Holds, h]

theorem holds_of_get (h : c.get k = some v) : c.Holds k v := by
  unfold get at h
  cases he : c.entries.get k with
  | none => exact (holds_of_none he).mpr (by simpa [he] using h)
  | some e => exact (holds_of_some he).mpr (.inl (by simpa [he] using h))

theorem Sound.get_of_holds (hc : Sound dead c) (h : c.Holds k v) (hlive : dead v = false) :
    c.get k = some v := by
  unfold get
  cases he : c.entries.get k with
  | none => exact (holds_of_none he).mp h
  | some e =>
    rcases (holds_of_some he).mp h with hv | ⟨hfresh, hbase⟩
    · simp [hv]
    · exact absurd (hc k e he hfresh v hbase) (by simp [hlive])

theorem ChangesAt.holds_of_ne {c' : Cache κ β} (h : ChangesAt c k c') (hne : j ≠ k) :
    c'.Holds j v ↔ c.Holds j v := by
  simp [Holds, h.entries_of_ne hne, h.base]

theorem holds_of_fetch (h : (c.fetch dead k).Holds j v) : c.Holds j v := by
  by_cases hjk : j = k
  · subst hjk
    unfold fetch at h
    split at h
    · rename_i a hentry hbase
      rw [holds_of_some (get_entries_setEntry_self c j _), base_setEntry, hbase] at h
      rw [holds_of_none hentry, hbase]
      rcases h with h | h
      · exact congrArg some h
      · exact h.2
    · exact h
  · exact ((c.fetch_changesAt k dead).holds_of_ne hjk).mp h

theorem holds_of_put (hc : Coherent dead c) {overwrite : Bool}
    (h : (c.put k u overwrite).Holds j v) : c.Holds j v ∨ v = u := by
  by_cases hjk : j = k
  · subst hjk
    unfold put at h
    split at h
    · rename_i hentry
      rw [holds_of_some (get_entries_setEntry_self c j _)] at h
      rcases h with h | h
      · exact .inr h.symm
      · exact .inl ((holds_of_none hentry).mpr h.2)
    · rename_i e he
      rw [holds_of_some (get_entries_setEntry_self c j _)] at h
      rcases h with h | ⟨hfresh, hbase⟩
      · exact .inr h.symm
      refine .inl ((holds_of_some he).mpr ?_)
      cases hdirty : e.dirty with
      | true => exact .inr ⟨by simpa [hdirty] using hfresh, hbase⟩
      | false =>
        obtain ⟨hvalue, -⟩ := hc j e he hdirty
        exact .inl (Option.some.inj (hvalue.symm.trans hbase))
  · exact .inl (((c.put_changesAt k u overwrite).holds_of_ne hjk).mp h)

theorem holds_of_remove {nil : β} (h : (c.remove nil k).Holds j v) : c.Holds j v ∨ v = nil := by
  by_cases hjk : j = k
  · subst hjk
    unfold remove at h
    split at h
    · exact .inl h
    rename_i e he
    split_ifs at h with hfresh
    · rw [holds_of_none (get_entries_setEntry_self c j _)] at h
      exact .inl ((holds_of_some he).mpr (.inr ⟨hfresh, h⟩))
    · rw [holds_of_some (get_entries_setEntry_self c j _)] at h
      rcases h with h | h
      · exact .inr h.symm
      · exact absurd h.1 (by simp)
  · exact .inl (((c.remove_changesAt k nil).holds_of_ne hjk).mp h)

end Held

section WriteBack
variable {w : β → ℤ} {φ : κ → ℤ} {dead : β → Bool} {child parent parent' : Cache κ β}

theorem batchWrite_eq (h : batchWrite dead child parent = .ok parent') :
    parent'.base = parent.base ∧ ∀ k, flushEntry dead (parent.entries.get k)
      (child.entries.get k) = .ok (parent'.entries.get k) := by
  have hrun : ∀ (l : List κ) (p : Cache κ β), l.Nodup →
      l.foldlM (batchWriteStep dead child) p = .ok parent' →
      parent'.base = p.base ∧
        (∀ k ∈ l, flushEntry dead (p.entries.get k) (child.entries.get k) =
          .ok (parent'.entries.get k)) ∧
        ∀ k, k ∉ l → parent'.entries.get k = p.entries.get k := by
    intro l
    induction l with
    | nil =>
      intro p _ hp
      cases hp
      exact ⟨rfl, by simp, fun _ _ => rfl⟩
    | cons a l ih =>
      intro p hnodup hp
      obtain ⟨ha, hl⟩ := List.nodup_cons.mp hnodup
      obtain ⟨t, ht, hp⟩ := foldlM_cons_eq_ok.mp hp
      obtain ⟨e, he, ht⟩ := bind_eq_ok.mp ht
      cases ht
      obtain ⟨hbase, hin, hout⟩ := ih _ hl hp
      refine ⟨hbase, fun k hk => ?_, fun k hk => ?_⟩
      · rcases List.mem_cons.mp hk with rfl | hkl
        · rw [hout k ha, get_entries_setEntry_self, he]
        · have hne : k ≠ a := ne_of_mem_of_not_mem hkl ha
          rw [← hin k hkl, get_entries_setEntry_of_ne p k a e hne]
      · simp only [List.mem_cons, not_or] at hk
        rw [hout k hk.2, get_entries_setEntry_of_ne p k a e hk.1]
  obtain ⟨hbase, hin, hout⟩ := hrun _ _ child.entries.nodup h
  refine ⟨hbase, fun k => ?_⟩
  by_cases hk : k ∈ child.entries.keys
  · exact hin k hk
  · rw [child.entries.get_of_notMem k hk, hout k hk]
    rfl

theorem flushEntry_cases {us it r : Option (Entry β)} (h : flushEntry dead us it = .ok r) :
    (r = us ∧ ∀ e, it = some e → e.dirty = false) ∨
      ∃ e, it = some e ∧ e.dirty = true ∧
        ((us = none ∧ e.fresh = true ∧ dead e.value = true ∧ r = none) ∨
          (us = none ∧ r = some ⟨e.value, true, e.fresh⟩) ∨
          ∃ u, us = some u ∧ (e.fresh = true → dead u.value = true) ∧
            ((u.fresh = true ∧ dead e.value = true ∧ r = none) ∨
              r = some ⟨e.value, true, u.fresh⟩)) := by
  unfold flushEntry at h
  cases it with
  | none =>
    cases h
    exact .inl ⟨rfl, by simp⟩
  | some e =>
    cases hdirty : e.dirty with
    | false =>
      simp only [hdirty] at h
      cases h
      exact .inl ⟨rfl, by simp [hdirty]⟩
    | true =>
      refine .inr ⟨e, rfl, hdirty, ?_⟩
      simp only [hdirty] at h
      cases us with
      | none =>
        by_cases hdrop : (e.fresh && dead e.value) = true
        · simp only [hdrop] at h
          cases h
          obtain ⟨hfresh, hd⟩ := Bool.and_eq_true_iff.mp hdrop
          exact .inl ⟨rfl, hfresh, hd, rfl⟩
        · simp only [hdrop] at h
          cases h
          exact .inr (.inl ⟨rfl, rfl⟩)
      | some u =>
        obtain ⟨hmis, h⟩ := ite_throw_eq_ok.mp h
        refine .inr (.inr ⟨u, rfl, fun hfresh => ?_, ?_⟩)
        · simpa [hfresh] using hmis
        · by_cases hdrop : (u.fresh && dead e.value) = true
          · rw [if_pos hdrop] at h
            cases h
            obtain ⟨hfresh, hd⟩ := Bool.and_eq_true_iff.mp hdrop
            exact .inl ⟨hfresh, hd, rfl⟩
          · rw [if_neg hdrop] at h
            cases h
            exact .inr rfl

theorem Coherent.batchWrite (hp : Coherent dead parent)
    (h : batchWrite dead child parent = .ok parent') : Coherent dead parent' := by
  obtain ⟨hbase, hentries⟩ := batchWrite_eq h
  intro k e he hdirty
  rw [hbase]
  have hk := hentries k
  rw [he] at hk
  rcases flushEntry_cases hk with ⟨hsame, -⟩ | ⟨c, -, -, hcase⟩
  · exact hp k e hsame.symm hdirty
  · rcases hcase with ⟨-, -, -, hr⟩ | ⟨-, hr⟩ | ⟨u, -, -, ⟨-, -, hr⟩ | hr⟩ <;> cases hr <;>
      cases hdirty

/-- Writing back moves the potentials of a cache to the cache below it. -/
theorem potential_batchWrite (hdead : ∀ v, dead v = true → w v = 0) (hc : Coherent dead child)
    (hbase : child.base = parent.get) (h : batchWrite dead child parent = .ok parent') (k : κ) :
    parent'.potential w φ k = child.potential w (parent.potential w φ) k := by
  obtain ⟨hbase', hentries⟩ := batchWrite_eq h
  have hweight : child.baseWeight w k = parent.weight w k := by
    rw [baseWeight, weight, hbase]
  have hstore : parent'.baseWeight w k = parent.baseWeight w k := by
    rw [baseWeight, baseWeight, hbase']
  rcases flushEntry_cases (hentries k) with ⟨hsame, hclean⟩ | ⟨e, he, -, hcase⟩
  · have hpot : parent'.potential w φ k = parent.potential w φ k := by
      rw [potential, potential, hsame, hstore]
    rw [hpot]
    cases he : child.entries.get k with
    | none => rw [potential_of_none he]
    | some e =>
      obtain ⟨hvalue, hfresh⟩ := hc k e he (hclean e he)
      have hshown : child.baseWeight w k = w e.value := by simp [baseWeight, hvalue]
      rw [potential_of_some he, hshown, hfresh]
      by_cases hd : dead e.value = true
      · simp [hdead _ hd]
      · simp [hd]
  · rw [potential_of_some he, hweight]
    rcases hcase with ⟨hus, hfresh, hd, hr⟩ | ⟨hus, hr⟩ | ⟨u, hus, hmis, hr⟩
    · rw [potential_of_none hr, potential_of_none hus]
      simp [hfresh, hdead _ hd]
    · rw [potential_of_some hr, potential_of_none hus, weight_of_none hus, hstore]
    · have hshown : w e.value + (if e.fresh then parent.potential w φ k
          else parent.potential w φ k - parent.weight w k) =
          w e.value + if u.fresh then φ k else φ k - parent.baseWeight w k := by
        rw [potential_of_some hus, weight_of_some hus]
        by_cases hf : e.fresh = true
        · simp [hdead _ (hmis hf)]
        · simp [hf]
      rw [hshown]
      rcases hr with ⟨hfresh, hd, hr⟩ | hr
      · rw [potential_of_none hr]
        simp [hfresh, hdead _ hd]
      · rw [potential_of_some hr, hstore]

end WriteBack

section Store
variable {w : β → ℤ} {φ : κ → ℤ} {dead : β → Bool} {c : Cache κ β} {k : κ}

/-- What writing to the store does: nothing, or the entry that was written is dropped or
clean and the store has its value. -/
theorem store_cases (dead : β → Bool) (keep : Bool) (c : Cache κ β) (k : κ) :
    c.store dead keep k = c ∨
      ∃ e, c.entries.get k = some e ∧ ∃ v r, c.store dead keep k =
        ⟨update c.base k v, (c.setEntry k r).entries⟩ ∧
        (v = none ∧ dead e.value = true ∧ r = none ∨
          v = some e.value ∧ dead e.value = false ∧
            (r = none ∨ r = some ⟨e.value, false, false⟩)) := by
  unfold store
  cases he : c.entries.get k with
  | none => exact .inl rfl
  | some e =>
    dsimp only
    by_cases hclean : (!e.dirty) = true
    · exact .inl (if_pos hclean)
    refine .inr ⟨e, rfl, ?_⟩
    rw [if_neg hclean]
    by_cases hd : dead e.value = true
    · rw [if_pos hd]
      exact ⟨none, none, rfl, .inl ⟨rfl, hd, rfl⟩⟩
    · rw [if_neg hd]
      refine ⟨some e.value, _, rfl, .inr ⟨rfl, Bool.eq_false_iff.mpr hd, ?_⟩⟩
      cases keep with
      | false => exact .inl rfl
      | true => exact .inr rfl

theorem Coherent.store (hc : Coherent dead c) (keep : Bool) (k : κ) :
    Coherent dead (c.store dead keep k) := by
  obtain heq | ⟨e, he, v, r, heq, hcase⟩ := store_cases dead keep c k
  · rw [heq]
    exact hc
  · rw [heq]
    intro j u hu hdirty
    by_cases hjk : j = k
    · subst hjk
      rw [get_entries_setEntry_self] at hu
      rcases hcase with ⟨-, -, hr⟩ | ⟨hv, hlive, hr | hr⟩
      · rw [hr] at hu
        cases hu
      · rw [hr] at hu
        cases hu
      · rw [hr] at hu
        cases hu
        exact ⟨by simp [hv], hlive.symm⟩
    · rw [get_entries_setEntry_of_ne c j k r hjk] at hu
      dsimp only
      rw [update_of_ne hjk]
      exact hc j u hu hdirty

/-- Writing to the store creates no potential: what was hidden below the entry is gone. -/
theorem exists_potential_store (hw : ∀ v, 0 ≤ w v) (hdead : ∀ v, dead v = true → w v = 0)
    (hφ : ∀ j, c.baseWeight w j ≤ φ j) (keep : Bool) (k : κ) :
    ∃ φ' : κ → ℤ, (∀ j, (c.store dead keep k).baseWeight w j ≤ φ' j) ∧
      ∀ j, (c.store dead keep k).potential w φ' j ≤ c.potential w φ j := by
  obtain heq | ⟨e, he, v, r, heq, hcase⟩ := store_cases dead keep c k
  · rw [heq]
    exact ⟨φ, hφ, fun _ => le_refl _⟩
  · have hvalue : v.elim 0 w = w e.value := by
      rcases hcase with ⟨hv, hd, -⟩ | ⟨hv, -, -⟩
      · rw [hv, hdead _ hd]
        rfl
      · rw [hv]
        rfl
    have hseen := weight_le_potential hw (hφ k)
    rw [weight_of_some he] at hseen
    rw [heq]
    refine ⟨update φ k (w e.value), fun j => ?_, fun j => ?_⟩
    · by_cases hjk : j = k
      · subst hjk
        simp [baseWeight, hvalue]
      · simp only [baseWeight, update_of_ne hjk]
        exact hφ j
    · by_cases hjk : j = k
      · subst hjk
        rcases hcase with ⟨-, -, hr⟩ | ⟨-, -, hr | hr⟩ <;>
          simpa [potential, baseWeight, hr, hvalue] using hseen
      · simp [potential, baseWeight, get_entries_setEntry_of_ne c j k r hjk,
          update_of_ne hjk]

end Store

end Cache

end PyrrhaNode.WriteBackCache
