import Mathlib
import PyrrhaNode.WriteBackCache

/-!
# Lookups in a write-back cache

A lookup that finds no entry reads the store and inserts what it read.  If the cache is not
locked in between, the insertion can meet an entry that was made meanwhile.  One cache adds to
another when it has the same entries and, at keys without an entry, clean copies of the store:
this is all that lookups should do, and such a cache has the same changes to write.
-/
namespace PyrrhaNode.WriteBackCache
open Loop

variable {κ β : Type} [DecidableEq κ]

/-- The entry of a key after a value of the store was inserted. An entry that is already there
stays, but a dead one is marked as fresh and no longer dirty. -/
def emplaced (dead : β → Bool) (v : β) : Option (Entry β) → Entry β
  | none => ⟨v, false, dead v⟩
  | some e => if dead e.value then ⟨e.value, false, true⟩ else e

namespace Cache

/-- The second half of a lookup. -/
def insertFetched (dead : β → Bool) (c : Cache κ β) (k : κ) (v : β) : Cache κ β :=
  c.setEntry k (some (emplaced dead v (c.entries.get k)))

/-- The entries that are written when the cache is flushed. -/
def changes (c : Cache κ β) (k : κ) : Option (Entry β) :=
  (c.entries.get k).filter Entry.dirty

/-- The first entry is the second one, or a clean copy of the store where there is none. -/
def EntryAdds (dead : β → Bool) (stored : Option β) (e e' : Option (Entry β)) : Prop :=
  e = e' ∨ e' = none ∧ ∃ v, stored = some v ∧ e = some ⟨v, false, dead v⟩

/-- The first cache has the entries of the second one and clean copies of the store. -/
structure Adds (dead : β → Bool) (c d : Cache κ β) : Prop where
  base : c.base = d.base
  entry : ∀ k, EntryAdds dead (d.base k) (c.entries.get k) (d.entries.get k)

section Adds
variable {dead : β → Bool} {c d : Cache κ β} {k : κ}

lemma Adds.refl (c : Cache κ β) : Adds dead c c := ⟨rfl, fun _ => .inl rfl⟩

variable (h : Adds dead c d) {v : β}
include h

theorem Adds.changes_eq : c.changes = d.changes := by
  funext k
  rw [changes, changes]
  rcases h.entry k with heq | ⟨hnone, v, -, hcopy⟩
  · rw [heq]
  · rw [hnone, hcopy]
    rfl

lemma Adds.of_changesAt {c' d' : Cache κ β} (hc : ChangesAt c k c') (hd : ChangesAt d k d')
    (hk : EntryAdds dead (d.base k) (c'.entries.get k) (d'.entries.get k)) :
    Adds dead c' d' := by
  refine ⟨by rw [hc.base, hd.base, h.base], fun j => ?_⟩
  rw [hd.base]
  by_cases hj : j = k
  · rw [hj]
    exact hk
  · rw [hc.entries_of_ne hj, hd.entries_of_ne hj]
    exact h.entry j

/-- An insertion that changes no entry only adds a copy of the store. -/
theorem Adds.insertFetched (hv : c.base k = some v)
    (hentry : ∀ e, c.entries.get k = some e → dead e.value = true →
      e.dirty = false ∧ e.fresh = true) : Adds dead (c.insertFetched dead k v) d := by
  refine h.of_changesAt (.set _) .same ?_
  rw [Cache.insertFetched, get_entries_setEntry_self]
  cases he : c.entries.get k with
  | none =>
    rcases h.entry k with heq | ⟨-, u, -, hcopy⟩
    · exact .inr ⟨by rw [← heq, he], v, by rw [← h.base, hv], rfl⟩
    · rw [he] at hcopy
      cases hcopy
  | some e =>
    have hsame : emplaced dead v (some e) = e := by
      rw [emplaced]
      split_ifs with hdead
      · obtain ⟨hdirty, hfresh⟩ := hentry e he hdead
        rw [← hdirty, ← hfresh]
      · rfl
    rw [hsame, ← he]
    exact h.entry k

omit h in
lemma entries_fetch (c : Cache κ β) (k : κ) :
    (c.fetch dead k).entries.get k =
      (c.entries.get k).or ((c.base k).map fun v => ⟨v, false, dead v⟩) := by
  rw [fetch]
  cases he : c.entries.get k with
  | none =>
    cases hb : c.base k with
    | none => simp [he]
    | some v => simp
  | some e => simp [he]

lemma Adds.entries_fetch_eq :
    (c.fetch dead k).entries.get k = (d.fetch dead k).entries.get k := by
  rw [entries_fetch, entries_fetch, h.base]
  rcases h.entry k with heq | ⟨hnone, v, hv, hcopy⟩
  · rw [heq]
  · rw [hnone, hcopy, hv]
    rfl

theorem Adds.fetch_left : Adds dead (c.fetch dead k) d := by
  refine h.of_changesAt (fetch_changesAt c k dead) .same ?_
  rw [entries_fetch, h.base]
  rcases h.entry k with heq | ⟨hnone, v, hv, hcopy⟩
  · rw [heq]
    cases he : d.entries.get k with
    | none =>
      cases hb : d.base k with
      | none => exact .inl rfl
      | some v => exact .inr ⟨rfl, v, rfl, rfl⟩
    | some e => exact .inl rfl
  · rw [hcopy]
    exact .inr ⟨hnone, v, hv, rfl⟩

theorem Adds.fetch : Adds dead (c.fetch dead k) (d.fetch dead k) :=
  h.of_changesAt (fetch_changesAt c k dead) (fetch_changesAt d k dead) (.inl h.entries_fetch_eq)

theorem Adds.fetch_remove (nil : β) :
    Adds dead ((c.fetch dead k).remove nil k) ((d.fetch dead k).remove nil k) := by
  refine h.fetch.of_changesAt (remove_changesAt _ k nil) (remove_changesAt _ k nil) (.inl ?_)
  have heq := h.entries_fetch_eq (k := k)
  rw [remove, remove, ← heq]
  cases he : (c.fetch dead k).entries.get k with
  | none =>
    simp [← heq]
  | some e =>
    simp only
    split_ifs <;> simp

/-- Writing a value that meets no copy of a live value, or of a dead one where it may
overwrite, leaves the same entry. -/
theorem Adds.put {overwrite : Bool}
    (hnew : overwrite = false → ∀ e, c.entries.get k = some e → dead e.value = true)
    (hover : overwrite = true → ∀ e, c.entries.get k = some e → dead e.value = true →
      e.dirty = true ∨ e.fresh = false) :
    Adds dead (c.put k v overwrite) (d.put k v overwrite) := by
  refine h.of_changesAt (put_changesAt c k v overwrite) (put_changesAt d k v overwrite) (.inl ?_)
  rcases h.entry k with heq | ⟨hnone, u, -, hcopy⟩
  · rw [Cache.put, Cache.put, heq]
    cases d.entries.get k <;> simp
  rw [Cache.put, Cache.put, hnone, hcopy]
  cases overwrite with
  | false => simp
  | true =>
    have hlive : dead u = false := by
      by_contra hdead
      have := hover rfl _ hcopy (eq_true_of_ne_false hdead)
      simp [hdead] at this
    simp [hlive]

omit h in
/-- Writing an entry of a cache above back leaves the same entry, when a dead copy meets only a
fresh one. -/
lemma EntryAdds.flushEntry {stored : Option β} {us us' it r : Option (Entry β)}
    (h : EntryAdds dead stored us us')
    (hcopy : ∀ u e, us = some u → it = some e → dead u.value = true → u.dirty = false →
      u.fresh = true → e.dirty = true → e.fresh = true) (hr : Cache.flushEntry dead us it = .ok r) :
    ∃ r', Cache.flushEntry dead us' it = .ok r' ∧ EntryAdds dead stored r r' := by
  rcases h with rfl | ⟨rfl, v, hv, rfl⟩
  · exact ⟨r, hr, .inl rfl⟩
  cases it with
  | none =>
    cases hr
    exact ⟨none, rfl, .inr ⟨rfl, v, hv, rfl⟩⟩
  | some e =>
    unfold Cache.flushEntry at hr ⊢
    cases hdirty : e.dirty with
    | false =>
      simp only [hdirty] at hr ⊢
      cases hr
      exact ⟨none, rfl, .inr ⟨rfl, v, hv, rfl⟩⟩
    | true =>
      -- a copy of a live value lets no fresh entry through, one of a dead value only those
      have hsame : dead v = e.fresh := by
        cases hdead : dead v <;> cases hfresh : e.fresh <;>
          simp_all
      simp only [hdirty, hsame] at hr ⊢
      cases hfresh : e.fresh <;> cases hdrop : dead e.value <;>
        simp only [hfresh, hdrop] at hr ⊢ <;> cases hr <;> exact ⟨_, rfl, .inl rfl⟩

theorem Adds.batchWrite {child c' : Cache κ β}
    (hcopy : ∀ k u e, c.entries.get k = some u → child.entries.get k = some e →
      dead u.value = true → u.dirty = false → u.fresh = true → e.dirty = true → e.fresh = true)
    (hc : Cache.batchWrite dead child c = .ok c') :
    ∃ d', Cache.batchWrite dead child d = .ok d' ∧ Adds dead c' d' := by
  have hrun : ∀ (l : List κ) (c d : Cache κ β), l.Nodup → Adds dead c d →
      (∀ k ∈ l, ∀ u e, c.entries.get k = some u → child.entries.get k = some e →
        dead u.value = true → u.dirty = false → u.fresh = true → e.dirty = true →
        e.fresh = true) →
      l.foldlM (batchWriteStep dead child) c = .ok c' →
      ∃ d', l.foldlM (batchWriteStep dead child) d = .ok d' ∧ Adds dead c' d' := by
    intro l
    induction l with
    | nil =>
      intro c d _ hadds _ hc
      cases hc
      exact ⟨d, rfl, hadds⟩
    | cons k l ih =>
      intro c d hnodup hadds hmeet hc
      obtain ⟨hk, hl⟩ := List.nodup_cons.mp hnodup
      obtain ⟨t, ht, hc⟩ := foldlM_cons_eq_ok.mp hc
      obtain ⟨r, hr, ht⟩ := bind_eq_ok.mp ht
      cases ht
      obtain ⟨r', hr', hentry⟩ :=
        (hadds.entry k).flushEntry (fun u e => hmeet k List.mem_cons_self u e) hr
      have hnext : Adds dead (c.setEntry k r) (d.setEntry k r') :=
        hadds.of_changesAt (.set r) (.set r') (by simpa using hentry)
      obtain ⟨d', hd', hadds'⟩ := ih _ _ hl hnext (fun j hj => by
        rw [get_entries_setEntry_of_ne c j k r (ne_of_mem_of_not_mem hj hk)]
        exact hmeet j (List.mem_cons_of_mem _ hj)) hc
      refine ⟨d', foldlM_cons_eq_ok.mpr ⟨_, ?_, hd'⟩, hadds'⟩
      exact bind_eq_ok.mpr ⟨r', hr', rfl⟩
  exact hrun _ c d child.entries.nodup h (fun k _ => hcopy k) hc

end Adds

end Cache

end PyrrhaNode.WriteBackCache
