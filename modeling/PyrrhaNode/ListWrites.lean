import Mathlib.Data.List.Perm.Basic

/-!
# Reading and assigning entries of an array by position

`readAll` reads the entries at some positions and fails as soon as one of them lies
outside the array. `writeAll` performs a sequence of assignments `array[i] = a` and
fails as soon as one of them lies outside the array. Later assignments overwrite earlier
ones, so what is in the array at the end depends on which positions repeat.
-/
namespace PyrrhaNode.ListWrites

open List

variable {α β : Type*} {array out l : List α} {writes : List (ℕ × α)} {i : ℕ} {a d : α}
  {f : α → Option β}

theorem mapM_eq_some_map {g : α → β}
    (h : ∀ a ∈ l, f a = some (g a)) : l.mapM f = some (l.map g) := by
  induction l with
  | nil => rfl
  | cons a l ih =>
    simp [h a mem_cons_self, ih fun b hb => h b (mem_cons_of_mem _ hb)]

theorem isSome_of_mapM_eq_some {results : List β}
    (h : l.mapM f = some results) : ∀ a ∈ l, (f a).isSome := by
  induction l generalizing results with
  | nil => nofun
  | cons a l ih =>
    simp only [mapM_cons, Option.bind_eq_bind,
      Option.bind_eq_some_iff] at h
    obtain ⟨b, hb, rest, hrest, -⟩ := h
    exact forall_mem_cons.mpr ⟨by rw [hb]; rfl, ih hrest⟩

/-- The entries at some positions, if each of them is inside the array. -/
def readAll (array : List α) (indices : List ℕ) : Option (List α) :=
  indices.mapM (array[·]?)

theorem readAll_eq_some_iff {indices : List ℕ} {entries : List α} (d : α) :
    readAll array indices = some entries ↔
      (∀ i ∈ indices, i < array.length) ∧ entries = indices.map (array.getD · d) := by
  have hread : (∀ i ∈ indices, i < array.length) →
      readAll array indices = some (indices.map (array.getD · d)) := fun hin =>
    mapM_eq_some_map fun i hi => by
      simp [List.getElem?_eq_getElem (hin i hi)]
  constructor
  · intro h
    have hin : ∀ i ∈ indices, i < array.length := fun i hi => by
      simpa using isSome_of_mapM_eq_some h i hi
    exact ⟨hin, Option.some_inj.mp (h.symm.trans (hread hin))⟩
  · rintro ⟨hin, rfl⟩
    exact hread hin

/-- The array after the assignments, if each of them is inside it. -/
def writeAll (array : List α) : List (ℕ × α) → Option (List α)
  | [] => some array
  | (i, a) :: writes => if i < array.length then writeAll (array.set i a) writes else none

/-- The positions assigned to. -/
abbrev positions (writes : List (ℕ × α)) : List ℕ := writes.map Prod.fst

theorem writeAll_cons_eq_some :
    writeAll array ((i, a) :: writes) = some out ↔
      i < array.length ∧ writeAll (array.set i a) writes = some out := by
  by_cases h : i < array.length <;> simp [writeAll]

theorem writeAll_append (first second : List (ℕ × α)) :
    writeAll array (first ++ second) =
      (writeAll array first).bind fun between => writeAll between second := by
  induction first generalizing array with
  | nil => rfl
  | cons write first ih =>
    obtain ⟨i, a⟩ := write
    by_cases h : i < array.length
    · simp [writeAll, h, ih]
    · simp [writeAll, h]

theorem length_writeAll (h : writeAll array writes = some out) :
    out.length = array.length := by
  induction writes generalizing array with
  | nil => cases h; rfl
  | cons write writes ih =>
    rw [ih (writeAll_cons_eq_some.mp h).2, length_set]

theorem exists_writeAll_iff :
    (∃ out, writeAll array writes = some out) ↔ ∀ i ∈ positions writes, i < array.length := by
  induction writes generalizing array with
  | nil => simp [writeAll]
  | cons write writes ih =>
    obtain ⟨i, a⟩ := write
    simp only [writeAll_cons_eq_some, exists_and_left, ih, length_set,
      map_cons, forall_mem_cons]

theorem getElem?_writeAll_of_notMem (h : writeAll array writes = some out)
    (hi : i ∉ positions writes) : out[i]? = array[i]? := by
  induction writes generalizing array with
  | nil => cases h; rfl
  | cons write writes ih =>
    simp only [map_cons, mem_cons, not_or] at hi
    rw [ih (writeAll_cons_eq_some.mp h).2 hi.2, List.getElem?_set_ne (Ne.symm hi.1)]

theorem getElem?_writeAll_of_mem (h : writeAll array writes = some out)
    (hnodup : (positions writes).Nodup) (hmem : (i, a) ∈ writes) : out[i]? = some a := by
  induction writes generalizing array with
  | nil => cases hmem
  | cons write writes ih =>
    obtain ⟨hin, hrest⟩ := writeAll_cons_eq_some.mp h
    obtain ⟨hnew, hnodup⟩ := nodup_cons.mp hnodup
    rcases mem_cons.mp hmem with rfl | hmem
    · rw [getElem?_writeAll_of_notMem hrest hnew, List.getElem?_set_self hin]
    · exact ih hrest hnodup hmem

theorem mem_of_writeAll (h : writeAll array writes = some out) (ha : a ∈ out) :
    a ∈ array ∨ a ∈ writes.map Prod.snd := by
  induction writes generalizing array with
  | nil => cases h; exact .inl ha
  | cons write writes ih =>
    rcases ih (writeAll_cons_eq_some.mp h).2 with hmem | hmem
    · rcases mem_or_eq_of_mem_set hmem with hmem | rfl
      · exact .inl hmem
      · exact .inr mem_cons_self
    · exact .inr (mem_cons_of_mem _ hmem)

theorem writeAll_set_of_mem (hi : i ∈ positions writes) :
    writeAll (array.set i a) writes = writeAll array writes := by
  induction writes generalizing array with
  | nil => cases hi
  | cons write writes ih =>
    obtain ⟨j, b⟩ := write
    rw [writeAll, writeAll, length_set]
    by_cases hij : i = j
    · subst hij
      rw [set_set]
    · have hi : i ∈ positions writes := (mem_cons.mp hi).resolve_left hij
      rw [set_comm _ _ hij, ih hi]

/-- Where two assignments have the same position, the earlier one can be left out. -/
theorem writeAll_drop_overwritten {before after : List (ℕ × α)}
    (h : writeAll array (before ++ (i, a) :: after) = some out) (hi : i ∈ positions after) :
    writeAll array (before ++ after) = some out := by
  rw [writeAll_append] at h ⊢
  obtain ⟨between, hbefore, hafter⟩ := Option.bind_eq_some_iff.mp h
  rw [hbefore]
  exact (writeAll_set_of_mem hi).symm.trans (writeAll_cons_eq_some.mp hafter).2

/-- Assigning at distinct positions that all hold `d` exchanges as many copies of `d` for
the assigned values. -/
theorem writeAll_perm_of_holds {rest : List α} (h : writeAll array writes = some out)
    (hnodup : (positions writes).Nodup) (hholds : ∀ i ∈ positions writes, array[i]? = some d)
    (harray : array.Perm (rest ++ List.replicate writes.length d)) :
    out.Perm (rest ++ writes.map Prod.snd) := by
  induction writes generalizing array rest with
  | nil => cases h; simpa using harray
  | cons write writes ih =>
    obtain ⟨i, a⟩ := write
    obtain ⟨hin, hafter⟩ := writeAll_cons_eq_some.mp h
    obtain ⟨hnew, hnodup⟩ := nodup_cons.mp hnodup
    have hd : array[i] = d := by
      have := hholds i mem_cons_self
      rwa [List.getElem?_eq_getElem hin, Option.some_inj] at this
    have herase : (array.eraseIdx i).Perm (rest ++ List.replicate writes.length d) := by
      have hcons : (d :: array.eraseIdx i).Perm
          (rest ++ d :: List.replicate writes.length d) :=
        (hd ▸ getElem_cons_eraseIdx_perm hin).trans harray
      exact (hcons.trans perm_middle).cons_inv
    have hset : (array.set i a).Perm ((a :: rest) ++ List.replicate writes.length d) :=
      (set_perm_cons_eraseIdx hin a).trans (herase.cons a)
    have hkept : ∀ j ∈ positions writes, (array.set i a)[j]? = some d := by
      intro j hj
      have hij : i ≠ j := fun heq => hnew (by rwa [heq])
      rw [List.getElem?_set_ne hij]
      exact hholds j (mem_cons_of_mem _ hj)
    exact (ih hafter hnodup hkept hset).trans perm_middle.symm

theorem writeAll_replicate_perm {n : ℕ} (h : writeAll (List.replicate n d) writes = some out)
    (hnodup : (positions writes).Nodup) (hn : writes.length ≤ n) :
    out.Perm (List.replicate (n - writes.length) d ++ writes.map Prod.snd) := by
  have hin := exists_writeAll_iff.mp ⟨out, h⟩
  refine writeAll_perm_of_holds (d := d) h hnodup (fun i hi => ?_) ?_
  · rw [List.getElem?_replicate, if_pos (by simpa using hin i hi)]
  · rw [← replicate_add, Nat.sub_add_cancel hn]

end PyrrhaNode.ListWrites
