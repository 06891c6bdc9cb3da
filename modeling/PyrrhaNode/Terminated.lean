import PyrrhaNode.ByteCodec

/-!
# Lists of strings closed by a terminator symbol

A list of strings is written by closing every string with one terminator symbol.
The symbol is not escaped, so a string that contains it can be cut in another
place. The written form determines an equally long list exactly when the list has
at most one string or none of its strings contains the terminator.
-/
namespace PyrrhaNode.Terminated
open List ByteCodec

/-- Every string of the list, each closed by the terminator. -/
def terminated {α : Type*} (t : α) (l : List (List α)) : List α :=
  l.flatMap (fun s => s ++ [t])

variable {α : Type*} (t : α) (l : List (List α))

@[simp] theorem terminated_cons (s : List α) (l : List (List α)) :
    terminated t (s :: l) = s ++ t :: terminated t l := by
  simp [terminated]

variable (l' : List (List α))

@[simp] theorem terminated_append :
    terminated t (l ++ l') = terminated t l ++ terminated t l' := by
  simp [terminated]

/-- Strings free of the terminator are cut at its first occurrence. -/
theorem closed_prefixFreeOn :
    PrefixFreeOn {s : List α | t ∉ s} (fun s => s ++ [t]) := by
  intro s hs s' hs' xs ys he
  induction s generalizing s' with
  | nil =>
    match s' with
    | [] => simpa using he
    | b :: s' =>
      simp only [nil_append, cons_append, List.cons.injEq] at he
      exact absurd (by rw [he.1]; simp) hs'
  | cons a s ih =>
    match s' with
    | [] =>
      simp only [nil_append, cons_append, List.cons.injEq] at he
      exact absurd (by rw [he.1]; simp) hs
    | b :: s' =>
      simp only [cons_append, List.cons.injEq] at he
      obtain ⟨hab, hrest⟩ := he
      have hs2 : t ∉ s := fun h => hs (by simp [h])
      have hs2' : t ∉ s' := fun h => hs' (by simp [h])
      obtain ⟨hss, hxy⟩ := ih hs2 s' hs2' hrest
      exact ⟨by rw [hab, hss], hxy⟩

theorem count_terminated [DecidableEq α] :
    (terminated t l).count t = l.length + (l.map (List.count t)).sum := by
  induction l with
  | nil => rfl
  | cons s l ih =>
    simp only [terminated_cons, count_append, count_cons_self, length_cons,
      map_cons, sum_cons]
    omega

/-- Two lists of equal length with the same written form are equal when the
strings of one of them are free of the terminator. -/
theorem eq_of_terminated_eq [DecidableEq α] (hfree : ∀ s ∈ l, t ∉ s) (hlen : l.length = l'.length)
    (he : terminated t l = terminated t l') : l = l' := by
  have hzero : (l.map (List.count t)).sum = 0 := by
    apply sum_eq_zero
    intro c hc
    obtain ⟨s, hs, rfl⟩ := mem_map.mp hc
    exact count_eq_zero.mpr (hfree s hs)
  have hcount := congrArg (List.count t) he
  rw [count_terminated, count_terminated] at hcount
  have hzero' : (l'.map (List.count t)).sum = 0 := by omega
  have hfree' : ∀ s ∈ l', t ∉ s := by
    intro s hs
    have hc := sum_eq_zero_iff.mp hzero' _ (mem_map_of_mem hs)
    exact count_eq_zero.mp hc
  exact (closed_prefixFreeOn t).flatMap_injective (by simp) l l' hfree hfree' he

/-- The written form of a list pins down every equally long list exactly when the
list has at most one string or no string contains the terminator. -/
theorem terminated_unique_iff [DecidableEq α] :
    (∀ l' : List (List α), l'.length = l.length → terminated t l' = terminated t l → l' = l) ↔
      (l.length ≤ 1 ∨ ∀ s ∈ l, t ∉ s) := by
  constructor
  · intro h
    by_contra hn
    push Not at hn
    obtain ⟨hlen, s, hs, ht⟩ := hn
    obtain ⟨pre, suf, rfl⟩ := append_of_mem hs
    obtain ⟨u, v, rfl⟩ := append_of_mem ht
    match suf with
    | y :: suf => simpa using h (pre ++ u :: (v ++ t :: y) :: suf) (by simp) (by simp)
    | [] =>
      have hpre : pre ≠ [] := by
        rintro rfl
        simp at hlen
      obtain ⟨pre, y, rfl⟩ := eq_nil_or_concat pre |>.resolve_left hpre
      simpa using h (pre ++ [y ++ t :: u, v]) (by simp) (by simp)
  · rintro (hshort | hfree) l' hl' he
    · match l, l' with
      | [], [] => rfl
      | [s], [s'] => simpa using he
    · exact (eq_of_terminated_eq t l l' hfree hl'.symm he.symm).symm

end PyrrhaNode.Terminated
