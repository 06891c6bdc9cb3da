import Mathlib.Data.List.Sort
import Mathlib.Tactic

/-!
# Binary search and insertion in a sorted vector

A position splits a vector at `x` when everything before it is below `x` and nothing
from it on is. In a sorted vector binary search finds such a position, and inserting
`x` there keeps the vector sorted. A sorted vector is the sorted arrangement of any
of its permutations.
-/
namespace PyrrhaNode.SortedVector

open List

variable {α : Type*} [LinearOrder α] {p : α → Bool} {r : ℕ} {m : α}

/-- Everything before position `r` is below `x`, nothing from `r` on is. -/
def SplitsAt (v : List α) (x : α) (r : ℕ) : Prop :=
  r ≤ v.length ∧ (∀ i y, v[i]? = some y → i < r → y < x) ∧
    ∀ i y, v[i]? = some y → r ≤ i → x ≤ y

/-- Binary search for the first element that is not below `x` among the `len`
elements from `first` on; `fuel` bounds the number of halvings. -/
def lowerBoundLoop (v : List α) (x : α) : ℕ → ℕ → ℕ → ℕ
  | 0, first, _ => first
  | fuel + 1, first, len =>
    if len = 0 then first
    else
      match v[first + len / 2]? with
      | none => first
      | some y =>
        if y < x then lowerBoundLoop v x fuel (first + len / 2 + 1) (len - len / 2 - 1)
        else lowerBoundLoop v x fuel first (len / 2)

def lowerBound (v : List α) (x : α) : ℕ := lowerBoundLoop v x v.length 0 v.length

def insertSorted (v : List α) (x : α) : List α := v.insertIdx (lowerBound v x) x

lemma getElem?_le_of_sortedLE {v : List α} (hv : v.SortedLE) {i j : ℕ} {y z : α}
    (hi : v[i]? = some y) (hj : v[j]? = some z) (hij : i ≤ j) : y ≤ z := by
  obtain ⟨hi', rfl⟩ := List.getElem?_eq_some_iff.mp hi
  obtain ⟨hj', rfl⟩ := List.getElem?_eq_some_iff.mp hj
  exact hv.getElem_le_getElem_of_le hij

section

variable (v : List α) (x : α)
include v

/-- The loop keeps everything left of its interval below `x` and everything right of
it not below `x`. -/
theorem lowerBoundLoop_splitsAt (hv : v.SortedLE) (fuel first len : ℕ) (hfuel : len ≤ fuel)
    (hlen : first + len ≤ v.length) (hleft : ∀ i y, v[i]? = some y → i < first → y < x)
    (hright : ∀ i y, v[i]? = some y → first + len ≤ i → x ≤ y) :
    SplitsAt v x (lowerBoundLoop v x fuel first len) := by
  induction fuel generalizing first len with
  | zero =>
    obtain rfl : len = 0 := by omega
    exact ⟨by simpa [lowerBoundLoop] using hlen, hleft, hright⟩
  | succ fuel ih =>
    rw [lowerBoundLoop]
    split_ifs with h0
    · subst h0
      exact ⟨by simpa using hlen, hleft, hright⟩
    have hmid : first + len / 2 < v.length := by omega
    rw [List.getElem?_eq_getElem hmid]
    have hget := List.getElem?_eq_getElem hmid
    dsimp only
    split_ifs with hlt
    · apply ih (first + len / 2 + 1) (len - len / 2 - 1) (by omega) (by omega)
      · intro i y hy hi
        exact lt_of_le_of_lt (getElem?_le_of_sortedLE hv hy hget (by omega)) hlt
      · intro i y hy hi
        exact hright i y hy (by omega)
    · apply ih first (len / 2) (by omega) (by omega) hleft
      intro i y hy hi
      exact le_trans (not_lt.mp hlt) (getElem?_le_of_sortedLE hv hget hy hi)

theorem lowerBound_splitsAt (hv : v.SortedLE) :
    SplitsAt v x (lowerBound v x) := by
  apply lowerBoundLoop_splitsAt v x hv v.length 0 v.length le_rfl (by omega)
  · omega
  · intro i y hy hi
    have := (List.getElem?_eq_some_iff.mp hy).1
    omega

omit [LinearOrder α] in
lemma insertIdx_eq_append (r : ℕ) (hr : r ≤ v.length) :
    v.insertIdx r x = v.take r ++ x :: v.drop r := by
  induction v generalizing r with
  | nil =>
    obtain rfl : r = 0 := by simpa using hr
    rfl
  | cons a v ih =>
    cases r with
    | zero => rfl
    | succ r => simp [ih r (by simpa using hr)]

theorem insertIdx_sortedLE (r : ℕ) (hv : v.SortedLE)
    (hr : SplitsAt v x r) : (v.insertIdx r x).SortedLE := by
  obtain ⟨hle, hleft, hright⟩ := hr
  have hpair := hv.pairwise
  rw [insertIdx_eq_append v x r hle]
  apply List.Pairwise.sortedLE
  rw [pairwise_append, pairwise_cons]
  have htake : ∀ y ∈ v.take r, y < x := by
    intro y hy
    obtain ⟨i, hi, hget⟩ := mem_take_iff_getElem.mp hy
    exact hleft i y (by rw [List.getElem?_eq_getElem (by omega), hget]) (by omega)
  have hdrop : ∀ y ∈ v.drop r, x ≤ y := by
    intro y hy
    obtain ⟨i, hi, hget⟩ := mem_drop_iff_getElem.mp hy
    exact hright (r + i) y (by rw [List.getElem?_eq_getElem (by omega), hget]) (by omega)
  refine ⟨hpair.take, ⟨hdrop, hpair.drop⟩, ?_⟩
  intro a ha b hb
  rcases mem_cons.mp hb with rfl | hb
  · exact (htake a ha).le
  · exact (htake a ha).le.trans (hdrop b hb)

theorem insertSorted_sortedLE (hv : v.SortedLE) :
    (insertSorted v x).SortedLE :=
  insertIdx_sortedLE v x _ hv (lowerBound_splitsAt v x hv)

omit v in
theorem eq_insertionSort_of_perm {v l : List α} (hv : v.SortedLE) (hp : v.Perm l) :
    v = l.insertionSort (· ≤ ·) :=
  (hp.trans (perm_insertionSort (· ≤ ·) l).symm).eq_of_sortedLE hv
    sortedLE_insertionSort

lemma lowerBoundLoop_le (fuel first len : ℕ) (h : first + len ≤ v.length) :
    lowerBoundLoop v x fuel first len ≤ v.length := by
  induction fuel generalizing first len with
  | zero =>
    rw [lowerBoundLoop]
    omega
  | succ fuel ih =>
    rw [lowerBoundLoop]
    split_ifs with h0
    · omega
    have hmid : first + len / 2 < v.length := by omega
    rw [List.getElem?_eq_getElem hmid]
    dsimp only
    split_ifs
    · exact ih _ _ (by omega)
    · exact ih _ _ (by omega)

lemma lowerBound_le : lowerBound v x ≤ v.length :=
  lowerBoundLoop_le v x v.length 0 v.length (by omega)

theorem insertSorted_perm : (insertSorted v x).Perm (x :: v) :=
  perm_insertIdx x v (lowerBound_le v x)

end

theorem sortedLE_of_insertSorted {v : List α} {x : α} (h : (insertSorted v x).SortedLE) :
    v.SortedLE := by
  rw [insertSorted, insertIdx_eq_append v x _ (lowerBound_le v x)] at h
  have hsub : (v.take (lowerBound v x) ++ v.drop (lowerBound v x)).Sublist
      (v.take (lowerBound v x) ++ x :: v.drop (lowerBound v x)) :=
    (sublist_cons_self x _).append_left _
  rw [take_append_drop] at hsub
  exact (h.pairwise.sublist hsub).sortedLE

/-- At most half of the values are below `m` and at most half are above. -/
def IsMedian (m : α) (v : List α) : Prop :=
  2 * v.countP (· < m) ≤ v.length ∧ 2 * v.countP (m < ·) ≤ v.length

instance (m : α) (v : List α) : Decidable (IsMedian m v) := inferInstanceAs (Decidable (_ ∧ _))

lemma IsMedian.perm {v l : List α} (h : IsMedian m v) (hp : v.Perm l) : IsMedian m l := by
  rw [IsMedian, ← hp.countP_eq, ← hp.countP_eq, ← hp.length_eq]
  exact h

omit [LinearOrder α] in
lemma countP_take_add_drop (p : α → Bool) (v : List α) (r : ℕ) :
    (v.take r).countP p + (v.drop r).countP p = v.countP p := by
  rw [← countP_append, take_append_drop]

omit [LinearOrder α] in
lemma countP_le_of_drop {v : List α} (h : ∀ y ∈ v.drop r, p y = false) :
    v.countP p ≤ r := by
  have hzero : (v.drop r).countP p = 0 := countP_eq_zero.mpr fun y hy => by simp [h y hy]
  have hsum := countP_take_add_drop p v r
  have hle : (v.take r).countP p ≤ (v.take r).length := countP_le_length
  rw [length_take] at hle
  omega

omit [LinearOrder α] in
lemma countP_le_of_take {v : List α} (h : ∀ y ∈ v.take r, p y = false) :
    v.countP p ≤ v.length - r := by
  have hzero : (v.take r).countP p = 0 := countP_eq_zero.mpr fun y hy => by simp [h y hy]
  have hsum := countP_take_add_drop p v r
  have hle : (v.drop r).countP p ≤ (v.drop r).length := countP_le_length
  rw [length_drop] at hle
  omega

theorem isMedian_middle {v : List α} (hv : v.SortedLE)
    (h : v[(v.length - 1) / 2]? = some m) : IsMedian m v := by
  have hbelow : v.countP (· < m) ≤ (v.length - 1) / 2 := by
    refine countP_le_of_drop fun y hy => ?_
    obtain ⟨j, hj, rfl⟩ := mem_drop_iff_getElem.mp hy
    have hget : v[(v.length - 1) / 2 + j]? = some v[(v.length - 1) / 2 + j] :=
      List.getElem?_eq_getElem _
    simpa using getElem?_le_of_sortedLE hv h hget (by omega)
  have habove : v.countP (m < ·) ≤ v.length - ((v.length - 1) / 2 + 1) := by
    refine countP_le_of_take fun y hy => ?_
    obtain ⟨j, hj, rfl⟩ := mem_take_iff_getElem.mp hy
    have hget : v[j]? = some v[j] := List.getElem?_eq_getElem _
    simpa using getElem?_le_of_sortedLE hv hget h (by omega)
  exact ⟨by omega, by omega⟩

end PyrrhaNode.SortedVector
