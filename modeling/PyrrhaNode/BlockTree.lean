import Mathlib.Data.List.Infix

/-!
# Chains of a block tree

A node of a tree whose edges only point to the parent is the list of labels on its way to the
root, newest first: the parent is the tail, the root's parent is `[]`, and one node is an ancestor
of another exactly when its list is a suffix.  Two nodes always have a deepest common ancestor;
this module computes it by walking both sides back and shows what the walks return.
-/
namespace PyrrhaNode.BlockTree

open List

variable {α : Type*}

/-- `c` is the deepest common ancestor of `p` and `q`. -/
structure IsMeet (c p q : List α) : Prop where
  left : c <:+ p
  right : c <:+ q
  greatest : ∀ s, s <:+ p → s <:+ q → s <:+ c

lemma suffix_antisymm {p q : List α} (hpq : p <:+ q) (hqp : q <:+ p) : p = q :=
  hpq.eq_of_length_le hqp.length_le

lemma IsMeet.eq_left_iff {c p q : List α} (h : IsMeet c p q) : c = p ↔ p <:+ q := by
  constructor
  · intro heq
    exact heq ▸ h.right
  · intro hpq
    exact suffix_antisymm h.left (h.greatest p (suffix_refl p) hpq)

lemma IsMeet.symm {c p q : List α} (h : IsMeet c p q) : IsMeet c q p :=
  ⟨h.right, h.left, fun s hq hp => h.greatest s hp hq⟩

lemma isMeet_drop {c p q : List α} (h : IsMeet c (p.drop (p.length - q.length)) q) :
    IsMeet c p q :=
  ⟨h.left.trans (drop_suffix _ p), h.right, fun s hp hq =>
    h.greatest s (suffix_of_suffix_length_le hp (drop_suffix _ p) (by
      have := hp.length_le
      have := hq.length_le
      rw [length_drop]
      omega)) hq⟩

/-- A set of nodes with their parents has all their ancestors. -/
lemma mem_of_suffix {nodes : List (List α)} (hclosed : ∀ p ∈ nodes, p.tail = [] ∨ p.tail ∈ nodes)
    {a p : List α} (hp : p ∈ nodes) (ha : a <:+ p) (hne : a ≠ []) : a ∈ nodes := by
  induction p with
  | nil => exact absurd (suffix_nil.mp ha) hne
  | cons b p ih =>
    rcases suffix_cons_iff.mp ha with rfl | ha
    · exact hp
    · rcases hclosed _ hp with hnil | hmem
      · rw [tail_cons] at hnil
        rw [hnil] at ha
        exact absurd (suffix_nil.mp ha) hne
      · exact ih hmem ha

variable [DecidableEq α]

/-- Both sides step back together until they coincide. -/
def meet : List α → List α → List α
  | a :: p, b :: q => if a :: p = b :: q then a :: p else meet p q
  | _, _ => []

lemma isMeet_meet : ∀ p q : List α, p.length = q.length → IsMeet (meet p q) p q
  | [], [], _ => ⟨suffix_refl _, suffix_refl _, fun _ h _ => h⟩
  | a :: p, b :: q, hlen => by
    rw [meet]
    by_cases heq : a :: p = b :: q
    · rw [if_pos heq]
      exact ⟨suffix_refl _, heq ▸ suffix_refl _, fun _ h _ => h⟩
    · rw [if_neg heq]
      have ih := isMeet_meet p q (by simpa using hlen)
      refine ⟨ih.left.trans (suffix_cons a p), ih.right.trans (suffix_cons b q), ?_⟩
      intro s hp hq
      -- a common ancestor is not as long as the two sides, which differ
      rcases suffix_cons_iff.mp hp with rfl | hp
      · exact absurd (hq.eq_of_length hlen) heq
      · rcases suffix_cons_iff.mp hq with rfl | hq
        · exact absurd hp.length_le (by simp at hlen ⊢; omega)
        · exact ih.greatest s hp hq

/-- The longer side first steps back to the length of the other. -/
def lastCommonAncestor (p q : List α) : List α :=
  if q.length < p.length then meet (p.drop (p.length - q.length)) q
  else if p.length < q.length then meet p (q.drop (q.length - p.length))
  else meet p q

theorem isMeet_lastCommonAncestor (p q : List α) : IsMeet (lastCommonAncestor p q) p q := by
  rw [lastCommonAncestor]
  split_ifs with hqp hpq
  · apply isMeet_drop
    apply isMeet_meet
    rw [length_drop]
    omega
  · apply IsMeet.symm
    apply isMeet_drop
    apply IsMeet.symm
    apply isMeet_meet
    rw [length_drop]
    omega
  · exact isMeet_meet p q (by omega)

/-- One of the two nodes is their common ancestor. -/
def areOnTheSameFork (p q : List α) : Bool :=
  lastCommonAncestor p q = p || lastCommonAncestor p q = q

theorem areOnTheSameFork_iff {p q : List α} :
    areOnTheSameFork p q = true ↔ p <:+ q ∨ q <:+ p := by
  have h := isMeet_lastCommonAncestor p q
  rw [areOnTheSameFork, Bool.or_eq_true, decide_eq_true_iff, decide_eq_true_iff, h.eq_left_iff,
    h.symm.eq_left_iff]

/-- Steps back until the walk stands on the chain that ends in `tip`. -/
def walkBack (tip : List α) : List α → List α
  | [] => []
  | a :: p => if a :: p <:+ tip then a :: p else walkBack tip p

lemma isMeet_walkBack (tip : List α) : ∀ p, IsMeet (walkBack tip p) tip p
  | [] => ⟨nil_suffix, suffix_refl _, fun _ _ h => h⟩
  | a :: p => by
    rw [walkBack]
    by_cases hon : a :: p <:+ tip
    · rw [if_pos hon]
      exact ⟨hon, suffix_refl _, fun _ _ h => h⟩
    · rw [if_neg hon]
      have ih := isMeet_walkBack tip p
      refine ⟨ih.left, ih.right.trans (suffix_cons a p), ?_⟩
      intro s htip hs
      rcases suffix_cons_iff.mp hs with rfl | hs
      · exact absurd htip hon
      · exact ih.greatest s htip hs

/-- The last block of `p` that is on the chain ending in `tip`. -/
def findFork (tip p : List α) : List α :=
  walkBack tip (p.drop (p.length - tip.length))

theorem isMeet_findFork (tip p : List α) : IsMeet (findFork tip p) tip p :=
  (isMeet_drop (isMeet_walkBack tip _).symm).symm

end PyrrhaNode.BlockTree
