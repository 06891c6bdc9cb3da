import Mathlib

/-!
# Ordered indexes

An ordered index that admits equal keys keeps its entries in a search tree.  A new entry is put
where the descent from the root ends: to the left of a node with a greater key, to the right of
any other.  How the tree is balanced is left open, so an insertion may be made into any tree that
lists the entries in the order of the index.
-/
namespace PyrrhaNode.PriorityIndex

open List

variable {α K : Type*} [LinearOrder K]

inductive SearchTree (α : Type*)
  | leaf
  | node (left : SearchTree α) (entry : α) (right : SearchTree α)

namespace SearchTree

def inorder : SearchTree α → List α
  | leaf => []
  | node l x r => l.inorder ++ x :: r.inorder

def insert (key : α → K) (m : α) : SearchTree α → SearchTree α
  | leaf => node leaf m leaf
  | node l x r => if key m < key x then node (l.insert key m) x r else node l x (r.insert key m)

variable (key : α → K) (m : α) (t : SearchTree α)

lemma inorder_insert_perm :
    (t.insert key m).inorder.Perm (m :: t.inorder) := by
  induction t with
  | leaf => exact List.Perm.refl _
  | node l x r ihl ihr =>
    rw [insert]
    split_ifs
    · exact ihl.append_right (x :: r.inorder)
    · have hright : (l.inorder ++ x :: (r.insert key m).inorder).Perm
          (l.inorder ++ x :: m :: r.inorder) := (ihr.cons x).append_left l.inorder
      have hswap : (l.inorder ++ x :: m :: r.inorder).Perm (l.inorder ++ m :: x :: r.inorder) :=
        (List.Perm.swap m x r.inorder).append_left l.inorder
      exact (hright.trans hswap).trans perm_middle

lemma sorted_insert (h : t.inorder.Pairwise fun a b => key a ≤ key b) :
    (t.insert key m).inorder.Pairwise fun a b => key a ≤ key b := by
  induction t with
  | leaf => simp [insert, inorder]
  | node l x r ihl ihr =>
    rw [inorder, pairwise_append, pairwise_cons] at h
    obtain ⟨hl, ⟨hxr, hr⟩, hlxr⟩ := h
    have hlx : ∀ a ∈ l.inorder, key a ≤ key x := fun a ha => hlxr a ha x mem_cons_self
    rw [insert]
    split_ifs with hmx
    · rw [inorder, pairwise_append, pairwise_cons]
      refine ⟨ihl hl, ⟨hxr, hr⟩, ?_⟩
      intro a ha b hb
      have hax : key a ≤ key x := by
        rcases mem_cons.mp ((inorder_insert_perm key m l).mem_iff.mp ha) with rfl | ha
        · exact hmx.le
        · exact hlx a ha
      rcases mem_cons.mp hb with rfl | hb
      · exact hax
      · exact hax.trans (hxr b hb)
    · rw [inorder, pairwise_append, pairwise_cons]
      have hxb : ∀ b ∈ (r.insert key m).inorder, key x ≤ key b := by
        intro b hb
        rcases mem_cons.mp ((inorder_insert_perm key m r).mem_iff.mp hb) with rfl | hb
        · exact not_lt.mp hmx
        · exact hxr b hb
      refine ⟨hl, ⟨hxb, ihr hr⟩, ?_⟩
      intro a ha b hb
      rcases mem_cons.mp hb with rfl | hb
      · exact hlx a ha
      · exact (hlx a ha).trans (hxb b hb)

end SearchTree

/-- `index'` is `index` with the entry `m` where the descent in one of its trees ends. -/
def Inserted (key : α → K) (m : α) (index index' : List α) : Prop :=
  ∃ t : SearchTree α, t.inorder = index ∧ (t.insert key m).inorder = index'

lemma Inserted.sorted {key : α → K} {m : α} {index index' : List α}
    (h : Inserted key m index index') (hsorted : index.Pairwise fun a b => key a ≤ key b) :
    index'.Pairwise fun a b => key a ≤ key b := by
  obtain ⟨t, rfl, rfl⟩ := h
  exact t.sorted_insert key m hsorted

end PyrrhaNode.PriorityIndex
