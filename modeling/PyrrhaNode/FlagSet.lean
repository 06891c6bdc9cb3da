import Mathlib.Data.List.Basic
import Mathlib.Tactic

/-!
# Sets of flags as bit vectors

A bit vector is a set of flags. The union of a list of sets contains a flag when one
of them does, and containment is the absence of flags outside the larger set.
-/
namespace PyrrhaNode.FlagSet

variable {w : ℕ} {b a : BitVec w}

/-- The union of a list of flag sets. -/
def union (l : List (BitVec w)) : BitVec w := l.foldr (· ||| ·) 0#w

/-- Every flag of `a` is a flag of `b`. -/
def Within (a b : BitVec w) : Prop := a &&& ~~~b = 0#w

@[simp] theorem union_nil : union ([] : List (BitVec w)) = 0#w := rfl

@[simp] theorem union_cons (a : BitVec w) (l : List (BitVec w)) :
    union (a :: l) = a ||| union l := rfl

theorem union_append (l l' : List (BitVec w)) : union (l ++ l') = union l ||| union l' := by
  induction l with
  | nil => simp
  | cons a l ih => rw [List.cons_append, union_cons, ih, union_cons, BitVec.or_assoc]

theorem getLsbD_union (l : List (BitVec w)) (i : ℕ) :
    (union l).getLsbD i = true ↔ ∃ a ∈ l, a.getLsbD i = true := by
  induction l with
  | nil => simp
  | cons a l ih => simp [ih]

theorem within_iff :
    Within a b ↔ ∀ i, a.getLsbD i = true → b.getLsbD i = true := by
  constructor
  · intro h i hi
    have hbit := congrArg (fun v => v.getLsbD i) h
    have hlt : i < w := BitVec.lt_of_getLsbD hi
    simpa [hi, hlt] using hbit
  · intro h
    apply BitVec.eq_of_getLsbD_eq
    intro i hi
    by_cases ha : a.getLsbD i = true
    · simp [h i ha]
    · simp [Bool.eq_false_iff.mpr ha]

theorem within_zero (b : BitVec w) : Within 0#w b := by
  rw [within_iff]
  simp

theorem within_or_iff {c : BitVec w} : Within (a ||| b) c ↔ Within a c ∧ Within b c := by
  simp only [within_iff, BitVec.getLsbD_or, Bool.or_eq_true]
  constructor
  · intro h
    exact ⟨fun i hi => h i (.inl hi), fun i hi => h i (.inr hi)⟩
  · rintro ⟨ha, hb⟩ i (hi | hi)
    · exact ha i hi
    · exact hb i hi

theorem union_within_iff {l : List (BitVec w)} :
    Within (union l) b ↔ ∀ a ∈ l, Within a b := by
  induction l with
  | nil => simp [within_zero]
  | cons a l ih => simp [within_or_iff, ih]

end PyrrhaNode.FlagSet
