import Mathlib.Data.List.Basic
import Mathlib.Logic.Function.Basic
import Mathlib.Tactic

/-!
# Maps whose access creates an entry

A map keeps the list of the keys that were accessed and a value for every key, the
default one where no entry exists. Accessing a missing key creates its entry.
-/
namespace PyrrhaNode

/-- A finite map with a default value. -/
structure DefaultMap (κ β : Type*) [DecidableEq κ] [Inhabited β] where
  keys : List κ
  get : κ → β
  nodup : keys.Nodup
  get_of_notMem : ∀ k, k ∉ keys → get k = default

namespace DefaultMap

variable {κ β : Type*} [DecidableEq κ] [Inhabited β] (m : DefaultMap κ β)

instance (m : DefaultMap κ β) (k : κ) : Decidable (k ∈ m.keys) :=
  List.instDecidableMemOfLawfulBEq k m.keys

def empty : DefaultMap κ β := ⟨[], fun _ => default, List.nodup_nil, fun _ _ => rfl⟩

/-- Applies `f` to the entry of `k`, which is created when it is missing. -/
def modify (m : DefaultMap κ β) (k : κ) (f : β → β) : DefaultMap κ β where
  keys := if k ∈ m.keys then m.keys else m.keys ++ [k]
  get := Function.update m.get k (f (m.get k))
  nodup := by
    split_ifs with h
    · exact m.nodup
    · exact List.nodup_append.mpr ⟨m.nodup, by simp, by grind⟩
  get_of_notMem := by
    intro j hj
    have hjk : j ≠ k := by
      rintro rfl
      split_ifs at hj with h
      · exact hj h
      · simp at hj
    have hjm : j ∉ m.keys := by
      split_ifs at hj with h
      · exact hj
      · simp only [List.mem_append, not_or] at hj
        exact hj.1
    rw [Function.update_of_ne hjk]
    exact m.get_of_notMem j hjm

@[simp] theorem get_modify_self (k : κ) (f : β → β) :
    (m.modify k f).get k = f (m.get k) := by
  simp [modify]

theorem get_modify_of_ne {j k : κ} (h : j ≠ k) (f : β → β) :
    (m.modify k f).get j = m.get j := by
  simp [modify, h]

end DefaultMap

end PyrrhaNode
