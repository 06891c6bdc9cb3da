import PyrrhaNode.Loop

/-!
# The condition stack of the script machine

Of the truth values of the nested conditionals only their number and the position of the first
false one are kept. That is enough to tell whether there are any and whether all are true.
-/
namespace PyrrhaNode

/-- Both numbers are of 32 bits. The position `noFalse` means that all values are true. -/
structure ConditionStack where
  stackSize : ℕ
  firstFalsePos : ℕ

namespace ConditionStack

def noFalse : ℕ := 2 ^ 32 - 1

inductive Call
  | pushBack (f : Bool)
  | popBack
  | toggleTop

def init : ConditionStack := ⟨0, noFalse⟩

variable (c : ConditionStack)

def empty : Bool := c.stackSize = 0

def allTrue : Bool := c.firstFalsePos = noFalse

def pushBack (f : Bool) : ConditionStack where
  stackSize := (c.stackSize + 1) % 2 ^ 32
  firstFalsePos := if c.firstFalsePos = noFalse ∧ !f then c.stackSize else c.firstFalsePos

def popBack : ConditionStack where
  stackSize := c.stackSize - 1
  firstFalsePos := if c.firstFalsePos = c.stackSize - 1 then noFalse else c.firstFalsePos

def toggleTop : ConditionStack where
  stackSize := c.stackSize
  firstFalsePos :=
    if c.firstFalsePos = noFalse then c.stackSize - 1
    else if c.firstFalsePos = c.stackSize - 1 then noFalse else c.firstFalsePos

/-- A call, or a failed assertion. -/
def step : Call → Option ConditionStack
  | .pushBack f => some (c.pushBack f)
  | .popBack => if 0 < c.stackSize then some c.popBack else none
  | .toggleTop => if 0 < c.stackSize then some c.toggleTop else none

/-- The calls that are legal on a vector, whose last element is the head of the list. -/
def vectorStep : List Bool → Call → Option (List Bool)
  | v, .pushBack f => if v.length < noFalse then some (f :: v) else none
  | _ :: v, .popBack => some v
  | b :: v, .toggleTop => some ((!b) :: v)
  | [], _ => none

def firstFalse : List Bool → ℕ
  | [] => noFalse
  | b :: v => if v.all id then if b then noFalse else v.length else firstFalse v

/-- The two counters stand for the stack `v`. -/
structure Simulates (v : List Bool) : Prop where
  room : v.length ≤ noFalse
  size : c.stackSize = v.length
  first : c.firstFalsePos = firstFalse v

variable {c} {v v' : List Bool}

lemma firstFalse_of_all (h : v.all id = true) : firstFalse v = noFalse := by
  cases v with
  | nil => rfl
  | cons b v => simp_all [firstFalse]

lemma firstFalse_lt (h : v.all id ≠ true) : firstFalse v < v.length := by
  induction v with
  | nil => simp at h
  | cons b v ih =>
    rw [firstFalse, List.length_cons]
    by_cases hv : v.all id = true
    · have hb : b ≠ true := fun hb => h (by simp [hb, hv])
      rw [if_pos hv, if_neg hb]
      omega
    · rw [if_neg hv]
      have := ih hv
      omega

lemma Simulates.observed (h : c.Simulates v) : c.empty = v.isEmpty ∧ c.allTrue = v.all id := by
  refine ⟨by cases v <;> simp [empty, h.size], ?_⟩
  rw [allTrue, h.first]
  by_cases hv : v.all id = true
  · rw [firstFalse_of_all hv, hv, decide_eq_true rfl]
  · rw [Bool.eq_false_iff.mpr hv, decide_eq_false ((firstFalse_lt hv).trans_le h.room).ne]

/-- What a call preserves. -/
lemma Simulates.step (h : c.Simulates v) {call : Call} (hv : vectorStep v call = some v') :
    ∃ c', c.step call = some c' ∧ c'.Simulates v' := by
  obtain ⟨hroom, hsize, hfirst⟩ := h
  cases call with
  | pushBack f =>
    have hne := fun hv => ((firstFalse_lt (v := v) hv).trans_le hroom).ne
    rw [vectorStep, Option.ite_none_right_eq_some, Option.some_inj] at hv
    obtain ⟨hlt, rfl⟩ := hv
    refine ⟨_, rfl, hlt, ?_, ?_⟩
    · rw [pushBack, hsize, List.length_cons, Nat.mod_eq_of_lt (by rw [noFalse] at hlt; omega)]
    · rw [pushBack, hsize, hfirst, firstFalse]
      by_cases hall : v.all id = true
      · rw [firstFalse_of_all hall, if_pos hall]
        cases f <;> rfl
      · rw [if_neg hall, if_neg fun hc => hne hall hc.1]
  | popBack =>
    cases v with
    | nil => cases hv
    | cons b v =>
      obtain rfl := Option.some.inj hv
      rw [List.length_cons] at hroom hsize
      refine ⟨_, if_pos (by omega), by omega, by rw [popBack, hsize, Nat.add_sub_cancel], ?_⟩
      rw [popBack, hsize, hfirst, firstFalse, Nat.add_sub_cancel]
      by_cases hall : v.all id = true
      · rw [firstFalse_of_all hall, if_pos hall]
        cases b <;> simp
      · rw [if_neg hall, if_neg (firstFalse_lt hall).ne]
  | toggleTop =>
    cases v with
    | nil => cases hv
    | cons b v =>
      cases hv
      have hne := fun hv => ((firstFalse_lt (v := v) hv).trans_le (Nat.le_of_succ_le hroom)).ne
      rw [List.length_cons] at hroom hsize
      refine ⟨_, if_pos (by omega), hroom, hsize, ?_⟩
      rw [toggleTop, hsize, hfirst, firstFalse, firstFalse, Nat.add_sub_cancel]
      by_cases hall : v.all id = true
      · have : v.length ≠ noFalse := by omega
        cases b <;> simp [hall, this]
      · rw [if_neg hall, if_neg hall, if_neg (hne hall), if_neg (firstFalse_lt hall).ne]

lemma Simulates.run {calls : List Call} (h : c.Simulates v)
    (hv : calls.foldlM vectorStep v = some v') :
    ∃ c', calls.foldlM ConditionStack.step c = some c' ∧ c'.Simulates v' := by
  induction calls generalizing c v with
  | nil =>
    cases hv
    exact ⟨c, rfl, h⟩
  | cons call calls ih =>
    obtain ⟨w, hstep, hrest⟩ := Option.bind_eq_some_iff.mp hv
    obtain ⟨d, hd, hsim⟩ := h.step hstep
    obtain ⟨c', hc', hsim'⟩ := ih hsim hrest
    exact ⟨c', Option.bind_eq_some_iff.mpr ⟨d, hd, hc'⟩, hsim'⟩

/-- After every run of calls that is legal on the vector. -/
theorem simulates_vector {calls : List Call} (h : calls.foldlM vectorStep [] = some v) :
    ∃ c, calls.foldlM ConditionStack.step init = some c ∧ c.empty = v.isEmpty ∧
      c.allTrue = v.all id := by
  obtain ⟨c, hc, hsim⟩ := Simulates.run (c := init) ⟨Nat.zero_le _, rfl, rfl⟩ h
  exact ⟨c, hc, hsim.observed⟩

/-- An `if` that is not taken, in another one, and its `else`. -/
theorem simulates_vector_else :
    ∃ c, [Call.pushBack true, .pushBack false, .toggleTop].foldlM ConditionStack.step init =
      some c ∧ c.empty = false ∧ c.allTrue = true :=
  simulates_vector (v := [true, true]) (by rfl)

end PyrrhaNode.ConditionStack
