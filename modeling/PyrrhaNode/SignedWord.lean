import Mathlib.Tactic

/-!
# Signed 64-bit arithmetic without overflow

Addition and subtraction of signed words are exact when the exact result fits. A
program that forms its sums through an arithmetic runs without overflow when it gives
the same result with sums that wrap around and with sums that trap.
-/
namespace PyrrhaNode.SignedWord

theorem toInt_add_of_bounds {a b : Int64} (hlo : -2 ^ 63 ≤ a.toInt + b.toInt)
    (hhi : a.toInt + b.toInt < 2 ^ 63) : (a + b).toInt = a.toInt + b.toInt := by
  rw [Int64.toInt_add, Int.bmod_eq_of_le (by omega) (by omega)]

theorem toInt_sub_of_bounds {a b : Int64} (hlo : -2 ^ 63 ≤ a.toInt - b.toInt)
    (hhi : a.toInt - b.toInt < 2 ^ 63) : (a - b).toInt = a.toInt - b.toInt := by
  rw [Int64.toInt_sub, Int.bmod_eq_of_le (by omega) (by omega)]

/-- The usual overflow check of two nonnegative words: comparing the room above the
first with the second. -/
theorem toInt_add_of_room {a b : Int64} (ha : 0 ≤ a.toInt) (hb : 0 ≤ b.toInt)
    (h : ¬ Int64.maxValue - a < b) : (a + b).toInt = a.toInt + b.toInt := by
  have ha' := a.toInt_lt
  have hmax : Int64.maxValue.toInt = 2 ^ 63 - 1 := by decide
  rw [Int64.lt_iff_toInt_lt, toInt_sub_of_bounds (by omega) (by omega)] at h
  exact toInt_add_of_bounds (by omega) (by omega)

/-- How sums of words are formed. -/
structure Arithmetic where
  add : Int64 → Int64 → Except String Int64
  sub : Int64 → Int64 → Except String Int64

/-- The arithmetic of the machine. -/
def wrapping : Arithmetic := ⟨fun a b => .ok (a + b), fun a b => .ok (a - b)⟩

/-- The arithmetic that stops when a result does not fit. -/
def trapping : Arithmetic where
  add a b := if (a + b).toInt = a.toInt + b.toInt then .ok (a + b) else .error "overflow"
  sub a b := if (a - b).toInt = a.toInt - b.toInt then .ok (a - b) else .error "overflow"

theorem trapping_add {a b : Int64} (h : (a + b).toInt = a.toInt + b.toInt) :
    trapping.add a b = .ok (a + b) := if_pos h

theorem trapping_sub {a b : Int64} (h : (a - b).toInt = a.toInt - b.toInt) :
    trapping.sub a b = .ok (a - b) := if_pos h

end PyrrhaNode.SignedWord
