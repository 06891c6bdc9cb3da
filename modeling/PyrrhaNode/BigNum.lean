import PyrrhaNode.ScriptOps

/-!
# Numbers of arbitrary size on the stack

A stack item is a vector of bytes or a number of arbitrary size.  Opcodes that need a count or a
position convert an item to a machine word.  A number is converted by exporting its magnitude into
a word that was not initialised, and the export of zero writes nothing: zero is converted to what
the memory held before.
-/
namespace PyrrhaNode.BigNum

open Interpreter ScriptOps

/-- The exceptions that conversions throw, with their texts. -/
inductive ConversionError where
  | scriptNum (e : ScriptError)
  | badOpOnType (reason : String)
  | outOfBounds (reason : String)
  deriving DecidableEq

/-- `mpz_sizeinbase(n, 2)`: the bits of the magnitude, at least one. -/
def sizeInBase2 (n : ℤ) : ℕ := Nat.log2 n.natAbs + 1

/-- `mpz_export` of a number of at most 64 bits into one word.  The sign is ignored; the number
zero has no words, so that nothing is written. -/
def mpzExport (memory : BitVec 64) (n : ℤ) : BitVec 64 :=
  if n = 0 then memory else BitVec.ofNat 64 n.natAbs

/-- `BigNum::asUint64`, where `memory` is what the local variable holds before the export. -/
def asUint64 (memory : BitVec 64) (n : ℤ) : Except ConversionError (BitVec 64) :=
  if 64 < sizeInBase2 n then throw (.outOfBounds "Number out of range")
  else return mpzExport memory n

/-- `BigNum::asInt64`. -/
def asInt64 (memory : BitVec 64) (n : ℤ) : Except ConversionError ℤ := do
  let ret ← asUint64 memory n
  if ret &&& 0x8000000000000000#64 ≠ 0 then throw (.outOfBounds "Number out of range")
  else return if n < 0 then (-ret).toInt else ret.toInt

def bnInt64Max : ℤ := 2 ^ 63 - 1
def bnUint64Max : ℤ := 0x10000000000000000 - 1
def maximumElementSize64Bit : ℕ := 8

/-- `StackItem::asUint64`. -/
def itemAsUint64 (memory : BitVec 64) (requireMinimal : Bool) :
    StackItem → Except ConversionError (BitVec 64)
  | .vch data => do
      let ret ← (scriptNum data requireMinimal maximumElementSize64Bit).mapError .scriptNum
      if ret < 0 then
        throw (.badOpOnType "Impossible conversion of negative ScriptNum to uint64")
      else return BitVec.ofInt 64 ret
  | .bigNum n =>
    if n < 0 then throw (.badOpOnType "Impossible conversion of negative BigNum to uint64")
    else if bnUint64Max < n then
      throw (.badOpOnType "Impossible conversion of large BigNum to uint64")
    else asUint64 memory n

/-- `StackItem::asInt64`. -/
def itemAsInt64 (memory : BitVec 64) (requireMinimal : Bool) :
    StackItem → Except ConversionError ℤ
  | .vch data => (scriptNum data requireMinimal maximumElementSize64Bit).mapError .scriptNum
  | .bigNum n =>
    if bnInt64Max < n then
      throw (.badOpOnType "Impossible conversion of large BigNum to int64")
    else asInt64 memory n

lemma sizeInBase2_le_iff (n : ℤ) : sizeInBase2 n ≤ 64 ↔ n.natAbs < 2 ^ 64 := by
  rw [sizeInBase2]
  by_cases h : n.natAbs = 0
  · simp [h]
  · exact Nat.log2_lt h

variable {n : ℤ} (memory : BitVec 64)

lemma asUint64_of_lt (h : n.natAbs < 2 ^ 64) :
    asUint64 memory n = .ok (mpzExport memory n) := by
  rw [asUint64, if_neg (Nat.not_lt.mpr ((sizeInBase2_le_iff n).mpr h))]
  rfl

lemma asUint64_of_le (h : 2 ^ 64 ≤ n.natAbs) :
    asUint64 memory n = .error (.outOfBounds "Number out of range") := by
  have hsize := mt (sizeInBase2_le_iff n).mp (Nat.not_lt.mpr h)
  rw [asUint64, if_pos (Nat.not_le.mp hsize)]
  rfl

lemma toNat_mpzExport (hn : n ≠ 0) (h : n.natAbs < 2 ^ 64) :
    (mpzExport memory n).toNat = n.natAbs := by
  rw [mpzExport, if_neg hn, BitVec.toNat_ofNat, Nat.mod_eq_of_lt h]

lemma and_highBit_ne_zero_iff (w : BitVec 64) :
    w &&& 0x8000000000000000#64 ≠ 0 ↔ 2 ^ 63 ≤ w.toNat := by
  have hmask : (0x8000000000000000#64 : BitVec 64) = BitVec.twoPow 64 63 := by decide
  rw [hmask, BitVec.and_twoPow]
  have hbit : w.getLsbD 63 = decide (2 ^ 63 ≤ w.toNat) :=
    (BitVec.msb_eq_getLsbD_last w).symm.trans (BitVec.msb_eq_decide w)
  rw [hbit]
  by_cases h : 2 ^ 63 ≤ w.toNat
  · rw [decide_eq_true h]
    exact iff_of_true (by decide) h
  · rw [decide_eq_false h]
    exact iff_of_false (by decide) h

lemma asInt64_of_lt (hn : n ≠ 0) (h : n.natAbs < 2 ^ 63) :
    asInt64 memory n = .ok n := by
  have hnat := toNat_mpzExport memory hn (by omega)
  rw [asInt64, asUint64_of_lt memory (by omega)]
  simp only [bind, Except.bind]
  rw [if_neg (by rw [and_highBit_ne_zero_iff]; omega)]
  have hint : (mpzExport memory n).toInt = n.natAbs := by
    rw [BitVec.toInt_eq_toNat_of_lt (by omega), hnat]
  split_ifs with hneg
  · rw [BitVec.toInt_neg_of_ne_intMin]
    · exact congrArg Except.ok (by omega)
    · intro heq
      have := congrArg BitVec.toNat heq
      simp at this
      omega
  · exact congrArg Except.ok (by omega)

lemma asInt64_of_le (h : 2 ^ 63 ≤ n.natAbs) :
    ∃ e, asInt64 memory n = .error e := by
  by_cases hlarge : 2 ^ 64 ≤ n.natAbs
  · exact ⟨_, by rw [asInt64, asUint64_of_le memory hlarge]; rfl⟩
  have hnat := toNat_mpzExport memory (by omega) (Nat.not_le.mp hlarge)
  refine ⟨.outOfBounds "Number out of range", ?_⟩
  rw [asInt64, asUint64_of_lt memory (Nat.not_le.mp hlarge)]
  simp only [bind, Except.bind]
  rw [if_pos (by rw [and_highBit_ne_zero_iff, hnat]; exact h)]
  rfl

/-- The conversion to an unsigned word returns the number if it fits and throws otherwise,
whatever the memory holds. -/
def ExactUint64 (n : ℤ) : Prop :=
  ∀ (memory : BitVec 64) (requireMinimal : Bool),
    if 0 ≤ n ∧ n ≤ 2 ^ 64 - 1 then
      ∃ w, itemAsUint64 memory requireMinimal (.bigNum n) = .ok w ∧ (w.toNat : ℤ) = n
    else ∃ e, itemAsUint64 memory requireMinimal (.bigNum n) = .error e

/-- The same for signed words. -/
def ExactInt64 (n : ℤ) : Prop :=
  ∀ (memory : BitVec 64) (requireMinimal : Bool),
    if |n| ≤ 2 ^ 63 - 1 then itemAsInt64 memory requireMinimal (.bigNum n) = .ok n
    else ∃ e, itemAsInt64 memory requireMinimal (.bigNum n) = .error e

lemma exactUint64_of_ne_zero (hn : n ≠ 0) : ExactUint64 n := by
  intro memory requireMinimal
  rw [itemAsUint64]
  split_ifs with hrange hneg hlarge hneg hlarge
  · omega
  · exact absurd hrange.2 (not_le.mpr hlarge)
  · have hlt : n.natAbs < 2 ^ 64 := by omega
    refine ⟨_, asUint64_of_lt memory hlt, ?_⟩
    rw [toNat_mpzExport memory hn hlt]
    omega
  · exact ⟨_, rfl⟩
  · exact ⟨_, rfl⟩
  · exact absurd ⟨not_lt.mp hneg, not_lt.mp hlarge⟩ hrange

lemma exactInt64_of_ne_zero (hn : n ≠ 0) : ExactInt64 n := by
  intro memory requireMinimal
  rw [itemAsInt64, bnInt64Max]
  split_ifs with hrange hlarge hlarge
  · rw [abs_le] at hrange
    omega
  · rw [abs_le] at hrange
    exact asInt64_of_lt memory hn (by omega)
  · exact ⟨_, rfl⟩
  · rw [abs_le] at hrange
    exact asInt64_of_le memory (by omega)

/-- Conversions are exact for every number but zero. -/
theorem conversions_exact_iff (n : ℤ) :
    (ExactUint64 n ↔ n ≠ 0) ∧ (ExactInt64 n ↔ n ≠ 0) := by
  refine ⟨⟨?_, exactUint64_of_ne_zero⟩, ⟨?_, exactInt64_of_ne_zero⟩⟩
  · rintro h rfl
    obtain ⟨w, hw, hzero⟩ := h 7 false
    cases hw
    exact absurd hzero (by decide)
  · rintro h rfl
    have hzero := h 7 false
    rw [if_pos (by decide)] at hzero
    exact absurd hzero (by decide)

/-- Zero is converted to whatever the memory holds. -/
theorem convert_zero_depends_on_memory :
    itemAsUint64 7 true (.bigNum 0) = .ok 7 ∧ itemAsUint64 9 true (.bigNum 0) = .ok 9 ∧
      itemAsInt64 7 true (.bigNum 0) = .ok 7 ∧
      itemAsInt64 0x8000000000000000#64 true (.bigNum 0) =
        .error (.outOfBounds "Number out of range") := by
  decide

end PyrrhaNode.BigNum
