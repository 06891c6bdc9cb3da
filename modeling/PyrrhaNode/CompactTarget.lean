import Mathlib.Data.Nat.Bitwise
import Mathlib.Tactic

/-!
# 256-bit targets and their compact form

A target is an unsigned 256-bit number. Its compact form is a 32-bit number with the size
of the target in bytes and its three leading bytes; the highest bit of the leading bytes is
a sign, so a target that has it set is written with one more byte of size.
-/
namespace PyrrhaNode.CompactTarget

/-- The operators `<<=` and `>>=` of `arith_uint256`. -/
def shiftLeft (a shift : ℕ) : ℕ := if shift < 256 then (a <<< shift) % 2 ^ 256 else 0
def shiftRight (a shift : ℕ) : ℕ := if shift < 256 then a >>> shift else 0

/-- The position of the highest bit set plus one, or zero. -/
def bits (a : ℕ) : ℕ := if a = 0 then 0 else a.log2 + 1

def getLow64 (a : ℕ) : ℕ := a % 2 ^ 64

/-- `SetCompact`: the target and the flags for a negative and for a too large number. -/
def setCompact (nCompact : UInt32) : ℕ × Bool × Bool :=
  let nSize := nCompact.toNat >>> 24
  let nWord := nCompact.toNat &&& 0x007fffff
  let nWord := if nSize ≤ 3 then nWord >>> (8 * (3 - nSize)) else nWord
  let value := if nSize ≤ 3 then nWord else shiftLeft nWord (8 * (nSize - 3))
  (value,
    decide (nWord ≠ 0) && decide (nCompact.toNat &&& 0x00800000 ≠ 0),
    decide (nWord ≠ 0) && (decide (34 < nSize) || decide (0xff < nWord) && decide (33 < nSize) ||
      decide (0xffff < nWord) && decide (32 < nSize)))

/-- The mantissa and the size of `GetCompact`. -/
def compactParts (a : ℕ) : ℕ × ℕ :=
  let nSize := (bits a + 7) / 8
  let nCompact := (if nSize ≤ 3 then (getLow64 a <<< (8 * (3 - nSize))) % 2 ^ 64
    else getLow64 (shiftRight a (8 * (nSize - 3)))) % 2 ^ 32
  -- the sign bit is already set: the mantissa loses a byte and the size gains one
  if nCompact &&& 0x00800000 ≠ 0 then (nCompact >>> 8, nSize + 1) else (nCompact, nSize)

/-- `GetCompact` of a number that is not negative. -/
def getCompact (a : ℕ) : UInt32 :=
  let (nCompact, nSize) := compactParts a
  UInt32.ofNat (nCompact ||| (nSize <<< 24))

/-- A compact value of a target that proof of work can meet: it decodes without a flag to
a target from one to the limit, and encoding that target gives the value back. -/
structure WellFormed (powLimit : ℕ) (nBits : UInt32) : Prop where
  notNegative : (setCompact nBits).2.1 = false
  noOverflow : (setCompact nBits).2.2 = false
  pos : 0 < (setCompact nBits).1
  le_powLimit : (setCompact nBits).1 ≤ powLimit
  canonical : getCompact (setCompact nBits).1 = nBits

section Size

variable {a : ℕ}

/-- The number of bytes of a number. -/
def byteSize (a : ℕ) : ℕ := (bits a + 7) / 8

theorem two_pow_bits (h : 0 < a) : 2 ^ (bits a - 1) ≤ a ∧ a < 2 ^ bits a := by
  rw [bits, if_neg (by omega)]
  exact ⟨Nat.log2_self_le (by omega), Nat.lt_log2_self⟩

theorem bits_le_iff (h : 0 < a) (k : ℕ) : bits a ≤ k ↔ a < 2 ^ k := by
  obtain ⟨hlo, hhi⟩ := two_pow_bits h
  constructor
  · intro hk
    exact hhi.trans_le (Nat.pow_le_pow_right (by decide) hk)
  · intro hk
    have : bits a - 1 < k := (Nat.pow_lt_pow_iff_right (by decide)).mp (hlo.trans_lt hk)
    omega

theorem byteSize_eq_iff (h : 0 < a) (k : ℕ) :
    byteSize a = k + 1 ↔ 2 ^ (8 * k) ≤ a ∧ a < 2 ^ (8 * (k + 1)) := by
  rw [← bits_le_iff h, ← Nat.not_lt, ← bits_le_iff h, byteSize]
  omega

theorem byteSize_pos (h : 0 < a) : 0 < byteSize a := by
  have : ¬ bits a ≤ 0 := by
    rw [bits_le_iff h]
    omega
  rw [byteSize]
  omega

end Size

/-- The three leading bytes of a number. -/
def lead (a : ℕ) : ℕ :=
  if byteSize a ≤ 3 then a * 2 ^ (8 * (3 - byteSize a)) else a / 2 ^ (8 * (byteSize a - 3))

section Lead

variable {a n k : ℕ}

theorem lead_of_byteSize (h : byteSize a = n + 3) : lead a = a / 2 ^ (8 * n) := by
  rw [lead, h]
  split
  case isTrue hle =>
    obtain rfl : n = 0 := by omega
    simp
  case isFalse => rw [Nat.add_sub_cancel]

theorem lead_bounds (h : 0 < a) : 2 ^ 16 ≤ lead a ∧ lead a < 2 ^ 24 := by
  obtain ⟨k, hk⟩ := Nat.exists_eq_add_one_of_ne_zero (byteSize_pos h).ne'
  obtain ⟨hlo, hhi⟩ := (byteSize_eq_iff h k).mp hk
  rw [lead, hk]
  split
  case isTrue hle =>
    have hexp : 8 * k + 8 * (3 - (k + 1)) = 16 := by omega
    have hexp' : 8 * (k + 1) + 8 * (3 - (k + 1)) = 24 := by omega
    rw [← hexp, ← hexp', pow_add, pow_add]
    exact ⟨Nat.mul_le_mul_right _ hlo, Nat.mul_lt_mul_of_pos_right hhi (Nat.two_pow_pos _)⟩
  case isFalse hgt =>
    rw [Nat.le_div_iff_mul_le (Nat.two_pow_pos _), Nat.div_lt_iff_lt_mul (Nat.two_pow_pos _),
      ← pow_add, ← pow_add]
    rw [show 16 + 8 * (k + 1 - 3) = 8 * k by omega,
      show 24 + 8 * (k + 1 - 3) = 8 * (k + 1) by omega]
    exact ⟨hlo, hhi⟩

theorem and_sign_eq_zero_iff {x : ℕ} (hx : x < 2 ^ 24) : x &&& 0x00800000 = 0 ↔ x < 2 ^ 23 := by
  rw [show 0x00800000 = 2 ^ 23 from rfl, Nat.and_two_pow, Nat.testBit_eq_decide_div_mod_eq]
  by_cases h : x / 2 ^ 23 % 2 = 1
  · simp only [h, decide_true, Bool.toNat_true]
    omega
  · simp only [h, decide_false, Bool.toNat_false]
    omega

theorem compactParts_eq (h : 0 < a) (ha : a < 2 ^ 256) :
    compactParts a = if lead a < 2 ^ 23 then (lead a, byteSize a)
      else (lead a / 2 ^ 8, byteSize a + 1) := by
  obtain ⟨-, hlead⟩ := lead_bounds h
  have hsize : byteSize a ≤ 32 := by
    have := (bits_le_iff h 256).mpr ha
    rw [byteSize]
    omega
  have hcompact : (if byteSize a ≤ 3 then (getLow64 a <<< (8 * (3 - byteSize a))) % 2 ^ 64
      else getLow64 (shiftRight a (8 * (byteSize a - 3)))) % 2 ^ 32 = lead a := by
    unfold lead at hlead ⊢
    by_cases hle : byteSize a ≤ 3
    · rw [if_pos hle] at hlead
      have hself : a ≤ a * 2 ^ (8 * (3 - byteSize a)) :=
        Nat.le_mul_of_pos_right a (Nat.two_pow_pos _)
      rw [if_pos hle, if_pos hle, getLow64, Nat.mod_eq_of_lt (by omega : a < 2 ^ 64),
        Nat.shiftLeft_eq, Nat.mod_eq_of_lt (by omega), Nat.mod_eq_of_lt (by omega)]
    · rw [if_neg hle] at hlead
      rw [if_neg hle, if_neg hle, shiftRight, if_pos (by omega), getLow64,
        Nat.shiftRight_eq_div_pow]
      generalize a / 2 ^ (8 * (byteSize a - 3)) = q at hlead
      omega
  rw [byteSize] at hcompact
  rw [compactParts]
  simp only [hcompact, and_sign_eq_zero_iff hlead, Nat.shiftRight_eq_div_pow, ite_not]
  rfl

/-- What is left of a number when its lowest bits are cut off. -/
def floorTo (k a : ℕ) : ℕ := a / 2 ^ k * 2 ^ k

theorem floorTo_le (k a : ℕ) : floorTo k a ≤ a := Nat.div_mul_le_self a _

theorem le_floorTo {b : ℕ} (h : 2 ^ k * b ≤ a) : 2 ^ k * b ≤ floorTo k a := by
  rw [floorTo, Nat.mul_comm _ (2 ^ k)]
  exact Nat.mul_le_mul_left _ ((Nat.le_div_iff_mul_le (Nat.two_pow_pos k)).mpr (by
    rwa [Nat.mul_comm]))

theorem floorTo_div (k j a : ℕ) : floorTo (j + k) a / 2 ^ j = floorTo k (a / 2 ^ j) := by
  rw [floorTo, floorTo, pow_add, ← Nat.div_div_eq_div_mul, mul_comm (2 ^ j) (2 ^ k), ← mul_assoc,
    Nat.mul_div_cancel _ (Nat.two_pow_pos j)]

/-- The target that `GetCompact` keeps: numbers of more than three bytes lose all but three
bytes, or all but two if the highest bit is set. -/
def compactFloor (a : ℕ) : ℕ :=
  if lead a < 2 ^ 23 then floorTo (8 * (byteSize a - 3)) a else floorTo (8 * (byteSize a - 2)) a

theorem compactFloor_le (a : ℕ) : compactFloor a ≤ a := by
  unfold compactFloor
  split <;> exact floorTo_le _ _

variable (h : 0 < a)
include h

/-- Cutting off bits below the leading bytes keeps size and leading bytes. -/
theorem byteSize_floorTo (hk : k ≤ 8 * (byteSize a - 1)) :
    byteSize (floorTo k a) = byteSize a := by
  obtain ⟨n, hn⟩ := Nat.exists_eq_add_one_of_ne_zero (byteSize_pos h).ne'
  obtain ⟨hlo, hhi⟩ := (byteSize_eq_iff h n).mp hn
  have hge : 2 ^ (8 * n) ≤ floorTo k a := by
    have hsplit : 2 ^ (8 * n) = 2 ^ k * 2 ^ (8 * n - k) := by rw [← pow_add]; congr 1; omega
    rw [hsplit] at hlo ⊢
    exact le_floorTo hlo
  rw [hn]
  exact (byteSize_eq_iff ((Nat.two_pow_pos _).trans_le hge) n).mpr
    ⟨hge, (floorTo_le k a).trans_lt hhi⟩

theorem lead_floorTo {j : ℕ} (hsize : byteSize a = n + 3) (hj : j ≤ 16) :
    lead (floorTo (8 * n + j) a) = floorTo j (lead a) := by
  have hfloor : byteSize (floorTo (8 * n + j) a) = n + 3 :=
    hsize ▸ byteSize_floorTo h (by omega)
  rw [lead_of_byteSize hfloor, lead_of_byteSize hsize, floorTo_div]

section

variable (ha : a < 2 ^ 256)
include ha

theorem compactParts_compactFloor :
    0 < compactFloor a ∧ compactParts (compactFloor a) = compactParts a := by
  by_cases hsmall : byteSize a < 3
  · -- nothing is cut off
    have hself : compactFloor a = a := by
      unfold compactFloor
      split <;> simp [floorTo, show byteSize a - 3 = 0 by omega, show byteSize a - 2 = 0 by omega]
    rw [hself]
    exact ⟨h, rfl⟩
  obtain ⟨n, hn⟩ := Nat.exists_eq_add_of_le (Nat.le_of_not_lt hsmall)
  rw [Nat.add_comm] at hn
  obtain ⟨j, hj, hfloor, hkept⟩ : ∃ j ≤ 16, compactFloor a = floorTo (8 * n + j) a ∧
      (lead a < 2 ^ 23 ∧ j = 0 ∨ ¬ lead a < 2 ^ 23 ∧ j = 8) := by
    by_cases hlead : lead a < 2 ^ 23
    · exact ⟨0, by omega, by rw [compactFloor, if_pos hlead, hn]; rfl, .inl ⟨hlead, rfl⟩⟩
    · refine ⟨8, by omega, ?_, .inr ⟨hlead, rfl⟩⟩
      rw [compactFloor, if_neg hlead, hn, show 8 * (n + 3 - 2) = 8 * n + 8 by omega]
  have hsize : byteSize (compactFloor a) = byteSize a := by
    rw [hfloor]
    exact byteSize_floorTo h (by omega)
  have hpos : 0 < compactFloor a := by
    by_contra hzero
    have : byteSize (compactFloor a) = 0 := by
      simp [Nat.le_zero.mp (not_lt.mp hzero), byteSize, bits]
    omega
  refine ⟨hpos, ?_⟩
  rw [compactParts_eq hpos ((compactFloor_le a).trans_lt ha), compactParts_eq h ha, hsize, hfloor,
    lead_floorTo h hn hj]
  rcases hkept with ⟨hlead, rfl⟩ | ⟨hlead, rfl⟩
  · simp [floorTo]
  have hfloor : ¬ floorTo 8 (lead a) < 2 ^ 23 := by
    unfold floorTo
    omega
  have hdiv : floorTo 8 (lead a) / 2 ^ 8 = lead a / 2 ^ 8 := by
    unfold floorTo
    omega
  rw [if_neg hfloor, if_neg hlead, hdiv]

/-- The bounds of mantissa and size; in particular the assertions of `GetCompact` hold. -/
theorem compactParts_bounds :
    0 < (compactParts a).1 ∧ (compactParts a).1 < 2 ^ 23 ∧ (compactParts a).2 ≤ 33 ∧
      (32 < (compactParts a).2 → (compactParts a).1 ≤ 0xffff) := by
  obtain ⟨hlo, hhi⟩ := lead_bounds h
  have hsize : byteSize a ≤ 32 := by
    have := (bits_le_iff h 256).mpr ha
    rw [byteSize]
    omega
  rw [compactParts_eq h ha]
  split
  all_goals exact ⟨by omega, by omega, by omega, by omega⟩

theorem toNat_getCompact :
    (getCompact a).toNat = (compactParts a).1 + (compactParts a).2 * 2 ^ 24 := by
  obtain ⟨-, hmantissa, hsize, -⟩ := compactParts_bounds h ha
  rw [getCompact]
  simp only
  rw [Nat.or_comm, ← Nat.shiftLeft_add_eq_or_of_lt (by omega),
    UInt32.toNat_ofNat']
  omega

/-- The number that a mantissa and a size stand for. -/
def compactValue (mantissa size : ℕ) : ℕ :=
  if size ≤ 3 then mantissa / 2 ^ (8 * (3 - size)) else mantissa * 2 ^ (8 * (size - 3))

theorem compactValue_compactParts :
    compactValue (compactParts a).1 (compactParts a).2 = compactFloor a := by
  have hpow : ∀ i j : ℕ, a * 2 ^ (i + j) / 2 ^ i / 2 ^ j = a := fun i j => by
    rw [Nat.div_div_eq_div_mul, ← pow_add, Nat.mul_div_cancel _ (Nat.two_pow_pos _)]
  rw [compactParts_eq h ha, compactFloor]
  by_cases hlead : lead a < 2 ^ 23
  · rw [if_pos hlead, if_pos hlead, compactValue, floorTo, lead]
    by_cases hsize : byteSize a ≤ 3
    · simp [hsize]
    · simp [hsize]
  · rw [if_neg hlead, if_neg hlead, compactValue, floorTo, lead]
    by_cases hsize : byteSize a ≤ 2
    · have hexp : 8 * (3 - byteSize a) = 8 + 8 * (3 - (byteSize a + 1)) := by omega
      simp only [show byteSize a + 1 ≤ 3 by omega, show byteSize a ≤ 3 by omega, if_true, hexp,
        hpow, Nat.sub_eq_zero_of_le hsize]
      simp
    · have hexp : byteSize a + 1 - 3 = byteSize a - 2 := by omega
      rw [if_neg (by omega : ¬ byteSize a + 1 ≤ 3), hexp]
      by_cases hthree : byteSize a = 3
      · simp [hthree]
      · rw [if_neg (by omega), Nat.div_div_eq_div_mul, ← pow_add,
          show 8 * (byteSize a - 3) + 8 = 8 * (byteSize a - 2) by omega]

/-- Decoding the compact form of a target gives what the encoding keeps, with no flag. -/
theorem setCompact_getCompact :
    setCompact (getCompact a) = (compactFloor a, false, false) := by
  obtain ⟨hpos, hmantissa, hsize, hlarge⟩ := compactParts_bounds h ha
  have hnat := toNat_getCompact h ha
  have hfloor := compactValue_compactParts h ha
  have hle := compactFloor_le a
  rw [compactValue] at hfloor
  generalize (compactParts a).1 = m at *
  generalize (compactParts a).2 = size at *
  have hnSize : (getCompact a).toNat >>> 24 = size := by
    omega
  have hnWord : (getCompact a).toNat &&& 0x007fffff = m := by
    rw [show 0x007fffff = 2 ^ 23 - 1 from rfl, Nat.and_two_pow_sub_one_eq_mod]
    omega
  have hsign : (getCompact a).toNat &&& 0x00800000 = 0 := by
    rw [hnat, show 0x00800000 = 2 ^ 23 from rfl, Nat.and_two_pow,
      Nat.testBit_eq_decide_div_mod_eq]
    rw [decide_eq_false (by omega : ¬ (m + size * 2 ^ 24) / 2 ^ 23 % 2 = 1)]
    rfl
  simp only [setCompact, hnSize, hnWord, hsign, Nat.shiftRight_eq_div_pow, Prod.mk.injEq]
  refine ⟨?_, by simp, ?_⟩
  · split
    case isTrue hsmall =>
      rwa [if_pos hsmall] at hfloor
    case isFalse hbig =>
      rw [if_neg hbig] at hfloor
      rw [shiftLeft, if_pos (by omega), Nat.shiftLeft_eq, hfloor, Nat.mod_eq_of_lt (by omega)]
  · have hnot : ¬ (0xffff < (if size ≤ 3 then m / 2 ^ (8 * (3 - size)) else m) ∧ 32 < size) := by
      rintro ⟨hword, hsize⟩
      rw [if_neg (by omega)] at hword
      exact absurd (hlarge hsize) (by omega)
    simp only [show ¬ 34 < size by omega, show ¬ 33 < size by omega, decide_false, Bool.and_false,
      Bool.false_or, ← Bool.decide_and, hnot]

end

/-- The compact form of every positive target up to the limit is well formed. -/
theorem wellFormed_getCompact {powLimit : ℕ} (ha : a ≤ powLimit)
    (hlimit : powLimit < 2 ^ 256) : WellFormed powLimit (getCompact a) := by
  have hlt : a < 2 ^ 256 := ha.trans_lt hlimit
  obtain ⟨hpos, hparts⟩ := compactParts_compactFloor h hlt
  have hset := setCompact_getCompact h hlt
  refine ⟨by rw [hset], by rw [hset], by rw [hset]; exact hpos, ?_, ?_⟩
  · rw [hset]
    exact (compactFloor_le a).trans ha
  · rw [hset, getCompact, hparts, getCompact]

end Lead

/-- The loop of `/=`, which shifts the divisor back by one bit after each turn. -/
def divideLoop : ℕ → ℕ → ℕ → ℕ → ℕ
  | 0, _, _, quotient => quotient
  | shift + 1, num, div, quotient =>
    if div ≤ num then
      divideLoop shift (num - div) (shiftRight div 1) (quotient ||| (1 <<< shift))
    else divideLoop shift num (shiftRight div 1) quotient

/-- The operator `/=` of `arith_uint256`. -/
def divide (num div : ℕ) : Except String ℕ :=
  if bits div = 0 then .error "Division by zero"
  else if bits num < bits div then .ok 0
  else .ok (divideLoop (bits num - bits div + 1) num (shiftLeft div (bits num - bits div)) 0)

def getWorkForDifficultyBits (nBits : UInt32) : Except String ℕ :=
  let (bnTarget, fNegative, fOverflow) := setCompact nBits
  if fNegative || fOverflow || bnTarget == 0 then .ok 0
  else (divide (2 ^ 256 - 1 - bnTarget) ((bnTarget + 1) % 2 ^ 256)).map fun q => (q + 1) % 2 ^ 256

variable {num d : ℕ} (nBits : UInt32)

/-- The quotient has only bits from the shift on, and what is left of the number is below the
divisor at the next bit. -/
lemma divideLoop_eq (hd : 0 < d) {k q : ℕ} (hnum : num < d * 2 ^ k) (hq : 2 ^ k ∣ q) :
    divideLoop k num (d * 2 ^ k / 2) q = q + num / d := by
  induction k generalizing num q with
  | zero => rw [divideLoop, Nat.div_eq_of_lt (by simpa using hnum), Nat.add_zero]
  | succ k ih =>
    have hdiv : d * 2 ^ (k + 1) / 2 = d * 2 ^ k := by
      rw [pow_succ, ← mul_assoc, Nat.mul_div_cancel _ (by decide)]
    have hback : shiftRight (d * 2 ^ k) 1 = d * 2 ^ k / 2 := by
      rw [shiftRight, if_pos (by decide), Nat.shiftRight_eq_div_pow]
    have hq' : 2 ^ k ∣ q := (pow_dvd_pow 2 k.le_succ).trans hq
    rw [hdiv, divideLoop, hback]
    split_ifs with hle
    · have hbit : q ||| (1 <<< k) = q + 2 ^ k := by
        obtain ⟨c, rfl⟩ := hq
        rw [Nat.one_shiftLeft, Nat.two_pow_add_eq_or_of_lt (Nat.pow_lt_pow_succ (by decide))]
      have hrest : (num - d * 2 ^ k) / d = num / d - 2 ^ k := Nat.sub_mul_div num d (2 ^ k)
      have hquot : 2 ^ k ≤ num / d := (Nat.le_div_iff_mul_le hd).mpr (by rwa [mul_comm])
      rw [pow_succ, ← mul_assoc] at hnum
      rw [ih (by omega) (by rw [hbit]; exact dvd_add hq' dvd_rfl)]
      omega
    · exact ih (not_le.mp hle) hq'

theorem divide_eq (hd : 0 < d) (hnum : num < 2 ^ 256) : divide num d = .ok (num / d) := by
  obtain ⟨hlow, hhigh⟩ := two_pow_bits hd
  have hpos : 0 < bits d := by rw [bits, if_neg hd.ne']; omega
  rw [divide, if_neg hpos.ne']
  split_ifs with hshort
  · have hlt : num < d := by
      rcases num.eq_zero_or_pos with rfl | hnum'
      · exact hd
      · exact ((bits_le_iff hnum' (bits d - 1)).mp (by omega)).trans_le hlow
    rw [Nat.div_eq_of_lt hlt]
  · have hnum' : 0 < num := by
      by_contra hzero
      rw [bits, if_pos (by omega)] at hshort
      omega
    have hbits := (bits_le_iff hnum' 256).mpr hnum
    have hexp : bits d + (bits num - bits d) = bits num := by omega
    have hshift : d * 2 ^ (bits num - bits d) < 2 ^ 256 := by
      refine (Nat.mul_lt_mul_of_pos_right hhigh (Nat.two_pow_pos _)).trans_le ?_
      rw [← pow_add, hexp]
      exact Nat.pow_le_pow_right (by decide) hbits
    have hbelow : num < d * 2 ^ (bits num - bits d + 1) := by
      have hpow : 2 ^ bits num = 2 ^ (bits d - 1) * 2 ^ (bits num - bits d + 1) := by
        rw [← pow_add]
        congr 1
        omega
      exact ((two_pow_bits hnum').2.trans_eq hpow).trans_le (Nat.mul_le_mul_right _ hlow)
    have hloop := divideLoop_eq hd hbelow (dvd_zero _)
    rw [pow_succ, ← mul_assoc, Nat.mul_div_cancel _ (by decide), zero_add] at hloop
    rw [shiftLeft, if_pos (by omega), Nat.shiftLeft_eq, Nat.mod_eq_of_lt hshift]
    exact congrArg Except.ok hloop

/-- A target is shorter than 24 bits or a multiple of 256. -/
lemma setCompact_add_one_lt : (setCompact nBits).1 + 1 < 2 ^ 256 := by
  have hword : nBits.toNat &&& 0x007fffff < 2 ^ 23 := Nat.and_lt_two_pow _ (by decide)
  simp only [setCompact]
  split_ifs with hsize
  · have hle := Nat.div_le_self (nBits.toNat &&& 0x007fffff) (2 ^ (8 * (3 - nBits.toNat >>> 24)))
    omega
  unfold shiftLeft
  split_ifs
  · rw [Nat.shiftLeft_eq, show 8 * (nBits.toNat >>> 24 - 3) = 8 * (nBits.toNat >>> 24 - 4) + 8 by
      omega, pow_add, ← mul_assoc]
    omega
  · decide

/-- The quotient of `2 ^ 256` over unbounded numbers. -/
def exactWork (nBits : UInt32) : ℕ :=
  if (setCompact nBits).2.1 = false ∧ (setCompact nBits).2.2 = false ∧ 0 < (setCompact nBits).1 then
    2 ^ 256 / ((setCompact nBits).1 + 1)
  else 0

lemma getWorkForDifficultyBits_eq :
    getWorkForDifficultyBits nBits = .ok (exactWork nBits) := by
  have hlt := setCompact_add_one_lt nBits
  rw [getWorkForDifficultyBits, exactWork]
  generalize setCompact nBits = c at *
  obtain ⟨t, fNegative, fOverflow⟩ := c
  cases fNegative
  · cases fOverflow
    · rcases t.eq_zero_or_pos with rfl | ht
      · rfl
      have hquot : 2 ^ 256 / (t + 1) = (2 ^ 256 - 1 - t) / (t + 1) + 1 := by
        rw [Nat.div_eq_sub_div t.succ_pos hlt.le]
        congr 2
        omega
      have hfits : 2 ^ 256 / (t + 1) < 2 ^ 256 := Nat.div_lt_self (by decide) (by omega)
      simp only [Bool.false_or, beq_iff_eq, ht.ne', if_false, ht, and_self,
        if_true, Nat.mod_eq_of_lt hlt, divide_eq t.succ_pos (by omega : 2 ^ 256 - 1 - t < 2 ^ 256)]
      rw [Except.map, ← hquot, Nat.mod_eq_of_lt hfits]
    · simp
  · simp

/-- The work is the exact quotient, so that a smaller target does not count for less. -/
theorem getWorkForDifficultyBits_exact :
    (∀ nBits, getWorkForDifficultyBits nBits = .ok (exactWork nBits)) ∧
    ∀ nBits nBits', 0 < (setCompact nBits).1 → (setCompact nBits).2.1 = false →
      (setCompact nBits).2.2 = false → (setCompact nBits).1 ≤ (setCompact nBits').1 →
      exactWork nBits' ≤ exactWork nBits := by
  refine ⟨getWorkForDifficultyBits_eq, ?_⟩
  intro nBits nBits' hpos hneg hover hle
  have hexact : exactWork nBits = 2 ^ 256 / ((setCompact nBits).1 + 1) :=
    if_pos ⟨hneg, hover, hpos⟩
  rw [hexact, exactWork]
  split_ifs
  · exact Nat.div_le_div_left (by omega) (by omega)
  · exact Nat.zero_le _

end PyrrhaNode.CompactTarget
