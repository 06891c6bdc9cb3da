import Mathlib.Data.Rat.Floor
import Mathlib.Data.Int.Init
import PyrrhaNode.CompactTarget
import PyrrhaNode.Loop

/-!
# The ASERT target calculation

The target of the next block is the anchor's target times a power of two whose exponent is
how far the chain is behind its schedule, in half-lives. The exponent is a fixed-point
number with 16 fractional bits, and the power for the fractional part is approximated by a
cubic polynomial.
-/
namespace PyrrhaNode.Asert

open CompactTarget
open Loop

/-- The result of a signed 64-bit operation. -/
def int64 (x : ℤ) : Except Failure ℤ :=
  if -2 ^ 63 ≤ x ∧ x < 2 ^ 63 then .ok x else .error .signedOverflow

theorem int64_of_bounds {x : ℤ} (hlo : -2 ^ 63 ≤ x) (hhi : x < 2 ^ 63) : int64 x = .ok x :=
  if_pos ⟨hlo, hhi⟩

def require (p : Prop) [Decidable p] (what : String) : Except Failure Unit :=
  if p then .ok () else .error (.assertion what)

theorem require_of {p : Prop} [Decidable p] {what : String} (h : p) :
    require p what = .ok () := if_pos h

/-- The sum inside the factor, before the rounding shift. -/
def cubicSum (frac : ℕ) : ℕ :=
  195766423245049 * frac + 971821376 * frac * frac + 5127 * frac * frac * frac + 2 ^ 47

/-- `factor`: the sum is formed with 64-bit unsigned numbers. -/
def asertFactor (frac : ℕ) : ℕ := (65536 + (cubicSum frac % 2 ^ 64) >>> 48) % 2 ^ 32

/-- The exponent of `CalculateASERT`. -/
def asertExponent (nPowTargetSpacing nTimeDiff nHeightDiff nHalfLife : Int64) :
    Except Failure ℤ := do
  let scheduled ← int64 (nPowTargetSpacing.toInt * nHeightDiff.toInt)
  let behind ← int64 (nTimeDiff.toInt - scheduled)
  require (|behind| < 2 ^ (63 - 16))
    "llabs(nTimeDiff - nPowTargetSpacing * nHeightDiff) < (1ll << (63 - 16))"
  let heights ← int64 (nHeightDiff.toInt + 1)
  let scheduled ← int64 (nPowTargetSpacing.toInt * heights)
  let behind ← int64 (nTimeDiff.toInt - scheduled)
  let scaled ← int64 (behind * 65536)
  if nHalfLife.toInt = 0 then throw .divisionByZero
  int64 (scaled.tdiv nHalfLife.toInt)

/-- The multiplication of a target by `2 ^ shifts`, or the limit where bits would be lost.
The shift count is converted to an unsigned 32-bit number. -/
def shiftTarget (nextTarget : ℕ) (shifts : ℤ) (powLimit : ℕ) : ℕ :=
  if shifts ≤ 0 then shiftRight nextTarget ((-shifts) % 2 ^ 32).toNat
  else
    let nextTargetShifted := shiftLeft nextTarget (shifts % 2 ^ 32).toNat
    if shiftRight nextTargetShifted (shifts % 2 ^ 32).toNat ≠ nextTarget then powLimit
    else nextTargetShifted

/-- The final range check of `CalculateASERT`. -/
def clampTarget (nextTarget powLimit : ℕ) : ℕ :=
  if nextTarget = 0 then 1 else if powLimit < nextTarget then powLimit else nextTarget

/-- `CalculateASERT`. -/
def calculateASERT (refTarget : ℕ) (nPowTargetSpacing nTimeDiff nHeightDiff : Int64) (powLimit : ℕ)
    (nHalfLife : Int64) : Except Failure ℕ := do
  require (0 < refTarget) "refTarget > 0"
  require (refTarget ≤ powLimit) "refTarget <= powLimit"
  require (shiftRight powLimit 236 = 0) "(powLimit >> 236) == 0"
  require (0 ≤ nHeightDiff.toInt) "nHeightDiff >= 0"
  let exponent ← asertExponent nPowTargetSpacing nTimeDiff nHeightDiff nHalfLife
  let shifts := exponent / 65536
  let frac := (exponent % 65536).toNat
  require (exponent = shifts * 65536 + frac) "exponent == (shifts * 65536) + (int64_t)frac"
  let nextTarget := (refTarget * asertFactor frac) % 2 ^ 256
  return clampTarget (shiftTarget nextTarget (shifts - 16) powLimit) powLimit

/-- The documented cubic. -/
def cubicFactor (frac : ℕ) : ℕ := 65536 + cubicSum frac / 2 ^ 48

/-- The documented formula over unbounded numbers: `R * F(frac) * 2 ^ shift / 2 ^ 16`
rounded down and brought into the range from one to the limit, where `shift` and `frac` are
the floor split of the exponent at 16 bits. -/
def asertFormula (refTarget : ℕ) (exponent : ℤ) (powLimit : ℕ) : ℤ :=
  max 1 (min (powLimit : ℤ)
    ⌊(refTarget * cubicFactor (exponent % 65536).toNat : ℚ) * 2 ^ (exponent / 65536) / 2 ^ 16⌋)

variable {frac : ℕ}

theorem cubicSum_lt (h : frac < 65536) : cubicSum frac < 2 ^ 64 := by
  have hmono : cubicSum frac ≤ cubicSum 65535 := by
    unfold cubicSum
    gcongr <;> omega
  exact hmono.trans_lt (by decide)

/-- The factor is the documented cubic, between one and two. -/
theorem asertFactor_eq (h : frac < 65536) : asertFactor frac = cubicFactor frac := by
  have hsum := cubicSum_lt h
  rw [asertFactor, cubicFactor, Nat.shiftRight_eq_div_pow, Nat.mod_eq_of_lt hsum,
    Nat.mod_eq_of_lt (by omega)]

theorem cubicFactor_bounds (h : frac < 65536) :
    65536 ≤ cubicFactor frac ∧ cubicFactor frac < 2 ^ 17 := by
  have hsum := cubicSum_lt h
  unfold cubicFactor
  omega

section Shift

variable {x powLimit : ℕ} {shifts : ℤ}

theorem shiftTarget_of_nonpos (hx : x < 2 ^ 256) (hlo : -2 ^ 32 < shifts) (hshifts : shifts ≤ 0) :
    shiftTarget x shifts powLimit = x / 2 ^ (-shifts).toNat := by
  have hmod : ((-shifts) % 2 ^ 32).toNat = (-shifts).toNat := by omega
  rw [shiftTarget, if_pos hshifts, hmod, shiftRight]
  split
  · rw [Nat.shiftRight_eq_div_pow]
  · have hpow : 2 ^ 256 ≤ 2 ^ (-shifts).toNat := Nat.pow_le_pow_right (by decide) (by omega)
    rw [Nat.div_eq_of_lt (hx.trans_le hpow)]

/-- A target shifted to the left is the product, or the limit if the product does not fit
into 256 bits. -/
theorem shiftTarget_of_pos (hpos : 0 < x) (hhi : shifts < 2 ^ 32) (hshifts : 0 < shifts) :
    shiftTarget x shifts powLimit =
      if x * 2 ^ shifts.toNat < 2 ^ 256 then x * 2 ^ shifts.toNat else powLimit := by
  have hmod : (shifts % 2 ^ 32).toNat = shifts.toNat := by omega
  rw [shiftTarget, if_neg (by omega), hmod]
  simp only [shiftLeft, shiftRight, Nat.shiftLeft_eq, Nat.shiftRight_eq_div_pow]
  have hpow : 0 < 2 ^ shifts.toNat := Nat.two_pow_pos _
  by_cases hfits : x * 2 ^ shifts.toNat < 2 ^ 256
  · have hsmall : shifts.toNat < 256 := by
      refine (Nat.pow_lt_pow_iff_right (by decide : 1 < 2)).mp (lt_of_le_of_lt ?_ hfits)
      exact Nat.le_mul_of_pos_left _ hpos
    rw [if_pos hsmall, if_pos hsmall, Nat.mod_eq_of_lt hfits,
      if_pos hfits]
    simp
  · rw [if_neg hfits]
    refine if_pos ?_
    split
    · -- shifting back would need all the bits of the product
      intro hback
      refine hfits (lt_of_le_of_lt ?_ (Nat.mod_lt (x * 2 ^ shifts.toNat) (by decide)))
      calc x * 2 ^ shifts.toNat
          = x * 2 ^ shifts.toNat % 2 ^ 256 / 2 ^ shifts.toNat * 2 ^ shifts.toNat := by rw [hback]
        _ ≤ x * 2 ^ shifts.toNat % 2 ^ 256 := Nat.div_mul_le_self _ _
    · exact hpos.ne

theorem clampTarget_eq (h : 0 < powLimit) :
    (clampTarget x powLimit : ℤ) = max 1 (min (powLimit : ℤ) x) := by
  unfold clampTarget
  split_ifs <;> omega

/-- Shifting and clamping agree with the unbounded formula. -/
theorem clampTarget_shiftTarget {exponent : ℤ} (hx : 0 < x) (hx' : x < 2 ^ 256)
    (hlimit : 0 < powLimit) (hlimit' : powLimit < 2 ^ 256) (he : |exponent| < 2 ^ 47) :
    (clampTarget (shiftTarget x (exponent / 65536 - 16) powLimit) powLimit : ℤ) =
      max 1 (min (powLimit : ℤ) ⌊(x : ℚ) * 2 ^ (exponent / 65536) / 2 ^ 16⌋) := by
  obtain ⟨hlo, hhi⟩ := abs_lt.mp he
  set shifts := exponent / 65536 - 16 with hshifts
  have hscale : (x : ℚ) * 2 ^ (exponent / 65536) / 2 ^ 16 = x * 2 ^ shifts := by
    rw [zpow_sub₀ (by norm_num), mul_div_assoc]
    norm_num
  rw [hscale, clampTarget_eq hlimit]
  by_cases hsign : shifts ≤ 0
  · have hfloor : ⌊(x : ℚ) * 2 ^ shifts⌋ = (x / 2 ^ (-shifts).toNat : ℕ) := by
      have hneg : (2 : ℚ) ^ shifts = ((2 ^ (-shifts).toNat : ℕ) : ℚ)⁻¹ := by
        have hexp : shifts = -((-shifts).toNat : ℤ) := by omega
        conv_lhs => rw [hexp]
        rw [zpow_neg, zpow_natCast, Nat.cast_pow, Nat.cast_ofNat]
      rw [hneg, ← div_eq_mul_inv, Rat.floor_natCast_div_natCast]
      rfl
    rw [shiftTarget_of_nonpos hx' (by omega) hsign, hfloor]
  · have hfloor : ⌊(x : ℚ) * 2 ^ shifts⌋ = (x * 2 ^ shifts.toNat : ℕ) := by
      have hpow : (2 : ℚ) ^ shifts = ((2 ^ shifts.toNat : ℕ) : ℚ) := by
        have hexp : shifts = (shifts.toNat : ℤ) := by omega
        conv_lhs => rw [hexp]
        rw [zpow_natCast, Nat.cast_pow, Nat.cast_ofNat]
      rw [hpow, ← Nat.cast_mul, Int.floor_natCast]
    rw [shiftTarget_of_pos hx (by omega) (by omega), hfloor]
    split
    · rfl
    · rw [min_self, min_eq_left (by omega)]

end Shift

section Exponent

variable {s d n h : Int64}

/-- How far the chain is behind its schedule, in units of `2 ^ -16` seconds. -/
def scaledDelay (s d n : Int64) : ℤ := (d.toInt - s.toInt * (n.toInt + 1)) * 65536

variable (hscaled : -2 ^ 63 ≤ scaledDelay s d n ∧ scaledDelay s d n < 2 ^ 63)
  (he : |(scaledDelay s d n).tdiv h.toInt| < 2 ^ 47)
include hscaled he

/-- The exponent where every signed operation fits. -/
theorem asertExponent_eq (hnext : -2 ^ 63 ≤ n.toInt + 1 ∧ n.toInt + 1 < 2 ^ 63)
    (hsched : -2 ^ 63 ≤ s.toInt * n.toInt ∧ s.toInt * n.toInt < 2 ^ 63)
    (hdue : -2 ^ 63 ≤ s.toInt * (n.toInt + 1) ∧ s.toInt * (n.toInt + 1) < 2 ^ 63)
    (hassert : |d.toInt - s.toInt * n.toInt| < 2 ^ 47) (hh : h.toInt ≠ 0) :
    asertExponent s d n h = .ok ((scaledDelay s d n).tdiv h.toInt) := by
  obtain ⟨hlo, hhi⟩ := abs_lt.mp hassert
  obtain ⟨helo, hehi⟩ := abs_lt.mp he
  have hdelay : -2 ^ 63 ≤ d.toInt - s.toInt * (n.toInt + 1) ∧
      d.toInt - s.toInt * (n.toInt + 1) < 2 ^ 63 := by
    unfold scaledDelay at hscaled
    omega
  rw [asertExponent, int64_of_bounds hsched.1 hsched.2]
  refine bind_eq_ok.mpr ⟨_, rfl, ?_⟩
  rw [int64_of_bounds (by omega) (by omega)]
  refine bind_eq_ok.mpr ⟨_, rfl, bind_eq_ok.mpr ⟨(), require_of hassert, ?_⟩⟩
  rw [int64_of_bounds hnext.1 hnext.2]
  refine bind_eq_ok.mpr ⟨_, rfl, ?_⟩
  rw [int64_of_bounds hdue.1 hdue.2]
  refine bind_eq_ok.mpr ⟨_, rfl, ?_⟩
  rw [int64_of_bounds hdelay.1 hdelay.2]
  refine bind_eq_ok.mpr ⟨_, rfl, ?_⟩
  refine bind_eq_ok.mpr ⟨scaledDelay s d n, int64_of_bounds hscaled.1 hscaled.2, ?_⟩
  rw [if_neg hh]
  exact int64_of_bounds (by omega) (by omega)

/-- For 32-bit time and height differences the operations fit if the scaled delay does,
whatever the spacing. -/
theorem asertExponent_of_lt (hd : |d.toInt| < 2 ^ 32) (hn : 0 ≤ n.toInt) (hn' : n.toInt < 2 ^ 32)
    (hh : h.toInt ≠ 0) : asertExponent s d n h = .ok ((scaledDelay s d n).tdiv h.toInt) := by
  have hmul : s.toInt * (n.toInt + 1) = s.toInt * n.toInt + s.toInt := by ring
  have hdelay : -2 ^ 47 ≤ d.toInt - s.toInt * (n.toInt + 1) ∧
      d.toInt - s.toInt * (n.toInt + 1) < 2 ^ 47 := by
    unfold scaledDelay at hscaled
    omega
  obtain ⟨hdlo, hdhi⟩ := abs_lt.mp hd
  -- the schedule up to the tip lies between zero and the schedule up to the next block
  have hsched : 0 < s.toInt ∧ 0 ≤ s.toInt * n.toInt ∨ s.toInt = 0 ∧ s.toInt * n.toInt = 0 ∨
      s.toInt < 0 ∧ s.toInt * n.toInt ≤ 0 := by
    rcases lt_trichotomy s.toInt 0 with hs | hs | hs
    · exact .inr (.inr ⟨hs, mul_nonpos_of_nonpos_of_nonneg hs.le hn⟩)
    · exact .inr (.inl ⟨hs, by rw [hs, zero_mul]⟩)
    · exact .inl ⟨hs, mul_nonneg hs.le hn⟩
  exact asertExponent_eq hscaled he ⟨by omega, by omega⟩ ⟨by omega, by omega⟩
    ⟨by omega, by omega⟩ (abs_lt.mpr ⟨by omega, by omega⟩) hh

end Exponent

section Calculate

variable {powLimit refTarget : ℕ} {s d n h : Int64} {exponent : ℤ} (hlimit : powLimit < 2 ^ 236)
  (href : 0 < refTarget) (href' : refTarget ≤ powLimit) (hn : 0 ≤ n.toInt)
  (hexponent : asertExponent s d n h = .ok exponent)
include hlimit href href' hn hexponent

/-- The calculation for an exponent of moderate size. -/
theorem calculateASERT_of_exponent :
    calculateASERT refTarget s d n powLimit h =
      .ok (clampTarget (shiftTarget (refTarget * cubicFactor (exponent % 65536).toNat)
        (exponent / 65536 - 16) powLimit) powLimit) ∧
    refTarget * cubicFactor (exponent % 65536).toNat < 2 ^ 253 := by
  have hfrac : (exponent % 65536).toNat < 65536 := by omega
  obtain ⟨-, hfactor⟩ := cubicFactor_bounds hfrac
  have hproduct : refTarget * cubicFactor (exponent % 65536).toNat < 2 ^ 253 :=
    calc refTarget * cubicFactor (exponent % 65536).toNat
        < 2 ^ 236 * 2 ^ 17 := Nat.mul_lt_mul'' (by omega) hfactor
      _ = 2 ^ 253 := by norm_num
  have hshift : shiftRight powLimit 236 = 0 := by
    rw [shiftRight, if_pos (by decide), Nat.shiftRight_eq_div_pow, Nat.div_eq_of_lt hlimit]
  refine ⟨?_, hproduct⟩
  refine bind_eq_ok.mpr ⟨(), require_of href, bind_eq_ok.mpr ⟨(), require_of href', ?_⟩⟩
  refine bind_eq_ok.mpr ⟨(), require_of hshift, bind_eq_ok.mpr ⟨(), require_of hn, ?_⟩⟩
  refine bind_eq_ok.mpr ⟨exponent, hexponent, bind_eq_ok.mpr ⟨(), require_of ?_, ?_⟩⟩
  · omega
  · rw [asertFactor_eq hfrac, Nat.mod_eq_of_lt (by omega)]
    rfl

theorem calculateASERT_eq_asertFormula (he : |exponent| < 2 ^ 47) :
    ∃ target, calculateASERT refTarget s d n powLimit h = .ok target ∧
      (target : ℤ) = asertFormula refTarget exponent powLimit := by
  obtain ⟨hcalc, hproduct⟩ := calculateASERT_of_exponent hlimit href href' hn hexponent
  have hfactor := (cubicFactor_bounds (by omega : (exponent % 65536).toNat < 65536)).1
  refine ⟨_, hcalc, ?_⟩
  rw [clampTarget_shiftTarget (Nat.mul_pos href (by omega)) (by omega) (by omega) (by omega) he,
    asertFormula, Nat.cast_mul]

theorem calculateASERT_bounds :
    ∃ target, calculateASERT refTarget s d n powLimit h = .ok target ∧ 0 < target ∧
      target ≤ powLimit := by
  obtain ⟨hcalc, -⟩ := calculateASERT_of_exponent hlimit href href' hn hexponent
  refine ⟨_, hcalc, ?_⟩
  unfold clampTarget
  split_ifs <;> omega

end Calculate

/-- `CalculateASERT` computes the documented formula over unbounded numbers, its 64-bit sum
does not wrap, and a 256-bit product that does not fit is replaced by the limit. -/
theorem calculateASERT_spec (powLimit refTarget : ℕ) (s h d n : Int64) (hlimit : powLimit < 2 ^ 236)
    (href : 0 < refTarget) (href' : refTarget ≤ powLimit) (hs : 0 < s.toInt) (hh : 0 < h.toInt)
    (hn : 0 ≤ n.toInt) (hscaled : -2 ^ 63 ≤ scaledDelay s d n ∧ scaledDelay s d n < 2 ^ 63)
    (he : |(scaledDelay s d n).tdiv h.toInt| < 2 ^ 47)
    (hassert : d.toInt - s.toInt * n.toInt < 2 ^ 47) (hdue : s.toInt * (n.toInt + 1) < 2 ^ 63) :
    ∃ target, calculateASERT refTarget s d n powLimit h = .ok target ∧
      (target : ℤ) = asertFormula refTarget ((scaledDelay s d n).tdiv h.toInt) powLimit ∧
      cubicSum ((scaledDelay s d n).tdiv h.toInt % 65536).toNat < 2 ^ 64 ∧
      refTarget * cubicFactor ((scaledDelay s d n).tdiv h.toInt % 65536).toNat < 2 ^ 256 ∧
      (16 < (scaledDelay s d n).tdiv h.toInt / 65536 →
        refTarget * cubicFactor ((scaledDelay s d n).tdiv h.toInt % 65536).toNat *
          2 ^ ((scaledDelay s d n).tdiv h.toInt / 65536 - 16).toNat < 2 ^ 256 ∨
        target = powLimit) := by
  have hmul : s.toInt * (n.toInt + 1) = s.toInt * n.toInt + s.toInt := by ring
  have hnext : n.toInt + 1 ≤ s.toInt * (n.toInt + 1) := le_mul_of_one_le_left (by omega) hs
  have hdelay : -2 ^ 47 ≤ d.toInt - s.toInt * (n.toInt + 1) := by
    unfold scaledDelay at hscaled
    omega
  have hexponent := asertExponent_eq hscaled he ⟨by omega, by omega⟩ ⟨by omega, by omega⟩
    ⟨by omega, by omega⟩ (abs_lt.mpr ⟨by omega, hassert⟩) hh.ne'
  generalize (scaledDelay s d n).tdiv h.toInt = exponent at *
  obtain ⟨target, hcalc, hformula⟩ :=
    calculateASERT_eq_asertFormula hlimit href href' hn hexponent he
  obtain ⟨hcalc', hproduct⟩ := calculateASERT_of_exponent hlimit href href' hn hexponent
  have hfactor := (cubicFactor_bounds (by omega : (exponent % 65536).toNat < 65536)).1
  refine ⟨target, hcalc, hformula, cubicSum_lt (by omega), by omega, fun hshift => ?_⟩
  obtain ⟨-, hhi⟩ := abs_lt.mp he
  obtain rfl := Except.ok.inj (hcalc.symm.trans hcalc')
  rw [shiftTarget_of_pos (Nat.mul_pos href (by omega)) (by omega) (by omega)]
  refine or_iff_not_imp_left.mpr fun hover => ?_
  rw [if_neg hover, clampTarget, if_neg (by omega), if_neg (lt_irrefl _)]

theorem calculateASERT_spec_halfLife :
    calculateASERT 1000 600 (600 + 172800) 0 (2 ^ 235) 172800 = .ok 2000 ∧
      asertFormula 1000 65536 (2 ^ 235) = 2000 := by
  obtain ⟨target, hcalc, hformula, -⟩ := calculateASERT_spec (2 ^ 235) 1000 600 172800
    (600 + 172800) 0 (by decide) (by decide) (by decide) (by decide) (by decide) (by decide)
    (by decide) (by decide) (by decide) (by decide)
  have hrun : calculateASERT 1000 600 (600 + 172800) 0 (2 ^ 235) 172800 = .ok 2000 := by
    decide +kernel
  obtain rfl := Except.ok.inj (hcalc.symm.trans hrun)
  exact ⟨hrun, hformula.symm⟩

/-- A time difference of `2 ^ 47` seconds is one more than the scaled delay can have and
passes as such, but the assertion leaves out the first block's spacing and fails. -/
theorem calculateASERT_assertion_fails :
    (-2 ^ 63 ≤ scaledDelay 1 (2 ^ 47) 0 ∧ scaledDelay 1 (2 ^ 47) 0 < 2 ^ 63) ∧
      |(scaledDelay 1 (2 ^ 47) 0).tdiv (172800 : Int64).toInt| < 2 ^ 47 ∧
      calculateASERT 1000 1 (2 ^ 47) 0 (2 ^ 235) 172800 = .error (.assertion
        "llabs(nTimeDiff - nPowTargetSpacing * nHeightDiff) < (1ll << (63 - 16))") := by
  refine ⟨by decide, by decide, by decide +kernel⟩

/-- The factors for one power of two stay below those for the next. -/
theorem asertFormula_mono (refTarget powLimit : ℕ) {e e' : ℤ} (h : e ≤ e') :
    asertFormula refTarget e powLimit ≤ asertFormula refTarget e' powLimit := by
  have hfactor : (cubicFactor (e % 65536).toNat : ℚ) * 2 ^ (e / 65536) ≤
      cubicFactor (e' % 65536).toNat * 2 ^ (e' / 65536) := by
    rcases (Int.ediv_le_ediv (by norm_num : (0 : ℤ) < 65536) h).eq_or_lt with hq | hq
    · have hmono : cubicFactor (e % 65536).toNat ≤ cubicFactor (e' % 65536).toNat := by
        unfold cubicFactor cubicSum
        gcongr <;> omega
      rw [hq]
      gcongr
    · have hlow := (cubicFactor_bounds (by omega : (e % 65536).toNat < 65536)).2
      have hhigh := (cubicFactor_bounds (by omega : (e' % 65536).toNat < 65536)).1
      calc (cubicFactor (e % 65536).toNat : ℚ) * 2 ^ (e / 65536)
          ≤ 65536 * 2 * 2 ^ (e / 65536) := by
            gcongr
            exact_mod_cast hlow.le
        _ = 65536 * 2 ^ (e / 65536 + 1) := by rw [zpow_add_one₀ (by norm_num)]; ring
        _ ≤ cubicFactor (e' % 65536).toNat * 2 ^ (e' / 65536) := by
            gcongr
            · exact_mod_cast hhigh
            · norm_num
            · omega
  refine max_le_max le_rfl (min_le_min le_rfl (Int.floor_le_floor ?_))
  rw [mul_assoc, mul_assoc]
  gcongr

lemma eq_of_int64 {x y : ℤ} (h : int64 x = .ok y) : y = x := by
  unfold int64 at h
  split_ifs at h
  exact (Except.ok.inj h).symm

lemma asertExponent_eq_ok {s d n h : Int64} {e : ℤ} (hexp : asertExponent s d n h = .ok e) :
    e = (scaledDelay s d n).tdiv h.toInt := by
  obtain ⟨_, -, hexp⟩ := bind_eq_ok.mp hexp
  obtain ⟨_, -, hexp⟩ := bind_eq_ok.mp hexp
  obtain ⟨_, -, hexp⟩ := bind_eq_ok.mp hexp
  obtain ⟨_, hheights, hexp⟩ := bind_eq_ok.mp hexp
  obtain ⟨_, hscheduled, hexp⟩ := bind_eq_ok.mp hexp
  obtain ⟨_, hbehind, hexp⟩ := bind_eq_ok.mp hexp
  obtain ⟨_, hscaled, hexp⟩ := bind_eq_ok.mp hexp
  obtain ⟨-, hexp⟩ := ite_throw_eq_ok.mp hexp
  obtain rfl := eq_of_int64 hheights
  obtain rfl := eq_of_int64 hscheduled
  obtain rfl := eq_of_int64 hbehind
  obtain rfl := eq_of_int64 hscaled
  exact eq_of_int64 hexp

/-- A later time does not lower the target and a greater height does not raise it. -/
theorem calculateASERT_mono (powLimit refTarget : ℕ) (s h d d' n n' : Int64) (e e' : ℤ)
    (hlimit : powLimit < 2 ^ 236) (href : 0 < refTarget) (href' : refTarget ≤ powLimit)
    (hs : 0 ≤ s.toInt) (hh : 0 < h.toInt) (hd : d.toInt ≤ d'.toInt) (hn' : 0 ≤ n'.toInt)
    (hn : n'.toInt ≤ n.toInt) (hexp : asertExponent s d n h = .ok e) (he : |e| < 2 ^ 47)
    (hexp' : asertExponent s d' n' h = .ok e') (he' : |e'| < 2 ^ 47) :
    ∃ target target', calculateASERT refTarget s d n powLimit h = .ok target ∧
      calculateASERT refTarget s d' n' powLimit h = .ok target' ∧ target ≤ target' := by
  obtain ⟨t, ht, hformula⟩ :=
    calculateASERT_eq_asertFormula hlimit href href' (hn'.trans hn) hexp he
  obtain ⟨t', ht', hformula'⟩ := calculateASERT_eq_asertFormula hlimit href href' hn' hexp' he'
  refine ⟨t, t', ht, ht', ?_⟩
  have hdelay : scaledDelay s d n ≤ scaledDelay s d' n' := by
    have hschedule : s.toInt * (n'.toInt + 1) ≤ s.toInt * (n.toInt + 1) :=
      mul_le_mul_of_nonneg_left (by omega) hs
    unfold scaledDelay
    omega
  have hle : e ≤ e' := by
    rw [asertExponent_eq_ok hexp, asertExponent_eq_ok hexp']
    exact Int.tdiv_le_tdiv hh hdelay
  have hmono := asertFormula_mono refTarget powLimit hle
  rw [← hformula, ← hformula'] at hmono
  exact_mod_cast hmono

theorem calculateASERT_mono_later :
    ∃ target target', calculateASERT 1000 600 600 1 (2 ^ 235) 172800 = .ok target ∧
      calculateASERT 1000 600 900 0 (2 ^ 235) 172800 = .ok target' ∧ target ≤ target' :=
  calculateASERT_mono (2 ^ 235) 1000 600 172800 600 900 1 0 (-227) 113 (by decide) (by decide)
    (by decide) (by decide) (by decide) (by decide) (by decide) (by decide) (by rfl) (by decide)
    (by rfl) (by decide)

end PyrrhaNode.Asert
