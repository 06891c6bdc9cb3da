import PyrrhaNode.BlockConnect

/-!
# The sum of the block subsidies

The subsidy is cut in half at every interval, so that all subsidies together stay below
twice the subsidies of the first interval.
-/
namespace PyrrhaNode.Subsidy
open Serialize Transaction Money BlockConnect
open Finset

/-- The subsidies of the blocks below a height, as a number. -/
def subsidySum (params : ConsensusParams) (n : ℕ) : ℤ :=
  ∑ i ∈ range n, (getBlockSubsidy i params).toInt

/-- The intervals and initial subsidies of the networks that the node knows: legacy,
regression test, test and main network. -/
def shippedSubsidies : List (ℕ × CAmount) :=
  [(210000, 50 * 1000000 * oneCoin), (150, 10 * 1000000 * oneCoin),
    (210000 * 5, 10 * 1000000 * oneCoin), (210000 * 5, 10 * 1000000 * oneCoin)]

/-- The subsidy after a number of halvings. -/
def halved (s : ℤ) (halvings : ℕ) : ℤ := if 64 ≤ halvings then 0 else s / 2 ^ halvings

lemma getBlockSubsidy_toInt (params : ConsensusParams) (nHeight : ℕ) :
    (getBlockSubsidy nHeight params).toInt =
      halved params.initialSubsidy.toInt (nHeight / params.nSubsidyHalvingInterval) := by
  unfold getBlockSubsidy halved
  generalize nHeight / params.nSubsidyHalvingInterval = q
  by_cases hq : 64 ≤ q
  · rw [if_pos hq, if_pos hq]
    rfl
  · rw [if_neg hq, if_neg hq]
    have hsmall : ∀ k : Fin 64, ((Int64.ofNat k.val).toBitVec.smod 64).toNat = k.val := by decide
    have hshift := hsmall ⟨q, by omega⟩
    rw [← Int64.toInt_toBitVec, Int64.toBitVec_shiftRight, BitVec.toInt_sshiftRight', hshift,
      Int.shiftRight_eq_div_pow]
    norm_cast

variable {s : ℤ} {interval n : ℕ} {params : ConsensusParams}

lemma halved_nonneg (hs : 0 ≤ s) (q : ℕ) : 0 ≤ halved s q := by
  unfold halved
  split_ifs
  · exact le_refl 0
  · exact Int.ediv_nonneg hs (by positivity)

lemma halved_eq (hs : 0 ≤ s) (hlt : s < 2 ^ 63) (q : ℕ) : halved s q = s / 2 ^ q := by
  unfold halved
  split_ifs with hq
  · have hpow : (2 : ℤ) ^ 63 ≤ 2 ^ q := pow_le_pow_right₀ (by norm_num) (by omega)
    exact (Int.ediv_eq_zero_of_lt hs (hlt.trans_le hpow)).symm
  · rfl

lemma sum_first_interval (h : n ≤ interval) :
    ∑ i ∈ range n, s / 2 ^ (i / interval) = s * n := by
  have hterm : ∀ i ∈ range n, s / 2 ^ (i / interval) = s := by
    intro i hi
    rw [Nat.div_eq_of_lt ((mem_range.mp hi).trans_le h), pow_zero, Int.ediv_one]
  rw [sum_congr rfl hterm]
  simp [mul_comm]

/-- After the first interval the subsidies are those of half the initial subsidy. -/
lemma sum_add_interval (hpos : 0 < interval) (n : ℕ) :
    ∑ i ∈ range (interval + n), s / 2 ^ (i / interval) =
      s * interval + ∑ i ∈ range n, s / 2 / 2 ^ (i / interval) := by
  rw [sum_range_add, sum_first_interval le_rfl]
  congr 1
  refine sum_congr rfl fun i _ => ?_
  rw [Nat.add_div_left i hpos, pow_succ', Int.ediv_ediv_of_nonneg (by norm_num)]

lemma sum_le (hpos : 0 < interval) (hs : 0 < s) (n : ℕ) :
    ∑ i ∈ range n, s / 2 ^ (i / interval) ≤ (2 * s - 1) * interval := by
  induction n using Nat.strong_induction_on generalizing s with
  | _ n ih =>
    have hle : s * interval ≤ (2 * s - 1) * interval :=
      mul_le_mul_of_nonneg_right (by omega) (Int.natCast_nonneg interval)
    by_cases hn : n < interval
    · rw [sum_first_interval hn.le]
      exact (mul_le_mul_of_nonneg_left (by exact_mod_cast hn.le) hs.le).trans hle
    · obtain ⟨m, rfl⟩ := Nat.exists_eq_add_of_le (not_lt.mp hn)
      rw [sum_add_interval hpos]
      by_cases hhalf : s / 2 = 0
      · simpa [hhalf] using hle
      · have hrest := ih m (by omega) (s := s / 2) (by omega)
        have hhalves : (2 * (s / 2) - 1) * interval ≤ (s - 1) * (interval : ℤ) :=
          mul_le_mul_of_nonneg_right (by omega) (Int.natCast_nonneg interval)
        linarith

/-- One turn of the loop for each interval, with the subsidy of that interval. -/
def coinsMintedLoop (interval : ℕ) : ℕ → CAmount → ℕ → UInt64 → UInt64
  | 0, _, _, total => total
  | turns + 1, nSubsidy, trackedHeight, total =>
    if interval ≤ trackedHeight then
      coinsMintedLoop interval turns (nSubsidy >>> 1) (trackedHeight - interval)
        (total + (nSubsidy * Int64.ofNat interval).toUInt64)
    else
      coinsMintedLoop interval turns (nSubsidy >>> 1) trackedHeight
        (total + (nSubsidy * Int64.ofNat trackedHeight).toUInt64)

def getCoinsMinted (nHeight : ℕ) (params : ConsensusParams) : UInt64 :=
  coinsMintedLoop params.nSubsidyHalvingInterval (nHeight / params.nSubsidyHalvingInterval + 1)
    params.initialSubsidy nHeight 0

lemma toInt_shiftRight_one (x : Int64) : (x >>> 1).toInt = x.toInt / 2 := by
  rw [← Int64.toInt_toBitVec, Int64.toBitVec_shiftRight, BitVec.toInt_sshiftRight',
    Int.shiftRight_eq_div_pow]
  rfl

/-- A product that fits is added as it is. -/
lemma toNat_add_mul {total : UInt64} {x : Int64} {k : ℕ} (hx : 0 ≤ x.toInt)
    (hfit : total.toNat + x.toInt * k < 2 ^ 63) :
    ((total + (x * Int64.ofNat k).toUInt64).toNat : ℤ) = total.toNat + x.toInt * k := by
  have hnonneg : 0 ≤ x.toInt * k := mul_nonneg hx (Int.natCast_nonneg k)
  have hprod : (x * Int64.ofNat k).toInt = x.toInt * k := by
    rw [Int64.toInt_mul, Int64.toInt_ofNat', Int.mul_bmod_bmod]
    have hsize : Int64.size = 2 ^ 64 := rfl
    exact Int.bmod_eq_of_le (by omega) (by omega)
  have hword : ((x * Int64.ofNat k).toUInt64.toNat : ℤ) = x.toInt * k := by
    have hcond := BitVec.toInt_eq_toNat_cond (x * Int64.ofNat k).toBitVec
    rw [Int64.toInt_toBitVec] at hcond
    change ((x * Int64.ofNat k).toBitVec.toNat : ℤ) = _
    split_ifs at hcond <;> omega
  rw [UInt64.toNat_add, Nat.mod_eq_of_lt (by omega), Nat.cast_add, hword]

lemma coinsMintedLoop_eq (hpos : 0 < interval) {nSubsidy : CAmount} {total : UInt64}
    (hs : 0 ≤ nSubsidy.toInt) (hfit : total.toNat + 2 * (nSubsidy.toInt * interval) < 2 ^ 63) :
    ((coinsMintedLoop interval (n / interval + 1) nSubsidy n total).toNat : ℤ) =
      total.toNat + ∑ i ∈ range n, nSubsidy.toInt / 2 ^ (i / interval) := by
  have hnonneg : 0 ≤ nSubsidy.toInt * interval := mul_nonneg hs (Int.natCast_nonneg interval)
  induction hturns : n / interval generalizing n nSubsidy total with
  | zero =>
    have hn : n < interval := (Nat.div_eq_zero_iff_lt hpos).mp hturns
    have hle : nSubsidy.toInt * n ≤ nSubsidy.toInt * interval :=
      mul_le_mul_of_nonneg_left (by exact_mod_cast hn.le) hs
    rw [coinsMintedLoop, if_neg (by omega), coinsMintedLoop, toNat_add_mul hs (by omega),
      sum_first_interval hn.le]
  | succ turns ih =>
    obtain ⟨m, rfl⟩ := Nat.exists_eq_add_of_le (Nat.div_pos_iff.mp (by omega : 0 < n / interval)).2
    rw [Nat.add_div_left m hpos, Nat.succ_inj] at hturns
    have htotal := toNat_add_mul hs (by omega : total.toNat + nSubsidy.toInt * interval < 2 ^ 63)
    have hhalf := toInt_shiftRight_one nSubsidy
    have hrest : 2 * (nSubsidy.toInt / 2 * interval) ≤ nSubsidy.toInt * interval := by
      rw [← mul_assoc]
      exact mul_le_mul_of_nonneg_right (by omega) (Int.natCast_nonneg interval)
    have hloop := @ih m (nSubsidy >>> 1) _ (by omega) (by rw [htotal, hhalf]; omega)
      (by rw [hhalf]; positivity) hturns
    rw [coinsMintedLoop, if_pos (by omega), Nat.add_sub_cancel_left, hloop, htotal, hhalf,
      sum_add_interval hpos, add_assoc]

lemma subsidySum_eq (hs : 0 ≤ params.initialSubsidy.toInt) (n : ℕ) :
    subsidySum params n =
      ∑ i ∈ range n, params.initialSubsidy.toInt / 2 ^ (i / params.nSubsidyHalvingInterval) := by
  simp only [subsidySum, getBlockSubsidy_toInt, halved_eq hs params.initialSubsidy.toInt_lt]

theorem subsidySum_le (hpos : 0 < params.nSubsidyHalvingInterval)
    (hs : 0 ≤ params.initialSubsidy.toInt) (n : ℕ) :
    subsidySum params n ≤ 2 * params.initialSubsidy.toInt * params.nSubsidyHalvingInterval := by
  rw [subsidySum_eq hs]
  rcases hs.eq_or_lt with hzero | hs
  · simp [← hzero]
  · have hle := sum_le hpos hs n
    linarith

/-- The query returns the sum of the subsidies. It grows with the height up to the last of the
64 halvings and stays below twice the subsidies of the first interval. -/
theorem getCoinsMinted_exact (params : ConsensusParams) (hpos : 0 < params.nSubsidyHalvingInterval)
    (hs : 0 < params.initialSubsidy.toInt)
    (hfit : 2 * params.initialSubsidy.toInt * params.nSubsidyHalvingInterval < 2 ^ 63) :
    (∀ n, ((getCoinsMinted n params).toNat : ℤ) = subsidySum params n) ∧
    (Monotone fun n => (getCoinsMinted n params).toNat) ∧
    (∀ n, 64 * params.nSubsidyHalvingInterval ≤ n →
      getCoinsMinted n params = getCoinsMinted (64 * params.nSubsidyHalvingInterval) params) ∧
    ∀ n, ((getCoinsMinted n params).toNat : ℤ) <
      2 * params.initialSubsidy.toInt * params.nSubsidyHalvingInterval := by
  have hexact : ∀ n, ((getCoinsMinted n params).toNat : ℤ) = subsidySum params n := by
    intro n
    rw [getCoinsMinted, coinsMintedLoop_eq hpos hs.le (by simpa [mul_assoc] using hfit),
      subsidySum_eq hs.le]
    simp
  have hterm : ∀ i, 0 ≤ (getBlockSubsidy i params).toInt := by
    intro i
    rw [getBlockSubsidy_toInt]
    exact halved_nonneg hs.le _
  refine ⟨hexact, ?_, ?_, ?_⟩
  · intro n n' hle
    have hsum : subsidySum params n ≤ subsidySum params n' :=
      sum_le_sum_of_subset_of_nonneg (range_mono hle) fun i _ _ => hterm i
    rw [← hexact, ← hexact] at hsum
    exact_mod_cast hsum
  · intro n hn
    obtain ⟨m, rfl⟩ := Nat.exists_eq_add_of_le hn
    apply UInt64.toNat_inj.mp
    have hlast : subsidySum params (64 * params.nSubsidyHalvingInterval + m) =
        subsidySum params (64 * params.nSubsidyHalvingInterval) := by
      rw [subsidySum, sum_range_add, ← subsidySum, add_eq_left]
      refine sum_eq_zero fun i _ => ?_
      rw [getBlockSubsidy, if_pos ((Nat.le_div_iff_mul_le hpos).mpr (by omega))]
      rfl
    rw [← hexact, ← hexact] at hlast
    exact_mod_cast hlast
  · intro n
    have hle := sum_le hpos hs n
    rw [hexact, subsidySum_eq hs.le]
    linarith

theorem getCoinsMinted_exact_five : subsidySum ⟨Uint256.null, 2, 5, 0⟩ 5 = 15 ∧
    ((getCoinsMinted 5 ⟨Uint256.null, 2, 5, 0⟩).toNat : ℤ) =
      subsidySum ⟨Uint256.null, 2, 5, 0⟩ 5 :=
  ⟨by decide, (getCoinsMinted_exact ⟨Uint256.null, 2, 5, 0⟩ (by decide) (by decide)
    (by decide)).1 5⟩

/-- Nothing is below twice a subsidy of zero, and a negative subsidy has no total. -/
theorem getCoinsMinted_not_positive :
    ((getCoinsMinted 5 ⟨Uint256.null, 2, 0, 0⟩).toNat : ℤ) = 2 * 0 * 2 ∧
      ((getCoinsMinted 3 ⟨Uint256.null, 1, -1, 0⟩).toNat : ℤ) ≠
        subsidySum ⟨Uint256.null, 1, -1, 0⟩ 3 := by
  decide

/-- The interval and the initial subsidy are those of a known network. -/
def Shipped (params : ConsensusParams) : Prop :=
  (params.nSubsidyHalvingInterval, params.initialSubsidy) ∈ shippedSubsidies

instance (params : ConsensusParams) : Decidable (Shipped params) :=
  inferInstanceAs (Decidable (_ ∈ shippedSubsidies))

variable (h : Shipped params)
include h

lemma Shipped.bounds :
    0 < params.nSubsidyHalvingInterval ∧ 0 ≤ params.initialSubsidy.toInt ∧
      2 * params.initialSubsidy.toInt * params.nSubsidyHalvingInterval ≤ maxMoney.toInt := by
  have hall : ∀ p ∈ shippedSubsidies,
      0 < p.1 ∧ 0 ≤ p.2.toInt ∧ 2 * p.2.toInt * p.1 ≤ maxMoney.toInt := by decide
  exact hall _ h

theorem subsidySum_le_maxMoney (n : ℕ) :
    subsidySum params n ≤ maxMoney.toInt := by
  obtain ⟨hpos, hs, hmax⟩ := h.bounds
  exact (subsidySum_le hpos hs n).trans hmax

lemma getBlockSubsidy_nonneg (n : ℕ) :
    0 ≤ (getBlockSubsidy n params).toInt := by
  rw [getBlockSubsidy_toInt]
  exact halved_nonneg h.bounds.2.1 _

lemma subsidySum_nonneg (n : ℕ) :
    0 ≤ subsidySum params n :=
  sum_nonneg fun i _ => getBlockSubsidy_nonneg h i

end PyrrhaNode.Subsidy
