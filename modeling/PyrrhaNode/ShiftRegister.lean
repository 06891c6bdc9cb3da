import Mathlib.Data.List.Induction
import Mathlib.Data.Nat.Bitwise
import Mathlib.Tactic.Ring

/-!
# Checksums of a shift register

A register of `m + 1` symbols of `w` bits takes in a symbol at the low end and pushes one out at
the high end; the symbol pushed out is fed back into the register by exclusive or.  As long as
at most `m + 1` symbols are taken in, none of them is pushed out, so they end up in the register
by exclusive or with what zeroes would have left there.  The symbols of a checksum are therefore
determined by the rest of the message.
-/
namespace PyrrhaNode.ShiftRegister

open List

variable {w m c : ℕ} {feedback : ℕ → ℕ} {ds : List ℕ}

/-- The register after one more symbol. -/
def step (w m : ℕ) (feedback : ℕ → ℕ) (c d : ℕ) : ℕ :=
  (c % 2 ^ (w * m)) <<< w ^^^ d ^^^ feedback (c >>> (w * m))

def run (w m : ℕ) (feedback : ℕ → ℕ) (c : ℕ) (ds : List ℕ) : ℕ := ds.foldl (step w m feedback) c

/-- The symbols as one number, the first symbol the highest. -/
def pack (w : ℕ) : List ℕ → ℕ
  | [] => 0
  | d :: ds => d * 2 ^ (w * ds.length) + pack w ds

/-- The last `n` symbols of a number. -/
def digits (w : ℕ) : ℕ → ℕ → List ℕ
  | 0, _ => []
  | n + 1, x => x >>> (w * n) % 2 ^ w :: digits w n x

@[simp] lemma length_digits (w n x : ℕ) : (digits w n x).length = n := by
  induction n with
  | zero => rfl
  | succ n ih => rw [digits, length_cons, ih]

lemma pack_append_singleton (w d : ℕ) (ds : List ℕ) :
    pack w (ds ++ [d]) = pack w ds * 2 ^ w + d := by
  induction ds with
  | nil => simp [pack]
  | cons e ds ih =>
    rw [cons_append, pack, pack, ih, length_append, length_singleton, Nat.mul_add]
    ring

lemma pack_lt (h : ∀ d ∈ ds, d < 2 ^ w) : pack w ds < 2 ^ (w * ds.length) := by
  induction ds with
  | nil => simp [pack]
  | cons d ds ih =>
    have hd : d + 1 ≤ 2 ^ w := h d mem_cons_self
    have hds := ih fun e he => h e (mem_cons_of_mem d he)
    have hmul := Nat.mul_le_mul_right (2 ^ (w * ds.length)) hd
    rw [pack, length_cons, Nat.mul_add, Nat.mul_one, pow_add, Nat.mul_comm (2 ^ _)]
    rw [Nat.add_mul] at hmul
    omega

lemma digits_add (w n e x : ℕ) : digits w n (e * 2 ^ (w * n) + x) = digits w n x := by
  have hgen : ∀ k ≤ n, digits w k (e * 2 ^ (w * n) + x) = digits w k x := by
    intro k
    induction k with
    | zero => intro _; rfl
    | succ k ih =>
      intro hk
      have hsplit : e * 2 ^ (w * n) = 2 ^ (w * k) * (2 ^ w * (e * 2 ^ (w * (n - (k + 1))))) := by
        obtain ⟨j, rfl⟩ := Nat.exists_eq_add_of_le hk
        rw [Nat.add_sub_cancel_left]
        ring
      rw [digits, digits, ih (by omega), Nat.shiftRight_eq_div_pow, Nat.shiftRight_eq_div_pow,
        hsplit, Nat.mul_add_div (Nat.two_pow_pos _), Nat.mul_add_mod]
  exact hgen n (le_refl n)

lemma digits_pack (h : ∀ d ∈ ds, d < 2 ^ w) :
    digits w ds.length (pack w ds) = ds := by
  induction ds with
  | nil => rfl
  | cons d ds ih =>
    have htail : ∀ e ∈ ds, e < 2 ^ w := fun e he => h e (mem_cons_of_mem d he)
    rw [pack, length_cons, digits, digits_add, ih htail, Nat.shiftRight_eq_div_pow,
      Nat.mul_comm d, Nat.mul_add_div (Nat.two_pow_pos _), Nat.div_eq_of_lt (pack_lt htail),
      Nat.add_zero, Nat.mod_eq_of_lt (h d mem_cons_self)]

lemma pack_digits (w n x : ℕ) : pack w (digits w n x) = x % 2 ^ (w * n) := by
  induction n with
  | zero => simp [digits, pack, Nat.mod_one]
  | succ n ih =>
    rw [digits, pack, ih, length_digits, Nat.shiftRight_eq_div_pow, Nat.mul_succ,
      pow_add, Nat.mod_mul]
    ring

lemma digits_lt (w n x : ℕ) : ∀ d ∈ digits w n x, d < 2 ^ w := by
  induction n with
  | zero => simp [digits]
  | succ n ih =>
    intro d hd
    rcases mem_cons.mp hd with rfl | hd
    · exact Nat.mod_lt _ (Nat.two_pow_pos w)
    · exact ih d hd

/-- The last `n + k` symbols are the `n` above the last `k`, then these. -/
lemma digits_append (w n k x : ℕ) :
    digits w (n + k) x = digits w n (x >>> (w * k)) ++ digits w k x := by
  induction n with
  | zero => rw [Nat.zero_add, digits, nil_append]
  | succ n ih =>
    rw [Nat.add_right_comm, digits, digits, ih, cons_append, ← Nat.shiftRight_add, Nat.mul_add,
      Nat.add_comm (w * n)]

/-- Symbols below a bit are those of the remainder up to that bit. -/
lemma digits_mod {n shift k x : ℕ} (hk : shift + w * n ≤ k) :
    digits w n ((x % 2 ^ k) >>> shift) = digits w n (x >>> shift) := by
  induction n with
  | zero => rfl
  | succ n ih =>
    rw [Nat.mul_add] at hk
    obtain ⟨j, rfl⟩ : ∃ j, k = shift + w * n + (w + j) :=
      ⟨k - (shift + w * n + w), by omega⟩
    rw [digits, digits, ih (by omega), ← Nat.shiftRight_add, ← Nat.shiftRight_add,
      Nat.shiftRight_eq_div_pow _ (shift + w * n), Nat.shiftRight_eq_div_pow _ (shift + w * n),
      Nat.pow_add 2 (shift + w * n), Nat.mod_mul_right_div_self,
      Nat.mod_mod_of_dvd _ (Nat.pow_dvd_pow 2 (by omega))]

lemma shiftLeft_xor_of_lt {a d : ℕ} (hd : d < 2 ^ w) : a <<< w ^^^ d = a * 2 ^ w + d := by
  apply Nat.eq_of_testBit_eq
  intro i
  rw [Nat.testBit_xor, Nat.mul_comm a, Nat.testBit_two_pow_mul_add a hd]
  split_ifs with hi
  · simp [Nat.not_le.mpr hi]
  · have hhigh : d.testBit i = false :=
      Nat.testBit_lt_two_pow (hd.trans_le (Nat.pow_le_pow_right (by decide) (not_lt.mp hi)))
    simp [hhigh, not_lt.mp hi]

/-- A difference that does not reach the high symbol just moves up, and the new symbol joins
it. -/
lemma step_xor {δ d : ℕ} (hδ : δ < 2 ^ (w * m)) (hd : d < 2 ^ w) :
    step w m feedback (c ^^^ δ) d = step w m feedback c 0 ^^^ (δ * 2 ^ w + d) := by
  have hhigh : (c ^^^ δ) >>> (w * m) = c >>> (w * m) := by
    rw [Nat.shiftRight_xor_distrib, Nat.shiftRight_eq_div_pow δ, Nat.div_eq_of_lt hδ, Nat.xor_zero]
  have hlow : (c ^^^ δ) % 2 ^ (w * m) = c % 2 ^ (w * m) ^^^ δ := by
    rw [Nat.xor_mod_two_pow, Nat.mod_eq_of_lt hδ]
  rw [step, step, hhigh, hlow, Nat.shiftLeft_xor_distrib, ← shiftLeft_xor_of_lt hd]
  ac_rfl

/-- What `m + 1` symbols at most leave in the register. -/
theorem run_eq_xor_pack (c : ℕ) (h : ∀ d ∈ ds, d < 2 ^ w) (hlength : ds.length ≤ m + 1) :
    run w m feedback c ds = run w m feedback c (List.replicate ds.length 0) ^^^ pack w ds := by
  induction ds using List.reverseRecOn with
  | nil => simp [pack]
  | append_singleton ds d ih =>
    rw [length_append, length_singleton] at hlength ⊢
    have hds : ∀ e ∈ ds, e < 2 ^ w := fun e he => h e (mem_append_left _ he)
    have hd : d < 2 ^ w := h d (by simp)
    have hδ : pack w ds < 2 ^ (w * m) :=
      (pack_lt hds).trans_le (Nat.pow_le_pow_right (by decide) (Nat.mul_le_mul_left w (by omega)))
    have hrun := ih hds (by omega)
    rw [run, run, replicate_succ', foldl_append, foldl_append,
      pack_append_singleton]
    simp only [foldl_cons, foldl_nil]
    rw [run, run] at hrun
    rw [hrun, step_xor hδ hd]

theorem run_lt (hfeedback : ∀ c0, feedback c0 < 2 ^ (w * (m + 1))) (hc : c < 2 ^ (w * (m + 1)))
    (h : ∀ d ∈ ds, d < 2 ^ w) :
    run w m feedback c ds < 2 ^ (w * (m + 1)) := by
  induction ds generalizing c with
  | nil => exact hc
  | cons d ds ih =>
    apply ih _ fun e he => h e (mem_cons_of_mem d he)
    have hd : d < 2 ^ w := h d mem_cons_self
    have hlow : c % 2 ^ (w * m) < 2 ^ (w * m) := Nat.mod_lt c (Nat.two_pow_pos _)
    rw [step, shiftLeft_xor_of_lt hd]
    apply Nat.xor_lt_two_pow _ (hfeedback _)
    calc c % 2 ^ (w * m) * 2 ^ w + d < (c % 2 ^ (w * m) + 1) * 2 ^ w := by
          rw [Nat.add_mul]
          omega
      _ ≤ 2 ^ (w * m) * 2 ^ w := Nat.mul_le_mul_right _ hlow
      _ = 2 ^ (w * (m + 1)) := by rw [← pow_add, Nat.mul_add, Nat.mul_one]

/-- Exactly one sequence of `m + 1` symbols brings the register to a given state. -/
theorem run_eq_iff (goal : ℕ) (hfeedback : ∀ c0, feedback c0 < 2 ^ (w * (m + 1)))
    (hc : c < 2 ^ (w * (m + 1))) (hgoal : goal < 2 ^ (w * (m + 1))) (h : ∀ d ∈ ds, d < 2 ^ w)
    (hlength : ds.length = m + 1) :
    run w m feedback c ds = goal ↔
      ds = digits w (m + 1) (run w m feedback c (List.replicate (m + 1) 0) ^^^ goal) := by
  have hzeros : run w m feedback c (List.replicate (m + 1) 0) < 2 ^ (w * (m + 1)) := by
    apply run_lt hfeedback hc
    intro d hd
    rw [eq_of_mem_replicate hd]
    exact Nat.two_pow_pos w
  have hcheck := Nat.xor_lt_two_pow hzeros hgoal
  rw [run_eq_xor_pack c h hlength.le, hlength]
  constructor
  · intro heq
    have hpack : pack w ds = run w m feedback c (List.replicate (m + 1) 0) ^^^ goal := by
      rw [← heq, ← Nat.xor_assoc, Nat.xor_self, Nat.zero_xor]
    rw [← hpack, ← hlength, digits_pack h]
  · intro heq
    rw [heq, pack_digits, Nat.mod_eq_of_lt hcheck, ← Nat.xor_assoc, Nat.xor_self, Nat.zero_xor]

/-- If the low symbol fed back is the one that was pushed out, then no state is lost. -/
lemma step_injective (hlow : ∀ c0 < 2 ^ w, feedback c0 % 2 ^ w = c0) {c' : ℕ} (d : ℕ)
    (hc : c < 2 ^ (w * (m + 1))) (hc' : c' < 2 ^ (w * (m + 1)))
    (h : step w m feedback c d = step w m feedback c' d) : c = c' := by
  have hout (x : ℕ) (hx : x < 2 ^ (w * (m + 1))) :
      step w m feedback x d % 2 ^ w = d % 2 ^ w ^^^ x >>> (w * m) := by
    have hsym : x >>> (w * m) < 2 ^ w := by
      rw [Nat.shiftRight_eq_div_pow]
      exact Nat.div_lt_of_lt_mul (by rwa [← pow_add])
    rw [step, Nat.xor_mod_two_pow, Nat.xor_mod_two_pow, hlow _ hsym, Nat.shiftLeft_eq,
      Nat.mul_mod_left, Nat.zero_xor]
  have hhigh : c >>> (w * m) = c' >>> (w * m) := by
    rw [← Nat.xor_right_inj, ← hout c hc, ← hout c' hc', h]
  rw [step, hhigh] at h
  have hrest := Nat.xor_left_injective (Nat.xor_left_injective h)
  rw [Nat.shiftLeft_eq, Nat.shiftLeft_eq, Nat.mul_left_inj (Nat.two_pow_pos w).ne'] at hrest
  rw [Nat.shiftRight_eq_div_pow, Nat.shiftRight_eq_div_pow] at hhigh
  rw [← Nat.div_add_mod c (2 ^ (w * m)), hhigh, hrest, Nat.div_add_mod]

/-- Two bursts of `m + 1` symbols at most, with the same symbols after them, lead to different
states. -/
theorem burst_injective (hfeedback : ∀ c0, feedback c0 < 2 ^ (w * (m + 1)))
    (hlow : ∀ c0 < 2 ^ w, feedback c0 % 2 ^ w = c0) (hc : c < 2 ^ (w * (m + 1))) {es rest : List ℕ}
    (hds : ∀ d ∈ ds, d < 2 ^ w) (hes : ∀ e ∈ es, e < 2 ^ w) (hrest : ∀ d ∈ rest, d < 2 ^ w)
    (hlength : es.length = ds.length) (hle : ds.length ≤ m + 1)
    (h : run w m feedback c (ds ++ rest) = run w m feedback c (es ++ rest)) : ds = es := by
  have hrun {x y : ℕ} (hx : x < 2 ^ (w * (m + 1))) (hy : y < 2 ^ (w * (m + 1)))
      (hxy : run w m feedback x rest = run w m feedback y rest) : x = y := by
    clear h
    induction rest generalizing x y with
    | nil => exact hxy
    | cons d rest ih =>
      obtain ⟨hd, hrest⟩ := forall_mem_cons.mp hrest
      have hone : ∀ e ∈ [d], e < 2 ^ w := by simpa using hd
      exact step_injective hlow d hx hy
        (ih hrest (run_lt hfeedback hx hone) (run_lt hfeedback hy hone) hxy)
  rw [run, run, foldl_append, foldl_append] at h
  have hstate := hrun (run_lt hfeedback hc hds) (run_lt hfeedback hc hes) h
  rw [run_eq_xor_pack c hds hle, run_eq_xor_pack c hes (hlength ▸ hle), hlength] at hstate
  rw [← digits_pack hds, Nat.xor_right_injective hstate, ← hlength, digits_pack hes]

end PyrrhaNode.ShiftRegister
