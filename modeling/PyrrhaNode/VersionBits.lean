import Mathlib

/-!
# The state of a deployment

`GetStateFor` goes back over whole periods to a block whose state is DEFINED, and forward again
from there. Only cached DEFINED entries are ever read, and the time and height of the lock-in are
computed anew on each walk, so that the answer does not depend on what was asked before.
-/
namespace PyrrhaNode.VersionBits
open List Function

inductive ThresholdState
  | defined
  | started
  | lockedIn
  | active
  | failed
  deriving DecidableEq

/-- The parameters of a deployment, and what is read of the blocks. A block is the list of itself
and its ancestors; `[]` is the null pointer. -/
structure ThresholdConditionChecker (α : Type*) where
  nPeriod : ℕ
  period_pos : 0 < nPeriod
  nThreshold : ℤ
  nTimeStart : ℤ
  nTimeTimeout : ℤ
  nMinLockedBlocks : ℤ
  nMinLockedTime : ℤ
  condition : List α → Bool
  medianTimePast : List α → ℤ
  median_mono : ∀ {q p}, q <:+ p → q ≠ [] → medianTimePast q ≤ medianTimePast p

/-- The variables of the walk forward. -/
structure Progress where
  state : ThresholdState
  nActualLockinTime : ℤ
  nActualLockinBlock : ℤ

def Progress.init : Progress := ⟨.defined, 0, 0⟩

abbrev ThresholdConditionCache (α : Type*) := List α → Option ThresholdState

def height {α : Type*} (pindex : List α) : ℤ := pindex.length - 1

namespace ThresholdConditionChecker

variable {α : Type*} (d : ThresholdConditionChecker α)

/-- The `switch` at the end of a period. -/
def next (s : Progress) (p : List α) : Progress :=
  match s.state with
  | .defined =>
    if d.nTimeTimeout ≤ d.medianTimePast p then { s with state := .failed }
    else if d.nTimeStart ≤ d.medianTimePast p then { s with state := .started }
    else s
  | .started =>
    if d.nTimeTimeout ≤ d.medianTimePast p then { s with state := .failed }
    else if d.nThreshold ≤ (range d.nPeriod).countP fun i => d.condition (p.drop i) then
      ⟨.lockedIn, d.medianTimePast p, height p⟩
    else s
  | .lockedIn =>
    if s.nActualLockinTime + d.nMinLockedTime ≤ d.medianTimePast p ∧
        s.nActualLockinBlock + d.nMinLockedBlocks ≤ height p then { s with state := .active }
    else s
  | .failed => s
  | .active => s

/-- The last block of the period before the one in which the next block is. -/
def aligned (p : List α) : List α := p.drop (p.length % d.nPeriod)

lemma length_drop_lt {p : List α} (hp : p ≠ []) : (p.drop d.nPeriod).length < p.length := by
  have := d.period_pos
  have := length_pos_iff.mpr hp
  rw [length_drop]
  omega

/-- The period-by-period recursion from the genesis block. -/
def plain (p : List α) : Progress :=
  if _ : p = [] then .init else d.next (plain (p.drop d.nPeriod)) p
termination_by p.length
decreasing_by exact d.length_drop_lt ‹_›

/-- The recursion that the two walks make, which leaves out the blocks before the start time. -/
def walked (p : List α) : Progress :=
  if _ : p = [] ∨ d.medianTimePast p < d.nTimeStart then .init
  else d.next (walked (p.drop d.nPeriod)) p
termination_by p.length
decreasing_by exact d.length_drop_lt (not_or.mp ‹_›).1

/-- The period that ends with `l` has locked in. -/
structure LocksIn (l : List α) : Prop where
  aligned : d.nPeriod ∣ l.length
  before : (d.walked (l.drop d.nPeriod)).state = .started
  after : (d.walked l).state = .lockedIn

/-- The grace conditions at `a`, counted from `l`. -/
def Grace (l a : List α) : Prop :=
  d.medianTimePast l + d.nMinLockedTime ≤ d.medianTimePast a ∧
    height l + d.nMinLockedBlocks ≤ height a

/-- What the cached entries that are read say. -/
def Right (cache : ThresholdConditionCache α) : Prop :=
  ∀ p, cache p = some .defined → d.walked p = .init

section Calls
variable [DecidableEq α]

def walkBack (cache : ThresholdConditionCache α) (p : List α) (vToCompute : List (List α)) :
    ThresholdConditionCache α × List (List α) :=
  if cache p = some .defined then (cache, vToCompute)
  else if _ : p = [] ∨ d.medianTimePast p < d.nTimeStart then
    (update cache p (some .defined), vToCompute)
  else walkBack cache (p.drop d.nPeriod) (p :: vToCompute)
termination_by p.length
decreasing_by exact d.length_drop_lt (not_or.mp ‹_›).1

def walkForward (acc : Progress × ThresholdConditionCache α) (p : List α) :
    Progress × ThresholdConditionCache α :=
  (d.next acc.1 p, update acc.2 p (some (d.next acc.1 p).state))

def getStateFor (cache : ThresholdConditionCache α) (pindexPrev : List α) :
    ThresholdState × ThresholdConditionCache α :=
  let back := d.walkBack cache (d.aligned pindexPrev) []
  let forward := back.2.foldl d.walkForward (.init, back.1)
  (forward.1.state, forward.2)

/-- The answer with an empty cache. -/
def stateFor (pindexPrev : List α) : ThresholdState := (d.getStateFor (fun _ => none) pindexPrev).1

end Calls

variable {d} {p q : List α} {s : Progress}

lemma next_ne_defined (hp : d.nTimeStart ≤ d.medianTimePast p) (s : Progress) :
    (d.next s p).state ≠ .defined := by
  unfold next
  split <;> try split_ifs
  all_goals simp_all

lemma next_of_ended (hs : s.state = .active ∨ s.state = .failed) : d.next s p = s := by
  unfold next
  split <;> simp_all

/-- Before the start time the recursion can only fail. -/
lemma plain_of_lt (hp : p = [] ∨ d.medianTimePast p < d.nTimeStart) :
    d.plain p =
      if p ≠ [] ∧ d.nTimeTimeout ≤ d.medianTimePast p then ⟨.failed, 0, 0⟩ else .init := by
  fun_induction plain d p with
  | case1 => simp
  | case2 p hne ih =>
    have hlt := hp.resolve_left hne
    have hle : p.drop d.nPeriod ≠ [] → d.medianTimePast (p.drop d.nPeriod) ≤ d.medianTimePast p :=
      d.median_mono (drop_suffix _ p)
    rw [ih (or_iff_not_imp_left.mpr fun h => (hle h).trans_lt hlt)]
    split_ifs with hgap hfail hfail
    · rfl
    · exact absurd ⟨hne, hgap.2.trans (hle hgap.1)⟩ hfail
    · simp [next, Progress.init, hfail.2]
    · have htime : ¬d.nTimeTimeout ≤ d.medianTimePast p := fun h => hfail ⟨hne, h⟩
      simp [next, Progress.init, htime, hlt.not_ge]

lemma walked_eq_plain (hp : ¬(p = [] ∨ d.medianTimePast p < d.nTimeStart)) :
    d.walked p = d.plain p := by
  fun_induction walked d p with
  | case1 p h => exact absurd h hp
  | case2 p _ ih =>
    rw [plain, dif_neg (not_or.mp hp).1]
    by_cases hq : p.drop d.nPeriod = [] ∨ d.medianTimePast (p.drop d.nPeriod) < d.nTimeStart
    · rw [walked, dif_pos hq, plain_of_lt hq]
      split_ifs with hgap
      · have hfail := hgap.2.trans (d.median_mono (drop_suffix _ p) hgap.1)
        simp [next, Progress.init, hfail]
      · rfl
    · rw [ih hq]

lemma walked_eq_plain_iff : (d.walked p).state = (d.plain p).state ↔
    ¬(p ≠ [] ∧ d.nTimeTimeout ≤ d.medianTimePast p ∧ d.medianTimePast p < d.nTimeStart) := by
  by_cases hp : p = [] ∨ d.medianTimePast p < d.nTimeStart
  · rw [walked, dif_pos hp, plain_of_lt hp]
    split_ifs with hgap
    · simp [Progress.init, hgap.1, hgap.2, hp.resolve_left hgap.1]
    · exact iff_of_true rfl fun h => hgap ⟨h.1, h.2.1⟩
  · rw [walked_eq_plain hp]
    exact iff_of_true rfl fun h => hp (.inr h.2.2)

/-- A state that is not left. -/
lemma walked_of_ended (hend : (d.walked (p.drop d.nPeriod)).state = .active ∨
    (d.walked (p.drop d.nPeriod)).state = .failed) : d.walked p = d.walked (p.drop d.nPeriod) := by
  have hq : ¬(p.drop d.nPeriod = [] ∨ d.medianTimePast (p.drop d.nPeriod) < d.nTimeStart) := by
    intro h
    rw [walked, dif_pos h] at hend
    simp [Progress.init] at hend
  obtain ⟨hne, hstart⟩ := not_or.mp hq
  have hp : ¬(p = [] ∨ d.medianTimePast p < d.nTimeStart) := by
    rintro (rfl | h)
    · exact hne drop_nil
    · exact hstart ((d.median_mono (drop_suffix _ p) hne).trans_lt h)
  rw [walked, dif_neg hp, next_of_ended hend]

lemma walked_drop (k : ℕ) (hend : (d.walked (p.drop (d.nPeriod * k))).state = .active ∨
    (d.walked (p.drop (d.nPeriod * k))).state = .failed) :
    d.walked p = d.walked (p.drop (d.nPeriod * k)) := by
  induction k generalizing p with
  | zero => rfl
  | succ k ih =>
    rw [Nat.mul_succ, Nat.add_comm, ← drop_drop] at hend ⊢
    have hrest := ih hend
    rw [← hrest] at hend ⊢
    exact walked_of_ended hend

/-- What a period can do that ends in one of the two states after the lock-in. -/
lemma next_cases (h : (d.next s p).state = .lockedIn ∨ (d.next s p).state = .active) :
    d.next s p = s ∨
      (s.state = .started ∧ d.next s p = ⟨.lockedIn, d.medianTimePast p, height p⟩) ∨
      (s.state = .lockedIn ∧ (d.next s p).state = .active ∧
        s.nActualLockinTime + d.nMinLockedTime ≤ d.medianTimePast p ∧
        s.nActualLockinBlock + d.nMinLockedBlocks ≤ height p) := by
  unfold next at h ⊢
  split <;> try split_ifs
  all_goals simp_all

lemma walked_of_lockedIn (hp : d.nPeriod ∣ p.length) :
    ((d.walked p).state = .lockedIn → ∃ l, l <:+ p ∧ d.LocksIn l ∧
      d.walked p = ⟨.lockedIn, d.medianTimePast l, height l⟩) ∧
    ((d.walked p).state = .active → ∃ l a, l <:+ a ∧ a <:+ p ∧ d.LocksIn l ∧ d.Grace l a) := by
  fun_induction walked d p with
  | case1 => simp [Progress.init]
  | case2 p hstart ih =>
    have hwalked : d.walked p = d.next (d.walked (p.drop d.nPeriod)) p := by
      rw [walked, dif_neg hstart]
    have hdrop := drop_suffix d.nPeriod p
    obtain ⟨hlocked, hactive⟩ := ih (by rw [length_drop]; exact Nat.dvd_sub hp dvd_rfl)
    constructor
    · intro h
      rcases next_cases (.inl h) with hs | ⟨hs, hnext⟩ | ⟨-, hnext, -⟩
      · rw [hs] at h ⊢
        obtain ⟨l, hl, hin, heq⟩ := hlocked h
        exact ⟨l, hl.trans hdrop, hin, heq⟩
      · exact ⟨p, suffix_rfl, ⟨hp, hs, by rw [hwalked, hnext]⟩, hnext⟩
      · simp [hnext] at h
    · intro h
      rcases next_cases (.inr h) with hs | ⟨-, hnext⟩ | ⟨hs, -, hgrace⟩
      · rw [hs] at h
        obtain ⟨l, a, hl, ha, hin⟩ := hactive h
        exact ⟨l, a, hl, ha.trans hdrop, hin⟩
      · simp [hnext] at h
      · obtain ⟨l, hl, hin, heq⟩ := hlocked hs
        rw [heq] at hgrace
        exact ⟨l, p, hl.trans hdrop, suffix_rfl, hin, hgrace⟩

lemma right_empty : d.Right fun _ => none := by
  intro p h
  cases h

variable [DecidableEq α] {cache : ThresholdConditionCache α}

lemma Right.update (hc : d.Right cache) {state : ThresholdState}
    (h : state = .defined → d.walked p = .init) : d.Right (update cache p (some state)) := by
  intro q hq
  rw [update_apply] at hq
  split_ifs at hq with hqp
  · exact hqp ▸ h (Option.some.inj hq)
  · exact hc q hq

lemma walkBack_spec (hc : d.Right cache) (p : List α) (v : List (List α)) :
    d.Right (d.walkBack cache p v).1 ∧
      (d.walkBack cache p v).2.foldl d.next .init = v.foldl d.next (d.walked p) ∧
      ∀ q ∈ (d.walkBack cache p v).2, q ∈ v ∨ d.nTimeStart ≤ d.medianTimePast q := by
  fun_induction walkBack d cache p v with
  | case1 p v hcached => exact ⟨hc, by rw [hc p hcached], fun q hq => .inl hq⟩
  | case2 p v _ hbase =>
    have hinit : d.walked p = .init := by rw [walked, dif_pos hbase]
    exact ⟨hc.update fun _ => hinit, by rw [hinit], fun q hq => .inl hq⟩
  | case3 p v _ hstart ih =>
    obtain ⟨hright, hfold, hmem⟩ := ih
    refine ⟨hright, ?_, fun q hq => ?_⟩
    · rw [hfold, foldl_cons, walked.eq_def d p, dif_neg hstart]
    · rcases hmem q hq with hq | hq
      · rcases mem_cons.mp hq with rfl | hq
        · exact .inr (not_lt.mp (not_or.mp hstart).2)
        · exact .inl hq
      · exact .inr hq

lemma walkForward_spec {v : List (List α)} (hv : ∀ q ∈ v, d.nTimeStart ≤ d.medianTimePast q)
    (hc : d.Right cache) (s : Progress) :
    (v.foldl d.walkForward (s, cache)).1 = v.foldl d.next s ∧
      d.Right (v.foldl d.walkForward (s, cache)).2 := by
  induction v generalizing s cache with
  | nil => exact ⟨rfl, hc⟩
  | cons p v ih =>
    exact ih (fun q hq => hv q (mem_cons_of_mem p hq))
      (hc.update fun h => absurd h (next_ne_defined (hv p mem_cons_self) s)) _

lemma getStateFor_spec (hc : d.Right cache) (b : List α) :
    (d.getStateFor cache b).1 = (d.walked (d.aligned b)).state ∧
      d.Right (d.getStateFor cache b).2 := by
  obtain ⟨hright, hfold, hmem⟩ := walkBack_spec hc (d.aligned b) []
  obtain ⟨hstate, hright'⟩ := walkForward_spec
    (fun q hq => (hmem q hq).resolve_left not_mem_nil) hright .init
  exact ⟨by rw [getStateFor, hstate, hfold]; rfl, hright'⟩

lemma stateFor_eq (b : List α) : d.stateFor b = (d.walked (d.aligned b)).state :=
  (getStateFor_spec right_empty b).1

lemma stateFor_of_dvd (h : d.nPeriod ∣ p.length) : d.stateFor p = (d.walked p).state := by
  rw [stateFor_eq, aligned, Nat.mod_eq_zero_of_dvd h, drop_zero]

/-- The answer does not depend on earlier calls. It is that of the recursion from the genesis
block, unless the start time has not come but the timeout has. -/
theorem getStateFor_of_calls (d : ThresholdConditionChecker α) (calls : List (List α))
    (b : List α) :
    (d.getStateFor (calls.foldl (fun cache b => (d.getStateFor cache b).2) fun _ => none) b).1 =
        d.stateFor b ∧
      (d.stateFor b = (d.plain (d.aligned b)).state ↔ ¬(d.aligned b ≠ [] ∧
        d.nTimeTimeout ≤ d.medianTimePast (d.aligned b) ∧
        d.medianTimePast (d.aligned b) < d.nTimeStart)) ∧
      (d.stateFor b = .active ∨ d.stateFor b = .failed →
        ∀ b', b <:+ b' → d.stateFor b' = d.stateFor b) ∧
      (d.stateFor b = .active → ∃ l a, l <:+ a ∧ a <:+ b ∧
        d.stateFor (l.drop d.nPeriod) = .started ∧ d.stateFor l = .lockedIn ∧ d.Grace l a) := by
  have hlen : ∀ b, (d.aligned b).length = d.nPeriod * (b.length / d.nPeriod) := by
    intro b
    rw [aligned, length_drop]
    exact Nat.sub_eq_of_eq_add (Nat.div_add_mod _ _).symm
  have hdvd : ∀ b, d.nPeriod ∣ (d.aligned b).length := fun b => ⟨_, hlen b⟩
  refine ⟨?_, ?_, fun hend b' hb => ?_, fun hactive => ?_⟩
  · have hright : d.Right (calls.foldl (fun cache b => (d.getStateFor cache b).2) fun _ => none) :=
      foldlRecOn calls _ right_empty fun cache hc b _ => (getStateFor_spec hc b).2
    rw [(getStateFor_spec hright b).1, stateFor_eq]
  · rw [stateFor_eq, walked_eq_plain_iff]
  · have hsuffix : d.aligned b <:+ d.aligned b' := by
      refine suffix_of_suffix_length_le ((drop_suffix _ b).trans hb) (drop_suffix _ b') ?_
      rw [hlen, hlen]
      exact Nat.mul_le_mul_left _ (Nat.div_le_div_right hb.length_le)
    have heq := suffix_iff_eq_drop.mp hsuffix
    rw [hlen, hlen, ← Nat.mul_sub] at heq
    rw [stateFor_eq] at hend
    rw [stateFor_eq, stateFor_eq, walked_drop _ (heq ▸ hend), ← heq]
  · rw [stateFor_eq] at hactive
    obtain ⟨l, a, hl, ha, hin, hgrace⟩ := (walked_of_lockedIn (hdvd b)).2 hactive
    refine ⟨l, a, hl, ha.trans (drop_suffix _ b), ?_, ?_, hgrace⟩
    · rw [stateFor_of_dvd (by rw [length_drop]; exact Nat.dvd_sub hin.aligned dvd_rfl), hin.before]
    · rw [stateFor_of_dvd hin.aligned, hin.after]

/-- A deployment that times out before it starts, on blocks between the two times. -/
def earlyTimeout : ThresholdConditionChecker Unit where
  nPeriod := 1
  period_pos := Nat.one_pos
  nThreshold := 1
  nTimeStart := 10
  nTimeTimeout := 0
  nMinLockedBlocks := 0
  nMinLockedTime := 0
  condition := fun _ => true
  medianTimePast := fun _ => 5
  median_mono := fun _ _ => le_rfl

theorem stateFor_earlyTimeout : earlyTimeout.stateFor [()] = .defined ∧
    (earlyTimeout.plain (earlyTimeout.aligned [()])).state = .failed := by
  have haligned : earlyTimeout.aligned [()] = [()] := rfl
  rw [stateFor_eq, haligned, walked, dif_pos (.inr (by decide)), plain_of_lt (.inr (by decide)),
    if_pos (by decide)]
  exact ⟨rfl, rfl⟩

end ThresholdConditionChecker
end PyrrhaNode.VersionBits
