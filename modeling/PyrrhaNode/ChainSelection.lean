import PyrrhaNode.Finality

/-!
# Which chain is selected

`FindMostWorkChain` takes the best candidate, follows it back to the active chain and either
returns it or throws its branch out and takes the next one.  On the way it asserts that every
visited block is linked.  A candidate that misses data loses the links of its branch, so a second
candidate that shares a part of this branch runs into the assertion.  Apart from that, and from
candidates on an active chain that does not contain the finalised block, the loop returns the
best candidate with a usable path and keeps all such candidates.
-/
namespace PyrrhaNode.ChainSelection

open List BlockTree ChainActivation ChainActivation.Node Finality

/-- The assertion of the walk: every visited block is linked or has height zero. -/
def walkAsserts (n : Node) : BlockIndex → Bool
  | [] => true
  | b :: p =>
    if n.contains (b :: p) then true
    else if (n.status (b :: p)).linked || decide (height (b :: p) = 0) then
      if (n.status (b :: p)).failed || !(n.status (b :: p)).haveData then true
      else walkAsserts n p
    else false

/-- How the loop ends; `unfinished` says that the given number of rounds was too small. -/
inductive Selection
  | unfinished
  | assertFailed
  | selected (n : Node) (best : Option BlockIndex)

/-- The rounds of `FindMostWorkChain`, with the assertion. -/
def selectLoop : ℕ → Node → Selection
  | 0, _ => .unfinished
  | fuel + 1, n =>
    match n.bestOf n.candidates with
    | none => .selected n none
    | some p =>
      let n := n.rejectUnfinalized p
      if walkAsserts n p then
        let walk := n.walkToActive p
        if walk.2.1 || walk.2.2 then selectLoop fuel (rejectChain walk.2.1 walk.1 p n)
        else .selected n (some p)
      else .assertFailed

def selectChain (n : Node) : Selection := selectLoop (n.candidates.length + 1) n

theorem findMostWorkLoop_eq {fuel : ℕ} {n m : Node} {best : Option BlockIndex}
    (h : selectLoop fuel n = .selected m best) : findMostWorkLoop fuel n = (m, best) := by
  induction fuel generalizing n with
  | zero => cases h
  | succ fuel ih =>
    rw [selectLoop] at h
    rw [findMostWorkLoop]
    cases hbest : n.bestOf n.candidates with
    | none =>
      simp only [hbest] at h
      cases h
      rfl
    | some p =>
      simp only [hbest] at h
      split_ifs at h with hassert hreject
      · simp only [hreject]
        exact ih h
      · cases h
        simp [hreject]

/-- The block does not fork below the finalised one. -/
def OnFork (n : Node) (p : BlockIndex) : Prop :=
  n.finalized = [] ∨ areOnTheSameFork p n.finalized = true

/-- The path down to the active chain has all its data and no failed block, and it does not
fork below the finalised block. -/
structure Usable (n : Node) (p : BlockIndex) : Prop where
  fork : OnFork n p
  clean : ∀ a, a <:+ p → a ≠ [] → n.contains a = false →
    (n.status a).failed = false ∧ (n.status a).haveData = true

/-- The best usable candidate was selected, and no usable candidate was thrown out. -/
structure Right (n m : Node) (best : Option BlockIndex) : Prop where
  mem : ∀ p, best = some p → p ∈ n.candidates ∧ Usable n p
  most : ∀ p, best = some p → ∀ q ∈ n.candidates, Usable n q →
    chainWork q ≤ chainWork p ∧ n.worse p q = false
  null : best = none → ∀ q ∈ n.candidates, ¬ Usable n q
  kept : ∀ q ∈ n.candidates, Usable n q → q ∈ m.candidates

/-- The selection ends without a failed assertion and with the right result. -/
def SelectsRight (n : Node) : Prop :=
  ∃ m best, selectChain n = .selected m best ∧ Right n m best

/-- Every candidate and every ancestor of it is linked. -/
def CandidatesLinked (n : Node) : Prop :=
  ∀ p ∈ n.candidates, p ≠ [] ∧ ∀ a, a <:+ p → a ≠ [] → (n.status a).linked = true

/-- How a walk back to the active chain ends. -/
inductive Fate
  | good
  | failed
  | missing
  deriving DecidableEq

def fate (n : Node) : BlockIndex → Fate
  | [] => .good
  | b :: p =>
    if n.contains (b :: p) then .good
    else if (n.status (b :: p)).failed then .failed
    else if (n.status (b :: p)).haveData then fate n p
    else .missing

/-- The blocks that a walk leaves behind, without the one at which it stops. -/
def passed (n : Node) : BlockIndex → List BlockIndex
  | [] => []
  | b :: p =>
    if n.contains (b :: p) then []
    else if (n.status (b :: p)).failed || !(n.status (b :: p)).haveData then []
    else (b :: p) :: passed n p

lemma passed_cases (n : Node) (b : Header) (p : BlockIndex) :
    (passed n (b :: p) = [] ∧ (n.walkToActive (b :: p)).1 = b :: p ∧
      (n.contains (b :: p) = true ∧ fate n (b :: p) = .good ∨
        n.contains (b :: p) = false ∧ (n.status (b :: p)).failed = true ∧
          fate n (b :: p) = .failed ∨
        n.contains (b :: p) = false ∧ (n.status (b :: p)).failed = false ∧
          (n.status (b :: p)).haveData = false ∧ fate n (b :: p) = .missing)) ∨
    (passed n (b :: p) = (b :: p) :: passed n p ∧ n.walkToActive (b :: p) = n.walkToActive p ∧
      fate n (b :: p) = fate n p ∧ n.contains (b :: p) = false ∧
        (n.status (b :: p)).failed = false ∧ (n.status (b :: p)).haveData = true) := by
  rw [passed, fate, walkToActive]
  cases n.contains (b :: p) <;> cases (n.status (b :: p)).failed <;>
    cases (n.status (b :: p)).haveData <;> simp

variable {c p : BlockIndex} {n : Node} {q a : BlockIndex} {ps : List BlockIndex}
  (failedChain : Bool) (l : List BlockIndex)

lemma suffix_of_mem_passed (h : c ∈ passed n p) :
    c <:+ p ∧ c ≠ [] ∧ n.contains c = false ∧ (n.status c).failed = false ∧
      (n.status c).haveData = true ∧ fate n c = fate n p := by
  induction p with
  | nil => simp [passed] at h
  | cons b p ih =>
    rcases passed_cases n b p with ⟨hp, -⟩ | ⟨hp, -, hfate, hclean⟩
    · simp [hp] at h
    rw [hp, mem_cons] at h
    rcases h with rfl | h
    · exact ⟨suffix_refl _, by simp, hclean.1, hclean.2.1, hclean.2.2, rfl⟩
    · obtain ⟨hsuffix, hne, hactive, hfailed, hdata, hfate'⟩ := ih h
      exact ⟨hsuffix.trans (suffix_cons b p), hne, hactive, hfailed, hdata,
        hfate'.trans hfate.symm⟩

lemma mem_passed_trans (hq : q ∈ passed n p) (hc : c ∈ passed n q) : c ∈ passed n p := by
  induction p with
  | nil => simp [passed] at hq
  | cons b p ih =>
    rcases passed_cases n b p with ⟨hp, -⟩ | ⟨hp, -⟩
    · simp [hp] at hq
    · rw [hp, mem_cons] at hq
      rcases hq with rfl | hq
      · exact hc
      · rw [hp]
        exact mem_cons_of_mem _ (ih hq)

lemma mem_passed_between (hc : c ∈ passed n p) (hq : q <:+ p) (hcq : c <:+ q) : q ∈ passed n p := by
  induction p with
  | nil => simp [passed] at hc
  | cons b p ih =>
    rcases passed_cases n b p with ⟨hp, -⟩ | ⟨hp, -⟩
    · simp [hp] at hc
    rw [hp, mem_cons] at hc ⊢
    rcases suffix_cons_iff.mp hq with rfl | hq
    · exact .inl rfl
    · rcases hc with rfl | hc
      · have hlong := (hcq.trans hq).length_le
        simp at hlong
      · exact .inr (ih hc hq)

lemma walkToActive_flags (n : Node) (p : BlockIndex) :
    (n.walkToActive p).2.1 = decide (fate n p = .failed) ∧
      ((n.walkToActive p).2.1 || (n.walkToActive p).2.2) = decide (fate n p ≠ .good) := by
  induction p with
  | nil => simp [walkToActive, fate]
  | cons b p ih =>
    rw [walkToActive, fate]
    cases n.contains (b :: p) <;> cases (n.status (b :: p)).failed <;>
      cases (n.status (b :: p)).haveData <;> simp
    simpa using ih

lemma fate_eq_good_iff (n : Node) (p : BlockIndex) :
    fate n p = .good ↔ ∀ a, a <:+ p → a ≠ [] → n.contains a = false →
      (n.status a).failed = false ∧ (n.status a).haveData = true := by
  induction p with
  | nil =>
    refine ⟨fun _ a ha hne => absurd (suffix_nil.mp ha) hne, fun _ => rfl⟩
  | cons b p ih =>
    rcases passed_cases n b p with ⟨-, -, ⟨hactive, hfate⟩ | ⟨hactive, hfailed, hfate⟩ |
      ⟨hactive, hfailed, hdata, hfate⟩⟩ | ⟨-, -, hfate, hactive, hfailed, hdata⟩
    · refine ⟨fun _ a ha hne hno => ?_, fun _ => hfate⟩
      simp only [Node.contains, Bool.and_eq_true, decide_eq_true_eq] at hactive
      simp [Node.contains, hne, ha.trans hactive.2] at hno
    · rw [hfate]
      refine ⟨fun h => (by cases h), fun h => ?_⟩
      have := (h _ (suffix_refl _) (by simp) hactive).1
      simp [hfailed] at this
    · rw [hfate]
      refine ⟨fun h => (by cases h), fun h => ?_⟩
      have := (h _ (suffix_refl _) (by simp) hactive).2
      simp [hdata] at this
    · rw [hfate, ih]
      constructor
      · intro h a ha hne hno
        rcases suffix_cons_iff.mp ha with rfl | ha
        · exact ⟨hfailed, hdata⟩
        · exact h a ha hne hno
      · intro h a ha
        exact h a (ha.trans (suffix_cons b p))

lemma usable_iff (n : Node) (p : BlockIndex) : Usable n p ↔ OnFork n p ∧ fate n p = .good :=
  ⟨fun h => ⟨h.fork, (fate_eq_good_iff n p).mpr h.clean⟩,
    fun h => ⟨h.1, (fate_eq_good_iff n p).mp h.2⟩⟩

lemma OnFork.suffix (h : OnFork n p) (ha : a <:+ p) :
    OnFork n a := by
  rcases h with h | h
  · exact .inl h
  · refine .inr (areOnTheSameFork_iff.mpr ?_)
    rcases areOnTheSameFork_iff.mp h with hp | hp
    · exact .inl (ha.trans hp)
    · exact suffix_or_suffix_of_suffix ha hp

/-- The assertion holds when every block that the walk passes, and the one at which it stops, has
its link. -/
lemma walkAsserts_of_linked (hpassed : ∀ c ∈ passed n p, (n.status c).linked = true)
    (hstop : fate n p ≠ .good → (n.status (n.walkToActive p).1).linked = true) :
    walkAsserts n p = true := by
  induction p with
  | nil => rfl
  | cons b p ih =>
    rw [walkAsserts]
    rcases passed_cases n b p with ⟨-, hwalk, ⟨hactive, -⟩ | ⟨hactive, hfailed, hfate⟩ |
      ⟨hactive, hfailed, hdata, hfate⟩⟩ | ⟨hp, hwalk, hfate, hactive, hfailed, hdata⟩
    · simp [hactive]
    · rw [hwalk, hfate] at hstop
      simp [hfailed, hstop]
    · rw [hwalk, hfate] at hstop
      simp [hdata, hstop]
    · rw [hp] at hpassed
      rw [hwalk, hfate] at hstop
      have hrest := ih (fun c hc => hpassed c (mem_cons_of_mem _ hc)) hstop
      simp [hpassed _ mem_cons_self, hrest]

/-- The assertion fails when the walk passes a block, not the genesis block, without a link. -/
lemma walkAsserts_eq_false (hc : c ∈ passed n p) (hlinked : (n.status c).linked = false)
    (hheight : height c ≠ 0) :
    walkAsserts n p = false := by
  induction p with
  | nil => simp [passed] at hc
  | cons b p ih =>
    rcases passed_cases n b p with ⟨hp, -⟩ | ⟨hp, -, -, hactive, hfailed, hdata⟩
    · simp [hp] at hc
    · rw [hp, mem_cons] at hc
      rw [walkAsserts]
      rcases hc with rfl | hc
      · simp [hactive, hlinked, hheight]
      · simp [hactive, hfailed, hdata, ih hc]

lemma mem_of_bestOf (h : n.bestOf ps = some p) : p ∈ ps := by
  induction ps generalizing p with
  | nil => cases h
  | cons q ps ih =>
    rw [bestOf] at h
    cases hrest : n.bestOf ps with
    | none =>
      rw [hrest] at h
      cases h
      exact mem_cons_self
    | some r =>
      rw [hrest] at h
      simp only at h
      split_ifs at h
      · cases h
        exact mem_cons_self
      · cases h
        exact mem_cons_of_mem _ (ih hrest)

lemma bestOf_filter (P : BlockIndex → Bool) (h : n.bestOf ps = some p)
    (hp : P p = true) : n.bestOf (ps.filter P) = some p := by
  induction ps generalizing p with
  | nil => cases h
  | cons q ps ih =>
    rw [bestOf] at h
    cases hrest : n.bestOf ps with
    | none =>
      rw [hrest] at h
      cases h
      rw [bestOf_eq_none hrest, filter_cons_of_pos hp]
      rfl
    | some r =>
      rw [hrest] at h
      simp only at h
      split_ifs at h with hworse
      · cases h
        rw [filter_cons_of_pos hp, bestOf]
        cases hpart : n.bestOf (ps.filter P) with
        | none => rfl
        | some t =>
          have hmem := mem_of_mem_filter (mem_of_bestOf hpart)
          have hbest := worse_eq_false_iff.mp (bestOf_best hrest t hmem)
          have hless := mt (worse_eq_false_iff (n := n) (p := r) (q := q)).mpr (by simp [hworse])
          have htworse : n.worse t q = true := by
            by_contra hno
            have := worse_eq_false_iff.mp (eq_false_of_ne_true hno)
            omega
          simp [htworse]
      · cases h
        have hpart := ih hrest hp
        by_cases hq : P q = true
        · rw [filter_cons_of_pos hq, bestOf, hpart]
          simp [hworse]
        · rw [filter_cons_of_neg hq]
          exact hpart

lemma bestOf_congr {n m : Node} (h : m.worse = n.worse) (ps : List BlockIndex) :
    m.bestOf ps = n.bestOf ps := by
  induction ps with
  | nil => rfl
  | cons p ps ih => rw [bestOf, bestOf, ih, h]

/-- Of two candidates, the first one comes up before the second. -/
def Before (n : Node) (p q : BlockIndex) : Prop :=
  n.bestOf (n.candidates.filter fun r => decide (r = p ∨ r = q)) = some p

lemma Before.antisymm (h : Before n p q) (h' : Before n q p) :
    p = q := by
  have hsame : (fun r => decide (r = p ∨ r = q)) = fun r => decide (r = q ∨ r = p) := by
    funext r
    rw [decide_eq_decide, or_comm]
  rw [Before, hsame, h'] at h
  exact (Option.some.inj h).symm

lemma Before.not_worse (h : Before n p q) (hq : q ∈ n.candidates) :
    chainWork q ≤ chainWork p ∧ n.worse p q = false := by
  have hbest := bestOf_best h q (by simp [hq])
  refine ⟨?_, hbest⟩
  rcases worse_eq_false_iff.mp hbest with h | h <;> omega

instance (n : Node) (p : BlockIndex) : Decidable (OnFork n p) :=
  inferInstanceAs (Decidable (_ ∨ _))

/-- The blocks that lose their link when the candidate is thrown out. -/
def cleared (n : Node) (p : BlockIndex) : List BlockIndex :=
  if OnFork n p ∧ fate n p = .missing then passed n p else []

/-- The candidate comes up before every usable one. -/
def Reached (n : Node) (p : BlockIndex) : Prop :=
  p ∈ n.candidates ∧ ∀ q ∈ n.candidates, Usable n q → Before n p q

/-- Two candidates that come up before every usable one would clear the link of the same block,
and the first of all these does not take the second one out with itself. -/
def Clash (n : Node) : Prop :=
  ∃ c p q, (Reached n p ∧ c ∈ cleared n p) ∧ (Reached n q ∧ c ∈ cleared n q) ∧
    (∀ r, Reached n r → c ∈ cleared n r → Before n p r) ∧ ¬ q <:+ p

/-- A candidate that comes up before every usable one is on the active chain, but not on the
finalised fork. -/
def Stray (n : Node) : Prop :=
  ∃ p, Reached n p ∧ n.contains p = true ∧ ¬ OnFork n p

lemma mem_cleared_iff :
    c ∈ cleared n p ↔ OnFork n p ∧ fate n p = .missing ∧ c ∈ passed n p := by
  rw [cleared]
  split_ifs with h
  · simp [h]
  · simp only [not_mem_nil, false_iff]
    exact fun hc => h ⟨hc.1, hc.2.1⟩

/-- A candidate that is cleared with another one clears nothing that the other does not. -/
lemma mem_cleared_trans (hq : q ∈ cleared n p) (hc : c ∈ cleared n q) : c ∈ cleared n p := by
  rw [mem_cleared_iff] at *
  exact ⟨hq.1, hq.2.1, mem_passed_trans hq.2.2 hc.2.2⟩

lemma self_mem_cleared (hc : c ∈ cleared n p) :
    p ∈ cleared n p := by
  rw [mem_cleared_iff] at *
  obtain ⟨h₁, h₂, hc⟩ := hc
  exact ⟨h₁, h₂, mem_passed_between hc (suffix_refl p) (suffix_of_mem_passed hc).1⟩

/-- A cleared block would clear itself, if it were a candidate. -/
lemma clears_self (hq : q ∈ cleared n p) : q ∈ cleared n q := by
  obtain ⟨hfork, hmissing, hpassed⟩ := mem_cleared_iff.mp hq
  obtain ⟨hsuffix, hne, hactive, hfailed, hdata, hfate⟩ := suffix_of_mem_passed hpassed
  refine mem_cleared_iff.mpr ⟨hfork.suffix hsuffix, hfate.trans hmissing, ?_⟩
  cases q with
  | nil => exact absurd rfl hne
  | cons b q =>
    rw [passed]
    simp [hactive, hfailed, hdata]

/-- A cleared block is not the genesis block: the block without data is below it. -/
lemma height_of_mem_cleared (hc : c ∈ cleared n p) :
    height c ≠ 0 := by
  obtain ⟨-, hmissing, hpassed⟩ := mem_cleared_iff.mp hc
  obtain ⟨-, hne, hactive, hfailed, hdata, hfate⟩ := suffix_of_mem_passed hpassed
  cases c with
  | nil => exact absurd rfl hne
  | cons b c =>
    cases c with
    | nil =>
      rw [hmissing, fate, fate] at hfate
      simp [hfailed, hdata] at hfate
    | cons b' c =>
      simp only [height, length_cons]
      omega

/-- The mark that a thrown-out block gets. -/
def rejected (failedChain : Bool) (s : Status) : Status :=
  if failedChain then { s with failedChild := true }
  else { s with linked := false, processed := false }

def rejectBlock (failedChain : Bool) (n : Node) (p : BlockIndex) : Node :=
  (n.mark p (rejected failedChain)).eraseCandidate p

lemma walkToActive_suffix (n : Node) (p : BlockIndex) : (n.walkToActive p).1 <:+ p := by
  induction p with
  | nil => exact suffix_refl _
  | cons b p ih =>
    rcases passed_cases n b p with ⟨-, hstop, -⟩ | ⟨-, hwalk, -⟩
    · rw [hstop]
    · rw [hwalk]
      exact ih.trans (suffix_cons b p)

/-- The branch of a candidate consists of the passed blocks and the one at which the walk
stopped. -/
lemma rejectChain_eq (n m : Node) (p : BlockIndex) :
    rejectChain failedChain (n.walkToActive p).1 p m =
      ((passed n p).foldl (rejectBlock failedChain) m).eraseCandidate (n.walkToActive p).1 := by
  induction p generalizing m with
  | nil => rfl
  | cons b p ih =>
    rw [rejectChain]
    rcases passed_cases n b p with ⟨hp, hstop, -⟩ | ⟨hp, hwalk, -⟩
    · rw [if_pos hstop, hp]
      rfl
    have hne : (n.walkToActive p).1 ≠ b :: p := by
      intro heq
      have hlong := (walkToActive_suffix n p).length_le
      simp [heq] at hlong
    rw [hwalk, if_neg hne, hp]
    exact ih (rejectBlock failedChain m (b :: p))

lemma rejectBlocks_candidates (m : Node) :
    (l.foldl (rejectBlock failedChain) m).candidates =
      m.candidates.filter fun q => decide (q ∉ l) := by
  induction l generalizing m with
  | nil => simp
  | cons p l ih =>
    rw [foldl_cons, ih, rejectBlock, eraseCandidate]
    simp only [filter_filter]
    apply filter_congr
    simp [Bool.and_comm]

lemma rejectBlocks_status (m : Node) (q : BlockIndex) :
    (l.foldl (rejectBlock failedChain) m).status q =
      if q ∈ l then rejected failedChain (m.status q) else m.status q := by
  induction l generalizing m with
  | nil => simp
  | cons p l ih =>
    rw [foldl_cons, ih]
    by_cases hqp : q = p
    · subst hqp
      cases failedChain <;> simp [rejectBlock, eraseCandidate, mark, rejected]
    · simp [rejectBlock, eraseCandidate, mark, hqp]

lemma stop_of_fate (h : fate n p ≠ .good) :
    n.contains (n.walkToActive p).1 = false ∧ fate n (n.walkToActive p).1 = fate n p ∧
      passed n (n.walkToActive p).1 = [] ∧
      ((n.walkToActive p).1 = p ∨ p ∈ passed n p) := by
  induction p with
  | nil => exact absurd rfl h
  | cons b p ih =>
    rcases passed_cases n b p with ⟨hp, hstop, ⟨-, hfate⟩ | ⟨hactive, -⟩ | ⟨hactive, -⟩⟩ |
      ⟨hp, hwalk, hfate, -⟩
    · exact absurd hfate h
    iterate 2
      rw [hstop]
      exact ⟨hactive, rfl, hp, .inl rfl⟩
    · rw [hfate] at h
      obtain ⟨hactive, hsame, hnone, -⟩ := ih h
      rw [hwalk, hfate, hp]
      exact ⟨hactive, hsame, hnone, .inr mem_cons_self⟩

/-- The node `m` after the candidates `seen` of node `n` were thrown out. -/
structure Progress (n : Node) (seen : List BlockIndex) (m : Node) : Prop where
  chain : SameChain n m
  worse : m.worse = n.worse
  candidates : m.candidates = n.candidates.filter fun p => decide (p ∈ m.candidates)
  data : ∀ c, (m.status c).haveData = (n.status c).haveData
  failed_of : ∀ c, (n.status c).failed = true → (m.status c).failed = true
  of_failed : ∀ c, OnFork n c → (m.status c).failed = true →
    (n.status c).failed = true ∨ fate n c = .failed
  linked : ∀ p ∈ n.candidates, ∀ c, c <:+ p → c ≠ [] →
    ((m.status c).linked = false ↔ ∃ v ∈ seen, c ∈ cleared n v)
  erased : ∀ p ∈ n.candidates, p ∉ m.candidates → n.contains p = false ∧ ¬ Usable n p
  erased_cleared : ∀ p ∈ n.candidates, p ∉ m.candidates → p ∈ cleared n p →
    ∃ v ∈ seen, p ∈ cleared n v
  reached : ∀ v ∈ seen, Reached n v
  gone : ∀ v ∈ seen, ∀ p ∈ cleared n v, p ∉ m.candidates
  before : ∀ v ∈ seen, ∀ p ∈ n.candidates, p ∈ m.candidates ∨ p ∈ cleared n v → Before n v p
  disjoint : ∀ u ∈ seen, ∀ v ∈ seen, ∀ c, c ∈ cleared n u → c ∈ cleared n v → u = v

lemma Progress.initial (hlinked : CandidatesLinked n) : Progress n [] n where
  chain := SameChain.refl n
  worse := rfl
  candidates := (filter_eq_self.mpr fun p hp => by simp [hp]).symm
  data _ := rfl
  failed_of _ h := h
  of_failed _ _ h := .inl h
  linked p hp c hc hne := by simp [(hlinked p hp).2 c hc hne]
  erased p hp hno := absurd hp hno
  erased_cleared p hp hno := absurd hp hno
  reached := by simp
  gone := by simp
  before := by simp
  disjoint := by simp

section Invariant
variable {n m : Node} {seen : List BlockIndex}

lemma contains_congr (h : SameChain n m) (p : BlockIndex) : m.contains p = n.contains p := by
  rw [Node.contains, Node.contains, h.tip]

variable {p : BlockIndex}

/-- What throwing the candidate `p` out does to the node. -/
structure Rejection (n m m' : Node) (p : BlockIndex) (gone : List BlockIndex) : Prop where
  chain : SameChain m m'
  worse : m'.worse = m.worse
  candidates : m'.candidates = m.candidates.filter fun q => decide (q ∉ gone)
  data : ∀ c, (m'.status c).haveData = (m.status c).haveData
  failed_of : ∀ c, (m.status c).failed = true → (m'.status c).failed = true
  of_failed : ∀ c, OnFork n c → (m'.status c).failed = true →
    (m.status c).failed = true ∨ fate n c = .failed
  linked : ∀ c, (m'.status c).linked = false ↔ (m.status c).linked = false ∨ c ∈ cleared n p
  self : p ∈ gone
  unusable : ∀ q ∈ gone, n.contains q = false ∧ ¬ Usable n q
  self_cleared : ∀ q ∈ gone, q ∈ cleared n q → q ∈ cleared n p
  covers : ∀ q ∈ cleared n p, q ∈ gone

lemma worse_congr (h : ∀ c, (m.status c).nSequenceId = (n.status c).nSequenceId) :
    m.worse = n.worse := by
  ext p q
  simp [worse, h]

lemma rejectUnfinalized_of_onFork (h : OnFork m p) :
    m.rejectUnfinalized p = m := by
  rw [rejectUnfinalized, if_neg]
  rintro ⟨hne, hfork⟩
  rcases h with h | h
  · exact hne h
  · simp [hfork] at h

lemma rejectUnfinalized_of_not_onFork (h : ¬ OnFork m p) :
    m.rejectUnfinalized p = m.mark p fun s => { s with failedValid := true } := by
  rw [OnFork, not_or] at h
  rw [rejectUnfinalized, if_pos ⟨h.1, eq_false_of_ne_true h.2⟩]

lemma onFork_congr (h : SameChain n m) (p : BlockIndex) : OnFork m p ↔ OnFork n p := by
  rw [OnFork, OnFork, h.finalized]

lemma rejection_of_not_onFork (hfork : ¬ OnFork n p) (hactive : n.contains p = false) :
    Rejection n m ((m.mark p fun s => { s with failedValid := true }).eraseCandidate p) p [p] := by
  have hnone : cleared n p = [] := if_neg fun h => hfork h.1
  have hstatus : ∀ c, ((m.mark p fun s => { s with failedValid := true }).eraseCandidate p).status c
      = if c = p then { m.status c with failedValid := true } else m.status c := by
    intro c
    by_cases hc : c = p
    · simp [eraseCandidate, mark, hc]
    · simp [eraseCandidate, mark, hc]
  constructor
  case chain => exact (SameChain.mark m p _).trans (SameChain.eraseCandidate _ p)
  case worse =>
    apply worse_congr
    intro c
    rw [hstatus]
    split_ifs <;> rfl
  case candidates => simp [eraseCandidate, mark]
  case data =>
    intro c
    rw [hstatus]
    split_ifs <;> rfl
  case failed_of =>
    intro c hc
    rw [hstatus]
    split_ifs
    · simp [Status.failed]
    · exact hc
  case of_failed =>
    intro c hc hfailed
    have hne : c ≠ p := fun heq => hfork (by rwa [heq] at hc)
    rw [hstatus, if_neg hne] at hfailed
    exact .inl hfailed
  case linked =>
    intro c
    rw [hstatus, hnone]
    split_ifs <;> simp
  case self => simp
  case unusable =>
    intro q hq
    obtain rfl := mem_singleton.mp hq
    exact ⟨hactive, fun h => hfork h.fork⟩
  case self_cleared =>
    intro q hq hself
    obtain rfl := mem_singleton.mp hq
    exact hself
  case covers => simp [hnone]

/-- The three ways in which the selection ends. -/
inductive Outcome (n : Node) : Selection → Prop
  | asserted : Clash n → Outcome n .assertFailed
  | strayed (m : Node) (p : BlockIndex) : ¬ Usable n p → Stray n → Outcome n (.selected m (some p))
  | done (m : Node) (best : Option BlockIndex) : Right n m best → ¬ Clash n → ¬ Stray n →
      Outcome n (.selected m best)

variable (h : Progress n seen m)
include h

/-- The marks of earlier rounds change no walk on the finalised fork, up to the block at which a
failed one stops. -/
lemma Progress.fate_eq (hfork : OnFork n p) :
    fate m p = fate n p := by
  induction p with
  | nil => rfl
  | cons b p ih =>
    have ih := ih (hfork.suffix (suffix_cons b p))
    have hof := h.of_failed (b :: p) hfork
    have hfail := h.failed_of (b :: p)
    rw [fate, contains_congr h.chain, h.data, ih]
    by_cases hm : (m.status (b :: p)).failed = true
    · rcases hof hm with hn | hn
      · rw [fate]
        simp [hm, hn]
      · rw [hn]
        by_cases hactive : n.contains (b :: p) = true
        · rw [fate] at hn
          simp [hactive] at hn
        · simp [hactive, hm]
    · have hn : (n.status (b :: p)).failed ≠ true := fun hn => hm (hfail hn)
      rw [fate]
      simp [hm, hn]

lemma Progress.passed_eq (hfork : OnFork n p)
    (hfate : fate n p = .missing) : passed m p = passed n p := by
  induction p with
  | nil => rfl
  | cons b p ih =>
    have hfork' := hfork.suffix (suffix_cons b p)
    have hm : fate m (b :: p) = .missing := (h.fate_eq hfork).trans hfate
    rcases passed_cases n b p with ⟨hp, -, ⟨-, hn⟩ | ⟨-, -, hn⟩ | ⟨hactive, -, hdata, -⟩⟩ |
      ⟨hp, -, hn, hactive, -, hdata⟩
    · rw [hfate] at hn
      cases hn
    · rw [hfate] at hn
      cases hn
    · rw [hp, passed]
      simp [h.data, hdata]
    · rw [hp, passed, contains_congr h.chain, h.data]
      have hfailed : (m.status (b :: p)).failed = false := by
        by_contra hne
        rw [fate, contains_congr h.chain] at hm
        simp [hactive, eq_true_of_ne_false hne] at hm
      simp [hactive, hdata, hfailed, ih hfork' (hn ▸ hfate)]

variable {q : BlockIndex}

/-- A candidate that comes up is before every other one that is left. -/
lemma Progress.before_of_best (hbest : m.bestOf m.candidates = some p)
    (hq : q ∈ m.candidates) : Before n p q := by
  have hp := mem_of_bestOf hbest
  have hpart := bestOf_filter (fun r => decide (r = p ∨ r = q)) hbest (by simp)
  rw [bestOf_congr h.worse, h.candidates, filter_filter] at hpart
  rw [Before, ← hpart]
  congr 1
  apply filter_congr
  intro r _
  by_cases hr : r = p ∨ r = q
  · have hmem : r ∈ m.candidates := by
      rcases hr with rfl | rfl
      · exact hp
      · exact hq
    simp [hmem]
  · simp [hr]

lemma Progress.mem_of_mem (hp : p ∈ m.candidates) :
    p ∈ n.candidates := by
  rw [h.candidates] at hp
  exact mem_of_mem_filter hp

lemma Progress.usable_mem (hp : p ∈ n.candidates) (husable : Usable n p) : p ∈ m.candidates := by
  by_contra hno
  exact (h.erased p hp hno).2 husable

lemma Progress.reached_of_best (hbest : m.bestOf m.candidates = some p) : Reached n p :=
  ⟨h.mem_of_mem (mem_of_bestOf hbest),
    fun _ hq husable => h.before_of_best hbest (h.usable_mem hq husable)⟩

/-- Throwing the best candidate out keeps the invariant, when no link is cleared twice. -/
lemma Progress.reject {m' : Node} {gone : List BlockIndex} (hreject : Rejection n m m' p gone)
    (hbest : m.bestOf m.candidates = some p)
    (hdisjoint : ∀ v ∈ seen, ∀ c ∈ cleared n p, c ∉ cleared n v) :
    Progress n (p :: seen) m' := by
  have hleft : ∀ q, q ∈ m'.candidates ↔ q ∈ m.candidates ∧ q ∉ gone := by
    rw [hreject.candidates]
    simp
  have herased : ∀ q ∈ n.candidates, q ∉ m'.candidates → q ∉ m.candidates ∨ q ∈ gone := by
    intro q _ hno
    rw [hleft] at hno
    by_contra hcon
    push Not at hcon
    exact hno ⟨hcon.1, hcon.2⟩
  constructor
  case chain => exact h.chain.trans hreject.chain
  case worse => rw [hreject.worse, h.worse]
  case candidates =>
    conv_lhs => rw [hreject.candidates, h.candidates, filter_filter]
    apply filter_congr
    simp [hleft, Bool.and_comm]
  case data => exact fun c => (hreject.data c).trans (h.data c)
  case failed_of => exact fun c hc => hreject.failed_of c (h.failed_of c hc)
  case of_failed =>
    intro c hfork hc
    rcases hreject.of_failed c hfork hc with hc | hc
    · exact h.of_failed c hfork hc
    · exact .inr hc
  case linked =>
    intro q hq c hc hne
    rw [hreject.linked, h.linked q hq c hc hne]
    simp [or_comm]
  case erased =>
    intro q hq hno
    rcases herased q hq hno with hm | hgone
    · exact h.erased q hq hm
    · exact hreject.unusable q hgone
  case erased_cleared =>
    intro q hq hno hself
    rcases herased q hq hno with hm | hgone
    · obtain ⟨v, hv, hmem⟩ := h.erased_cleared q hq hm hself
      exact ⟨v, mem_cons_of_mem _ hv, hmem⟩
    · exact ⟨p, mem_cons_self, hreject.self_cleared q hgone hself⟩
  case reached =>
    intro v hv
    rcases mem_cons.mp hv with rfl | hv
    · exact h.reached_of_best hbest
    · exact h.reached v hv
  case gone =>
    intro v hv q hq hmem
    rw [hleft] at hmem
    rcases mem_cons.mp hv with rfl | hv
    · exact hmem.2 (hreject.covers q hq)
    · exact h.gone v hv q hq hmem.1
  case before =>
    intro v hv q hq hcase
    rcases mem_cons.mp hv with rfl | hv
    · -- a candidate that is cleared with `p` was still there, or its link would be cleared twice
      have hmem : q ∈ m.candidates := by
        rcases hcase with hq' | hq'
        · exact ((hleft q).mp hq').1
        · by_contra hno
          obtain ⟨u, hu, hmem⟩ := h.erased_cleared q hq hno (clears_self hq')
          exact hdisjoint u hu q hq' hmem
      exact h.before_of_best hbest hmem
    · rcases hcase with hq' | hq'
      · exact h.before v hv q hq (.inl ((hleft q).mp hq').1)
      · exact h.before v hv q hq (.inr hq')
  case disjoint =>
    intro u hu v hv c hcu hcv
    rcases mem_cons.mp hu with rfl | hu'
    · rcases mem_cons.mp hv with rfl | hv'
      · rfl
      · exact absurd hcv (hdisjoint v hv' c hcu)
    · rcases mem_cons.mp hv with rfl | hv'
      · exact absurd hcu (hdisjoint u hu' c hcv)
      · exact h.disjoint u hu' v hv' c hcu hcv

lemma Progress.rejection_of_onFork (hfork : OnFork n p) (hfate : fate n p ≠ .good) :
    Rejection n m
      (rejectChain (decide (fate m p = .failed)) (m.walkToActive p).1 p m) p
      (passed m p ++ [(m.walkToActive p).1]) := by
  have hsame := h.fate_eq hfork
  obtain ⟨hactive, hstop, hnone, hself⟩ := stop_of_fate (by rwa [hsame])
  have hstopFork := hfork.suffix (walkToActive_suffix m p)
  -- every block of the branch has the fate of the candidate
  have hbranch : ∀ q ∈ passed m p ++ [(m.walkToActive p).1],
      OnFork n q ∧ n.contains q = false ∧ fate n q = fate n p := by
    intro q hq
    rcases mem_append.mp hq with hq | hq
    · obtain ⟨hsuffix, -, hno, -, -, hq'⟩ := suffix_of_mem_passed hq
      have hforkq := hfork.suffix hsuffix
      exact ⟨hforkq, by rwa [contains_congr h.chain] at hno,
        by rw [← h.fate_eq hforkq, hq', hsame]⟩
    · obtain rfl := mem_singleton.mp hq
      exact ⟨hstopFork, by rwa [contains_congr h.chain] at hactive,
        by rw [← h.fate_eq hstopFork, hstop, hsame]⟩
  rw [rejectChain_eq]
  have hstatus : ∀ c, (((passed m p).foldl (rejectBlock (decide (fate m p = .failed))) m
      ).eraseCandidate (m.walkToActive p).1).status c =
      if c ∈ passed m p then rejected (decide (fate m p = .failed)) (m.status c)
      else m.status c :=
    fun c => rejectBlocks_status _ _ m c
  have hcleared : ∀ c, c ∈ cleared n p ↔ fate n p = .missing ∧ c ∈ passed m p := by
    intro c
    rw [mem_cleared_iff]
    constructor
    · rintro ⟨-, hmissing, hc⟩
      exact ⟨hmissing, by rwa [h.passed_eq hfork hmissing]⟩
    · rintro ⟨hmissing, hc⟩
      exact ⟨hfork, hmissing, by rwa [← h.passed_eq hfork hmissing]⟩
  constructor
  case chain =>
    exact (SameChain.foldl
      (fun k b => (SameChain.mark k b _).trans (SameChain.eraseCandidate _ b)) _ m).trans
      (SameChain.eraseCandidate _ _)
  case worse =>
    apply worse_congr
    intro c
    rw [hstatus]
    split_ifs
    · rw [rejected]
      split_ifs <;> rfl
    · rfl
  case candidates =>
    rw [eraseCandidate, rejectBlocks_candidates, filter_filter]
    apply filter_congr
    simp [Bool.and_comm]
  case data =>
    intro c
    rw [hstatus]
    split_ifs
    · rw [rejected]
      split_ifs <;> rfl
    · rfl
  case failed_of =>
    intro c hc
    rw [hstatus]
    split_ifs
    · rw [rejected]
      split_ifs
      · simp [Status.failed]
      · exact hc
    · exact hc
  case of_failed =>
    intro c _ hc
    rw [hstatus] at hc
    split_ifs at hc with hmem
    · rw [rejected] at hc
      split_ifs at hc with hfailed
      · refine .inr ?_
        rw [(hbranch c (mem_append_left _ hmem)).2.2, ← hsame]
        exact of_decide_eq_true hfailed
      · exact .inl hc
    · exact .inl hc
  case linked =>
    intro c
    rw [hstatus, hcleared]
    by_cases hmem : c ∈ passed m p
    · rw [if_pos hmem, rejected]
      cases hcase : fate n p with
      | good => exact absurd hcase hfate
      | failed => simp [hsame, hcase]
      | missing => simp [hsame, hcase, hmem]
    · simp [hmem]
  case self =>
    rcases hself with hself | hself
    · exact mem_append_right _ (by simp [hself])
    · exact mem_append_left _ hself
  case unusable =>
    intro q hq
    obtain ⟨-, hno, hq'⟩ := hbranch q hq
    exact ⟨hno, fun husable => hfate (hq' ▸ ((usable_iff n q).mp husable).2)⟩
  case self_cleared =>
    intro q hq hself
    obtain ⟨hforkq, hmissing, hpassed⟩ := mem_cleared_iff.mp hself
    rw [hcleared]
    refine ⟨(hbranch q hq).2.2 ▸ hmissing, ?_⟩
    rcases mem_append.mp hq with hq | hq
    · exact hq
    · obtain rfl := mem_singleton.mp hq
      rw [← h.passed_eq hforkq hmissing, hnone] at hpassed
      simp at hpassed
  case covers =>
    intro q hq
    exact mem_append_left _ ((hcleared q).mp hq).2

/-- A link that would be cleared twice is a clash. -/
lemma Progress.clash {v c : BlockIndex} (hbest : m.bestOf m.candidates = some p) (hv : v ∈ seen)
    (hcp : c ∈ cleared n p) (hcv : c ∈ cleared n v) : Clash n := by
  refine ⟨c, v, p, ⟨h.reached v hv, hcv⟩, ⟨h.reached_of_best hbest, hcp⟩, ?_, ?_⟩
  · intro r hr hcr
    by_cases hleft : r ∈ m.candidates
    · exact h.before v hv r hr.1 (.inl hleft)
    · obtain ⟨u, hu, hru⟩ := h.erased_cleared r hr.1 hleft (self_mem_cleared hcr)
      have huv := h.disjoint u hu v hv c (mem_cleared_trans hru hcr) hcv
      exact h.before v hv r hr.1 (.inr (huv ▸ hru))
  · intro hsuffix
    have hpv : p ∈ cleared n v := by
      rw [mem_cleared_iff] at hcv hcp ⊢
      exact ⟨hcv.1, hcv.2.1,
        mem_passed_between hcv.2.2 hsuffix (suffix_of_mem_passed hcp.2.2).1⟩
    exact h.gone v hv p hpv (mem_of_bestOf hbest)

/-- There was no clash when all candidates that would clear links are gone. -/
lemma Progress.not_clash
    (hgone : ∀ p, Reached n p → p ∈ cleared n p → p ∉ m.candidates) : ¬ Clash n := by
  rintro ⟨c, p, q, ⟨hp, hcp⟩, ⟨hq, hcq⟩, hfirst, hsuffix⟩
  have hself := self_mem_cleared hcp
  have hself' := self_mem_cleared hcq
  obtain ⟨u, hu, hpu⟩ := h.erased_cleared p hp.1 (hgone p hp hself) hself
  obtain ⟨v, hv, hqv⟩ := h.erased_cleared q hq.1 (hgone q hq hself') hself'
  have hcu := mem_cleared_trans hpu hcp
  have huv := h.disjoint u hu v hv c hcu (mem_cleared_trans hqv hcq)
  have hpu' : p = u :=
    (hfirst u (h.reached u hu) hcu).antisymm (h.before u hu p hp.1 (.inr hpu))
  rw [← huv, ← hpu', mem_cleared_iff] at hqv
  exact hsuffix (suffix_of_mem_passed hqv.2.2).1

lemma Progress.not_stray
    (hgone : ∀ p, Reached n p → n.contains p = true → ¬ OnFork n p → p ∉ m.candidates) :
    ¬ Stray n := by
  rintro ⟨p, hp, hactive, hfork⟩
  have hno := (h.erased p hp.1 (hgone p hp hactive hfork)).1
  rw [hactive] at hno
  cases hno

lemma Progress.outcome_none (hnone : m.bestOf m.candidates = none) :
    Outcome n (.selected m none) := by
  have hempty := bestOf_eq_none hnone
  have hno : ∀ q, q ∉ m.candidates := by simp [hempty]
  refine .done m none ⟨by simp, by simp, ?_, ?_⟩ (h.not_clash fun q _ _ => hno q)
    (h.not_stray fun q _ _ _ => hno q)
  · exact fun _ q hq husable => hno q (h.usable_mem hq husable)
  · exact fun q hq husable => h.usable_mem hq husable

/-- What comes up before every usable candidate and is still there when a usable one comes up is
this candidate itself. -/
lemma Progress.reached_eq (hbest : m.bestOf m.candidates = some p) (husable : Usable n p)
    (hq : Reached n q) (hmem : q ∈ m.candidates) : q = p :=
  (hq.2 p (h.reached_of_best hbest).1 husable).antisymm (h.before_of_best hbest hmem)

/-- When a usable candidate comes up, those that would clear links are gone. -/
lemma Progress.cleared_gone (hbest : m.bestOf m.candidates = some p) (husable : Usable n p)
    (hq : Reached n q) (hcleared : q ∈ cleared n q) : q ∉ m.candidates := by
  intro hmem
  rw [h.reached_eq hbest husable hq hmem, mem_cleared_iff] at hcleared
  have hgood := ((usable_iff n p).mp husable).2
  rw [hgood] at hcleared
  exact absurd hcleared.2.1 (by decide)

lemma Progress.outcome_usable (hbest : m.bestOf m.candidates = some p) (husable : Usable n p) :
    Outcome n (.selected m (some p)) := by
  have hreach := h.reached_of_best hbest
  refine .done m (some p) ⟨?_, ?_, by simp, ?_⟩
    (h.not_clash fun q => h.cleared_gone hbest husable) (h.not_stray ?_)
  · rintro q ⟨⟩
    exact ⟨hreach.1, husable⟩
  · rintro q ⟨⟩ r hr hru
    exact (hreach.2 r hr hru).not_worse hr
  · exact fun q hq hqu => h.usable_mem hq hqu
  · intro q hq _ hfork hmem
    rw [h.reached_eq hbest husable hq hmem] at hfork
    exact hfork husable.fork

/-- The assertion of a round holds exactly when no link would be cleared twice. -/
lemma Progress.walkAsserts_iff (hp : p ∈ n.candidates) (hfork : OnFork n p) :
    walkAsserts m p = true ↔ ∀ v ∈ seen, ∀ c ∈ cleared n p, c ∉ cleared n v := by
  constructor
  · intro hassert v hv c hcp hcv
    obtain ⟨-, hmissing, hpassed⟩ := mem_cleared_iff.mp hcp
    have hc := suffix_of_mem_passed hpassed
    rw [← h.passed_eq hfork hmissing] at hpassed
    have hlinked := (h.linked p hp c hc.1 hc.2.1).mpr ⟨v, hv, hcv⟩
    rw [walkAsserts_eq_false hpassed hlinked (height_of_mem_cleared hcp)] at hassert
    cases hassert
  · intro hdisjoint
    apply walkAsserts_of_linked
    · intro c hc
      obtain ⟨hsuffix, hne, -, -, -, hfate⟩ := suffix_of_mem_passed hc
      by_contra hno
      obtain ⟨v, hv, hcv⟩ := (h.linked p hp c hsuffix hne).mp (eq_false_of_ne_true hno)
      obtain ⟨hcfork, hmissing, -⟩ := mem_cleared_iff.mp (clears_self hcv)
      rw [h.fate_eq hcfork, hmissing, h.fate_eq hfork] at hfate
      rw [h.passed_eq hfork hfate.symm] at hc
      exact hdisjoint v hv c (mem_cleared_iff.mpr ⟨hfork, hfate.symm, hc⟩) hcv
    · intro hbad
      obtain ⟨-, hfate, hnone, -⟩ := stop_of_fate hbad
      have hne : (m.walkToActive p).1 ≠ [] := by
        intro hnil
        rw [hnil] at hfate
        exact hbad hfate.symm
      by_contra hno
      obtain ⟨v, hv, hcv⟩ :=
        (h.linked p hp _ (walkToActive_suffix m p) hne).mp (eq_false_of_ne_true hno)
      obtain ⟨hcfork, hmissing, hpassed⟩ := mem_cleared_iff.mp (clears_self hcv)
      rw [← h.passed_eq hcfork hmissing, hnone] at hpassed
      simp at hpassed

/-- One round for a candidate on the finalised fork: a block on its way has lost its link, or the
candidate is selected, or its branch is thrown out. -/
lemma Progress.round_of_onFork (hbest : m.bestOf m.candidates = some p) (hfork : OnFork n p)
    (fuel : ℕ) :
    (selectLoop (fuel + 1) m = .assertFailed ∧ Clash n) ∨
      (selectLoop (fuel + 1) m = .selected m (some p) ∧ Usable n p) ∨
      selectLoop (fuel + 1) m =
          selectLoop fuel (rejectChain (decide (fate m p = .failed)) (m.walkToActive p).1 p m) ∧
        fate n p ≠ .good ∧ ∀ v ∈ seen, ∀ c ∈ cleared n p, c ∉ cleared n v := by
  have hreach := h.reached_of_best hbest
  rw [selectLoop]
  simp only [hbest]
  rw [rejectUnfinalized_of_onFork ((onFork_congr h.chain p).mpr hfork)]
  obtain ⟨hflag, hbad⟩ := walkToActive_flags m p
  rw [hbad, hflag, h.fate_eq hfork]
  by_cases hassert : walkAsserts m p = true
  · rw [if_pos hassert]
    by_cases hgood : fate n p = .good
    · rw [if_neg (by simp [hgood])]
      exact .inr (.inl ⟨rfl, (usable_iff n p).mpr ⟨hfork, hgood⟩⟩)
    · rw [if_pos (by simp [hgood])]
      exact .inr (.inr ⟨rfl, hgood, (h.walkAsserts_iff hreach.1 hfork).mp hassert⟩)
  · rw [if_neg hassert]
    rw [h.walkAsserts_iff hreach.1 hfork] at hassert
    push Not at hassert
    obtain ⟨v, hv, c, hcp, hcv⟩ := hassert
    exact .inl ⟨rfl, h.clash hbest hv hcp hcv⟩

/-- One round: the selection ends, or the candidate is thrown out and the invariant is kept. -/
lemma Progress.round (hlinked : CandidatesLinked n) (hbest : m.bestOf m.candidates = some p)
    (fuel : ℕ) :
    Outcome n (selectLoop (fuel + 1) m) ∨
      ∃ m' : Node, selectLoop (fuel + 1) m = selectLoop fuel m' ∧ Progress n (p :: seen) m' ∧
        m'.candidates.length < m.candidates.length := by
  have hreach := h.reached_of_best hbest
  have hless : ∀ {m' : Node} {gone : List BlockIndex}, Rejection n m m' p gone →
      m'.candidates.length < m.candidates.length := by
    intro m' gone hreject
    rw [hreject.candidates]
    exact length_filter_lt_length_iff_exists.mpr
      ⟨p, mem_of_bestOf hbest, by simp [hreject.self]⟩
  by_cases hfork : OnFork n p
  · rcases h.round_of_onFork hbest hfork fuel with ⟨heq, hclash⟩ | ⟨heq, husable⟩ |
      ⟨heq, hgood, hdisjoint⟩
    · rw [heq]
      exact .inl (.asserted hclash)
    · rw [heq]
      exact .inl (h.outcome_usable hbest husable)
    · have hreject := h.rejection_of_onFork hfork hgood
      exact .inr ⟨_, heq, h.reject hreject hbest hdisjoint, hless hreject⟩
  · rw [selectLoop]
    simp only [hbest]
    rw [rejectUnfinalized_of_not_onFork (mt (onFork_congr h.chain p).mp hfork)]
    obtain ⟨hne, -⟩ := hlinked p hreach.1
    obtain ⟨b, q, rfl⟩ := exists_cons_of_ne_nil hne
    by_cases hactive : n.contains (b :: q) = true
    · -- the candidate is marked, but the walk does not look at it
      have hcontains : (m.mark (b :: q) fun s => { s with failedValid := true }).contains (b :: q)
          = true := by
        rw [← hactive, ← contains_congr h.chain]
        rfl
      rw [walkAsserts, walkToActive, hcontains]
      exact .inl (.strayed _ _ (fun husable => hfork husable.fork)
        ⟨_, hreach, hactive, hfork⟩)
    · have hno := eq_false_of_ne_true hactive
      have hcontains : (m.mark (b :: q) fun s => { s with failedValid := true }).contains (b :: q)
          = false := by
        rw [← hno, ← contains_congr h.chain]
        rfl
      have hlink : (m.status (b :: q)).linked = true := by
        by_contra hcut
        obtain ⟨v, hv, hmem⟩ := (h.linked _ hreach.1 _ (suffix_refl _) hne).mp
          (eq_false_of_ne_true hcut)
        exact hfork (mem_cleared_iff.mp (clears_self hmem)).1
      have hreject := rejection_of_not_onFork (m := m) hfork hno
      have hnone : cleared n (b :: q) = [] := if_neg fun h => hfork h.1
      refine .inr ⟨_, ?_, h.reject hreject hbest (by simp [hnone]), hless hreject⟩
      rw [walkAsserts, walkToActive, hcontains, rejectChain]
      simp [mark, hlink, Status.failed]

/-- Enough rounds end in one of the three ways. -/
theorem Progress.outcome (hlinked : CandidatesLinked n) (fuel : ℕ)
    (hfuel : m.candidates.length < fuel) : Outcome n (selectLoop fuel m) := by
  induction fuel generalizing m seen with
  | zero => exact absurd hfuel (Nat.not_lt_zero _)
  | succ fuel ih =>
    cases hbest : m.bestOf m.candidates with
    | none =>
      rw [selectLoop]
      simp only [hbest]
      exact h.outcome_none hbest
    | some p =>
      rcases h.round hlinked hbest fuel with hdone | ⟨m', heq, hprogress, hless⟩
      · exact hdone
      · rw [heq]
        exact ih hprogress (by omega)

end Invariant

/-- The selection is right exactly when no two branches clash and no candidate of the active
chain is off the finalised fork. -/
theorem selectsRight_iff {n : Node} (hlinked : CandidatesLinked n) :
    SelectsRight n ↔ ¬ Clash n ∧ ¬ Stray n := by
  have hout := (Progress.initial hlinked).outcome hlinked (n.candidates.length + 1)
    (Nat.lt_succ_self _)
  rw [SelectsRight, selectChain]
  generalize selectLoop (n.candidates.length + 1) n = result at hout
  cases hout with
  | asserted hclash =>
    refine ⟨?_, fun hno => absurd hclash hno.1⟩
    rintro ⟨m, best, heq, -⟩
    cases heq
  | strayed m p husable hstray =>
    refine ⟨?_, fun hno => absurd hstray hno.2⟩
    rintro ⟨m', best, heq, hright⟩
    cases heq
    exact absurd (hright.mem p rfl).2 husable
  | done m best hright hclash hstray =>
    exact ⟨fun _ => ⟨hclash, hstray⟩, fun _ => ⟨m, best, rfl, hright⟩⟩

/-- A node on the genesis block that has all blocks but `blockA`. -/
def prunedNode (candidates : List BlockIndex) : Node :=
  { Node.fresh with
    status := fun p => { linked := true, haveData := decide (p ≠ blockA) }
    candidates := candidates
    tip := blockG }

lemma candidatesLinked_prunedNode {candidates : List BlockIndex} (h : [] ∉ candidates) :
    CandidatesLinked (prunedNode candidates) :=
  fun _ hp => ⟨fun hnil => h (hnil ▸ hp), fun _ _ _ => rfl⟩

/-- Two candidates above a block without data share the block above it: the second one runs into
the assertion. -/
theorem shared_branch_asserts :
    CandidatesLinked (prunedNode [⟨3, 2⟩ :: blockB, ⟨4, 1⟩ :: blockB]) ∧
      selectChain (prunedNode [⟨3, 2⟩ :: blockB, ⟨4, 1⟩ :: blockB]) = .assertFailed ∧
      ¬ SelectsRight (prunedNode [⟨3, 2⟩ :: blockB, ⟨4, 1⟩ :: blockB]) := by
  have hassert : selectChain (prunedNode [⟨3, 2⟩ :: blockB, ⟨4, 1⟩ :: blockB]) =
      .assertFailed := by
    rfl
  refine ⟨candidatesLinked_prunedNode (by simp), hassert, ?_⟩
  rintro ⟨m, best, heq, -⟩
  cases heq

theorem selectsRight_prunedNode :
    CandidatesLinked (prunedNode [blockB, ⟨5, 1⟩ :: blockG]) ∧
      SelectsRight (prunedNode [blockB, ⟨5, 1⟩ :: blockG]) := by
  have hlinked : CandidatesLinked (prunedNode [blockB, ⟨5, 1⟩ :: blockG]) :=
    candidatesLinked_prunedNode (by decide)
  refine ⟨hlinked, (selectsRight_iff hlinked).mpr ⟨?_, ?_⟩⟩
  · rintro ⟨c, p, q, ⟨hp, hcp⟩, ⟨hq, hcq⟩, -, hsuffix⟩
    have hnone : cleared (prunedNode [blockB, ⟨5, 1⟩ :: blockG])
        (⟨5, 1⟩ :: blockG) = [] := by
      rfl
    have hsole : ∀ r, Reached (prunedNode [blockB, ⟨5, 1⟩ :: blockG]) r →
        c ∈ cleared (prunedNode [blockB, ⟨5, 1⟩ :: blockG]) r → r = blockB := by
      intro r hr hcr
      rcases mem_cons.mp hr.1 with rfl | hr'
      · rfl
      · obtain rfl := mem_singleton.mp hr'
        rw [hnone] at hcr
        simp at hcr
    rw [hsole p hp hcp, hsole q hq hcq] at hsuffix
    exact hsuffix (suffix_refl _)
  · rintro ⟨p, -, -, hfork⟩
    exact hfork (.inl rfl)

end PyrrhaNode.ChainSelection
