import PyrrhaNode.OpExec

/-!
# Operands of nested runs

`OP_EXEC` takes two counts from the stack, so the sums that it forms of them are chosen by the
script.  They are exact, and the opcode takes and returns the items that it should, unless the
number of parameters is within three of the largest signed number.
-/
namespace PyrrhaNode.ExecExact

open List Serialize Transaction Script Interpreter ScriptOps OpcodeTable Fallible OpExec
open Loop

variable {n : ℕ} {stack rest stk : List StackItem}

/-- Parameters are moved in the order in which they are popped. -/
lemma moveParams_eq_ok {smStk : List StackItem} (h : moveParams n stack smStk = .ok (rest, stk)) :
    n ≤ stack.length ∧ rest = stack.take (stack.length - n) ∧
      stk = smStk ++ (stack.drop (stack.length - n)).reverse := by
  induction n generalizing stack smStk with
  | zero =>
    cases h
    simp
  | succ n ih =>
    rw [moveParams] at h
    rcases eq_nil_or_concat' stack with rfl | ⟨below, item, rfl⟩
    · cases h
    simp only [List.getLast?_concat, dropLast_concat] at h
    obtain ⟨vch, hvch, h⟩ := bind_eq_ok.mp h
    obtain rfl := itemData_eq_ok hvch
    obtain ⟨hle, rfl, rfl⟩ := ih h
    have hlength : (below ++ [StackItem.vch vch]).length - (n + 1) = below.length - n := by
      simp
    refine ⟨by simp [hle], ?_, ?_⟩
    · rw [hlength, take_append_of_le_length (Nat.sub_le _ _)]
    · rw [hlength, drop_append_of_le_length (Nat.sub_le _ _)]
      simp

variable {nested : Evaluator} {env : ScriptEnv ExecContext} {execDepth : ℕ} {m : ScriptMachine}
  {s : Run} {r p : ℤ}

lemma stackAt_eq_ok {i : ℤ} {item : StackItem} (h : stackAt stack i = .ok item) :
    0 ≤ (stack.length : ℤ) + i ∧ stack[((stack.length : ℤ) + i).toNat]? = some item := by
  rw [stackAt, ite_throw_eq_ok, not_lt] at h
  obtain ⟨hpos, h⟩ := h
  refine ⟨hpos, ?_⟩
  cases hget : stack[((stack.length : ℤ) + i).toNat]? with
  | none => simp [hget] at h
  | some found =>
    rw [hget] at h
    cases h
    rfl

lemma two_le_of_countAt (h : countAt env m 2 = .ok p) : 2 ≤ m.stack.length := by
  obtain ⟨item, hitem, -⟩ := bind_eq_ok.mp h
  have hpos := (stackAt_eq_ok hitem).1
  omega

lemma bmod_of_inRange {x : ℤ} (h : -2 ^ 63 ≤ x ∧ x < 2 ^ 63) : x.bmod (2 ^ 64) = x :=
  Int.bmod_eq_of_le (by omega) (by omega)

/-- How the arguments are read once the counts are known. -/
lemma wp_execArgs (h₁ : countAt env m 1 = .ok r) (h₂ : countAt env m 2 = .ok p)
    {Q : ℤ × ℤ × Bytes → Run → Prop} {E : ScriptError → Run → Prop} :
    wp (execArgs env m) Q E s ↔
      (p < 0 → E scriptErrInvalidStackOperation s) ∧
      (0 ≤ p → ((m.stack.length : ℤ) < (3 + p).bmod (2 ^ 64) →
        E scriptErrInvalidStackOperation { s with sums := s.sums ++ [3 + p] }) ∧
      ((3 + p).bmod (2 ^ 64) ≤ m.stack.length →
        (∀ item, stackAt m.stack ((-3 - p).bmod (2 ^ 64)) = .ok item →
          (∀ code, itemData item = .ok code →
            Q (r, p, code) { s with sums := s.sums ++ [3 + p, -3 - p] }) ∧
          ∀ e, itemData item = .error e → E e { s with sums := s.sums ++ [3 + p, -3 - p] }) ∧
        ∀ e, stackAt m.stack ((-3 - p).bmod (2 ^ 64)) = .error e →
          E e { s with sums := s.sums ++ [3 + p, -3 - p] })) := by
  have htwo : ¬m.stack.length < 2 := by
    have := two_le_of_countAt h₂
    omega
  simp only [execArgs, if_neg htwo, signed64, wp_bind, wp_ofExcept, wp_ite, wp_throw, wp_modify,
    wp_pure, h₁, h₂, Except.ok.injEq, reduceCtorEq, forall_eq', false_imp_iff, implies_true,
    and_true, not_lt, append_assoc, cons_append, nil_append]

/-- The parameters in the order in which the nested machine receives them. -/
def paramsOf (stack : List StackItem) (n : ℕ) : List StackItem :=
  ((stack.take (stack.length - 2)).drop (stack.length - 2 - n)).reverse

/-- The code and its parameters are replaced by the last results. -/
structure Replaces (nested : Evaluator) (env : ScriptEnv ExecContext) (execDepth : ℕ)
    (m m' : ScriptMachine) (r p : ℤ) : Prop where
  params_nonneg : 0 ≤ p
  enough : 3 + p ≤ m.stack.length
  results_nonneg : 0 ≤ r
  replaced : ∃ code, m.stack[m.stack.length - (3 + p.toNat)]? = some (.vch code) ∧
    let sub := subOutcome nested env execDepth m code (paramsOf m.stack p.toNat)
    let results := sub.2.machine.stack
    sub.1 = .ok () ∧ r ≤ results.length ∧ m'.stack =
      m.stack.take (m.stack.length - (3 + p.toNat)) ++ results.drop (results.length - r.toNat)

/-- Evaluators whose machines end with a stack no larger than the limit or the one that they
started with. -/
def Bounded (nested : Evaluator) : Prop :=
  ∀ env execDepth code run, (outcome (nested env execDepth code) run).1 = .ok () →
    (outcome (nested env execDepth code) run).2.machine.stack.length ≤
      max maxStackSize run.machine.stack.length

lemma dropLast_dropLast (stack : List StackItem) :
    stack.dropLast.dropLast = stack.take (stack.length - 2) := by
  rw [dropLast_eq_take, dropLast_eq_take, take_take, length_take]
  congr 1
  omega

/-- What is left of the stack when the counts, the parameters and the code are taken. -/
lemma moveParams_params (h : moveParams n stack.dropLast.dropLast [] = .ok (rest, stk)) :
    rest.dropLast = stack.take (stack.length - (3 + n)) ∧ stk = paramsOf stack n := by
  rw [dropLast_dropLast] at h
  obtain ⟨hle, rfl, rfl⟩ := moveParams_eq_ok h
  have hlength : (stack.take (stack.length - 2)).length = stack.length - 2 := by
    rw [length_take]
    omega
  rw [hlength] at hle ⊢
  refine ⟨?_, by rw [paramsOf, nil_append]⟩
  rw [take_take, dropLast_eq_take, take_take, length_take]
  congr 1
  omega

/-- The sums that the opcode forms: always the number of items that it needs, and only results that
fit if that number does. -/
structure Forms (execDepth : ℕ) (p : ℤ) (s s' : Run) (formed : List ℤ) : Prop where
  sums_eq : s'.sums = s.sums ++ formed
  needed : execDepth < maxExecDepth → s.machine.stats.nOpExec < maxOpExec → 0 ≤ p → 3 + p ∈ formed
  inRange : 3 + p < 2 ^ 63 → ∀ x ∈ formed, -2 ^ 63 ≤ x ∧ x < 2 ^ 63

lemma length_results_lt (hnested : Bounded nested) {code : CScript} (hp : 0 ≤ p)
    (hrange : 3 + p < 2 ^ 63) (henough : 3 + p ≤ stack.length)
    (hok : (subOutcome nested env execDepth m code (paramsOf stack p.toNat)).1 = .ok ()) :
    (subOutcome nested env execDepth m code (paramsOf stack p.toNat)).2.machine.stack.length <
      2 ^ 63 := by
  have hlength : (paramsOf stack p.toNat).length = p.toNat := by
    rw [paramsOf, length_reverse, length_drop, length_take]
    omega
  have hle := hnested _ _ _ _ hok
  change _ ≤ max maxStackSize (paramsOf stack p.toNat).length at hle
  rw [maxStackSize] at hle
  exact hle.trans_lt (by omega)

lemma forms_nil (h : ¬(execDepth < maxExecDepth ∧ s.machine.stats.nOpExec < maxOpExec ∧ 0 ≤ p)) :
    ∃ formed, Forms execDepth p s s formed :=
  ⟨[], (append_nil _).symm, fun hdepth hcount hp => absurd ⟨hdepth, hcount, hp⟩ h, nofun⟩

/-- The number of items that are needed is formed first. -/
lemma forms_cons {s' : Run} {later : List ℤ} (hsums : s'.sums = s.sums ++ (3 + p) :: later)
    (hp : 0 ≤ p) (hlater : 3 + p < 2 ^ 63 → ∀ x ∈ later, -2 ^ 63 ≤ x ∧ x < 2 ^ 63) :
    ∃ formed, Forms execDepth p s s' formed := by
  refine ⟨(3 + p) :: later, hsums, fun _ _ _ => mem_cons_self, fun hrange x hx => ?_⟩
  rcases mem_cons.mp hx with rfl | hx
  · omega
  · exact hlater hrange x hx

lemma wp_execOpExec_forms (hnested : Bounded nested) (h₁ : countAt env s.machine 1 = .ok r)
    (h₂ : countAt env s.machine 2 = .ok p) :
    wp (execOpExec nested env execDepth) (fun _ s' => ∃ formed, Forms execDepth p s s' formed)
      (fun _ s' => ∃ formed, Forms execDepth p s s' formed) s := by
  simp only [execOpExec, wp_bind, wp_get, wp_ite, wp_throw, wp_ofExcept, wp_execArgs h₁ h₂]
  refine ⟨fun hdepth => forms_nil (by omega), fun hdepth => ⟨fun hcount => forms_nil (by omega),
    fun hcount => ⟨fun hneg => forms_nil (by omega), fun hp => ⟨fun _ => ?_, fun hneeded => ?_⟩⟩⟩⟩
  · exact forms_cons rfl hp fun _ _ hx => absurd hx not_mem_nil
  · have hindex : 3 + p < 2 ^ 63 → ∀ x ∈ [-3 - p], -2 ^ 63 ≤ x ∧ x < 2 ^ 63 := by
      intro hrange x hx
      rw [mem_singleton.mp hx]
      omega
    refine ⟨fun item _ => ⟨fun code _ => ⟨?_, fun e _ => forms_cons rfl hp hindex⟩,
      fun e _ => forms_cons rfl hp hindex⟩, fun e _ => forms_cons rfl hp hindex⟩
    rintro ⟨rest, stk⟩ hmove
    obtain ⟨-, rfl⟩ := moveParams_params hmove
    dsimp only
    rw [wp_execCode]
    refine ⟨fun _ => forms_cons rfl hp hindex, fun _ => ⟨fun hok => ?_, fun e _ =>
      forms_cons rfl hp hindex⟩⟩
    simp only [takeResults, signed64, wp_bind, wp_ite, wp_throw, wp_modify, wp_pure, not_lt]
    refine ⟨fun _ => forms_cons rfl hp hindex, fun hr => ⟨fun _ => forms_cons rfl hp hindex,
      fun hle => forms_cons (append_assoc _ _ _) hp fun hrange x hx => ?_⟩⟩
    rcases mem_append.mp hx with hx | hx
    · exact hindex hrange x hx
    · rw [bmod_of_inRange (by omega)] at hneeded
      have hlt := length_results_lt hnested hp hrange hneeded hok
      dsimp only at hlt
      rw [mem_singleton.mp hx]
      omega

lemma wp_execOpExec_replaces (hnested : Bounded nested) (h₁ : countAt env s.machine 1 = .ok r)
    (h₂ : countAt env s.machine 2 = .ok p) (hrange : 3 + p < 2 ^ 63) :
    wp (execOpExec nested env execDepth)
      (fun _ s' => Replaces nested env execDepth s.machine s'.machine r p) (fun _ _ => True) s := by
  simp only [execOpExec, wp_bind, wp_get, wp_ite, wp_throw, wp_ofExcept, wp_execArgs h₁ h₂,
    implies_true, and_true, true_and]
  intro hdepth hcount hp hneeded item hitem code hcode
  rintro ⟨rest, stk⟩ hmove
  rw [bmod_of_inRange (by omega)] at hneeded hitem
  obtain ⟨hpos, hget⟩ := stackAt_eq_ok hitem
  obtain rfl := itemData_eq_ok hcode
  obtain ⟨hrest, rfl⟩ := moveParams_params hmove
  rw [wp_execCode]
  refine ⟨fun _ => trivial, fun _ => ⟨fun hok => ?_, fun _ _ => trivial⟩⟩
  have hlt := length_results_lt hnested hp hrange hneeded hok
  rw [wp_takeResults hlt]
  refine ⟨fun _ => trivial, fun hr => ⟨fun _ => trivial, fun hle => ?_⟩⟩
  refine ⟨hp, hneeded, hr, code, ?_, hok, hle, ?_⟩
  · rw [← hget]
    congr 1
    omega
  · rw [← hrest]
    rfl

/-- What is asked of the opcode for two counts: the sums that it forms fit into signed words, it
fails if there are too few items or a count is negative, and otherwise it replaces exactly its
operands by the last results of the nested machine. -/
structure HandlesExactly (nested : Evaluator) (env : ScriptEnv ExecContext) (execDepth : ℕ)
    (s : Run) (r p : ℤ) : Prop where
  inRange : ∃ formed, (outcome (execOpExec nested env execDepth) s).2.sums = s.sums ++ formed ∧
    ∀ x ∈ formed, -2 ^ 63 ≤ x ∧ x < 2 ^ 63
  fails : (s.machine.stack.length : ℤ) < 3 + p ∨ p < 0 ∨ r < 0 →
    ∃ e, (outcome (execOpExec nested env execDepth) s).1 = .error e
  replaces : (outcome (execOpExec nested env execDepth) s).1 = .ok () →
    Replaces nested env execDepth s.machine (outcome (execOpExec nested env execDepth) s).2.machine
      r p

/-- Before the counts are looked at, the opcode fails at its limits and changes nothing. -/
lemma wp_execOpExec_limits (h : ¬(execDepth < maxExecDepth ∧ s.machine.stats.nOpExec < maxOpExec)) :
    wp (execOpExec nested env execDepth) (fun _ _ => False) (fun _ s' => s' = s) s := by
  simp only [execOpExec, wp_bind, wp_get, wp_ite, wp_throw, not_le]
  exact ⟨fun _ => trivial, fun hdepth =>
    ⟨fun _ => trivial, fun hcount => absurd ⟨hdepth, hcount⟩ h⟩⟩

/-- For all counts that the conversion to signed words returns, the opcode handles its operands
exactly iff the number of items that it needs fits into a signed word. -/
theorem execOpExec_exact_iff (n : ℕ) (env : ScriptEnv ExecContext) (execDepth : ℕ) (s : Run)
    {r p : ℤ} (h₁ : countAt env s.machine 1 = .ok r) (h₂ : countAt env s.machine 2 = .ok p) :
    HandlesExactly (evalNested n) env execDepth s r p ↔
      (execDepth < maxExecDepth → s.machine.stats.nOpExec < maxOpExec → 3 + p < 2 ^ 63) := by
  have hnested : Bounded (evalNested n) := fun _ _ _ _ hok =>
    of_outcome_ok (wp_evalNested_size (le_max_right _ _)) hok
  generalize evalNested n = nested at hnested ⊢
  have hforms : wp (execOpExec nested env execDepth) _ _ s := wp_execOpExec_forms hnested h₁ h₂
  obtain ⟨formed, hsums, hneeded, hinRange⟩ := of_outcome hforms
  constructor
  · rintro ⟨⟨formed', hsums', hall⟩, -, -⟩ hdepth hcount
    obtain rfl : formed = formed' := append_cancel_left (hsums.symm.trans hsums')
    by_contra hlarge
    have := hall _ (hneeded hdepth hcount (by omega))
    omega
  · intro hcond
    by_cases hlimits : execDepth < maxExecDepth ∧ s.machine.stats.nOpExec < maxOpExec
    · have hrange := hcond hlimits.1 hlimits.2
      have hreplaces : wp (execOpExec nested env execDepth) _ _ s :=
        wp_execOpExec_replaces hnested h₁ h₂ hrange
      refine ⟨⟨formed, hsums, hinRange hrange⟩, fun hbad => ?_, of_outcome_ok hreplaces⟩
      cases hout : (outcome (execOpExec nested env execDepth) s).1 with
      | error e => exact ⟨e, rfl⟩
      | ok _ =>
        have hdone := of_outcome_ok hreplaces hout
        have henough := hdone.enough
        have hp := hdone.params_nonneg
        have hr := hdone.results_nonneg
        omega
    · have hfails : wp (execOpExec nested env execDepth) _ _ s := wp_execOpExec_limits hlimits
      cases hout : (outcome (execOpExec nested env execDepth) s).1 with
      | ok _ => exact (of_outcome_ok hfails hout).elim
      | error e =>
        have hsame := of_outcome_error hfails hout
        refine ⟨⟨[], ?_, by simp⟩, fun _ => ⟨e, hout⟩, fun hok => ?_⟩
        · rw [hsame, append_nil]
        · rw [hout] at hok
          cases hok

/-- A context without a transaction, whose memory is zero. -/
def emptyContext : ExecContext where
  hashes := lengthHash
  ripemd160 := lengthHash.hash160
  sha1 := lengthHash.hash160
  checker := none
  view := ⟨⟨none, [], none, 0, 0⟩, 0⟩
  memory _ _ := 0

def emptyEnv : ScriptEnv ExecContext := ⟨0, emptyContext, 201, 0xffffffff⟩

/-- A machine with code, parameters, their number and a number of results on its stack. -/
def execRun (code : Bytes) (params : List Bytes) (paramQty returnedParamQty : Bytes) : Run :=
  nestedRun ((code :: params ++ [paramQty, returnedParamQty]).map .vch)

/-- Two parameters are added. -/
theorem execOpExec_exact_opAdd :
    HandlesExactly (evalNested 3) emptyEnv 0 (execRun [0x93] [[2], [3]] [2] [1]) 1 2 ∧
      (outcome (execOpExec (evalNested 3) emptyEnv 0)
        (execRun [0x93] [[2], [3]] [2] [1])).2.machine.stack = [.vch [5]] :=
  ⟨(execOpExec_exact_iff 3 emptyEnv 0 (execRun [0x93] [[2], [3]] [2] [1]) (by decide)
    (by decide)).mpr fun _ _ => by decide, by decide +kernel⟩

/-- The largest number of parameters makes both sums overflow. -/
theorem execOpExec_overflows :
    (outcome (execOpExec (evalNested 3) emptyEnv 0)
      (execRun [] [] [255, 255, 255, 255, 255, 255, 255, 127] [])).2.sums =
        [2 ^ 63 + 2, -2 ^ 63 - 2] := by
  decide +kernel

end PyrrhaNode.ExecExact
