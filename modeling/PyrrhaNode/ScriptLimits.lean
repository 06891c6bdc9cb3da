import PyrrhaNode.OpcodeSpecs

/-!
# Limits of the script machine

After every step the stacks hold at most 1000 items, no item is too large and the modulus is in its
range.  The opcodes see to the sizes of items themselves, so the result rests on all of them.  Only
the covenant of a token group is pushed without a look at its size; the token group check, however,
leaves no covenant that is too large.
-/
namespace PyrrhaNode.ScriptLimits

open Serialize Transaction Script GroupTokens Interpreter
open GroupAccounting GroupAcceptance ScriptAttributes OpcodeTable OpExec OpcodeSpecs Fallible
open PushTxState (TxState)

/-- The stacks are not too long either. -/
structure Limits (m : ScriptMachine) : Prop extends WithinLimits m where
  size : m.stack.length + m.altstack.length ≤ maxStackSize

variable {nested : Evaluator} {env : ScriptEnv ExecContext} {execDepth : ℕ} {s : Run}
  {i : Instruction} {smStk rest : List StackItem} {r : ℤ}

lemma limits_countStep {opcode : UInt8} (h : WithinLimits s.machine) :
    wp (countStep env execDepth opcode) (fun _ t => WithinLimits t.machine)
      (fun _ _ => True) s := by
  have hcount : WithinLimits (s.machine.countOp opcode) := by
    unfold ScriptMachine.countOp
    split_ifs
    · exact { h with }
    · exact h
  simp only [countStep, record, wp_ite, wp_bind, wp_modify, wp_get, wp_throw, wp_pure]
  exact ⟨fun _ => ⟨fun _ => trivial, fun _ => hcount⟩, fun _ => h⟩

lemma limits_execPlain (hsis : CovenantsOk env.sis.view.state)
    (hdata : i.data.length ≤ maxScriptElementSize) (h : WithinLimits s.machine) :
    wp (execPlain env i) (fun _ t => WithinLimits t.machine) (fun _ _ => True) s := by
  simp only [execPlain, onMachine, record, wp_ite, wp_bind, wp_modify, wp_get, wp_set, wp_pure,
    wp_ofExcept]
  refine ⟨fun m hm => ?_, fun _ _ => trivial⟩
  have hkept : WithinLimits m := (keeps_execOp hdata m hm).limits hsis h
  exact ⟨fun _ => hkept, fun _ => hkept⟩

/-- Evaluators whose machines keep their limits. -/
def KeepsLimits (nested : Evaluator) : Prop :=
  ∀ env execDepth code s, CovenantsOk env.sis.view.state → WithinLimits s.machine →
    wp (nested env execDepth code) (fun _ t => WithinLimits t.machine) (fun _ _ => True) s

lemma withinLimits_nestedRun (h : ∀ x ∈ smStk, ItemOk x) :
    WithinLimits (nestedRun smStk).machine where
  stack := h
  altstack := by simp [nestedRun, ScriptMachine.init]
  modulo_pos := by
    change (0 : ℤ) < 2 ^ 64
    decide
  modulo_le := by
    exact pow_le_pow_right₀ (by decide) (by decide)

lemma limits_takeResults {results : List StackItem} (h : WithinLimits s.machine)
    (hresults : ∀ x ∈ results, ItemOk x) :
    wp (takeResults r results) (fun _ t => WithinLimits t.machine) (fun _ _ => True) s := by
  simp only [takeResults, signed64, wp_ite, wp_bind, wp_modify, wp_throw, wp_pure, implies_true,
    true_and]
  intro _ _
  refine { h with stack := fun x hx => ?_ }
  rcases List.mem_append.mp hx with hx | hx
  · exact h.stack x hx
  · exact hresults x (List.mem_of_mem_drop hx)

/-- A step that succeeds leaves the machine within all limits. -/
lemma limits_step (hnested : KeepsLimits nested) (hsis : CovenantsOk env.sis.view.state)
    (h : WithinLimits s.machine) :
    wp (step nested env execDepth) (fun _ t => Limits t.machine) (fun _ _ => True) s := by
  have hsize : ∀ t : Run, WithinLimits t.machine →
      wp checkStackSize (fun _ t => Limits t.machine) (fun _ _ => True) t := by
    intro t ht
    simp only [checkStackSize, wp_bind, wp_get, wp_ite, wp_throw, wp_pure, not_lt]
    exact ⟨fun _ => trivial, fun hle => ⟨ht, hle⟩⟩
  have hexec : ∀ (i : Instruction) (t : Run), i.data.length ≤ maxScriptElementSize →
      WithinLimits t.machine → wp (execStep nested env execDepth i)
        (fun _ t => WithinLimits t.machine) (fun _ _ => True) t := by
    intro i t hdata ht
    simp only [execStep, wp_bind, wp_get, wp_ite]
    refine ⟨fun _ => ?_, fun _ => limits_execPlain hsis hdata ht⟩
    refine wp_execOpExec (fun _ _ => trivial) fun _ _ r code rest smStk sums htaken => ?_
    rw [wp_execCode]
    refine ⟨fun _ => trivial, fun _ => ⟨fun hok => ?_, fun _ _ => trivial⟩⟩
    have hstart := withinLimits_nestedRun fun x hx => ht.stack x (htaken.smStk_subset hx)
    have hend := of_outcome_ok
      (hnested (nestedEnv env t.machine.stats) (execDepth + 1) code _ hsis hstart) hok
    refine limits_takeResults ?_ hend.stack
    exact { ht with stack := fun x hx => ht.stack x (htaken.rest_subset hx) }
  simp only [step, wp_bind, wp_get]
  cases getOp s.pc with
  | none => trivial
  | some op =>
    simp only [stepInstruction, wp_bind, wp_set, wp_ite, wp_throw, implies_true, true_and, not_lt]
    intro hdata
    refine wp_mono (fun _ t ht => ?_) (fun _ _ h => h) (limits_countStep h)
    intro _
    exact wp_mono (fun _ t ht => hsize t ht) (fun _ _ h => h) (hexec _ t hdata ht)

/-- The induction is on the number of machines below each other. -/
theorem keepsLimits_evalNested (n : ℕ) : KeepsLimits (evalNested n) := by
  induction n with
  | zero => exact fun _ _ _ _ _ _ => trivial
  | succ n ih =>
    intro env execDepth code s hsis h
    refine wp_evalWith (fun t ht => ?_) { h with }
    exact wp_mono (fun _ _ ht => ht.toWithinLimits) (fun _ _ h => h) (limits_step ih hsis ht)

section Covenants

variable {H : HashFns} {tx : CTransaction} {view : COutPoint → Option Coins.Coin}
  {g : CGroupTokenID}

/-- A template hash is short, and it is empty where there is no template. -/
lemma length_outputContractId_le (out : CTxOut) : (outputContractId out).length ≤ 32 := by
  unfold outputContractId getScriptTemplate
  cases out.scriptType with
  | pushOnly | satoscript => exact Nat.zero_le _
  | template =>
    rcases isScriptGrouped .template out.scriptPubKey with ⟨info, - | pc⟩
    · exact Nat.zero_le _
    dsimp only
    rcases getOp pc with - | ⟨opcode, data, pc⟩
    · exact Nat.zero_le _
    dsimp only
    split_ifs with hpush hhash
    · exact Nat.zero_le _
    · exact Nat.zero_le _
    · rcases getOp pc with - | ⟨opcode', argsHash, pc⟩
      · exact Nat.zero_le _
      dsimp only
      split_ifs
      · exact Nat.zero_le _
      have hok : templateHashOk (numericOpcodeToVector opcode data) = true := by
        simpa using hhash
      simp only [templateHashOk, Bool.or_eq_true, Bool.and_eq_true,
        decide_eq_true_eq] at hok
      simp only [ScriptTemplate.contractId]
      omega

lemma length_covenantOf_le (g : CGroupTokenID) (ins : List CTxOut) :
    (covenantOf g ins).length ≤ 32 := by
  induction ins using List.reverseRecOn with
  | nil => exact Nat.zero_le _
  | append_singleton ins out ih =>
    rw [covenantOf_append]
    split_ifs
    · exact length_outputContractId_le out
    · exact ih

/-- The covenants that the token group check leaves are template hashes. -/
theorem covenantsOk_of_checkGroupTokens {m : GroupBalanceMap}
    (h : checkGroupTokens H tx view = .ok m) {sis : TxState} (hsis : sis.groupState = some m) :
    CovenantsOk sis := by
  intro groupState hstate grpId hlength
  rw [hsis] at hstate
  cases hstate
  have hgroup : grpId ≠ noGroup := by
    rintro rfl
    exact absurd hlength (by decide)
  obtain ⟨outputs, inputs, houtputs, hinputs, hbalance, -⟩ := checkGroupTokens_eq h
  have hcounted := (inputPass_counted (outputPass_counted houtputs).1 hinputs).1 grpId hgroup
  rw [balancePass_keeps GroupBalance.covenant (fun h => ?_) (fun g => ?_) hbalance,
    hcounted.covenant]
  · exact (length_covenantOf_le grpId _).trans (by decide)
  · unfold checkCreation at h
    split_ifs at h <;> cases h <;> rfl
  · rw [inherited]
    split_ifs <;> rfl

end Covenants

/-- The states that a machine passes through as long as its steps return true. -/
inductive Reaches (nested : Evaluator) (env : ScriptEnv ExecContext) (execDepth : ℕ) (s : Run) :
    Run → Prop
  | start : Reaches nested env execDepth s s
  | step {t : Run} (h : Reaches nested env execDepth s t)
      (hok : (outcome (step nested env execDepth) t).1 = .ok ()) :
      Reaches nested env execDepth s (outcome (step nested env execDepth) t).2

lemma limits_of_reaches {n : ℕ} {t : Run} (hsis : CovenantsOk env.sis.view.state)
    (hs : Limits s.machine) (h : Reaches (evalNested n) env execDepth s t) : Limits t.machine := by
  induction h with
  | start => exact hs
  | step h hok ih =>
    exact of_outcome_ok (limits_step (keepsLimits_evalNested n) hsis ih.toWithinLimits) hok

/-- Where the covenants of token groups fit into items, every state of a machine that started within
the limits is within them, and the machines that it starts are at their start.  The token group
check leaves only such covenants. -/
theorem machine_keeps_limits (n : ℕ) (env : ScriptEnv ExecContext) (execDepth : ℕ) (s : Run)
    (hsis : CovenantsOk env.sis.view.state) (hs : Limits s.machine) :
    (∀ t, Reaches (evalNested n) env execDepth s t → Limits t.machine ∧
      ∀ rest smStk, TakenFrom t.machine.stack rest smStk → Limits (nestedRun smStk).machine) ∧
    ∀ H tx view m, checkGroupTokens H tx view = .ok m → ∀ sis : TxState, sis.groupState = some m →
      CovenantsOk sis := by
  refine ⟨fun t ht => ?_, fun H tx view m h sis hsis => covenantsOk_of_checkGroupTokens h hsis⟩
  have hlimits := limits_of_reaches hsis hs ht
  refine ⟨hlimits, fun rest smStk htaken =>
    ⟨withinLimits_nestedRun fun x hx => hlimits.stack x (htaken.smStk_subset hx), ?_⟩⟩
  change smStk.length + 0 ≤ maxStackSize
  have := htaken.length_le
  have := hlimits.size
  omega

/-- A state of the token groups with one group that has a covenant. -/
def covenantState : GroupBalanceMap :=
  DefaultMap.empty.modify plainGroup fun bal => { bal with covenant := List.replicate 32 0 }

/-- A context in which that state is all there is. -/
def covenantEnv : ScriptEnv ExecContext :=
  { ExecExact.emptyEnv with
    sis := { ExecExact.emptyContext with
      view := ⟨⟨some PushTxState.negativeTx, [], some covenantState, 0, 0⟩, 0⟩ } }

/-- A machine that is about to ask for the covenant. -/
def askCovenant : Run :=
  { nestedRun [.vch (PushTxState.specGroupCovenantHash :: plainGroup)] with pc := [0xea] }

lemma limits_askCovenant : Limits askCovenant.machine := by
  have hitem : ItemOk (.vch (PushTxState.specGroupCovenantHash :: plainGroup)) := by
    change (PushTxState.specGroupCovenantHash :: plainGroup).length ≤ maxScriptElementSize
    decide
  exact ⟨withinLimits_nestedRun (forall_mem_one hitem), by decide⟩

/-- The covenant is pushed, and the machine stays within its limits. -/
theorem machine_keeps_limits_askCovenant :
    Limits (outcome (step (evalNested 3) covenantEnv 0) askCovenant).2.machine := by
  have hsis : CovenantsOk covenantEnv.sis.view.state := by
    rintro groupState ⟨⟩ grpId -
    by_cases hgroup : grpId = plainGroup
    · rw [hgroup, covenantState, DefaultMap.get_modify_self, List.length_replicate]
      decide
    · rw [covenantState, DefaultMap.get_modify_of_ne _ hgroup]
      exact Nat.zero_le _
  exact ((machine_keeps_limits 3 covenantEnv 0 askCovenant hsis limits_askCovenant).1 _
    (.step .start (by decide +kernel))).1

end PyrrhaNode.ScriptLimits
