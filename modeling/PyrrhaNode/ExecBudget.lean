import PyrrhaNode.OpcodeSpecs

/-!
# The budget of nested scripts

A script may run code that it has put together, and that code may run code in turn.  Every nested
machine counts for itself, within what its caller has left, and the caller adds the counters even if
the nested machine failed.  Depth and number of nested runs are limited, which bounds all counters
and makes every evaluation end.
-/
namespace PyrrhaNode.ExecBudget

open List Serialize Transaction Script Interpreter MultiSig OpcodeTable OpExec
open OpcodeSpecs Fallible Loop

/-- What an event adds to the opcodes that were counted. -/
def Event.ops : Event → ℕ
  | .counted _ _ _ => 1
  | .keys nKeysCount _ => nKeysCount
  | .started _ _ _ => 0
  | .merged _ => 0

/-- The counter at an event. -/
def Event.counter : Event → ℕ
  | .counted _ _ nOpCount => nOpCount
  | .keys _ nOpCount => nOpCount
  | .started _ _ nOpCount => nOpCount
  | .merged nOpCount => nOpCount

/-- No machine is too deep, and the rest of a budget that is passed on is a difference that does not
wrap around. -/
def Event.WithinBudget : Event → Prop
  | .counted execDepth _ _ => execDepth ≤ maxExecDepth
  | .started execDepth maxOps nOpCount => execDepth ≤ maxExecDepth ∧ nOpCount ≤ maxOps
  | _ => True

def isStarted : Event → Bool
  | .started _ _ _ => true
  | _ => false

/-- All opcodes and keys that were counted, in nested scripts as well. -/
def opsIn (log : List Event) : ℕ := (log.map Event.ops).sum

/-- All nested runs. -/
def execsIn (log : List Event) : ℕ := log.countP isStarted

@[simp] lemma execsIn_nil : execsIn [] = 0 := rfl

@[simp] lemma opsIn_append (l l' : List Event) : opsIn (l ++ l') = opsIn l + opsIn l' := by
  simp [opsIn]

@[simp] lemma execsIn_append (l l' : List Event) : execsIn (l ++ l') = execsIn l + execsIn l' :=
  countP_append

lemma execsIn_singleton (e : Event) : execsIn [e] = if isStarted e then 1 else 0 := by
  simp [execsIn]

/-- The most that one instruction counts: itself and the keys of a multisignature check. -/
def maxOpsPerByte : ℕ := 1 + maxPubKeysPerMultisig

/-- The most that the code of one nested run counts without nested runs of its own. -/
def maxOpsPerExec : ℕ := maxOpsPerByte * Script.maxScriptSize

/-- A bound for all counters of a machine with scripts of up to `size` bytes and `n` levels of
machines. -/
def counterBound (size n : ℕ) : ℕ := maxOpsPerByte * size + maxOpsPerExec * (maxOpExec * n)

/-- A machine with `n` levels of machines, itself included, that has counted correctly and can still
count `left`.  It started with `n0` nested runs. -/
structure Tallied (size n n0 left : ℕ) (s : Run) : Prop where
  ops : s.machine.stats.nOpCount = opsIn s.log
  execs : s.machine.stats.nOpExec = n0 + execsIn s.log
  room : s.machine.stats.nOpCount + left ≤ maxOpsPerByte * size + maxOpsPerExec * execsIn s.log
  few : execsIn s.log ≤ maxOpExec * n
  events : ∀ e ∈ s.log, Event.WithinBudget e ∧ Event.counter e ≤ counterBound size n

/-- A machine that has not failed. -/
structure Passed (maxOps n0 : ℕ) (s : Run) : Prop where
  budget : s.machine.stats.nOpCount ≤ maxOps
  few : execsIn s.log = 0 ∨ n0 + execsIn s.log ≤ maxOpExec

section Tallied

variable {size n n0 left left' maxOps : ℕ} {s t : Run} {m : ScriptMachine} {e : Event}

lemma Tallied.mono (h : Tallied size n n0 left s) (hle : left' ≤ left) :
    Tallied size n n0 left' s :=
  { h with room := (Nat.add_le_add_left hle _).trans h.room }

lemma Tallied.nOpCount_le (h : Tallied size n n0 left s) :
    s.machine.stats.nOpCount + left ≤ counterBound size n := by
  refine h.room.trans (Nat.add_le_add_left ?_ _)
  exact Nat.mul_le_mul_left _ h.few

lemma Tallied.count (h : Tallied size n n0 (left + Event.ops e) s) (hstarted : isStarted e = false)
    (hbudget : Event.WithinBudget e)
    (hcounter : Event.counter e = s.machine.stats.nOpCount + Event.ops e)
    (hops : m.stats.nOpCount = s.machine.stats.nOpCount + Event.ops e)
    (hexecs : m.stats.nOpExec = s.machine.stats.nOpExec) :
    Tallied size n n0 left { s with machine := m, log := s.log ++ [e] } where
  ops := by
    rw [opsIn_append, ← h.ops]
    exact hops
  execs := by
    rw [execsIn_append, execsIn_singleton, hstarted, hexecs, h.execs]
    rfl
  room := by
    have hroom := h.room
    rw [execsIn_append, execsIn_singleton, hstarted]
    simp only [Bool.false_eq_true, if_false, Nat.add_zero]
    omega
  few := by
    rw [execsIn_append, execsIn_singleton, hstarted]
    exact h.few
  events := by
    intro e' he'
    rcases mem_append.mp he' with he' | he'
    · exact h.events e' he'
    · rw [mem_singleton.mp he']
      have hle := h.nOpCount_le
      exact ⟨hbudget, by omega⟩

lemma Passed.count (h : Passed maxOps n0 s) (hstarted : isStarted e = false)
    (hle : m.stats.nOpCount ≤ maxOps) :
    Passed maxOps n0 { s with machine := m, log := s.log ++ [e] } where
  budget := hle
  few := by
    rw [execsIn_append, execsIn_singleton, hstarted]
    exact h.few

lemma Tallied.congr (h : Tallied size n n0 left s) (hstats : t.machine.stats = s.machine.stats)
    (hlog : t.log = s.log) :
    Tallied size n n0 left t := by
  refine ⟨?_, ?_, ?_, ?_, ?_⟩ <;> rw [hlog]
  · rw [hstats]
    exact h.ops
  · rw [hstats]
    exact h.execs
  · rw [hstats]
    exact h.room
  · exact h.few
  · exact h.events

lemma Passed.congr (h : Passed maxOps n0 s) (hstats : t.machine.stats = s.machine.stats)
    (hlog : t.log = s.log) : Passed maxOps n0 t := by
  refine ⟨?_, ?_⟩
  · rw [hstats]
    exact h.budget
  · rw [hlog]
    exact h.few

end Tallied

section Parts

variable {nested : Evaluator} {env : ScriptEnv ExecContext} {execDepth size n n0 left : ℕ} {s : Run}
  {i : Instruction}

/-- What holds while no step has failed: the machine has counted within its budget, and the position
is still the same. -/
structure Running (maxOps size n n0 left : ℕ) (pc : Bytes) (t : Run) : Prop where
  tallied : Tallied size n n0 left t
  passed : Passed maxOps n0 t
  pc_eq : t.pc = pc

lemma running_countStep {opcode : UInt8} (hdepth : execDepth ≤ maxExecDepth)
    (h : Running env.maxOps size n n0 (left + 1) s.pc s) :
    wp (countStep env execDepth opcode) (fun _ t => Running env.maxOps size n n0 left s.pc t)
      (fun _ t => Tallied size n n0 left t) s := by
  simp only [countStep, record, wp_ite, wp_bind, wp_modify, wp_get, wp_throw, wp_pure, not_lt]
  refine ⟨fun hop => ?_, fun _ => ?_⟩
  · have hops : (s.machine.countOp opcode).stats.nOpCount = s.machine.stats.nOpCount + 1 := by
      rw [ScriptMachine.countOp, if_pos hop]
    have hexecs : (s.machine.countOp opcode).stats.nOpExec = s.machine.stats.nOpExec := by
      rw [ScriptMachine.countOp, if_pos hop]
    have htallied := h.tallied.count
      (e := .counted execDepth opcode (s.machine.countOp opcode).stats.nOpCount) rfl hdepth hops
      hops hexecs
    exact ⟨fun _ => htallied, fun hle => ⟨htallied, h.passed.count rfl hle, rfl⟩⟩
  · exact ⟨h.tallied.mono (Nat.le_succ left), h.passed, rfl⟩

lemma multiSigKeys_le (env : ScriptEnv ExecContext) (m : ScriptMachine) :
    multiSigKeys env m ≤ maxPubKeysPerMultisig ∧
      (m.stats.nOpCount ≤ env.maxOps → m.stats.nOpCount + multiSigKeys env m ≤ env.maxOps) := by
  unfold multiSigKeys
  cases h : readArgs (signatureEnv env) m with
  | error e => exact ⟨Nat.zero_le _, id⟩
  | ok args =>
    rw [readArgs, ite_throw_eq_ok] at h
    obtain ⟨-, h⟩ := h
    obtain ⟨nKeysCount, -, h⟩ := bind_eq_ok.mp h
    obtain ⟨hrange, h⟩ := ite_throw_eq_ok.mp h
    obtain ⟨hbudget, h⟩ := ite_throw_eq_ok.mp h
    obtain ⟨-, h⟩ := ite_throw_eq_ok.mp h
    obtain ⟨nSigsCount, -, h⟩ := bind_eq_ok.mp h
    obtain ⟨-, h⟩ := ite_throw_eq_ok.mp h
    obtain ⟨-, h⟩ := ite_throw_eq_ok.mp h
    obtain ⟨vchDummy, -, h⟩ := bind_eq_ok.mp h
    cases h
    dsimp only
    have hmax : (signatureEnv env).maxOps = env.maxOps := rfl
    omega

lemma running_execPlain (hdata : i.data.length ≤ maxScriptElementSize)
    (h : Running env.maxOps size n n0 (left + maxPubKeysPerMultisig) s.pc s) :
    wp (execPlain env i) (fun _ t => Running env.maxOps size n n0 left s.pc t)
      (fun _ t => Tallied size n n0 left t) s := by
  simp only [execPlain, onMachine, record, wp_ite, wp_bind, wp_modify, wp_get, wp_set, wp_pure,
    wp_ofExcept]
  refine ⟨fun m hm => ?_, fun _ _ => h.tallied.mono (Nat.le_add_right _ _)⟩
  have hkept := keeps_execOp hdata m hm
  obtain ⟨htwenty, hfits⟩ := multiSigKeys_le env s.machine
  refine ⟨fun hkeys => ?_, fun hkeys => ?_⟩
  · have hops : m.stats.nOpCount = s.machine.stats.nOpCount + multiSigKeys env s.machine := by
      rw [hkept.nOpCount, keysCounted, if_pos hkeys]
    have htallied : Tallied size n n0 (left + multiSigKeys env s.machine) s :=
      h.tallied.mono (Nat.add_le_add_left htwenty left)
    refine ⟨?_, ?_, rfl⟩
    · exact htallied.count rfl trivial rfl hops hkept.nOpExec
    · exact h.passed.count rfl (hops.trans_le (hfits h.passed.budget))
  · have hops : m.stats.nOpCount = s.machine.stats.nOpCount := by
      rw [hkept.nOpCount, keysCounted, if_neg hkeys, Nat.add_zero]
    have htallied := h.tallied.mono (Nat.le_add_right left maxPubKeysPerMultisig)
    refine ⟨⟨hops.trans htallied.ops, hkept.nOpExec.trans htallied.execs, ?_, htallied.few,
      htallied.events⟩, ⟨hops.trans_le h.passed.budget, h.passed.few⟩, rfl⟩
    have hroom := htallied.room
    rwa [hops]

/-- Evaluators that stay within the budget that they are given, for scripts on new machines. -/
def StaysWithin (n : ℕ) (nested : Evaluator) : Prop :=
  ∀ env execDepth code smStk, execDepth ≤ maxExecDepth → env.maxOps < 2 ^ 32 →
    wp (nested env execDepth code)
      (fun _ t => Tallied Script.maxScriptSize n 0 0 t ∧ Passed env.maxOps 0 t)
      (fun _ t => Tallied Script.maxScriptSize n 0 0 t) (nestedRun smStk)

section AfterNested

variable {rest : List StackItem} {sub : Run} {r : ℤ}

lemma nOpCount_afterNested : (afterNested env execDepth s rest sub).machine.stats.nOpCount =
    s.machine.stats.nOpCount + sub.machine.stats.nOpCount := rfl

lemma nOpExec_afterNested : (afterNested env execDepth s rest sub).machine.stats.nOpExec =
    s.machine.stats.nOpExec + 1 + sub.machine.stats.nOpExec := rfl

lemma opsIn_afterNested :
    opsIn (afterNested env execDepth s rest sub).log = opsIn s.log + opsIn sub.log := by
  simp only [afterNested, opsIn, map_append, map_cons, map_nil, sum_append,
    sum_cons, sum_nil, Event.ops]
  omega

lemma execsIn_afterNested :
    execsIn (afterNested env execDepth s rest sub).log = execsIn s.log + 1 + execsIn sub.log := by
  simp only [afterNested, execsIn, countP_append, countP_cons, countP_nil,
    isStarted, if_true, Bool.false_eq_true, if_false]
  omega

/-- What a nested run adds, whether it failed or not. -/
lemma tallied_afterNested (hdepth : execDepth < maxExecDepth)
    (hexecs : s.machine.stats.nOpExec < maxOpExec)
    (h : Running env.maxOps size (n + 1) n0 left s.pc s)
    (hsub : Tallied Script.maxScriptSize n 0 0 sub) :
    Tallied size (n + 1) n0 left (afterNested env execDepth s rest sub) := by
  have hroom : s.machine.stats.nOpCount + sub.machine.stats.nOpCount + left ≤
      maxOpsPerByte * size + maxOpsPerExec * (execsIn s.log + 1 + execsIn sub.log) := by
    have hown := h.tallied.room
    have hnested : sub.machine.stats.nOpCount ≤ maxOpsPerExec + maxOpsPerExec * execsIn sub.log :=
      hsub.room
    rw [Nat.mul_add, Nat.mul_add]
    omega
  have hfew : execsIn s.log + 1 + execsIn sub.log ≤ maxOpExec * (n + 1) := by
    have hnested := hsub.few
    have hown := h.tallied.execs
    rw [Nat.mul_succ]
    omega
  have hbound : s.machine.stats.nOpCount + sub.machine.stats.nOpCount + left ≤
      counterBound size (n + 1) :=
    hroom.trans (Nat.add_le_add_left (Nat.mul_le_mul_left _ hfew) _)
  refine ⟨?_, ?_, ?_, ?_, ?_⟩
  · rw [nOpCount_afterNested, opsIn_afterNested, h.tallied.ops, hsub.ops]
  · rw [nOpExec_afterNested, execsIn_afterNested, h.tallied.execs, hsub.execs]
    omega
  · rw [execsIn_afterNested]
    exact hroom
  · rw [execsIn_afterNested]
    exact hfew
  · intro e he
    rcases mem_append.mp he with he | he
    · rcases mem_append.mp he with he | he
      · exact h.tallied.events e he
      rcases mem_cons.mp he with rfl | he
      · exact ⟨⟨hdepth, h.passed.budget⟩, (Nat.le_add_right _ _).trans h.tallied.nOpCount_le⟩
      obtain ⟨hbudget, hcounter⟩ := hsub.events e he
      refine ⟨hbudget, hcounter.trans ?_⟩
      have hle : maxOpsPerExec ≤ maxOpsPerExec * maxOpExec :=
        Nat.le_mul_of_pos_right _ (by decide)
      have hsize : maxOpsPerByte * Script.maxScriptSize = maxOpsPerExec := rfl
      rw [counterBound, counterBound, Nat.mul_succ, Nat.mul_add]
      omega
    · rw [mem_singleton.mp he]
      exact ⟨trivial, (Nat.le_add_right _ left).trans hbound⟩

/-- The rest of the budget is a difference that does not wrap around. -/
lemma maxOps_nestedEnv (hmax : env.maxOps < 2 ^ 32) (hle : s.machine.stats.nOpCount ≤ env.maxOps) :
    (nestedEnv env s.machine.stats).maxOps = env.maxOps - s.machine.stats.nOpCount := by
  rw [nestedEnv]
  dsimp only
  omega

lemma running_execCode {code : CScript} {smStk : List StackItem} (hnested : StaysWithin n nested)
    (hdepth : execDepth < maxExecDepth) (hexecs : s.machine.stats.nOpExec < maxOpExec)
    (hmax : env.maxOps < 2 ^ 32) (h : Running env.maxOps size (n + 1) n0 left s.pc s) :
    wp (execCode nested env execDepth r code rest smStk)
      (fun _ t => Running env.maxOps size (n + 1) n0 left s.pc t)
      (fun _ t => Tallied size (n + 1) n0 left t) s := by
  have hrest : (nestedEnv env s.machine.stats).maxOps < 2 ^ 32 := by
    rw [maxOps_nestedEnv hmax h.passed.budget]
    omega
  have hends := hnested (nestedEnv env s.machine.stats) (execDepth + 1) code smStk hdepth hrest
  have hany : Tallied Script.maxScriptSize n 0 0
      (subOutcome nested env execDepth s.machine code smStk).2 :=
    of_outcome (wp_mono (fun _ _ ht => ht.1) (fun _ _ ht => ht) hends)
  have htallied : Tallied size (n + 1) n0 left (afterNested env execDepth s rest
      (subOutcome nested env execDepth s.machine code smStk).2) :=
    tallied_afterNested hdepth hexecs h hany
  rw [wp_execCode]
  refine ⟨fun _ => htallied, fun hcount => ⟨fun hok => ?_, fun _ _ => htallied⟩⟩
  have hbudget := (of_outcome_ok hends hok).2.budget
  rw [maxOps_nestedEnv hmax h.passed.budget] at hbudget
  change (subOutcome nested env execDepth s.machine code smStk).2.machine.stats.nOpCount ≤ _
    at hbudget
  simp only [takeResults, signed64, wp_ite, wp_bind, wp_modify, wp_throw, wp_pure]
  refine ⟨fun _ => htallied, fun _ => ⟨fun _ => htallied, fun _ =>
    ⟨htallied.congr rfl rfl, Passed.congr ⟨?_, Or.inr ?_⟩ rfl rfl, rfl⟩⟩⟩
  · rw [nOpCount_afterNested]
    have hown := h.passed.budget
    omega
  · rw [nOpExec_afterNested, h.tallied.execs, hany.execs] at hcount
    rw [execsIn_afterNested]
    omega

end AfterNested

end Parts

section Runs

variable {nested : Evaluator} {env : ScriptEnv ExecContext} {execDepth size n n0 : ℕ} {s : Run}

/-- A machine between two steps: what is left of the script is all that it can still count. -/
def Ready (maxOps size n n0 : ℕ) (s : Run) : Prop :=
  Running maxOps size n n0 (maxOpsPerByte * s.pc.length) s.pc s

lemma ready_step (hnested : StaysWithin n nested) (hdepth : execDepth ≤ maxExecDepth)
    (hmax : env.maxOps < 2 ^ 32) (h : Ready env.maxOps size (n + 1) n0 s) :
    wp (step nested env execDepth) (fun _ t => Ready env.maxOps size (n + 1) n0 t)
      (fun _ t => Tallied size (n + 1) n0 0 t) s := by
  simp only [step, wp_bind, wp_get]
  cases hop : getOp s.pc with
  | none => exact h.tallied.mono (Nat.zero_le _)
  | some op =>
    obtain ⟨opcode, data, rest⟩ := op
    have hlength := length_getOp hop
    have hleft : maxOpsPerByte * rest.length + maxPubKeysPerMultisig + 1 ≤
        maxOpsPerByte * s.pc.length := by
      have hmul : maxOpsPerByte * (rest.length + 1) ≤ maxOpsPerByte * s.pc.length :=
        Nat.mul_le_mul_left _ hlength
      rw [Nat.mul_succ, maxOpsPerByte] at hmul
      rw [maxOpsPerByte]
      omega
    have hread : Running env.maxOps size (n + 1) n0
        (maxOpsPerByte * rest.length + maxPubKeysPerMultisig + 1) rest { s with pc := rest } :=
      ⟨(h.tallied.mono hleft).congr rfl rfl, h.passed.congr rfl rfl, rfl⟩
    simp only [stepInstruction, wp_bind, wp_set, wp_ite, wp_throw, not_lt]
    refine ⟨fun _ => hread.tallied.mono (Nat.zero_le _), fun hdata => ?_⟩
    refine wp_mono (fun _ t ht => ⟨fun _ => ht.tallied.mono (Nat.zero_le _), fun _ => ?_⟩)
      (fun _ _ ht => ht.mono (Nat.zero_le _)) (running_countStep hdepth hread)
    obtain rfl := ht.pc_eq
    have hexec : wp (execStep nested env execDepth ⟨opcode, data, t.pc⟩)
        (fun _ t' => Running env.maxOps size (n + 1) n0 (maxOpsPerByte * t.pc.length) t.pc t')
        (fun _ t' => Tallied size (n + 1) n0 (maxOpsPerByte * t.pc.length) t') t := by
      simp only [execStep, wp_bind, wp_get, wp_ite]
      refine ⟨fun _ => ?_, fun _ => running_execPlain hdata ht⟩
      have hkept : Running env.maxOps size (n + 1) n0 (maxOpsPerByte * t.pc.length) t.pc t :=
        ⟨ht.tallied.mono (Nat.le_add_right _ _), ht.passed, rfl⟩
      refine wp_execOpExec (fun _ _ => hkept.tallied.congr rfl rfl) ?_
      intro hexecDepth hexecs r code rest smStk sums _
      exact running_execCode hnested hexecDepth hexecs hmax
        ⟨hkept.tallied.congr rfl rfl, hkept.passed.congr rfl rfl, rfl⟩
    refine wp_mono (fun _ t' ht' => ?_) (fun _ _ ht' => ht'.mono (Nat.zero_le _)) hexec
    simp only [checkStackSize, wp_bind, wp_get, wp_ite, wp_throw, wp_pure]
    refine ⟨fun _ => ht'.tallied.mono (Nat.zero_le _), fun _ => ?_⟩
    rw [Ready, ht'.pc_eq]
    exact ht'

/-- An evaluation that starts with an empty log. -/
lemma tallied_evalWith {script : CScript} (hnested : StaysWithin n nested)
    (hdepth : execDepth ≤ maxExecDepth) (hmax : env.maxOps < 2 ^ 32) (hlog : s.log = []) :
    wp (evalWith nested env execDepth script)
      (fun _ t => Tallied s.machine.maxScriptSize (n + 1) s.machine.stats.nOpExec 0 t ∧
        Passed env.maxOps s.machine.stats.nOpExec t)
      (fun _ t => Tallied s.machine.maxScriptSize (n + 1) s.machine.stats.nOpExec 0 t) s := by
  simp only [evalWith, beginStep, endStep, wp_bind, wp_modify, wp_get, wp_ite, wp_throw, wp_pure,
    not_lt]
  have hstart : ∀ left, left ≤ maxOpsPerByte * s.machine.maxScriptSize →
      Tallied s.machine.maxScriptSize (n + 1) s.machine.stats.nOpExec left
        { s with machine := s.machine.beginStep script, pc := script } := by
    intro left hle
    refine ⟨?_, ?_, ?_, ?_, ?_⟩ <;> dsimp only <;> rw [hlog]
    · rfl
    · rfl
    · change 0 + left ≤ _
      rw [Nat.zero_add]
      exact hle
    · exact Nat.zero_le _
    · simp
  refine ⟨fun _ => hstart 0 (Nat.zero_le _), fun hsize => ?_⟩
  have hready : Ready env.maxOps s.machine.maxScriptSize (n + 1) s.machine.stats.nOpExec
      { s with machine := s.machine.beginStep script, pc := script } := by
    refine ⟨hstart _ (Nat.mul_le_mul_left _ hsize), ⟨Nat.zero_le _, Or.inl ?_⟩, rfl⟩
    rw [hlog, execsIn_nil]
  refine wp_mono (fun _ t ht => ?_) (fun _ _ ht => ht)
    (wp_steps (fun _ => ready_step hnested hdepth hmax) hready)
  have htallied := ht.tallied.mono (Nat.zero_le _)
  exact ⟨fun _ => htallied, fun _ => ⟨htallied, ht.passed⟩⟩

/-- The induction is on the number of machines below each other. -/
theorem staysWithin_evalNested (n : ℕ) : StaysWithin n (evalNested n) := by
  induction n with
  | zero =>
    intro env execDepth code smStk _ _
    exact ⟨rfl, rfl, Nat.zero_le _, Nat.zero_le _, by simp [nestedRun]⟩
  | succ n ih =>
    intro env execDepth code smStk hdepth hmax
    exact tallied_evalWith ih hdepth hmax rfl

end Runs

section Termination

variable {nested nested' : Evaluator} {env : ScriptEnv ExecContext} {execDepth : ℕ} {s : Run}

/-- Evaluation with `n` machines below each other, where `bottom` evaluates the scripts below. -/
def evalOver (bottom : Evaluator) : ℕ → Evaluator
  | 0 => bottom
  | n + 1 => evalWith (evalOver bottom n)

/-- Evaluators that agree on what a machine can start at this depth. -/
def AgreeBelow (execDepth : ℕ) (nested nested' : Evaluator) : Prop :=
  execDepth < maxExecDepth → ∀ env code, nested env (execDepth + 1) code =
    nested' env (execDepth + 1) code

lemma execOpExec_congr (h : AgreeBelow execDepth nested nested') :
    execOpExec nested env execDepth = execOpExec nested' env execDepth := by
  unfold execOpExec
  by_cases hdepth : maxExecDepth ≤ execDepth
  · simp only [if_pos hdepth]
  · simp only [execCode, runNested, h (not_le.mp hdepth)]

lemma steps_congr (h : AgreeBelow execDepth nested nested') (fuel : ℕ) :
    steps nested env execDepth fuel = steps nested' env execDepth fuel := by
  induction fuel with
  | zero => rfl
  | succ fuel ih =>
    have hstep : step nested env execDepth = step nested' env execDepth := by
      simp only [step, stepInstruction, execStep, execOpExec_congr h]
    rw [steps, steps, ih, hstep]

/-- With enough levels the evaluator at the bottom is never asked. -/
lemma evalOver_congr {n : ℕ} (bottom bottom' : Evaluator) (hn : maxExecDepth - execDepth < n)
    (script : CScript) :
    evalOver bottom n env execDepth script = evalOver bottom' n env execDepth script := by
  induction n generalizing env execDepth script with
  | zero => exact absurd hn (Nat.not_lt_zero _)
  | succ n ih =>
    have hbelow : AgreeBelow execDepth (evalOver bottom n) (evalOver bottom' n) :=
      fun hdepth env code => ih (by omega) code
    simp only [evalOver, evalWith, steps_congr hbelow]

lemma pc_execStep (i : Instruction) :
    wp (execStep nested env execDepth i) (fun _ t => t.pc = s.pc) (fun _ _ => True) s := by
  simp only [execStep, wp_bind, wp_get, wp_ite]
  refine ⟨fun _ => wp_execOpExec (fun _ _ => trivial) fun _ _ r code rest smStk sums _ => ?_,
    fun _ => ?_⟩
  · rw [wp_execCode]
    refine ⟨fun _ => trivial, fun _ => ⟨fun _ => ?_, fun _ _ => trivial⟩⟩
    simp only [takeResults, signed64, wp_ite, wp_bind, wp_modify, wp_throw, wp_pure, implies_true,
      true_and]
    exact fun _ _ => rfl
  · simp only [execPlain, onMachine, record, wp_ite, wp_bind, wp_modify, wp_get, wp_set, wp_pure,
      wp_ofExcept, implies_true, and_self]

lemma pc_step :
    wp (step nested env execDepth) (fun _ t => t.pc.length < s.pc.length) (fun _ _ => True) s := by
  simp only [step, wp_bind, wp_get]
  cases hop : getOp s.pc with
  | none => trivial
  | some op =>
    obtain ⟨opcode, data, rest⟩ := op
    have hlength := length_getOp hop
    have hcount : wp (countStep env execDepth opcode) (fun _ t => t.pc = rest) (fun _ _ => True)
        { s with pc := rest } := by
      simp only [countStep, record, wp_ite, wp_bind, wp_modify, wp_get, wp_throw, wp_pure,
        implies_true, and_self]
    simp only [stepInstruction, checkStackSize, wp_bind, wp_get, wp_set, wp_ite, wp_throw, wp_pure,
      implies_true, true_and]
    intro _
    refine wp_mono (fun _ t ht _ => ?_) (fun _ _ h => h) hcount
    obtain rfl := ht
    have hkept : wp (execStep nested env execDepth ⟨opcode, data, t.pc⟩) (fun _ t' => t'.pc = t.pc)
        (fun _ _ => True) t := pc_execStep _
    refine wp_mono (fun _ t' ht' _ => ?_) (fun _ _ h => h) hkept
    rw [ht']
    exact hlength

lemma steps_finish {fuel : ℕ} (hfuel : s.pc.length ≤ fuel) :
    wp (steps nested env execDepth fuel) (fun _ t => t.pc = []) (fun _ _ => True) s := by
  induction fuel generalizing s with
  | zero => exact eq_nil_of_length_eq_zero (Nat.le_zero.mp hfuel)
  | succ fuel ih =>
    simp only [steps, wp_bind, wp_get, wp_ite, wp_pure, List.isEmpty_iff]
    refine ⟨id, fun _ => wp_mono (fun _ t ht => ih ?_) (fun _ _ h => h) pc_step⟩
    omega

/-- Evaluation at depth zero ends: nested machines are never deeper than the levels that are there,
whatever is put below them, and every loop over a script that does not fail reads all of it. -/
structure Ends (env : ScriptEnv ExecContext) (script : CScript) : Prop where
  depth : ∀ bottom, evalOver bottom (maxExecDepth + 1) env 0 script = eval env 0 script
  finishes : ∀ nested env execDepth script s,
    wp (do beginStep script; steps nested env execDepth script.length) (fun _ t => t.pc = [])
      (fun _ _ => True) s

lemma ends (env : ScriptEnv ExecContext) (script : CScript) : Ends env script where
  depth bottom := by
    exact evalOver_congr bottom _ (by decide) script
  finishes nested env execDepth script s := by
    simp only [beginStep, wp_bind, wp_modify, wp_get, wp_ite, wp_throw, wp_pure, implies_true,
      true_and]
    exact fun _ => steps_finish le_rfl

end Termination

/-- A machine before its first step. -/
def startOf (machine : ScriptMachine) : Run := ⟨machine, [], [], []⟩

lemma counterBound_lt {size : ℕ} (h : size ≤ maxScriptTemplateSize) :
    counterBound size (maxExecDepth + 1) < 2 ^ 32 := by
  have hle : maxOpsPerByte * size ≤ maxOpsPerByte * maxScriptTemplateSize :=
    Nat.mul_le_mul_left _ h
  refine lt_of_le_of_lt (Nat.add_le_add_right hle _) (by decide)

/-- For every script, machine and limit the evaluation ends; in every run, whether it succeeds or
not, no machine is deeper than three levels and no difference that is passed on as a budget wraps
around, and the counters stay far below the range of their type for the sizes that scripts may have.
A run that succeeds has counted at most `maxOps` opcodes and keys and run code at most 20 times,
nested scripts included. -/
theorem eval_within_budget (maxOps : UInt32) (env : ScriptEnv ExecContext) (script : CScript)
    (machine : ScriptMachine) :
    let out := outcome (eval { env with maxOps := maxOps.toNat } 0 script) (startOf machine)
    Ends { env with maxOps := maxOps.toNat } script ∧
      (∀ e ∈ out.2.log, Event.WithinBudget e ∧
        (machine.maxScriptSize ≤ maxScriptTemplateSize → Event.counter e < 2 ^ 32)) ∧
      (out.1 = .ok () → opsIn out.2.log ≤ maxOps.toNat ∧ execsIn out.2.log ≤ maxOpExec) := by
  intro out
  have hends : wp (eval { env with maxOps := maxOps.toNat } 0 script)
      (fun _ t => Tallied machine.maxScriptSize (maxExecDepth + 1) machine.stats.nOpExec 0 t ∧
        Passed maxOps.toNat machine.stats.nOpExec t)
      (fun _ t => Tallied machine.maxScriptSize (maxExecDepth + 1) machine.stats.nOpExec 0 t)
      (startOf machine) :=
    tallied_evalWith (staysWithin_evalNested maxExecDepth) (Nat.zero_le _) maxOps.toNat_lt rfl
  have htallied : Tallied machine.maxScriptSize (maxExecDepth + 1) machine.stats.nOpExec 0 out.2 :=
    of_outcome (wp_mono (fun _ _ ht => ht.1) (fun _ _ ht => ht) hends)
  refine ⟨ends _ script, fun e he => ?_, fun hok => ?_⟩
  · obtain ⟨hbudget, hcounter⟩ := htallied.events e he
    exact ⟨hbudget, fun hsize => hcounter.trans_lt (counterBound_lt hsize)⟩
  · have hpassed := (of_outcome_ok hends hok).2
    refine ⟨htallied.ops.symm.trans_le hpassed.budget, ?_⟩
    have hfew : execsIn out.2.log = 0 ∨
        machine.stats.nOpExec + execsIn out.2.log ≤ maxOpExec := hpassed.few
    omega

end PyrrhaNode.ExecBudget
