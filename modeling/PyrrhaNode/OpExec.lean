import PyrrhaNode.Fallible
import PyrrhaNode.OpcodeTable

/-!
# Scripts that run scripts

`OP_EXEC` takes code and parameters from the stack, runs the code on a machine of its own and takes
results back.  A machine keeps what its steps have done when one of them fails, since the counters
of a nested machine are added to those of its caller in either case; only what a failing opcode of
the table has itself counted is left out.  Next to its state a machine here keeps a log of what was
counted and of the nested machines that were started, and the signed 64-bit results that it has
formed.
-/
namespace PyrrhaNode.OpExec

open Serialize Transaction Script Interpreter ScriptOps BigNum MultiSig StackOps
open OpcodeTable Fallible

def opExec : UInt8 := 0xed

def maxExecDepth : ℕ := 3
def maxOpExec : ℕ := 20

def scriptErrExecDepthExceeded : ScriptError := .other 101
def scriptErrExecCountExceeded : ScriptError := .other 102

inductive Event where
  /-- An opcode above `OP_16` was counted, which made the counter `nOpCount`. -/
  | counted (execDepth : ℕ) (opcode : UInt8) (nOpCount : ℕ)
  /-- The keys of a multisignature check were counted. -/
  | keys (nKeysCount nOpCount : ℕ)
  /-- A nested machine was given what is left of the budget. -/
  | started (execDepth maxOps nOpCount : ℕ)
  /-- The counters of a nested machine were added. -/
  | merged (nOpCount : ℕ)
  deriving DecidableEq

/-- A machine, the position in its script, its log with those of the machines that it ran, and the
exact values of its signed results. -/
structure Run where
  machine : ScriptMachine
  pc : Bytes
  log : List Event
  sums : List ℤ
  deriving DecidableEq

/-- Computations that change a machine and can fail. -/
abbrev Exec := FallibleM ScriptError Run

/-- An opcode of the table. -/
def onMachine (f : ScriptMachine → ScriptResult) : Exec Unit := do
  let s ← get
  let m ← ofExcept (f s.machine)
  set { s with machine := m }

def record (e : Event) : Exec Unit := modify fun s => { s with log := s.log ++ [e] }

/-- The result of a signed 64-bit computation, which wraps around. -/
def signed64 (exact : ℤ) : Exec ℤ := do
  modify fun s => { s with sums := s.sums ++ [exact] }
  return exact.bmod (2 ^ 64)

/-- `stack.at(stack.size() + i)`.  The sum is unsigned: below zero it is larger than any size. -/
def stackAt (stack : List StackItem) (i : ℤ) : Except ScriptError StackItem :=
  if (stack.length : ℤ) + i < 0 then throw scriptErrUnknownError
  else
    match stack[((stack.length : ℤ) + i).toNat]? with
    | none => throw scriptErrUnknownError
    | some item => return item

/-- The count at depth `k`. -/
def countAt (env : ScriptEnv ExecContext) (m : ScriptMachine) (k : ℕ) : Except ScriptError ℤ := do
  let item ← stackAt m.stack (-(k : ℤ))
  (itemAsInt64 (env.sis.memory m k) (fRequireMinimal env.flags) item).mapError conversionError

/-- The numbers of results and of parameters, and the code. -/
def execArgs (env : ScriptEnv ExecContext) (m : ScriptMachine) : Exec (ℤ × ℤ × Bytes) :=
  if m.stack.length < 2 then throw scriptErrInvalidStackOperation
  else do
    let returnedParamQty ← ofExcept (countAt env m 1)
    let paramQty ← ofExcept (countAt env m 2)
    if paramQty < 0 then throw scriptErrInvalidStackOperation
    else do
      let needed ← signed64 (3 + paramQty)
      if (m.stack.length : ℤ) < needed then throw scriptErrInvalidStackOperation
      else do
        let index ← signed64 (-3 - paramQty)
        let item ← ofExcept (stackAt m.stack index)
        let code ← ofExcept (itemData item)
        return (returnedParamQty, paramQty, code)

/-- Moves parameters one by one from a stack to the stack of the nested machine. -/
def moveParams : ℕ → List StackItem → List StackItem →
    Except ScriptError (List StackItem × List StackItem)
  | 0, stack, smStk => return (stack, smStk)
  | n + 1, stack, smStk =>
    match stack.getLast? with
    | none => throw scriptErrUnknownError
    | some item => do
        let vch ← itemData item
        moveParams n stack.dropLast (smStk ++ [.vch vch])

/-- `ScriptMachineResourceTracker::update`. -/
def updateStats (stats other : ScriptMachineResourceTracker) : ScriptMachineResourceTracker where
  consensusSigCheckCount := stats.consensusSigCheckCount + other.consensusSigCheckCount
  nOpCount := stats.nOpCount + other.nOpCount
  nOpExec := stats.nOpExec + other.nOpExec

/-- What a nested machine is run with: the rest of the budgets, as unsigned differences. -/
def nestedEnv (env : ScriptEnv ExecContext) (stats : ScriptMachineResourceTracker) :
    ScriptEnv ExecContext :=
  { env with
    maxOps := (((env.maxOps : ℤ) - stats.nOpCount) % 2 ^ 32).toNat
    maxConsensusSigOps :=
      (((env.maxConsensusSigOps : ℤ) - stats.consensusSigCheckCount) % 2 ^ 32).toNat }

/-- How scripts are run: the environment, the depth and the script. -/
abbrev Evaluator := ScriptEnv ExecContext → ℕ → CScript → Exec Unit

def nestedRun (smStk : List StackItem) : Run :=
  ⟨{ ScriptMachine.init with stack := smStk }, [], [], []⟩

/-- Runs code on a new machine and adds its counters.  The result and the stack of the nested
machine. -/
def runNested (nested : Evaluator) (env : ScriptEnv ExecContext) (execDepth : ℕ) (code : CScript)
    (smStk : List StackItem) : Exec (Except ScriptError Unit × List StackItem) := do
  let s ← get
  let stats := s.machine.stats
  let out := outcome (nested (nestedEnv env stats) (execDepth + 1) code) (nestedRun smStk)
  let merged := updateStats stats out.2.machine.stats
  set { s with
    machine := { s.machine with stats := merged }
    log := s.log ++ Event.started (execDepth + 1) env.maxOps stats.nOpCount :: out.2.log ++
      [Event.merged merged.nOpCount] }
  return (out.1, out.2.machine.stack)

/-- Takes results from the stack of the nested machine. -/
def takeResults (returnedParamQty : ℤ) (outStack : List StackItem) : Exec Unit :=
  if returnedParamQty < 0 then throw scriptErrInvalidStackOperation
  else if (outStack.length : ℤ) < returnedParamQty then throw scriptErrInvalidStackOperation
  else do
    let first ← signed64 (outStack.length - returnedParamQty)
    modify fun s => { s with
      machine := { s.machine with stack := s.machine.stack ++ outStack.drop first.toNat } }

/-- Runs the code once it and its parameters are known. -/
def execCode (nested : Evaluator) (env : ScriptEnv ExecContext) (execDepth : ℕ)
    (returnedParamQty : ℤ) (code : CScript) (rest smStk : List StackItem) : Exec Unit := do
  modify fun s => { s with
    machine := { s.machine with
      stack := rest
      stats := { s.machine.stats with nOpExec := s.machine.stats.nOpExec + 1 } } }
  let (result, outStack) ← runNested nested env execDepth code smStk
  let s ← get
  if maxOpExec < s.machine.stats.nOpExec then throw scriptErrExecCountExceeded
  else do
    ofExcept result
    takeResults returnedParamQty outStack

def execOpExec (nested : Evaluator) (env : ScriptEnv ExecContext) (execDepth : ℕ) : Exec Unit := do
  let s ← get
  if maxExecDepth ≤ execDepth then throw scriptErrExecDepthExceeded
  else if maxOpExec ≤ s.machine.stats.nOpExec then throw scriptErrExecCountExceeded
  else do
    let (returnedParamQty, paramQty, code) ← execArgs env s.machine
    let (rest, smStk) ← ofExcept (moveParams paramQty.toNat s.machine.stack.dropLast.dropLast [])
    execCode nested env execDepth returnedParamQty code rest.dropLast smStk

/-- The number of keys that a multisignature check counts. -/
def multiSigKeys (env : ScriptEnv ExecContext) (m : ScriptMachine) : ℕ :=
  match readArgs (signatureEnv env) m with
  | .ok (nKeysCount, _, _) => nKeysCount
  | .error _ => 0

/-- Counts an opcode above `OP_16`. -/
def countStep (env : ScriptEnv ExecContext) (execDepth : ℕ) (opcode : UInt8) : Exec Unit :=
  if op16 < opcode then do
    modify fun s => { s with machine := s.machine.countOp opcode }
    let s ← get
    record (.counted execDepth opcode s.machine.stats.nOpCount)
    if env.maxOps < s.machine.stats.nOpCount then throw .opCount else return ()
  else return ()

/-- Executes an instruction of the table.  The keys of a multisignature check are counted by it. -/
def execPlain (env : ScriptEnv ExecContext) (i : Instruction) : Exec Unit := do
  let s ← get
  onMachine fun m => m.execOp env plainOps i
  if s.machine.vfExec.all id ∧ (i.opcode = opCheckMultiSig ∨ i.opcode = opCheckMultiSigVerify) then
    record (.keys (multiSigKeys env s.machine)
      (s.machine.stats.nOpCount + multiSigKeys env s.machine))
  else return ()

/-- Executes an instruction that has been counted. -/
def execStep (nested : Evaluator) (env : ScriptEnv ExecContext) (execDepth : ℕ) (i : Instruction) :
    Exec Unit := do
  let s ← get
  if s.machine.vfExec.all id ∧ i.opcode = opExec then execOpExec nested env execDepth
  else execPlain env i

/-- Size limits after an instruction. -/
def checkStackSize : Exec Unit := do
  let s ← get
  if maxStackSize < s.machine.stack.length + s.machine.altstack.length then throw .stackSize
  else return ()

/-- What a step does with the instruction that it has read. -/
def stepInstruction (nested : Evaluator) (env : ScriptEnv ExecContext) (execDepth : ℕ)
    (i : Instruction) : Exec Unit :=
  if maxScriptElementSize < i.data.length then throw .pushSize
  else do
    countStep env execDepth i.opcode
    if isOpcodeDisabled i.opcode then throw .disabledOpcode
    else do
      execStep nested env execDepth i
      checkStackSize

/-- `ScriptMachine::Step`. -/
def step (nested : Evaluator) (env : ScriptEnv ExecContext) (execDepth : ℕ) : Exec Unit := do
  let s ← get
  match getOp s.pc with
  | none => throw .badOpcode
  | some (opcode, data, rest) => do
    set { s with pc := rest }
    stepInstruction nested env execDepth ⟨opcode, data, rest⟩

/-- Steps to the end of the script, or `fuel` of them. -/
def steps (nested : Evaluator) (env : ScriptEnv ExecContext) (execDepth : ℕ) : ℕ → Exec Unit
  | 0 => return ()
  | fuel + 1 => do
    let s ← get
    if s.pc.isEmpty then return ()
    else do
      step nested env execDepth
      steps nested env execDepth fuel

/-- `ScriptMachine::BeginStep`. -/
def beginStep (script : CScript) : Exec Unit := do
  modify fun s => { s with machine := s.machine.beginStep script, pc := script }
  let s ← get
  if s.machine.maxScriptSize < script.length then throw .scriptSize else return ()

/-- `ScriptMachine::EndStep`. -/
def endStep : Exec Unit := do
  let s ← get
  if !s.machine.vfExec.isEmpty then throw .unbalancedConditional else return ()

/-- Evaluation of a script whose nested scripts are evaluated by `nested`.  Every step reads at
least one byte. -/
def evalWith (nested : Evaluator) : Evaluator := fun env execDepth script => do
  beginStep script
  steps nested env execDepth script.length
  endStep

/-- Evaluation with at most `n` machines below each other. -/
def evalNested : ℕ → Evaluator
  | 0 => fun _ _ _ => throw scriptErrUnknownError
  | n + 1 => evalWith (evalNested n)

/-- `ScriptMachine::Eval`. -/
def eval : Evaluator := fun env execDepth script =>
  evalNested (maxExecDepth - execDepth + 1) env execDepth script

section Specs

variable {nested : Evaluator} {env : ScriptEnv ExecContext} {execDepth : ℕ} {s : Run} {r : ℤ}
  {code script : CScript} {rest smStk : List StackItem}
  {Q : Unit → Run → Prop} {E : ScriptError → Run → Prop} {P : Run → Prop}

/-- How the nested machine ends that the opcode starts. -/
def subOutcome (nested : Evaluator) (env : ScriptEnv ExecContext) (execDepth : ℕ)
    (m : ScriptMachine) (code : CScript) (smStk : List StackItem) : Except ScriptError Unit × Run :=
  outcome (nested (nestedEnv env m.stats) (execDepth + 1) code) (nestedRun smStk)

/-- The machine of the caller after a nested run. -/
def afterNested (env : ScriptEnv ExecContext) (execDepth : ℕ) (s : Run) (rest : List StackItem)
    (sub : Run) : Run :=
  let stats := { s.machine.stats with nOpExec := s.machine.stats.nOpExec + 1 }
  let merged := updateStats stats sub.machine.stats
  { s with
    machine := { s.machine with stack := rest, stats := merged }
    log := s.log ++ Event.started (execDepth + 1) env.maxOps stats.nOpCount :: sub.log ++
      [Event.merged merged.nOpCount] }

/-- The caller fails if the nested machine did, or if there were too many nested runs. -/
lemma wp_execCode :
    wp (execCode nested env execDepth r code rest smStk) Q E s ↔
      let sub := subOutcome nested env execDepth s.machine code smStk
      let s' := afterNested env execDepth s rest sub.2
      (maxOpExec < s'.machine.stats.nOpExec → E scriptErrExecCountExceeded s') ∧
      (s'.machine.stats.nOpExec ≤ maxOpExec →
        (sub.1 = .ok () → wp (takeResults r sub.2.machine.stack) Q E s') ∧
        ∀ e, sub.1 = .error e → E e s') := by
  simp only [execCode, runNested, wp_bind, wp_get, wp_ite, wp_throw, wp_modify, wp_set, wp_pure,
    wp_ofExcept, not_lt]
  exact and_congr Iff.rfl (forall_congr' fun _ =>
    and_congr ⟨fun h hok => h () hok, fun h _ hok => h hok⟩ Iff.rfl)

lemma wp_takeResults {results : List StackItem} (hlength : results.length < 2 ^ 63) :
    wp (takeResults r results) Q E s ↔
      (r < 0 → E scriptErrInvalidStackOperation s) ∧
      (0 ≤ r → ((results.length : ℤ) < r → E scriptErrInvalidStackOperation s) ∧
        (r ≤ results.length → Q () { s with
          sums := s.sums ++ [results.length - r]
          machine := { s.machine with
            stack := s.machine.stack ++ results.drop (results.length - r.toNat) } })) := by
  simp only [takeResults, signed64, wp_bind, wp_ite, wp_throw, wp_modify, wp_pure, not_lt]
  refine and_congr_right fun _ => forall_congr' fun hpos => and_congr_right fun _ =>
    forall_congr' fun hle => ?_
  rw [Int.bmod_eq_of_le (by omega) (by omega)]
  have hfirst : ((results.length : ℤ) - r).toNat = results.length - r.toNat := by omega
  rw [hfirst]

lemma wp_step_size :
    wp (step nested env execDepth)
      (fun _ s' => s'.machine.stack.length + s'.machine.altstack.length ≤ maxStackSize)
      (fun _ _ => True) s := by
  have hcheck : ∀ t, wp checkStackSize
      (fun _ s' => s'.machine.stack.length + s'.machine.altstack.length ≤ maxStackSize)
      (fun _ _ => True) t := by
    simp [checkStackSize, wp_ite]
  simp only [step, wp_bind, wp_get]
  cases getOp s.pc with
  | none => trivial
  | some op =>
    simp only [stepInstruction, wp_bind, wp_set, wp_ite, wp_throw, implies_true, true_and]
    exact fun _ => wp_of_forall
      (fun _ _ _ => wp_of_forall (fun _ t => hcheck t) fun _ _ => trivial) fun _ _ => trivial

/-- What every step keeps holds after a run of steps. -/
lemma wp_steps {fuel : ℕ} (hstep : ∀ s, P s → wp (step nested env execDepth) (fun _ t => P t) E s)
    (hs : P s) :
    wp (steps nested env execDepth fuel) (fun _ t => P t) E s := by
  induction fuel generalizing s with
  | zero => exact hs
  | succ fuel ih =>
    simp only [steps, wp_bind, wp_get, wp_ite, wp_pure]
    exact ⟨fun _ => hs, fun _ => wp_mono (fun _ _ => ih) (fun _ _ h => h) (hstep s hs)⟩

lemma wp_evalWith
    (hstep : ∀ s, P s → wp (step nested env execDepth) (fun _ t => P t) (fun _ _ => True) s)
    (hs : P { s with machine := s.machine.beginStep script, pc := script }) :
    wp (evalWith nested env execDepth script) (fun _ t => P t) (fun _ _ => True) s := by
  simp only [evalWith, beginStep, endStep, wp_bind, wp_modify, wp_get, wp_ite, wp_throw, wp_pure,
    implies_true, true_and]
  exact fun _ => wp_mono (fun _ t ht _ => ht) (fun _ _ h => h) (wp_steps hstep hs)

lemma wp_evalNested_size {n bound : ℕ} (hs : s.machine.stack.length ≤ max maxStackSize bound) :
    wp (evalNested n env execDepth script)
      (fun _ s' => s'.machine.stack.length ≤ max maxStackSize bound) (fun _ _ => True) s := by
  cases n with
  | zero => trivial
  | succ n =>
    refine wp_evalWith (fun t _ => wp_mono (fun _ t' ht => ?_) (fun _ _ h => h) wp_step_size) hs
    omega

end Specs

end PyrrhaNode.OpExec
