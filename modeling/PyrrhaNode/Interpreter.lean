import PyrrhaNode.Loop
import PyrrhaNode.Script

/-!
# The script machine

A machine runs the instructions of a script on a main stack and an alternative stack.
Instructions that push data are modelled here; what the other opcodes do is a
parameter, since it does not matter for results about scripts that only push: such a
script appends its data to the main stack and leaves the rest of the machine alone.
-/
namespace PyrrhaNode.Interpreter
open ByteCodec Serialize Transaction Script
open Loop

def opIf : UInt8 := 0x63
def opEndIf : UInt8 := 0x68
def opInvert : UInt8 := 0x83
def op2Mul : UInt8 := 0x8d
def op2Div : UInt8 := 0x8e

def maxScriptElementSize : ℕ := 520
def maxStackSize : ℕ := 1000
def maxScriptTemplateSize : ℕ := 100000

/-- The flag that asks for the shortest way to push data. -/
def scriptVerifyMinimalData : BitVec 32 := 1#32 <<< 6

/-- An opcode with the data that it carries and the position after it. -/
structure Instruction where
  opcode : UInt8
  data : Bytes
  next : Bytes
  deriving DecidableEq

variable {opcode : UInt8} {pc rest data : Bytes}

lemma suffix_of_pushSize {n : ℕ} (h : pushSize opcode pc = some (n, rest)) : rest <:+ pc := by
  unfold pushSize at h
  by_cases hsmall : opcode < opPushData1
  · rw [if_pos hsmall] at h
    cases h
    exact List.suffix_rfl
  · dsimp only at h
    split_ifs at h <;> cases h <;> exact List.drop_suffix _ _

lemma suffix_of_getOp_cons {b : UInt8}
    (h : getOp (b :: pc) = some (opcode, data, rest)) : rest <:+ pc := by
  unfold getOp at h
  dsimp only at h
  split_ifs at h
  · cases hsize : pushSize b pc with
    | none => simp [hsize] at h
    | some p =>
      rw [hsize] at h
      dsimp only at h
      split_ifs at h
      cases h
      exact (List.drop_suffix _ _).trans (suffix_of_pushSize hsize)
  · cases h
    exact List.suffix_rfl

section

variable (h : getOp pc = some (opcode, data, rest))
include h

lemma suffix_of_getOp : rest <:+ pc := by
  cases pc with
  | nil => cases h
  | cons b pc => exact (suffix_of_getOp_cons h).trans (List.suffix_cons b pc)

lemma length_getOp : rest.length < pc.length := by
  cases pc with
  | nil => cases h
  | cons b pc => exact Nat.lt_succ_of_le (suffix_of_getOp_cons h).length_le

/-- The instructions of a script up to the first one that cannot be read, and whether the
script ends there. -/
def instructions (pc : Bytes) : List Instruction × Bool :=
  match h : getOp pc with
  | none => ([], pc.isEmpty)
  | some (opcode, data, rest) =>
    have := length_getOp h
    (⟨opcode, data, rest⟩ :: (instructions rest).1, (instructions rest).2)
termination_by pc.length

omit h in
@[simp] lemma instructions_nil : instructions [] = ([], true) := by
  rw [instructions]
  rfl

lemma instructions_of_getOp :
    instructions pc = (⟨opcode, data, rest⟩ :: (instructions rest).1, (instructions rest).2) := by
  rw [instructions]
  split
  · rename_i hnone
    rw [h] at hnone
    cases hnone
  · rename_i hsome
    rw [h] at hsome
    cases hsome
    rfl

end

/-- All opcodes are at most `OP_16`, which includes the reserved one. -/
def isPushOnly (script : CScript) : Bool :=
  (instructions script).2 && (instructions script).1.all fun i => decide (i.opcode ≤ op16)

/-- The shortest little-endian bytes of a magnitude of 64 bits. -/
def magnitudeBytes (absvalue : ℕ) : Bytes :=
  ((leBytes 8 absvalue).reverse.dropWhile (· == 0)).reverse

/-- The bytes of a number on the stack; the highest bit is its sign. -/
def serializeNum (value : ℤ) : Bytes :=
  match (magnitudeBytes value.natAbs).getLast? with
  | none => []
  | some last =>
    if 0x80 ≤ last then magnitudeBytes value.natAbs ++ [if value < 0 then 0x80 else 0]
    else if value < 0 then (magnitudeBytes value.natAbs).dropLast ++ [last ||| 0x80]
    else magnitudeBytes value.natAbs

/-- The data that an instruction pushes: what it carries, or a small number. -/
def pushedData (i : Instruction) : Bytes :=
  if i.opcode ≤ opPushData4 then i.data else serializeNum ((i.opcode.toNat : ℤ) - 0x50)

/-- Bytes or a big number. -/
inductive StackItem where
  | vch (data : Bytes)
  | bigNum (n : ℤ)
  deriving DecidableEq

/-- A number as an item of the stack. -/
def numItem (n : ℤ) : StackItem := .vch (serializeNum n)

/-- The errors that are raised here, and those of the opcodes that are not modelled. -/
inductive ScriptError where
  | scriptSize
  | pushSize
  | opCount
  | stackSize
  | badOpcode
  | disabledOpcode
  | unbalancedConditional
  | minimalData
  | sigPushOnly
  | cleanStack
  | template
  | other (code : ℕ)
  deriving DecidableEq

structure ScriptMachineResourceTracker where
  consensusSigCheckCount : ℕ
  nOpCount : ℕ
  nOpExec : ℕ
  deriving DecidableEq

/-- The state of a machine. The conditions are those of the enclosing branches, and
signatures cover the code from `codeHash` on. -/
structure ScriptMachine where
  stack : List StackItem
  altstack : List StackItem
  vfExec : List Bool
  stats : ScriptMachineResourceTracker
  codeHash : Bytes
  bigNumModulo : ℤ
  maxScriptSize : ℕ
  deriving DecidableEq

/-- An opcode or a script leaves a machine, or it fails. -/
abbrev ScriptResult := Except ScriptError ScriptMachine

/-- A machine before its first script. -/
def ScriptMachine.init : ScriptMachine where
  stack := []
  altstack := []
  vfExec := []
  stats := ⟨0, 0, 0⟩
  codeHash := []
  bigNumModulo := 2 ^ 64
  maxScriptSize := Script.maxScriptSize

/-- What a machine is run with: its flags, the transaction that it looks at, and limits. -/
structure ScriptEnv (σ : Type) where
  flags : BitVec 32
  sis : σ
  maxOps : ℕ
  maxConsensusSigOps : ℕ

/-- What the opcodes do that push no data. -/
abbrev Opcodes (σ : Type) :=
  ScriptEnv σ → Instruction → ScriptMachine → ScriptResult

def isOpcodeDisabled (opcode : UInt8) : Bool :=
  opcode == op2Mul || opcode == op2Div || opcode == opInvert

/-- The data could not have been pushed in a shorter way. -/
def checkMinimalPush (data : Bytes) (opcode : UInt8) : Bool :=
  if opPushData4 < opcode then true
  else if data.length = 0 then opcode == op0
  else if data.length = 1 ∧ data.any fun b => decide (1 ≤ b) && decide (b ≤ 16) then false
  else if data = [0x81] then false
  else if data.length ≤ 75 then opcode.toNat == data.length
  else if data.length ≤ 255 then opcode == opPushData1
  else if data.length ≤ 65535 then opcode == opPushData2
  else true

namespace ScriptMachine

def push (m : ScriptMachine) (data : Bytes) : ScriptMachine :=
  { m with stack := m.stack ++ [.vch data] }

/-- Opcodes above `OP_16` are counted. -/
def countOp (m : ScriptMachine) (opcode : UInt8) : ScriptMachine :=
  if op16 < opcode then { m with stats := { m.stats with nOpCount := m.stats.nOpCount + 1 } }
  else m

/-- Executes an instruction. In a branch that is not taken only conditionals are looked at. -/
def execOp {σ : Type} (env : ScriptEnv σ) (ops : Opcodes σ) (m : ScriptMachine) (i : Instruction) :
    ScriptResult :=
  if m.vfExec.all id ∧ i.opcode ≤ opPushData4 then
    if env.flags &&& scriptVerifyMinimalData ≠ 0 ∧ !checkMinimalPush i.data i.opcode then
      throw .minimalData
    else return m.push (pushedData i)
  else if m.vfExec.all id ∨ (opIf ≤ i.opcode ∧ i.opcode ≤ opEndIf) then
    if i.opcode = opReserved then throw .badOpcode
    else if i.opcode ≤ op16 then return m.push (pushedData i)
    else ops env i m
  else return m

def step {σ : Type} (env : ScriptEnv σ) (ops : Opcodes σ) (m : ScriptMachine) (i : Instruction) :
    ScriptResult :=
  if maxScriptElementSize < i.data.length then throw .pushSize
  else if op16 < i.opcode ∧ env.maxOps < (m.countOp i.opcode).stats.nOpCount then throw .opCount
  else if isOpcodeDisabled i.opcode then throw .disabledOpcode
  else do
    let m ← execOp env ops (m.countOp i.opcode) i
    if maxStackSize < m.stack.length + m.altstack.length then throw .stackSize else return m

/-- The machine at the start of a script. -/
def beginStep (m : ScriptMachine) (script : CScript) : ScriptMachine :=
  { m with
    vfExec := []
    stats := { m.stats with nOpCount := 0 }
    codeHash := script }

/-- Runs a script on the current stacks. -/
def eval {σ : Type} (env : ScriptEnv σ) (ops : Opcodes σ) (m : ScriptMachine) (script : CScript) :
    ScriptResult :=
  if m.maxScriptSize < script.length then throw .scriptSize
  else do
    let m ← (instructions script).1.foldlM (step env ops) (m.beginStep script)
    if !(instructions script).2 then throw .badOpcode
    else if !m.vfExec.isEmpty then throw .unbalancedConditional
    else return m

/-- A script runs to its end when it is short enough, all of it can be read, no instruction
fails and all conditionals are closed. -/
lemma eval_eq_ok {σ : Type} {env : ScriptEnv σ} {ops : Opcodes σ} {m m' : ScriptMachine}
    {script : CScript} : m.eval env ops script = .ok m' ↔
      script.length ≤ m.maxScriptSize ∧ (instructions script).2 = true ∧ m'.vfExec = [] ∧
      (instructions script).1.foldlM (step env ops) (m.beginStep script) = .ok m' := by
  unfold eval
  rw [ite_throw_eq_ok, bind_eq_ok, Nat.not_lt]
  refine and_congr_right fun _ => ⟨?_, ?_⟩
  · rintro ⟨n, hn, h⟩
    obtain ⟨hread, h⟩ := ite_throw_eq_ok.mp h
    obtain ⟨hclosed, h⟩ := ite_throw_eq_ok.mp h
    cases h
    exact ⟨by simpa using hread, by simpa using hclosed, hn⟩
  · rintro ⟨hread, hclosed, hn⟩
    refine ⟨m', hn, ite_throw_eq_ok.mpr ⟨by simp [hread], ite_throw_eq_ok.mpr ⟨?_, rfl⟩⟩⟩
    simp [hclosed]

end ScriptMachine

/-- The data that a script pushes, one item for each instruction. -/
def pushes (script : CScript) : List StackItem :=
  (instructions script).1.map fun i => .vch (pushedData i)

/-- Numbers that an opcode pushes are short: longer data is carried by the instruction. -/
lemma pushedData_of_length {i : Instruction} (h : 2 < (pushedData i).length) :
    i.data = pushedData i := by
  have hshort : ∀ n : Fin 256,
      (serializeNum (((UInt8.ofNat n).toNat : ℤ) - 0x50)).length ≤ 2 := by
    decide +kernel
  unfold pushedData at h ⊢
  split_ifs at h ⊢ with hop
  · rfl
  · have hn := hshort ⟨i.opcode.toNat, i.opcode.toNat_lt⟩
    simp only [UInt8.ofNat_toNat] at hn
    omega

lemma getOp_of_pushes {script b : Bytes} {rest : List StackItem}
    (h : pushes script = .vch b :: rest) (hlong : 2 < b.length) :
    ∃ opcode next, getOp script = some (opcode, b, next) ∧ pushes next = rest := by
  cases hop : getOp script with
  | none =>
    rw [pushes, instructions] at h
    split at h
    case h_1 => cases h
    case h_2 hsome => cases hop.symm.trans hsome
  | some op =>
    obtain ⟨opcode, data, next⟩ := op
    rw [pushes, instructions_of_getOp hop] at h
    obtain ⟨hfirst, hrest⟩ := List.cons.inj h
    have hdata : pushedData ⟨opcode, data, next⟩ = b := StackItem.vch.inj hfirst
    have hcarried := pushedData_of_length (hdata ▸ hlong)
    exact ⟨opcode, next, by rw [← hdata, ← hcarried], hrest⟩

section PushOnly
variable {σ : Type} {env : ScriptEnv σ} {ops : Opcodes σ} {m m' : ScriptMachine}

lemma step_push {i : Instruction} (hpush : i.opcode ≤ op16) (hexec : m.vfExec = [])
    (h : m.step env ops i = .ok m') : m' = m.push (pushedData i) := by
  have hcount : m.countOp i.opcode = m := if_neg (UInt8.not_lt.mpr hpush)
  unfold ScriptMachine.step at h
  rw [hcount] at h
  obtain ⟨-, h⟩ := ite_throw_eq_ok.mp h
  obtain ⟨-, h⟩ := ite_throw_eq_ok.mp h
  obtain ⟨-, h⟩ := ite_throw_eq_ok.mp h
  obtain ⟨n, hn, h⟩ := bind_eq_ok.mp h
  obtain ⟨-, h⟩ := ite_throw_eq_ok.mp h
  cases h
  unfold ScriptMachine.execOp at hn
  by_cases hdata : i.opcode ≤ opPushData4
  · rw [if_pos ⟨by simp [hexec], hdata⟩] at hn
    obtain ⟨-, hn⟩ := ite_throw_eq_ok.mp hn
    exact (Except.ok.inj hn).symm
  · rw [if_neg (fun hboth => hdata hboth.2), if_pos (.inl (by simp [hexec]))] at hn
    obtain ⟨-, hn⟩ := ite_throw_eq_ok.mp hn
    rw [if_pos hpush] at hn
    exact (Except.ok.inj hn).symm

lemma steps_push {l : List Instruction} (hpush : ∀ i ∈ l, i.opcode ≤ op16) (hexec : m.vfExec = [])
    (h : l.foldlM (ScriptMachine.step env ops) m = .ok m') :
    m' = { m with stack := m.stack ++ l.map fun i => .vch (pushedData i) } := by
  induction l generalizing m with
  | nil =>
    cases h
    simp
  | cons i l ih =>
    obtain ⟨n, hn, h⟩ := foldlM_cons_eq_ok.mp h
    have hstep := step_push (hpush i (by simp)) hexec hn
    subst hstep
    rw [ih (m := m.push (pushedData i)) (fun j hj => hpush j (by simp [hj])) hexec h]
    simp [ScriptMachine.push]

/-- A script that only pushes appends its data to the main stack and changes nothing else
than what every script changes at its start. -/
theorem eval_pushOnly {script : CScript} (hpush : isPushOnly script = true)
    (h : m.eval env ops script = .ok m') :
    m' = { m.beginStep script with stack := m.stack ++ pushes script } := by
  unfold isPushOnly at hpush
  rw [Bool.and_eq_true] at hpush
  obtain ⟨-, -, -, hrun⟩ := ScriptMachine.eval_eq_ok.mp h
  exact steps_push (fun i hi => by simpa using List.all_eq_true.mp hpush.2 i hi) rfl hrun

end PushOnly

end PyrrhaNode.Interpreter
