import PyrrhaNode.Interpreter
import PyrrhaNode.ScriptAttributes

/-!
# Spending template outputs

A template output commits to a template script and to hidden arguments by their hashes
and carries visible arguments. The spender supplies both scripts in front of the
satisfier. The arguments are the constraint; constraint and satisfier may only push
data, which the template then finds on the alternative stack and on the main stack.
Two spends of one output run the same template on the same alternative stack.
-/
namespace PyrrhaNode.TemplateVerify
open Serialize Transaction Script
open ScriptAttributes Interpreter Loop

/-- Compares a script with a hash, whose size selects the hash function. -/
def checkScriptHash (H : HashFns) (hash script : Bytes) : Except ScriptError Unit :=
  if hash.length = 20 then
    if (H.hash160 script).data ≠ hash then throw .template else return ()
  else if hash.length = 32 then
    if (H.hash256 script).data ≠ hash then throw .template else return ()
  else throw .template

/-- The template script and the position after it. A well-known template is not part of
the satisfier. -/
def loadCheckTemplateHash (H : HashFns) (satisfier templateHash : Bytes) :
    Except ScriptError (CScript × Bytes) :=
  if 0 < templateHash.length ∧ templateHash.length ≤ 2 then
    match convertWellKnownTemplateHash templateHash with
    | none => throw .template
    | some templateScript => return (templateScript, satisfier)
  else
    match getOp satisfier with
    | none => throw .template
    | some (_, templateScript, pc) => do
        checkScriptHash H templateHash templateScript
        return (templateScript, pc)

/-- The hidden arguments and the position after them. No hash means no arguments. -/
def loadArgs (H : HashFns) (pc argsHash : Bytes) : Except ScriptError (CScript × Bytes) :=
  if argsHash.length = 0 then return ([], pc)
  else
    match getOp pc with
    | none => throw .template
    | some (_, argsScript, pc) => do
        checkScriptHash H argsHash argsScript
        return (argsScript, pc)

section Verify
variable {σ : Type}

/-- The machine for the constraint: a copy without stacks and with a larger limit. -/
def constraintMachine (ssm : ScriptMachine) : ScriptMachine :=
  { ssm with
    stack := []
    altstack := []
    bigNumModulo := 2 ^ 64
    maxScriptSize := maxScriptTemplateSize }

/-- Runs satisfier, constraint and template, which has to leave no data. -/
def verifyTemplate (env : ScriptEnv σ) (ops : Opcodes σ) (templat constraint satisfier : CScript) :
    ScriptResult :=
  if !isPushOnly satisfier then throw .sigPushOnly
  else if !isPushOnly constraint then throw .sigPushOnly
  else do
    let ssm ← ScriptMachine.init.eval env ops satisfier
    let sm ← (constraintMachine ssm).eval env ops constraint
    let final ← { sm with altstack := sm.stack, stack := ssm.stack }.eval env ops templat
    if final.stack ≠ [] then throw .cleanStack else return final

/-- Verifies a spend. Other scripts than templates are verified by `verifySatoScript`. -/
def verifyScript (H : HashFns) (env : ScriptEnv σ) (ops : Opcodes σ)
    (verifySatoScript : CScript → CScript → ScriptResult) (scriptSig : CScript)
    (scriptType : ScriptType) (scriptPubKey : CScript) : ScriptResult :=
  if scriptType = .template then
    match getScriptTemplate scriptType scriptPubKey with
    | .ok _ templateHash argsHash restOfOutput => do
        let template ← loadCheckTemplateHash H scriptSig templateHash
        let args ← loadArgs H template.2 argsHash
        verifyTemplate env ops template.1 (args.1 ++ restOfOutput) args.2
    | _ => throw .template
  else verifySatoScript scriptSig scriptPubKey

/-- The machine on which a template starts: the stacks are what the constraint and the
satisfier push, and nothing else depends on the satisfier. -/
def templateMachine (constraint satisfier : CScript) : ScriptMachine where
  stack := pushes satisfier
  altstack := pushes constraint
  vfExec := []
  stats := ⟨0, 0, 0⟩
  codeHash := constraint
  bigNumModulo := 2 ^ 64
  maxScriptSize := maxScriptTemplateSize

/-- A run of a template to its end. -/
structure TemplateRun (env : ScriptEnv σ) (ops : Opcodes σ)
    (templat constraint satisfier : CScript) (final : ScriptMachine) : Prop where
  satisfierPushOnly : isPushOnly satisfier = true
  constraintPushOnly : isPushOnly constraint = true
  evaluated : (templateMachine constraint satisfier).eval env ops templat = .ok final
  clean : final.stack = []

lemma verifyTemplate_run {env : ScriptEnv σ} {ops : Opcodes σ}
    {templat constraint satisfier : CScript} {final : ScriptMachine}
    (h : verifyTemplate env ops templat constraint satisfier = .ok final) :
    TemplateRun env ops templat constraint satisfier final := by
  obtain ⟨hsat, h⟩ := ite_throw_eq_ok.mp h
  obtain ⟨hcon, h⟩ := ite_throw_eq_ok.mp h
  obtain ⟨ssm, hssm, h⟩ := bind_eq_ok.mp h
  obtain ⟨sm, hsm, h⟩ := bind_eq_ok.mp h
  obtain ⟨last, hlast, h⟩ := bind_eq_ok.mp h
  obtain ⟨hclean, h⟩ := ite_throw_eq_ok.mp h
  cases h
  have hsat' : isPushOnly satisfier = true := by simpa using hsat
  have hcon' : isPushOnly constraint = true := by simpa using hcon
  have hssm' := eval_pushOnly hsat' hssm
  have hsm' := eval_pushOnly hcon' hsm
  refine ⟨hsat', hcon', ?_, not_not.mp hclean⟩
  rw [hsm', hssm'] at hlast
  simpa [templateMachine, constraintMachine, ScriptMachine.beginStep, ScriptMachine.init]
    using hlast

end Verify

/-- The data that the first two opcodes of a script carry. -/
def firstPushes (script : CScript) : List Bytes :=
  ((instructions script).1.take 2).map Instruction.data

section Binding
variable {H : HashFns} {S : Set Bytes}
  {s₁ s₂ templateHash t₁ t₂ pc₁ pc₂ argsHash templat satisfier scriptSig pc args : Bytes}

lemma checkScriptHash_inj (h160 : Set.InjOn H.hash160 S) (h256 : Set.InjOn H.hash256 S)
    {hash a b : Bytes} (ha : a ∈ S) (hb : b ∈ S) (hca : checkScriptHash H hash a = .ok ())
    (hcb : checkScriptHash H hash b = .ok ()) : a = b := by
  unfold checkScriptHash at hca hcb
  by_cases hshort : hash.length = 20
  · rw [if_pos hshort] at hca hcb
    obtain ⟨hna, -⟩ := ite_throw_eq_ok.mp hca
    obtain ⟨hnb, -⟩ := ite_throw_eq_ok.mp hcb
    refine h160 ha hb (Uint160.ext ?_)
    rw [not_not.mp hna, not_not.mp hnb]
  · rw [if_neg hshort] at hca hcb
    by_cases hlong : hash.length = 32
    · rw [if_pos hlong] at hca hcb
      obtain ⟨hna, -⟩ := ite_throw_eq_ok.mp hca
      obtain ⟨hnb, -⟩ := ite_throw_eq_ok.mp hcb
      refine h256 ha hb (Uint256.ext ?_)
      rw [not_not.mp hna, not_not.mp hnb]
    · rw [if_neg hlong] at hca
      cases hca

lemma loadCheckTemplateHash_cases {templateHash : Bytes}
    (h : loadCheckTemplateHash H satisfier templateHash = .ok (templat, pc)) :
    ((0 < templateHash.length ∧ templateHash.length ≤ 2) ∧
      convertWellKnownTemplateHash templateHash = some templat ∧ pc = satisfier) ∨
    (¬ (0 < templateHash.length ∧ templateHash.length ≤ 2) ∧
      ∃ opcode, getOp satisfier = some (opcode, templat, pc) ∧
        checkScriptHash H templateHash templat = .ok ()) := by
  unfold loadCheckTemplateHash at h
  by_cases hknown : 0 < templateHash.length ∧ templateHash.length ≤ 2
  · rw [if_pos hknown] at h
    refine .inl ⟨hknown, ?_⟩
    cases hconvert : convertWellKnownTemplateHash templateHash with
    | none =>
      rw [hconvert] at h
      cases h
    | some script =>
      rw [hconvert] at h
      cases h
      exact ⟨rfl, rfl⟩
  · rw [if_neg hknown] at h
    refine .inr ⟨hknown, ?_⟩
    match hop : getOp satisfier with
    | none =>
      rw [hop] at h
      cases h
    | some (opcode, script, rest) =>
      rw [hop] at h
      obtain ⟨u, hcheck, h⟩ := bind_eq_ok.mp h
      cases h
      exact ⟨opcode, rfl, hcheck⟩

lemma loadArgs_cases {rest : Bytes} (h : loadArgs H pc argsHash = .ok (args, rest)) :
    (argsHash.length = 0 ∧ args = [] ∧ rest = pc) ∨ (argsHash.length ≠ 0 ∧
      ∃ opcode, getOp pc = some (opcode, args, rest) ∧
        checkScriptHash H argsHash args = .ok ()) := by
  unfold loadArgs at h
  by_cases hnone : argsHash.length = 0
  · rw [if_pos hnone] at h
    cases h
    exact .inl ⟨hnone, rfl, rfl⟩
  rw [if_neg hnone] at h
  refine .inr ⟨hnone, ?_⟩
  match hop : getOp pc with
  | none =>
    rw [hop] at h
    cases h
  | some (opcode, script, rest') =>
    rw [hop] at h
    obtain ⟨u, hcheck, h⟩ := bind_eq_ok.mp h
    cases h
    exact ⟨opcode, rfl, hcheck⟩

lemma satisfier_suffix {templateHash : Bytes}
    (h : loadCheckTemplateHash H scriptSig templateHash = .ok (templat, pc))
    (hargs : loadArgs H pc argsHash = .ok (args, satisfier)) : satisfier <:+ scriptSig := by
  have hpc : pc <:+ scriptSig := by
    rcases loadCheckTemplateHash_cases h with ⟨-, -, rfl⟩ | ⟨-, opcode, hop, -⟩
    · exact List.suffix_rfl
    · exact suffix_of_getOp hop
  rcases loadArgs_cases hargs with ⟨-, -, rfl⟩ | ⟨-, opcode, hop, -⟩
  · exact hpc
  · exact (suffix_of_getOp hop).trans hpc

/-- The template and the hidden arguments are among the first data of the spend. -/
lemma mem_firstPushes {templateHash : Bytes}
    (h : loadCheckTemplateHash H scriptSig templateHash = .ok (templat, pc)) :
    (∀ opcode, getOp scriptSig = some (opcode, templat, pc) → templat ∈ firstPushes scriptSig) ∧
      ∀ opcode args rest, getOp pc = some (opcode, args, rest) →
        args ∈ firstPushes scriptSig := by
  refine ⟨fun opcode hop => ?_, fun opcode args rest hop => ?_⟩
  · simp [firstPushes, instructions_of_getOp hop]
  · rcases loadCheckTemplateHash_cases h with ⟨-, -, rfl⟩ | ⟨-, first, hfirst, -⟩
    · simp [firstPushes, instructions_of_getOp hop]
    · simp [firstPushes, instructions_of_getOp hfirst, instructions_of_getOp hop]

variable (h160 : Set.InjOn H.hash160 {m | m ∈ firstPushes s₁ ∨ m ∈ firstPushes s₂})
variable (h256 : Set.InjOn H.hash256 {m | m ∈ firstPushes s₁ ∨ m ∈ firstPushes s₂})
include h160 h256

lemma loadCheckTemplateHash_unique (h₁ : loadCheckTemplateHash H s₁ templateHash = .ok (t₁, pc₁))
    (h₂ : loadCheckTemplateHash H s₂ templateHash = .ok (t₂, pc₂)) : t₁ = t₂ := by
  rcases loadCheckTemplateHash_cases h₁ with ⟨hknown, hc₁, -⟩ | ⟨hknown, op₁, hop₁, hc₁⟩
  · rcases loadCheckTemplateHash_cases h₂ with ⟨-, hc₂, -⟩ | ⟨hnot, -⟩
    · exact Option.some.inj (hc₁.symm.trans hc₂)
    · exact absurd hknown hnot
  · rcases loadCheckTemplateHash_cases h₂ with ⟨hyes, -⟩ | ⟨-, op₂, hop₂, hc₂⟩
    · exact absurd hyes hknown
    · exact checkScriptHash_inj h160 h256 (.inl ((mem_firstPushes h₁).1 op₁ hop₁))
        (.inr ((mem_firstPushes h₂).1 op₂ hop₂)) hc₁ hc₂

lemma loadArgs_unique {a₁ a₂ rest₁ rest₂ : Bytes}
    (h₁ : loadCheckTemplateHash H s₁ templateHash = .ok (t₁, pc₁))
    (h₂ : loadCheckTemplateHash H s₂ templateHash = .ok (t₂, pc₂))
    (ha₁ : loadArgs H pc₁ argsHash = .ok (a₁, rest₁))
    (ha₂ : loadArgs H pc₂ argsHash = .ok (a₂, rest₂)) : a₁ = a₂ := by
  rcases loadArgs_cases ha₁ with ⟨hnone, hc₁, -⟩ | ⟨hsome, op₁, hop₁, hc₁⟩
  · rcases loadArgs_cases ha₂ with ⟨-, hc₂, -⟩ | ⟨hsome, -⟩
    · rw [hc₁, hc₂]
    · exact absurd hnone hsome
  · rcases loadArgs_cases ha₂ with ⟨hnone, -⟩ | ⟨-, op₂, hop₂, hc₂⟩
    · exact absurd hnone hsome
    · exact checkScriptHash_inj h160 h256 (.inl ((mem_firstPushes h₁).2 op₁ a₁ rest₁ hop₁))
        (.inr ((mem_firstPushes h₂).2 op₂ a₂ rest₂ hop₂)) hc₁ hc₂

end Binding

/-- An accepted spend of a template output: what is loaded and what is run. -/
lemma verifyScript_template {σ : Type} {H : HashFns} {env : ScriptEnv σ} {ops : Opcodes σ}
    {sato : CScript → CScript → ScriptResult} {scriptSig scriptPubKey : CScript}
    {final : ScriptMachine} :
    verifyScript H env ops sato scriptSig .template scriptPubKey = .ok final ↔
    ∃ groupInfo templateHash argsHash visible templat pc hidden satisfier,
      getScriptTemplate .template scriptPubKey = .ok groupInfo templateHash argsHash visible ∧
      loadCheckTemplateHash H scriptSig templateHash = .ok (templat, pc) ∧
      loadArgs H pc argsHash = .ok (hidden, satisfier) ∧
      verifyTemplate env ops templat (hidden ++ visible) satisfier = .ok final := by
  rw [verifyScript]
  constructor
  · intro h
    cases hget : getScriptTemplate .template scriptPubKey with
    | notATemplate | invalid => simp [hget] at h
    | ok groupInfo templateHash argsHash visible =>
      rw [hget] at h
      obtain ⟨⟨templat, pc⟩, hload, h⟩ := bind_eq_ok.mp h
      obtain ⟨⟨hidden, satisfier⟩, hargs, h⟩ := bind_eq_ok.mp h
      exact ⟨groupInfo, templateHash, argsHash, visible, templat, pc, hidden, satisfier, rfl,
        hload, hargs, h⟩
  · rintro ⟨_, _, _, _, _, _, _, _, hget, hload, hargs, hrun⟩
    rw [hget]
    exact bind_eq_ok.mpr ⟨_, hload, bind_eq_ok.mpr ⟨_, hargs, hrun⟩⟩

/-- Any two accepted spends of a template output run the same template with the same
alternative stack, made of the hidden and the visible arguments. Satisfiers and arguments
only push data, the spends differ in what the satisfiers push, and nothing is left. -/
theorem template_fixes_code {σ : Type} {H : HashFns} {env₁ env₂ : ScriptEnv σ} {ops : Opcodes σ}
    {sato : CScript → CScript → ScriptResult} {s₁ s₂ scriptPubKey : CScript}
    {final₁ final₂ : ScriptMachine}
    (h160 : Set.InjOn H.hash160 {m | m ∈ firstPushes s₁ ∨ m ∈ firstPushes s₂})
    (h256 : Set.InjOn H.hash256 {m | m ∈ firstPushes s₁ ∨ m ∈ firstPushes s₂})
    (h₁ : verifyScript H env₁ ops sato s₁ .template scriptPubKey = .ok final₁)
    (h₂ : verifyScript H env₂ ops sato s₂ .template scriptPubKey = .ok final₂) :
    ∃ groupInfo templateHash argsHash visible templat hidden satisfier₁ satisfier₂,
      getScriptTemplate .template scriptPubKey = .ok groupInfo templateHash argsHash visible ∧
      satisfier₁ <:+ s₁ ∧ satisfier₂ <:+ s₂ ∧
      TemplateRun env₁ ops templat (hidden ++ visible) satisfier₁ final₁ ∧
      TemplateRun env₂ ops templat (hidden ++ visible) satisfier₂ final₂ := by
  obtain ⟨g₁, th₁, ah₁, v₁, t₁, pc₁, a₁, sat₁, hget₁, hload₁, hargs₁, hrun₁⟩ :=
    verifyScript_template.mp h₁
  obtain ⟨g₂, th₂, ah₂, v₂, t₂, pc₂, a₂, sat₂, hget₂, hload₂, hargs₂, hrun₂⟩ :=
    verifyScript_template.mp h₂
  cases hget₁.symm.trans hget₂
  obtain rfl := loadCheckTemplateHash_unique h160 h256 hload₁ hload₂
  obtain rfl := loadArgs_unique h160 h256 hload₁ hload₂ hargs₁ hargs₂
  exact ⟨g₁, th₁, ah₁, v₁, t₁, a₁, sat₁, sat₂, hget₁, satisfier_suffix hload₁ hargs₁,
    satisfier_suffix hload₂ hargs₂, verifyTemplate_run hrun₁, verifyTemplate_run hrun₂⟩

/-- The two opcodes of the pay-to-public-key template, with signatures that all verify. -/
def trustingOps : Opcodes Unit := fun _ i m =>
  if i.opcode = opFromAltStack then
    match m.altstack.getLast? with
    | none => .error (.other 1)
    | some item => .ok { m with stack := m.stack ++ [item], altstack := m.altstack.dropLast }
  else if i.opcode = opCheckSigVerify then
    if m.stack.length < 2 then .error (.other 2)
    else .ok { m with stack := m.stack.dropLast.dropLast }
  else .error .badOpcode

def trustingEnv : ScriptEnv Unit := ⟨0, (), 50000, 0xffffffff⟩

/-- The output commits to the arguments `03 01 02 03`, which push a key of three bytes. -/
def keyOutput : CScript := [op0, op1, 20] ++ (lengthHash.hash160 [3, 1, 2, 3]).data

/-- A spend of the output with a signature. -/
def keySpend (signature : Bytes) : CScript :=
  [4, 3, 1, 2, 3] ++ UInt8.ofNat signature.length :: signature

theorem template_fixes_code_keyOutput : ∃ final₁ final₂ satisfier₁ satisfier₂,
    satisfier₁ <:+ keySpend [9] ∧ satisfier₂ <:+ keySpend [8, 8] ∧
      ∃ templat constraint,
        TemplateRun trustingEnv trustingOps templat constraint satisfier₁ final₁ ∧
        TemplateRun trustingEnv trustingOps templat constraint satisfier₂ final₂ := by
  have hok : ∀ signature ∈ [[9], [8, 8]], (verifyScript lengthHash trustingEnv trustingOps
      (fun _ _ => .error .badOpcode) (keySpend signature) .template keyOutput).isOk = true := by
    decide +kernel
  have hinj160 : ((firstPushes (keySpend [9]) ++ firstPushes (keySpend [8, 8])).dedup.map
      lengthHash.hash160).Nodup := by
    decide +kernel
  have hinj256 : ((firstPushes (keySpend [9]) ++ firstPushes (keySpend [8, 8])).dedup.map
      lengthHash.hash256).Nodup := by
    decide +kernel
  obtain ⟨final₁, hrun₁⟩ := exists_eq_ok.mp (hok [9] (by simp))
  obtain ⟨final₂, hrun₂⟩ := exists_eq_ok.mp (hok [8, 8] (by simp))
  obtain ⟨-, -, -, visible, templat, hidden, sat₁, sat₂, -, hsuf₁, hsuf₂, hr₁, hr₂⟩ :=
    template_fixes_code
      (fun a ha b hb => List.inj_on_of_nodup_map hinj160 (by simpa using ha) (by simpa using hb))
      (fun a ha b hb => List.inj_on_of_nodup_map hinj256 (by simpa using ha) (by simpa using hb))
      hrun₁ hrun₂
  exact ⟨final₁, final₂, sat₁, sat₂, hsuf₁, hsuf₂, templat, hidden ++ visible, hr₁, hr₂⟩

end PyrrhaNode.TemplateVerify
