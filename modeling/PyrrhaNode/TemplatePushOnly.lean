import PyrrhaNode.TemplateVerify

/-!
# Opcodes in spends of template outputs

The template and the hidden arguments are read from the front of the spend by the function that
reads opcodes, and only the rest has to be free of other opcodes than pushes.  What stands at the
first positions is compared by its hash.  An opcode that pushes nothing carries the empty string,
so where an output is met by the empty script, every such opcode is accepted in its place.
-/
namespace PyrrhaNode.TemplatePushOnly

open List Serialize Transaction Script ScriptAttributes Interpreter TemplateVerify Loop

/-- How many scripts the spender supplies in front of the satisfier. -/
def suppliedCount (templateHash argsHash : Bytes) : ℕ :=
  (if 0 < templateHash.length ∧ templateHash.length ≤ 2 then 0 else 1) +
    if argsHash.length = 0 then 0 else 1

/-- The instructions at the positions of the template and the hidden arguments. -/
def supplied (scriptPubKey scriptSig : CScript) : List Instruction :=
  match getScriptTemplate .template scriptPubKey with
  | .ok _ templateHash argsHash _ =>
    (instructions scriptSig).1.take (suppliedCount templateHash argsHash)
  | _ => []

/-- The hash, of either size, of the empty script. -/
def IsHashOfEmpty (H : HashFns) (hash : Bytes) : Prop :=
  hash = (H.hash160 []).data ∨ hash = (H.hash256 []).data

/-- The template or the hidden arguments of the output are the empty script. -/
def CommitsToEmpty (H : HashFns) (scriptPubKey : CScript) : Prop :=
  match getScriptTemplate .template scriptPubKey with
  | .ok _ templateHash argsHash _ => IsHashOfEmpty H templateHash ∨ IsHashOfEmpty H argsHash
  | _ => False

section GetOp

variable {script data rest : Bytes} {opcode : UInt8}

variable (h : getOp script = some (opcode, data, rest))
include h

lemma isPushOnly_of_getOp :
    isPushOnly script = true ↔ opcode ≤ op16 ∧ isPushOnly rest = true := by
  simp only [isPushOnly, instructions_of_getOp h, all_cons, Bool.and_eq_true,
    decide_eq_true_eq]
  tauto

/-- Only pushes carry data. -/
lemma opcode_le_of_getOp (hdata : data ≠ []) :
    opcode ≤ op16 := by
  cases script with
  | nil => cases h
  | cons b pc =>
    by_cases hpush : b ≤ opPushData4
    · have hle : b ≤ op16 := UInt8.le_trans hpush (by decide)
      rw [getOp, if_pos hpush] at h
      split at h
      · cases h
      · split_ifs at h
        cases h
        exact hle
    · rw [getOp, if_neg hpush] at h
      cases h
      exact absurd rfl hdata

end GetOp

lemma isHashOfEmpty_of_check {H : HashFns} {hash : Bytes}
    (h : checkScriptHash H hash [] = .ok ()) : IsHashOfEmpty H hash := by
  unfold checkScriptHash at h
  split_ifs at h with _ hne _ hne
  · exact .inl (not_not.mp hne).symm
  · exact .inr (not_not.mp hne).symm

section Spend

variable {σ : Type} {H : HashFns} {env : ScriptEnv σ} {ops : Opcodes σ}
  {sato : CScript → CScript → ScriptResult}
  {scriptPubKey scriptSig : CScript} {final : ScriptMachine} {i : Instruction}

/-- What an accepted spend holds at a position in front of the satisfier: an opcode that was read
there, with data that have a hash of the output. -/
structure SuppliedFor (H : HashFns) (templateHash argsHash : Bytes) (i : Instruction) : Prop where
  read : ∃ pc, getOp pc = some (i.opcode, i.data, i.next)
  checked : checkScriptHash H templateHash i.data = .ok () ∨
    checkScriptHash H argsHash i.data = .ok ()

/-- The satisfier of an accepted spend only pushes, so the opcodes in front of it decide. -/
lemma supplied_of_spend
    (hspend : verifyScript H env ops sato scriptSig .template scriptPubKey = .ok final) :
    ∃ groupInfo templateHash argsHash visible,
    getScriptTemplate .template scriptPubKey = .ok groupInfo templateHash argsHash visible ∧
      (∀ i ∈ supplied scriptPubKey scriptSig, SuppliedFor H templateHash argsHash i) ∧
      (isPushOnly scriptSig = true ↔
        ∀ i ∈ supplied scriptPubKey scriptSig, i.opcode ≤ op16) := by
  obtain ⟨groupInfo, templateHash, argsHash, visible, templat, pc, hidden, satisfier, hget, hload,
    hargs, hrun⟩ := verifyScript_template.mp hspend
  have hsatisfier := (verifyTemplate_run hrun).satisfierPushOnly
  refine ⟨groupInfo, templateHash, argsHash, visible, hget, ?_⟩
  simp only [supplied, hget, suppliedCount]
  rcases loadCheckTemplateHash_cases hload with ⟨hknown, -, rfl⟩ | ⟨hknown, op, hop, hcheck⟩
  · rcases loadArgs_cases hargs with ⟨hnone, -, rfl⟩ | ⟨hsome, op', hop', hcheck'⟩
    · simp [hknown, hnone, hsatisfier]
    · have hargs : SuppliedFor H templateHash argsHash ⟨op', hidden, satisfier⟩ :=
        ⟨⟨_, hop'⟩, .inr hcheck'⟩
      simp [hknown, hsome, isPushOnly_of_getOp hop', hsatisfier, instructions_of_getOp hop', hargs]
  · have htemplate : SuppliedFor H templateHash argsHash ⟨op, templat, pc⟩ :=
      ⟨⟨_, hop⟩, .inl hcheck⟩
    rcases loadArgs_cases hargs with ⟨hnone, -, rfl⟩ | ⟨hsome, op', hop', hcheck'⟩
    · simp [hknown, hnone, isPushOnly_of_getOp hop, hsatisfier, instructions_of_getOp hop,
        htemplate]
    · have hargs : SuppliedFor H templateHash argsHash ⟨op', hidden, satisfier⟩ :=
        ⟨⟨_, hop'⟩, .inr hcheck'⟩
      simp [hknown, hsome, isPushOnly_of_getOp hop, isPushOnly_of_getOp hop', hsatisfier,
        instructions_of_getOp hop, instructions_of_getOp hop', htemplate, hargs]

/-- An accepted spend of a template output only pushes, iff every opcode that carries no data at the
position of the template or of the hidden arguments is a push; and always where the output commits
to no empty script. -/
theorem template_pushOnly_iff
    (hspend : verifyScript H env ops sato scriptSig .template scriptPubKey = .ok final) :
    (isPushOnly scriptSig = true ↔
      ∀ i ∈ supplied scriptPubKey scriptSig, i.data = [] → i.opcode ≤ op16) ∧
    (¬ CommitsToEmpty H scriptPubKey → isPushOnly scriptSig = true) := by
  obtain ⟨groupInfo, templateHash, argsHash, visible, hget, hsupplied, hpush⟩ :=
    supplied_of_spend hspend
  have hiff : isPushOnly scriptSig = true ↔
      ∀ i ∈ supplied scriptPubKey scriptSig, i.data = [] → i.opcode ≤ op16 := by
    rw [hpush]
    refine forall₂_congr fun i hi => ⟨fun hle _ => hle, fun hle => ?_⟩
    obtain ⟨pc, hop⟩ := (hsupplied i hi).read
    by_cases hempty : i.data = []
    · exact hle hempty
    · exact opcode_le_of_getOp hop hempty
  refine ⟨hiff, fun hcommits => hiff.mpr fun i hi hempty => absurd ?_ hcommits⟩
  rw [CommitsToEmpty, hget]
  have hchecked := (hsupplied i hi).checked
  rw [hempty] at hchecked
  exact hchecked.imp isHashOfEmpty_of_check isHashOfEmpty_of_check

end Spend

instance (H : HashFns) (scriptPubKey : CScript) : Decidable (CommitsToEmpty H scriptPubKey) := by
  unfold CommitsToEmpty IsHashOfEmpty
  split <;> infer_instance

/-- A spend with hidden arguments and the well-known template, whose output commits to neither of
them being empty. -/
theorem template_pushOnly_keySpend : isPushOnly (keySpend [9]) = true ∧
    ∀ i ∈ supplied keyOutput (keySpend [9]), i.data = [] → i.opcode ≤ op16 := by
  obtain ⟨final, hrun⟩ : ∃ m, verifyScript lengthHash trustingEnv trustingOps
      (fun _ _ => .error .badOpcode) (keySpend [9]) .template keyOutput = .ok m :=
    exists_eq_ok.mp (by decide +kernel)
  have hcommits : ¬ CommitsToEmpty lengthHash keyOutput := by
    decide +kernel
  have hpush := (template_pushOnly_iff hrun).2 hcommits
  exact ⟨hpush, (template_pushOnly_iff hrun).1.mp hpush⟩

/-- The output asks for the template with the hash of the empty script and for no arguments. -/
def emptyTemplateOutput : CScript := op0 :: 20 :: (lengthHash.hash160 []).data ++ [op0]

/-- A lone `OP_RETURN` spends an output that commits to the empty template. -/
theorem opReturn_spends_emptyTemplateOutput :
    (verifyScript lengthHash trustingEnv trustingOps (fun _ _ => .error .badOpcode) [opReturn]
      .template emptyTemplateOutput).isOk = true ∧ isPushOnly [opReturn] = false := by
  decide +kernel

end PyrrhaNode.TemplatePushOnly
