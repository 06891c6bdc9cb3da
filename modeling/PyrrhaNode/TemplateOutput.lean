import PyrrhaNode.ScriptOps
import PyrrhaNode.ScriptAttributes

/-!
# Writing template outputs

`ScriptTemplateOutput` writes the script of a template output from its group, quantity,
template hash, args hash and visible arguments, and `GetScriptTemplate` reads these parts
back. Removing the group from a script writes the other parts again. The assertion that
`IsScriptGrouped` makes about the size of a group id does not hold of all scripts.
-/
namespace PyrrhaNode.TemplateOutput
open List ByteCodec Serialize Transaction Script
open ScriptAttributes ScriptOps

/-- `SerializeAmount`: negative quantities take eight bytes, others as many of two, four or
eight as they need. -/
def serializeAmount (num : CAmount) : Bytes :=
  if num < 0 then leBytes 8 num.toUInt64.toNat
  else if num ≤ 0xffff then leBytes 2 num.toUInt64.toNat
  else if num ≤ 0xffffffff then leBytes 4 num.toUInt64.toNat
  else leBytes 8 num.toUInt64.toNat

/-- `ScriptTemplateOutput`, a script of type `TEMPLATE`. The quantity minus one stands for no
quantity, which addresses use. -/
def scriptTemplateOutput (scriptHash argsHash visibleArgs : Bytes) (group : CGroupTokenID)
    (grpQuantity : CAmount) : CScript :=
  if group ≠ noGroup then
    if grpQuantity ≠ -1 then
      pushVector group ++ (pushVector (serializeAmount grpQuantity) ++
        (pushVector scriptHash ++ (pushVector argsHash ++ visibleArgs)))
    else
      pushVector group ++ (op0 :: (pushVector scriptHash ++ (pushVector argsHash ++ visibleArgs)))
  else op0 :: (pushVector scriptHash ++ (pushVector argsHash ++ visibleArgs))

/-- `UngroupedScriptTemplate`; a script that is no template is returned as it is. -/
def ungroupedScriptTemplate (scriptType : ScriptType) (templateIn : CScript) : CScript :=
  match getScriptTemplate scriptType templateIn with
  | .ok _ templateHash argsHash rest => scriptTemplateOutput templateHash argsHash rest noGroup (-1)
  | _ => templateIn

variable {num : CAmount} {n : ℕ} {opcode : UInt8}

lemma toUInt64_of_nonneg (h : ¬ num < 0) :
    (num.toUInt64.toNat : ℤ) = num.toInt := by
  have hnonneg : 0 ≤ num.toInt := by
    rw [Int64.lt_iff_toInt_lt] at h
    simpa using h
  have hnat : num.toUInt64.toNat = num.toBitVec.toNat := rfl
  rw [hnat, ← Int64.toInt_toBitVec, BitVec.toInt_eq_toNat_of_msb]
  rw [BitVec.msb_eq_false_iff_two_mul_lt]
  have htoInt := Int64.toInt_toBitVec num
  rw [BitVec.toInt_eq_toNat_cond] at htoInt
  split_ifs at htoInt with hlt
  · exact hlt
  · omega

lemma deserializeAmount_leBytes {width : ℕ} (hwidth : width = 2 ∨ width = 4 ∨ width = 8)
    (hlt : num.toUInt64.toNat < 256 ^ width) :
    deserializeAmount (leBytes width num.toUInt64.toNat) = some num := by
  rw [deserializeAmount, length_leBytes, if_pos hwidth, ofLeBytes_leBytes, Nat.mod_eq_of_lt hlt,
    UInt64.ofNat_toNat]
  rfl

lemma deserializeAmount_serializeAmount (num : CAmount) :
    deserializeAmount (serializeAmount num) = some num := by
  have hlt : num.toUInt64.toNat < 256 ^ 8 := num.toUInt64.toNat_lt
  unfold serializeAmount
  split_ifs with hneg h2 h4
  · exact deserializeAmount_leBytes (by simp) hlt
  · apply deserializeAmount_leBytes (by simp)
    have hnonneg := toUInt64_of_nonneg hneg
    rw [Int64.le_iff_toInt_le] at h2
    have hmax : (0xffff : Int64).toInt = 0xffff := by decide
    omega
  · apply deserializeAmount_leBytes (by simp)
    have hnonneg := toUInt64_of_nonneg hneg
    rw [Int64.le_iff_toInt_le] at h4
    have hmax : (0xffffffff : Int64).toInt = 0xffffffff := by decide
    omega
  · exact deserializeAmount_leBytes (by simp) hlt

lemma length_serializeAmount (num : CAmount) : (serializeAmount num).length = 2 ∨
    (serializeAmount num).length = 4 ∨ (serializeAmount num).length = 8 := by
  unfold serializeAmount
  split_ifs <;> simp

/-- The opcode that the push of so many bytes starts with. -/
def pushOpcode (n : ℕ) : UInt8 :=
  if n < 0x4c then UInt8.ofNat n
  else if n ≤ 0xff then opPushData1
  else if n ≤ 0xffff then opPushData2
  else opPushData4

lemma opcode_of_getOp {b : UInt8} {pc data rest : Bytes}
    (h : getOp (b :: pc) = some (opcode, data, rest)) : opcode = b := by
  rw [getOp] at h
  split_ifs at h
  · split at h
    · cases h
    · split_ifs at h
      cases h
      rfl
  · cases h
    rfl

/-- The push of more than one byte is read with its opcode. -/
lemma getOp_pushVector_of_length {b : Bytes} (rest : Bytes) (hlen : 2 ≤ b.length)
    (hfits : (b ++ rest).length < 2 ^ 32) :
    getOp (pushVector b ++ rest) = some (pushOpcode b.length, b, rest) := by
  have hpush : pushVector b = serializeVector b := by
    match b, hlen with
    | _ :: _ :: _, _ => rfl
  have hhead : ∃ tail, serializeVector b = pushOpcode b.length :: tail := by
    unfold serializeVector pushOpcode
    split_ifs <;> exact ⟨_, rfl⟩
  obtain ⟨tail, hhead⟩ := hhead
  obtain ⟨opcode, -, hget⟩ := getOp_serializeVector hfits
  rw [hpush]
  rw [hhead] at hget ⊢
  rw [hget, opcode_of_getOp hget]

lemma toNat_pushOpcode_of_lt (h : n < 0x4c) : (pushOpcode n).toNat = n := by
  rw [pushOpcode, if_pos h]
  exact UInt8.toNat_ofNat_of_lt (h.trans (by decide))

/-- The opcode of a group id is neither zero nor too small. -/
lemma le_pushOpcode (h : 0x20 ≤ n) : 0x20 ≤ pushOpcode n := by
  by_cases hn : n < 0x4c
  · rw [UInt8.le_iff_toNat_le, toNat_pushOpcode_of_lt hn]
    exact h
  · rw [pushOpcode]
    split_ifs <;> decide

/-- The hash of a template, or the number of the well-known one. -/
def IsTemplateHash (templateHash : Bytes) : Prop :=
  templateHash.length = 20 ∨ templateHash.length = 32 ∨ templateHash = p2pktId

/-- The hash of the hidden arguments, if there are any. -/
def IsArgsHash (argsHash : Bytes) : Prop :=
  argsHash.length = 20 ∨ argsHash.length = 32 ∨ argsHash = []

section Parts

variable {templateHash argsHash visibleArgs : Bytes} {group : CGroupTokenID}
  {quantity : CAmount} (rest : Bytes)

lemma getOp_pushVector_of_hash {b rest : Bytes} (hb : b.length = 20 ∨ b.length = 32)
    (hfits : (b ++ rest).length < 2 ^ 32) :
    ∃ opcode, getOp (pushVector b ++ rest) = some (opcode, b, rest) ∧
      isPushOpcode opcode = true ∧ opcode ≠ op1 := by
  refine ⟨_, getOp_pushVector_of_length rest (by omega) hfits, ?_⟩
  have hops : ∀ n ∈ [20, 32], isPushOpcode (pushOpcode n) = true ∧ pushOpcode n ≠ op1 := by decide
  apply hops
  simpa using hb

/-- A template hash is read back, also where its number is an opcode. -/
lemma getOp_templateHash (hth : IsTemplateHash templateHash)
    (hfits : (templateHash ++ rest).length < 2 ^ 32) :
    ∃ opcode data, getOp (pushVector templateHash ++ rest) = some (opcode, data, rest) ∧
      isPushOpcode opcode = true ∧ numericOpcodeToVector opcode data = templateHash ∧
      templateHashOk templateHash = true := by
  by_cases hknown : templateHash = p2pktId
  · subst hknown
    refine ⟨op1, [], getOp_of_lt (by decide) rest, by decide, rfl, by decide⟩
  · have hlen : templateHash.length = 20 ∨ templateHash.length = 32 :=
      hth.imp_right fun h => h.resolve_right hknown
    obtain ⟨opcode, hget, hpush, hne⟩ := getOp_pushVector_of_hash hlen hfits
    refine ⟨opcode, templateHash, hget, hpush, if_neg hne, ?_⟩
    rcases hlen with hlen | hlen <;> simp [templateHashOk, hlen]

lemma getOp_argsHash (hah : IsArgsHash argsHash) (hfits : (argsHash ++ rest).length < 2 ^ 32) :
    ∃ opcode, getOp (pushVector argsHash ++ rest) = some (opcode, argsHash, rest) ∧
      isPushOpcode opcode = true := by
  by_cases hnil : argsHash = []
  · subst hnil
    exact ⟨op0, getOp_of_pushSize (by decide) rfl hfits, by decide⟩
  · have hlen : argsHash.length = 20 ∨ argsHash.length = 32 :=
      hah.imp_right fun h => h.resolve_right hnil
    obtain ⟨opcode, hget, hpush, -⟩ := getOp_pushVector_of_hash hlen hfits
    exact ⟨opcode, hget, hpush⟩

/-- What follows the group of a script. -/
def templateParts (templateHash argsHash visibleArgs : Bytes) : Bytes :=
  pushVector templateHash ++ (pushVector argsHash ++ visibleArgs)

/-- A script with a group and these parts is a template. -/
lemma getScriptTemplate_of_group {script : CScript} {info : CGroupTokenInfo}
    (hgroup : isScriptGrouped .template script =
      (info, some (templateParts templateHash argsHash visibleArgs)))
    (hth : IsTemplateHash templateHash) (hah : IsArgsHash argsHash)
    (hfits : (templateParts templateHash argsHash visibleArgs).length < 2 ^ 32) :
    getScriptTemplate .template script = .ok info templateHash argsHash visibleArgs := by
  have hthLen := (length_pushVector templateHash).1
  have hahLen := (length_pushVector argsHash).1
  simp only [templateParts, length_append] at hfits
  obtain ⟨opcode, data, hgetTemplate, hpush, hdata, hok⟩ :=
    getOp_templateHash (pushVector argsHash ++ visibleArgs) hth
      (by simp only [length_append]; omega)
  obtain ⟨opcodeArgs, hgetArgs, hpushArgs⟩ := getOp_argsHash visibleArgs hah
    (by simp only [length_append]; omega)
  rw [getScriptTemplate, hgroup]
  dsimp only
  rw [templateParts, hgetTemplate]
  simp only [hpush, hdata, hok, hgetArgs, hpushArgs, Bool.not_true, Bool.false_eq_true, if_false]

lemma isScriptGrouped_op0 (pc : Bytes) :
    isScriptGrouped .template (op0 :: pc) = (.clear, some pc) := by
  have hget : getOp (op0 :: pc) = some (op0, [], pc) := by
    rw [getOp]
    simp [pushSize, op0, opPushData1]
  rw [isScriptGrouped]
  simp only [hget, if_true]

lemma isScriptGrouped_group (hgroup : 32 ≤ group.length) (pc : Bytes)
    (hfits : (pushVector group ++ (pushVector (serializeAmount quantity) ++ pc)).length < 2 ^ 32) :
    isScriptGrouped .template (pushVector group ++ (pushVector (serializeAmount quantity) ++ pc)) =
      (groupOfQuantity group quantity, some pc) := by
  have hqty := length_serializeAmount quantity
  have hgroupLen := (length_pushVector group).1
  simp only [length_append] at hfits
  have hgetGroup := getOp_pushVector_of_length (pushVector (serializeAmount quantity) ++ pc)
    (by omega : 2 ≤ group.length) (by simp only [length_append]; omega)
  have hgetQty := getOp_pushVector_of_length pc (by omega : 2 ≤ (serializeAmount quantity).length)
    (by simp only [length_append]; omega)
  have hlarge := le_pushOpcode hgroup
  have hzero : pushOpcode group.length ≠ op0 := by
    intro h
    rw [h] at hlarge
    exact absurd hlarge (by decide)
  have hwidth : ∀ n ∈ [2, 4, 8], ¬ (pushOpcode n ≠ 2 ∧ pushOpcode n ≠ 4 ∧ pushOpcode n ≠ 8) := by
    decide
  rw [isScriptGrouped]
  simp only [hgetGroup, hgetQty, if_neg hzero, if_neg (UInt8.not_lt.mpr hlarge),
    if_neg (not_lt.mpr hgroup), if_neg (hwidth _ (by simpa using hqty)),
    deserializeAmount_serializeAmount]

/-- The group information that is written into an output. -/
def groupInfo (group : CGroupTokenID) (quantity : CAmount) : CGroupTokenInfo :=
  if group = noGroup then .clear else groupOfQuantity group quantity

/-- All parts of a template output are read back, and removing its group leaves the output
with the same other parts. The output must fit a script, whose size has 32 bits. -/
theorem getScriptTemplate_scriptTemplateOutput
    (hgroup : group = noGroup ∨ 32 ≤ group.length ∧ group.length ≤ 520) (hquantity : quantity ≠ -1)
    (hth : IsTemplateHash templateHash) (hah : IsArgsHash argsHash)
    (hfits : (scriptTemplateOutput templateHash argsHash visibleArgs group quantity).length <
      2 ^ 32) :
    getScriptTemplate .template
        (scriptTemplateOutput templateHash argsHash visibleArgs group quantity) =
        .ok (groupInfo group quantity) templateHash argsHash visibleArgs ∧
      ungroupedScriptTemplate .template
          (scriptTemplateOutput templateHash argsHash visibleArgs group quantity) =
        scriptTemplateOutput templateHash argsHash visibleArgs noGroup (-1) := by
  have hparse : getScriptTemplate .template
      (scriptTemplateOutput templateHash argsHash visibleArgs group quantity) =
        .ok (groupInfo group quantity) templateHash argsHash visibleArgs := by
    by_cases hnone : group = noGroup
    · rw [scriptTemplateOutput, if_neg (not_not.mpr hnone)] at hfits ⊢
      rw [groupInfo, if_pos hnone]
      apply getScriptTemplate_of_group (isScriptGrouped_op0 _) hth hah
      exact (Nat.lt_succ_self _).trans hfits
    · have hlen : 32 ≤ group.length := (hgroup.resolve_left hnone).1
      rw [scriptTemplateOutput, if_pos hnone, if_pos hquantity] at hfits ⊢
      rw [groupInfo, if_neg hnone]
      apply getScriptTemplate_of_group (isScriptGrouped_group hlen _ hfits) hth hah
      simp only [length_append, templateParts] at hfits ⊢
      omega
  refine ⟨hparse, ?_⟩
  rw [ungroupedScriptTemplate, hparse]

end Parts

theorem getScriptTemplate_scriptTemplateOutput_authority :
    getScriptTemplate .template (scriptTemplateOutput (List.replicate 20 7) [] [0x51]
        (List.replicate 32 4) (-2)) =
      .ok (groupOfQuantity (List.replicate 32 4) (-2)) (List.replicate 20 7) [] [0x51] :=
  (getScriptTemplate_scriptTemplateOutput (.inr (by decide)) (by decide) (.inl (by decide))
    (.inr (.inr rfl)) (by decide)).1

/-- The size of the group id of which `IsScriptGrouped` asserts that it is at least 32. The
assertion is reached when a quantity follows and the opcode of the group passed its test. -/
def assertedSize (scriptType : ScriptType) (script : CScript) : Option ℕ :=
  match scriptType with
  | .pushOnly => none
  | .satoscript => none
  | .template =>
    match getOp script with
    | none => none
    | some (opcodeGrp, groupId, pc) =>
      if opcodeGrp = op0 then none
      else if getOp pc = none then none
      else if opcodeGrp < 0x20 then none
      else some groupId.length

/-- The assertion is not reached, or it holds. -/
def AssertionHolds (scriptType : ScriptType) (script : CScript) : Prop :=
  ∀ size ∈ assertedSize scriptType script, 0x20 ≤ size

instance (scriptType : ScriptType) (script : CScript) :
    Decidable (AssertionHolds scriptType script) :=
  inferInstanceAs (Decidable (∀ size ∈ assertedSize scriptType script, 0x20 ≤ size))

/-- The group is pushed by an opcode that does not tell the size of what it pushes, is too
short, and another opcode can be read after it. -/
def ShortGroup (script : CScript) : Prop :=
  ∃ opcodeGrp groupId pc, getOp script = some (opcodeGrp, groupId, pc) ∧
    opPushData1 ≤ opcodeGrp ∧ groupId.length < 0x20 ∧ getOp pc ≠ none

lemma length_of_getOp {data script pc : Bytes} (h : getOp script = some (opcode, data, pc))
    (hop : opcode < opPushData1) :
    data.length = opcode.toNat := by
  cases script with
  | nil => simp [getOp] at h
  | cons b rest =>
    obtain rfl := opcode_of_getOp h
    have hle : opcode ≤ opPushData4 := UInt8.le_of_lt (UInt8.lt_trans hop (by decide))
    rw [getOp, pushSize, if_pos hop] at h
    dsimp only at h
    split_ifs at h with hshort
    cases h
    rw [length_take]
    omega

/-- The size that follows an explicit push, and the missing data of opcodes that push none,
are not covered by the test of the opcode. -/
theorem assertionHolds_template_iff (script : CScript) :
    AssertionHolds .template script ↔ ¬ ShortGroup script := by
  cases hop : getOp script with
  | none => simp [AssertionHolds, assertedSize, ShortGroup, hop]
  | some read =>
    obtain ⟨opcodeGrp, groupId, pc⟩ := read
    have hdirect := length_of_getOp hop
    simp only [UInt8.lt_iff_toNat_lt] at hdirect
    have hzero : opcodeGrp = op0 → opcodeGrp.toNat = 0 := by rintro rfl; rfl
    simp only [AssertionHolds, assertedSize, ShortGroup, hop, UInt8.lt_iff_toNat_lt,
      UInt8.le_iff_toNat_le, Option.some.injEq, Prod.mk.injEq, Option.mem_def]
    constructor
    · rintro hsize ⟨_, _, _, ⟨rfl, rfl, rfl⟩, hpush, hshort, hnext⟩
      have hge : (opPushData1).toNat = 0x4c := rfl
      rw [if_neg (fun h => by have := hzero h; omega), if_neg hnext,
        if_neg (fun h => by change _ < 0x20 at h; omega)] at hsize
      exact absurd (hsize _ rfl) (by omega)
    · intro hlong size hsize
      split_ifs at hsize with hnative hnext hlt
      cases hsize
      by_contra hshort
      refine hlong ⟨_, _, _, ⟨rfl, rfl, rfl⟩, ?_, by omega, hnext⟩
      -- an opcode below `OP_PUSHDATA1` is the size of what it pushes
      by_contra hpush
      change ¬ _ < 0x20 at hlt
      omega

/-- A number instead of a group id. -/
theorem opcode_test_is_not_enough : ¬ AssertionHolds .template [op16, op0] := by
  decide

end PyrrhaNode.TemplateOutput
