import PyrrhaNode.SatoVerify
import PyrrhaNode.TemplateOutput

/-!
# Scripts that push a list of vectors

`CScript << d` appends the shortest push of `d`. A script that is written so is read back as one
push for each vector, and the script machine accepts these pushes as minimal.
-/
namespace PyrrhaNode.ScriptPushes
open List ByteCodec Serialize Transaction Script Interpreter ScriptOps SatoVerify TemplateOutput

/-- `CScript() << d1 << ... << dk`. -/
def pushAll (ds : List Bytes) : CScript := ds.foldl (fun script d => script ++ pushVector d) []

variable (ds : List Bytes)

lemma pushAll_eq : pushAll ds = ds.flatMap pushVector := by
  have hfold : ∀ script : CScript, ds.foldl (fun script d => script ++ pushVector d) script =
      script ++ ds.flatMap pushVector := by
    induction ds with
    | nil => simp
    | cons d ds ih => simp [ih]
  exact hfold []

variable {opcode : UInt8}

lemma checkMinimalPush_serializeVector {b : Bytes} (hne : b ≠ [])
    (hsmall : ∀ v, b = [v] → ¬ (1 ≤ v ∧ v ≤ 16) ∧ v ≠ 0x81)
    (hhead : (serializeVector b).head? = some opcode) : checkMinimalPush b opcode = true := by
  have hlen : b.length ≠ 0 := by simpa using hne
  have hone : ¬ (b.length = 1 ∧ (b.any fun v => decide (1 ≤ v) && decide (v ≤ 16)) = true) := by
    rintro ⟨h1, hany⟩
    obtain ⟨v, rfl⟩ := length_eq_one_iff.mp h1
    exact (hsmall v rfl).1 (by simpa using hany)
  have hneg : b ≠ [0x81] := fun h => (hsmall _ h).2 rfl
  rw [checkMinimalPush, if_neg hlen, if_neg hone, if_neg hneg]
  unfold serializeVector at hhead
  split_ifs at hhead with h1 h2 h3
  · obtain rfl := Option.some.inj hhead
    have hn : (UInt8.ofNat b.length).toNat = b.length :=
      UInt8.toNat_ofNat_of_lt (h1.trans (by decide))
    rw [if_pos (by omega : b.length ≤ 75), hn]
    simp
  · obtain rfl := Option.some.inj hhead
    simp [(by omega : 75 < b.length), h2]
  · obtain rfl := Option.some.inj hhead
    simp [(by omega : 75 < b.length), (by omega : 255 < b.length)]
  · simp [(by omega : 75 < b.length), (by omega : 255 < b.length), (by omega : 65535 < b.length)]

/-- The push that is read back is minimal. -/
lemma getOp_pushVector_minimal (b rest : Bytes) (hfits : (b ++ rest).length < 2 ^ 32) :
    ∃ opcode data, getOp (pushVector b ++ rest) = some (opcode, data, rest) ∧
      Pushes ⟨opcode, data, rest⟩ b ∧ checkMinimalPush data opcode = true := by
  obtain ⟨opcode, data, hget, hpushes⟩ := getOp_pushVector hfits
  refine ⟨opcode, data, hget, hpushes, ?_⟩
  by_cases hlarge : opPushData4 < opcode
  · rw [checkMinimalPush, if_pos hlarge]
  have hdata : data = b := by
    have h := hpushes.data
    rwa [pushedData, if_pos (UInt8.not_lt.mp hlarge)] at h
  subst hdata
  have hlong : data ≠ [] → (∀ v, data = [v] → ¬ (1 ≤ v ∧ v ≤ 16) ∧ v ≠ 0x81) →
      pushVector data = serializeVector data → checkMinimalPush data opcode = true := by
    intro hne hsmall hvector
    refine checkMinimalPush_serializeVector hne hsmall ?_
    rw [hvector] at hget
    cases hhead : serializeVector data with
    | nil => exact absurd (length_serializeVector data).1 (by simp [hhead])
    | cons b tail =>
      rw [hhead] at hget
      rw [opcode_of_getOp hget]
      rfl
  cases data with
  | nil =>
    rw [opcode_of_getOp hget]
    rfl
  | cons v tail =>
    cases tail with
    | cons _ _ => exact hlong (by simp) (fun w hw => by simp at hw) rfl
    | nil =>
      by_cases hsmall : 1 ≤ v ∧ v ≤ 16
      · rw [pushVector, if_pos hsmall] at hget
        exact absurd (opcode_of_getOp hget ▸ (pushes_small v hsmall rest).1) hlarge
      by_cases hneg : v = 0x81
      · rw [pushVector, if_neg hsmall, if_pos hneg] at hget
        exact absurd (opcode_of_getOp hget ▸ (by decide)) hlarge
      · refine hlong (by simp) (fun w hw => ?_) (by rw [pushVector, if_neg hsmall, if_neg hneg])
        rw [← singleton_inj.mp hw]
        exact ⟨hsmall, hneg⟩

lemma length_pushVector_le (b : Bytes) : (pushVector b).length ≤ b.length +
    if b.length < 0x4c then 1 else if b.length ≤ 0xff then 2 else if b.length ≤ 0xffff then 3
      else 5 := by
  have hlong : (serializeVector b).length = b.length +
      if b.length < 0x4c then 1 else if b.length ≤ 0xff then 2 else if b.length ≤ 0xffff then 3
        else 5 := by
    unfold serializeVector
    split_ifs <;> simp only [length_cons, length_append, length_leBytes] <;> omega
  rw [← hlong]
  match b with
  | [] => decide
  | [v] =>
    rw [pushVector]
    split_ifs <;> simp [serializeVector]
  | _ :: _ :: _ => exact le_rfl

/-- The bytes of the size bound the size. -/
lemma length_of_pushSize {pc after : Bytes} {n : ℕ}
    (h : pushSize opcode pc = some (n, after)) : ∃ width, pc.length = after.length + width ∧
      (n < 0x4c ∨ 1 ≤ width ∧ n < 256 ∨ 2 ≤ width ∧ n < 65536 ∨ 4 ≤ width) := by
  unfold pushSize at h
  by_cases hsmall : opcode < opPushData1
  · rw [if_pos hsmall] at h
    cases h
    exact ⟨0, rfl, .inl (UInt8.lt_iff_toNat_lt.mp hsmall)⟩
  dsimp only at h
  generalize hwidth : (if opcode = opPushData1 then 1 else if opcode = opPushData2 then 2
    else 4) = width at h
  split_ifs at h with hshort
  cases h
  have hlt := ofLeBytes_lt (pc.take width)
  rw [length_take, Nat.min_eq_left (Nat.not_lt.mp hshort)] at hlt
  refine ⟨width, by rw [length_drop]; omega, ?_⟩
  split_ifs at hwidth <;> subst hwidth <;> omega

/-- No opcode carries the data in fewer bytes than the push of it has. -/
lemma length_pushVector_add_le {script d rest : Bytes} (h : getOp script = some (opcode, d, rest)) :
    (pushVector d).length + rest.length ≤ script.length := by
  have hle := length_pushVector_le d
  cases script with
  | nil => cases h
  | cons b pc =>
    rw [getOp] at h
    split_ifs at h with hpush
    · cases hsize : pushSize b pc with
      | none => simp [hsize] at h
      | some p =>
        obtain ⟨n, after⟩ := p
        rw [hsize] at h
        dsimp only at h
        split_ifs at h with hshort
        cases h
        have hn : (after.take n).length = n := by
          rw [length_take]
          omega
        obtain ⟨width, hwidth, hn⟩ := length_of_pushSize hsize
        rw [length_drop, length_cons]
        split_ifs at hle <;> omega
    · cases h
      have hone : (pushVector []).length = 1 := rfl
      rw [length_cons]
      omega

/-- A list of vectors is read back from the script that pushes them. -/
lemma instructions_pushAll (hfits : (ds.flatMap pushVector).length < 2 ^ 32) :
    (instructions (ds.flatMap pushVector)).2 = true ∧
      List.Forall₂ (fun i d => Pushes i d ∧ checkMinimalPush i.data i.opcode = true)
        (instructions (ds.flatMap pushVector)).1 ds := by
  induction ds with
  | nil => simp
  | cons d ds ih =>
    rw [flatMap_cons, length_append] at hfits
    have hle := (length_pushVector d).1
    obtain ⟨opcode, data, hget, hpush⟩ := getOp_pushVector_minimal d (ds.flatMap pushVector)
      (by rw [length_append]; omega)
    obtain ⟨hend, hrest⟩ := ih (by omega)
    rw [flatMap_cons, instructions_of_getOp hget]
    exact ⟨hend, .cons hpush hrest⟩

/-- Vectors that are pushed one after the other are read back as minimal pushes of them, each of
which the script machine executes, and no opcode carries one of them in fewer bytes. What a push
carries is tied to its vector for all sizes; the machine only takes those of up to 520 bytes. -/
theorem pushAll_minimal_invertible (ds : List Bytes) (hfits : (pushAll ds).length < 2 ^ 32) :
    (instructions (pushAll ds)).2 = true ∧
    List.Forall₂ (fun i d => Pushes i d ∧ checkMinimalPush i.data i.opcode = true ∧
      ∀ {σ : Type} (env : ScriptEnv σ) (ops : Opcodes σ) (m : ScriptMachine), m.vfExec = [] →
        d.length ≤ maxScriptElementSize → m.stack.length + m.altstack.length < maxStackSize →
        m.step env ops i = .ok (m.push d)) (instructions (pushAll ds)).1 ds ∧
    ∀ d ∈ ds, ∀ script opcode rest, getOp script = some (opcode, d, rest) →
      (pushVector d).length + rest.length ≤ script.length := by
  rw [pushAll_eq] at hfits ⊢
  obtain ⟨hend, hpushes⟩ := instructions_pushAll ds hfits
  refine ⟨hend, hpushes.imp ?_, fun d _ script opcode rest h => length_pushVector_add_le h⟩
  rintro i d ⟨hpush, hminimal⟩
  exact ⟨hpush, hminimal, fun env ops m hexec hd hstack =>
    step_pushes hpush hd (.inr hminimal) hexec hstack⟩

/-- A number, nothing and a longer vector. -/
theorem pushAll_minimal_invertible_three : pushAll [[5], [], [1, 2]] = [0x55, 0, 2, 1, 2] ∧
    (instructions (pushAll [[5], [], [1, 2]])).2 = true :=
  ⟨by decide, (pushAll_minimal_invertible [[5], [], [1, 2]] (by decide)).1⟩

end PyrrhaNode.ScriptPushes
