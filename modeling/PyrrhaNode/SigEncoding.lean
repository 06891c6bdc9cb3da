import PyrrhaNode.SpendVerify

/-!
# Encodings of signature types

The bytes after a signature say what it covers.  A type is written in one way, and the type that
covers everything is written as no bytes at all; but the single byte zero is read as that type too,
so a signature without a type can be given one more byte by anybody.
-/
namespace PyrrhaNode.SigEncoding

open Serialize Transaction SignatureHash SpendVerify

variable {bytes rest : Bytes} {code : UInt8}

lemma eq_of_readInput {inp : SigHashInput} (h : SigHashInput.read code bytes = some (inp, rest)) :
    inp.code = code ∧ bytes = inp.data ++ rest := by
  unfold SigHashInput.read at h
  split at h <;> cases h <;> exact ⟨rfl, rfl⟩

lemma eq_of_readOutput {out : SigHashOutput}
    (h : SigHashOutput.read code bytes = some (out, rest)) :
    out.code = code ∧ bytes = out.data ++ rest := by
  unfold SigHashOutput.read at h
  split at h <;> cases h <;> exact ⟨rfl, rfl⟩

lemma nibbles : ∀ io : UInt8, ((io >>> 4) <<< 4) ||| (io &&& 0xf) = io := by decide +kernel

/-- A type that is read from bytes after the first. -/
lemma fromBytes_cons_valid {io : UInt8} (h : (SigHashType.fromBytes (io :: bytes)).valid = true) :
    ∃ inp out, SigHashType.fromBytes (io :: bytes) = ⟨true, inp, out⟩ ∧
      io = (inp.code <<< 4) ||| out.code ∧ bytes = inp.data ++ out.data := by
  cases hinp : SigHashInput.read (io >>> 4) bytes with
  | none => simp [SigHashType.fromBytes, hinp, SigHashType.invalid] at h
  | some found =>
    obtain ⟨inp, rest⟩ := found
    obtain ⟨hinpCode, rfl⟩ := eq_of_readInput hinp
    cases hout : SigHashOutput.read (io &&& 0xf) rest with
    | none => simp [SigHashType.fromBytes, hinp, hout, SigHashType.invalid] at h
    | some found =>
      obtain ⟨out, left⟩ := found
      obtain ⟨houtCode, rfl⟩ := eq_of_readOutput hout
      cases left with
      | cons b left => simp [SigHashType.fromBytes, hinp, hout, SigHashType.invalid] at h
      | nil =>
        refine ⟨inp, out, by simp only [SigHashType.fromBytes, hinp, hout], ?_, ?_⟩
        · rw [hinpCode, houtCode, nibbles]
        · rw [List.append_nil]

/-- Bytes that are read as a type are the bytes of the type, except that the byte zero is read as
the type that covers everything. -/
lemma appendToSig_fromBytes (h : (SigHashType.fromBytes bytes).valid = true)
    (hne : bytes ≠ [0]) : (SigHashType.fromBytes bytes).appendToSig = bytes := by
  cases bytes with
  | nil => rfl
  | cons io bytes =>
    obtain ⟨inp, out, hread, rfl, rfl⟩ := fromBytes_cons_valid h
    have hall : ¬(inp = .all ∧ out = .all) := by
      rintro ⟨rfl, rfl⟩
      exact hne rfl
    rw [hread]
    simp [SigHashType.appendToSig, hall]

/-- A signature item with a byte zero after its 64 bytes is checked like the item without it. -/
theorem checkTxSig_append_zero (R : ScriptRules) (txTo : CTransaction) (nIn : UInt32) {sig : Bytes}
    (vchPubKey scriptCode : Bytes) (hlength : sig.length = 64) :
    checkTxSig R txTo nIn (sig ++ [0]) vchPubKey scriptCode =
      checkTxSig R txTo nIn sig vchPubKey scriptCode := by
  have hne : sig ≠ [] := List.length_pos_iff.mp (by omega)
  have htype : sigHashTypeOf (sig ++ [0]) = sigHashTypeOf sig := by
    rw [sigHashTypeOf, sigHashTypeOf, if_neg (by simp; omega), if_neg (by omega),
      List.drop_left' hlength, List.drop_of_length_le hlength.le]
    rfl
  have hremove : removeSigHashType (sig ++ [0]) = removeSigHashType sig := by
    rw [removeSigHashType, removeSigHashType, List.take_left' hlength,
      List.take_of_length_le hlength.le, List.length_append, hlength]
    rfl
  rw [checkTxSig, checkTxSig, htype, hremove]
  simp [hne]

/-- Types are read back from their bytes.  Bytes that are read as a type are its bytes iff they are
not the byte zero, and other bytes after a signature give an invalid or another type unless the
two are no bytes and the byte zero. -/
theorem sigHashType_unique_iff (t : SigHashType) (sig bytes bytes' : Bytes) :
    (t.valid = true → SigHashType.fromBytes t.appendToSig = t) ∧
    (((SigHashType.fromBytes bytes).valid = false ∨
      (SigHashType.fromBytes bytes).appendToSig = bytes) ↔ bytes ≠ [0]) ∧
    (sig.length = 64 → bytes ≠ bytes' → (sigHashTypeOf (sig ++ bytes)).valid = true →
      (((sigHashTypeOf (sig ++ bytes')).valid = false ∨
        sigHashTypeOf (sig ++ bytes') ≠ sigHashTypeOf (sig ++ bytes)) ↔
        ¬(bytes = [] ∧ bytes' = [0] ∨ bytes = [0] ∧ bytes' = []))) := by
  refine ⟨fun ht => SigHashType.fromBytes_appendToSig ht, ?_, ?_⟩
  · constructor
    · rintro h rfl
      revert h
      decide
    · intro hne
      by_cases hvalid : (SigHashType.fromBytes bytes).valid = true
      · exact Or.inr (appendToSig_fromBytes hvalid hne)
      · exact Or.inl (by simpa using hvalid)
  · intro hlength hne hvalid
    have htype : ∀ b, sigHashTypeOf (sig ++ b) = SigHashType.fromBytes b := by
      intro b
      rw [sigHashTypeOf, if_neg (by simp; omega), List.drop_left' hlength]
    rw [htype] at hvalid
    rw [htype, htype]
    constructor
    · rintro h (⟨rfl, rfl⟩ | ⟨rfl, rfl⟩)
      · revert h
        decide
      · revert h
        decide
    · intro h
      refine Or.inr fun heq => ?_
      have hvalid' : (SigHashType.fromBytes bytes').valid = true := by rw [heq, hvalid]
      by_cases hzero : bytes = [0]
      · have hbytes' := appendToSig_fromBytes hvalid' fun hzero' => hne (hzero.trans hzero'.symm)
        rw [heq, hzero] at hbytes'
        exact h (.inr ⟨hzero, hbytes'.symm⟩)
      · have hbytes := appendToSig_fromBytes hvalid hzero
        by_cases hzero' : bytes' = [0]
        · rw [← heq, hzero'] at hbytes
          exact h (.inl ⟨hbytes.symm, hzero'⟩)
        · rw [← heq, appendToSig_fromBytes hvalid' hzero'] at hbytes
          exact hne hbytes.symm

theorem sigHashType_unique_firstN :
    SigHashType.fromBytes (SigHashType.appendToSig ⟨true, .firstN 3, .two 0 1⟩) =
        ⟨true, .firstN 3, .two 0 1⟩ ∧
      ((sigHashTypeOf (List.replicate 64 7 ++ [2])).valid = false ∨
        sigHashTypeOf (List.replicate 64 7 ++ [2]) ≠ sigHashTypeOf (List.replicate 64 7 ++ [])) :=
  have hunique := sigHashType_unique_iff ⟨true, .firstN 3, .two 0 1⟩ (List.replicate 64 7) [] [2]
  ⟨hunique.1 rfl, (hunique.2.2 rfl (by decide) rfl).mpr (by decide)⟩

/-- The byte zero is read as the type that covers everything, which has no bytes. -/
theorem fromBytes_zero :
    (SigHashType.fromBytes [0]).valid = true ∧ SigHashType.fromBytes [0] = SigHashType.all ∧
      (SigHashType.fromBytes [0]).appendToSig ≠ [0] ∧
      SigHashType.fromBytes [0] = SigHashType.fromBytes [] := by
  decide

end PyrrhaNode.SigEncoding
