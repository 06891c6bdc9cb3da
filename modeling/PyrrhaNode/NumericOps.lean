import PyrrhaNode.BigNum
import PyrrhaNode.MultiSig

/-!
# Binary numeric opcodes

The binary numeric opcodes compute with 64-bit numbers if both operands are vectors of bytes, and
with numbers of arbitrary size if one of them is such a number.  The second computation takes its
operands in the other order, and its remainder is never negative.
-/
namespace PyrrhaNode.NumericOps

open ByteCodec Serialize Script Interpreter ScriptOps Loop

def opBin2BigNum : UInt8 := 0xec

def scriptErrInvalidNumberRange : ScriptError := .other 11
def scriptErrNumEqualVerify : ScriptError := .other 20
def scriptErrDivByZero : ScriptError := .other 26
def scriptErrModByZero : ScriptError := .other 27

inductive NumOp where
  | add | sub | mul | div | mod | boolAnd | boolOr | numEqual | numEqualVerify | numNotEqual
  | lessThan | greaterThan | lessThanOrEqual | greaterThanOrEqual | min | max
  deriving DecidableEq

namespace NumOp

def opcode : NumOp → UInt8
  | add => 0x93
  | sub => 0x94
  | mul => 0x95
  | div => 0x96
  | mod => 0x97
  | boolAnd => 0x9a
  | boolOr => 0x9b
  | numEqual => 0x9c
  | numEqualVerify => 0x9d
  | numNotEqual => 0x9e
  | lessThan => 0x9f
  | greaterThan => 0xa0
  | lessThanOrEqual => 0xa1
  | greaterThanOrEqual => 0xa2
  | min => 0xa3
  | max => 0xa4

def all : List NumOp :=
  [add, sub, mul, div, mod, boolAnd, boolOr, numEqual, numEqualVerify, numNotEqual, lessThan,
    greaterThan, lessThanOrEqual, greaterThanOrEqual, min, max]

def ofOpcode (opcode : UInt8) : Option NumOp := all.find? fun op => op.opcode == opcode

@[simp] lemma ofOpcode_opcode (op : NumOp) : ofOpcode op.opcode = some op := by
  cases op <;> rfl

end NumOp

/-- `BigNum::deserialize`. -/
def deserialize (vch : Bytes) : ℤ :=
  match vch.getLast? with
  | none => 0
  | some last =>
    if 0x80 ≤ last then -(ofLeBytes (vch.dropLast ++ [last &&& 0x7f]) : ℤ)
    else ofLeBytes vch

/-- `StackItem::asBigNum`: only vectors are reduced modulo `bmd`, with the sign of the number. -/
def asBigNum (bmd : ℤ) : StackItem → ℤ
  | .bigNum n => n
  | .vch data => (deserialize data).tmod bmd

def boolNum (b : Bool) : ℤ := if b then 1 else 0

/-- `BigNumScriptOp`. -/
def bigNumScriptOp (op : NumOp) (bn1 bn2 bmd : ℤ) : Except ScriptError ℤ := do
  let bn ← match op with
    | .add => pure (bn1 + bn2)
    | .sub => pure (bn1 - bn2)
    | .div => if bn2 = 0 then throw scriptErrDivByZero else pure (bn1.tdiv bn2)
    | .mod => if bn2 = 0 then throw scriptErrModByZero else pure (bn1.emod bn2)
    | .boolAnd => pure (boolNum (bn1 ≠ 0 ∧ bn2 ≠ 0))
    | .boolOr => pure (boolNum (bn1 ≠ 0 ∨ bn2 ≠ 0))
    | .numEqual => pure (boolNum (bn1 = bn2))
    | .numEqualVerify => pure (boolNum (bn1 = bn2))
    | .numNotEqual => pure (boolNum (bn1 ≠ bn2))
    | .lessThan => pure (boolNum (bn1 < bn2))
    | .greaterThan => pure (boolNum (bn1 > bn2))
    | .lessThanOrEqual => pure (boolNum (bn1 ≤ bn2))
    | .greaterThanOrEqual => pure (boolNum (bn1 ≥ bn2))
    | .min => pure (if bn1 < bn2 then bn1 else bn2)
    | .max => pure (if bn1 > bn2 then bn1 else bn2)
    | .mul => pure (bn1 * bn2)
  return bn.tmod bmd

def int64Min : ℤ := -2 ^ 63

/-- `CScriptNum::fromInt` of a sum, difference or product: numbers that overflow and the smallest
one are refused. -/
def safeNum (x : ℤ) : Except ScriptError ℤ :=
  if x < int64Min ∨ 2 ^ 63 ≤ x then throw scriptErrInvalidNumberRange
  else if x = int64Min then throw scriptErrInvalidNumberRange
  else return x

/-- The switch on two 64-bit numbers. -/
def scriptNumOp (op : NumOp) (bn1 bn2 : ℤ) : Except ScriptError ℤ :=
  match op with
  | .add => safeNum (bn1 + bn2)
  | .sub => safeNum (bn1 - bn2)
  | .mul => safeNum (bn1 * bn2)
  | .div =>
    if bn2 = 0 then throw scriptErrDivByZero
    else return if bn2 = -1 ∧ bn1 = int64Min then bn1 else bn1.tdiv bn2
  | .mod =>
    if bn2 = 0 then throw scriptErrModByZero
    else return if bn2 = -1 ∧ bn1 = int64Min then 0 else bn1.tmod bn2
  | .boolAnd => return boolNum (bn1 ≠ 0 ∧ bn2 ≠ 0)
  | .boolOr => return boolNum (bn1 ≠ 0 ∨ bn2 ≠ 0)
  | .numEqual => return boolNum (bn1 = bn2)
  | .numEqualVerify => return boolNum (bn1 = bn2)
  | .numNotEqual => return boolNum (bn1 ≠ bn2)
  | .lessThan => return boolNum (bn1 < bn2)
  | .greaterThan => return boolNum (bn1 > bn2)
  | .lessThanOrEqual => return boolNum (bn1 ≤ bn2)
  | .greaterThanOrEqual => return boolNum (bn1 ≥ bn2)
  | .min => return if bn1 < bn2 then bn1 else bn2
  | .max => return if bn1 > bn2 then bn1 else bn2

/-- The result for the items at depth two and at depth one.  Two vectors are read as 64-bit
numbers; otherwise the item at depth one is the first operand. -/
def binaryNum (flags : BitVec 32) (op : NumOp) (bmd : ℤ) (second top : StackItem) :
    Except ScriptError StackItem :=
  match second, top with
  | .vch data1, .vch data2 => do
      let fRequireMinimal := flags &&& scriptVerifyMinimalData != 0
      let bn1 ← scriptNum data1 fRequireMinimal (MultiSig.maxIntegerSize flags)
      let bn2 ← scriptNum data2 fRequireMinimal (MultiSig.maxIntegerSize flags)
      let bn ← scriptNumOp op bn1 bn2
      return .vch (serializeNum bn)
  | second, top => do
      let ret ← bigNumScriptOp op (asBigNum bmd top) (asBigNum bmd second) bmd
      return .bigNum ret

def execBinaryNum (flags : BitVec 32) (op : NumOp) (m : ScriptMachine) : ScriptResult := do
  let (top, m₁) ← popItem m
  let (second, m₂) ← popItem m₁
  let result ← binaryNum flags op m.bigNumModulo second top
  if op = .numEqualVerify then
    if itemBool result then return m₂ else throw scriptErrNumEqualVerify
  else return pushItem m₂ result

/-- What `OP_BIN2BIGNUM` makes of an item. -/
def bin2BigNum (bmd : ℤ) : StackItem → StackItem
  | .bigNum n => .bigNum (n.tmod bmd)
  | .vch data => .bigNum ((deserialize data).tmod bmd)

def execBin2BigNum (m : ScriptMachine) : ScriptResult := do
  let (top, m₁) ← popItem m
  return pushItem m₁ (bin2BigNum m.bigNumModulo top)

/-- The opcodes above, and `rest` for the others. -/
def numericOps (rest : Opcodes ScriptImportedState) : Opcodes ScriptImportedState := fun env i m =>
  if i.opcode = opBin2BigNum then execBin2BigNum m
  else
    match NumOp.ofOpcode i.opcode with
    | some op => execBinaryNum env.flags op m
    | none => rest env i m

variable (bs : Bytes)

lemma ofLeBytes_append_zero : ofLeBytes (bs ++ [0]) = ofLeBytes bs := by
  simp [ofLeBytes_append_singleton]

lemma ofLeBytes_dropWhile :
    ofLeBytes (bs.dropWhile (· == 0)).reverse = ofLeBytes bs.reverse := by
  induction bs with
  | nil => rfl
  | cons b bs ih =>
    by_cases hb : b = 0
    · subst hb
      rw [List.dropWhile_cons_of_pos (by simp), ih, List.reverse_cons, ofLeBytes_append_zero]
    · rw [List.dropWhile_cons_of_neg (by simpa using hb)]

lemma ofLeBytes_magnitudeBytes {v : ℕ} (h : v < 2 ^ 64) : ofLeBytes (magnitudeBytes v) = v := by
  rw [magnitudeBytes, ofLeBytes_dropWhile, List.reverse_reverse, ofLeBytes_leBytes,
    Nat.mod_eq_of_lt (h.trans_eq (by norm_num))]

lemma byte_le_iff : ∀ b : UInt8, 0x80 ≤ b ↔ b &&& 0x80 ≠ 0 := by decide +kernel

lemma byte_or_and : ∀ b : UInt8, ¬0x80 ≤ b →
    (b ||| 0x80) &&& 0x80 ≠ 0 ∧ (b ||| 0x80) &&& 0x7f = b := by
  decide +kernel

lemma deserialize_eq_setVch (vch : Bytes) : deserialize vch = setVch vch := by
  unfold deserialize setVch
  cases vch.getLast? with
  | none => rfl
  | some last => simp only [byte_le_iff]

lemma setVch_append (b : UInt8) :
    setVch (bs ++ [b]) =
      if b &&& 0x80 ≠ 0 then -(ofLeBytes (bs ++ [b &&& 0x7f]) : ℤ) else ofLeBytes (bs ++ [b]) := by
  simp [setVch]

variable {x x1 x2 v : ℤ} {flags : BitVec 32} {op : NumOp}

theorem setVch_serializeNum (h : x.natAbs < 2 ^ 64) : setVch (serializeNum x) = x := by
  have hmag := ofLeBytes_magnitudeBytes h
  unfold serializeNum
  rcases List.eq_nil_or_concat' (magnitudeBytes x.natAbs) with hnil | ⟨bs, last, hbs⟩
  · rw [hnil] at hmag ⊢
    simp only [ofLeBytes] at hmag
    simp only [setVch, List.getLast?_nil]
    omega
  · rw [hbs] at hmag ⊢
    simp only [List.getLast?_concat]
    split_ifs with hhigh hneg hneg
    · rw [setVch_append, if_pos (by decide)]
      have hzero : (0x80 : UInt8) &&& 0x7f = 0 := by decide
      rw [hzero, ofLeBytes_append_zero]
      omega
    · rw [setVch_append, if_neg (by decide), ofLeBytes_append_zero]
      omega
    · obtain ⟨hsign, hvalue⟩ := byte_or_and last hhigh
      rw [List.dropLast_concat, setVch_append, if_pos hsign, hvalue]
      omega
    · rw [setVch_append, if_neg (by simpa using mt (byte_le_iff last).mpr hhigh)]
      omega

lemma tmod_of_natAbs_lt {m : ℤ} (h : x.natAbs < m.natAbs) : x.tmod m = x := by
  have hdiv : x.tdiv m = 0 := by
    rw [← Int.natAbs_eq_zero, Int.natAbs_tdiv]
    exact Nat.div_eq_of_lt h
  have hsum := Int.tmod_add_mul_tdiv x m
  rw [hdiv] at hsum
  omega

/-- Numbers below `2 ^ 63` are not changed by a reduction modulo `2 ^ 64`. -/
lemma tmod_modulo (h : x.natAbs < 2 ^ 63) : x.tmod (2 ^ 64) = x :=
  tmod_of_natAbs_lt (h.trans (by decide))

lemma boolNum_lt (b : Bool) : (boolNum b).natAbs < 2 ^ 63 := by
  cases b <;> decide

lemma boolNum_inj {b c : Bool} : boolNum b = boolNum c ↔ b = c := by
  cases b <;> cases c <;> decide

lemma safeNum_eq_ok : safeNum x = .ok v ↔ x = v ∧ x.natAbs < 2 ^ 63 := by
  rw [safeNum, ite_throw_eq_ok, ite_throw_eq_ok, int64Min]
  constructor
  · rintro ⟨hrange, hmin, h⟩
    cases h
    exact ⟨rfl, by omega⟩
  · rintro ⟨rfl, hrange⟩
    exact ⟨by omega, by omega, rfl⟩

/-- The results of the 64-bit computation have 63 bits. -/
lemma natAbs_lt_of_scriptNumOp (h1 : x1.natAbs < 2 ^ 63) (h2 : x2.natAbs < 2 ^ 63)
    (h : scriptNumOp op x1 x2 = .ok v) : v.natAbs < 2 ^ 63 := by
  cases op with
  | add | sub | mul =>
    obtain ⟨rfl, hv⟩ := safeNum_eq_ok.mp h
    exact hv
  | div =>
    obtain ⟨-, h⟩ := ite_throw_eq_ok.mp h
    rw [if_neg (by rw [int64Min]; omega)] at h
    cases h
    exact (Int.natAbs_tdiv_le_natAbs x1 x2).trans_lt h1
  | mod =>
    obtain ⟨hzero, h⟩ := ite_throw_eq_ok.mp h
    rw [if_neg (by rw [int64Min]; omega)] at h
    cases h
    rw [Int.natAbs_tmod]
    exact (Nat.mod_lt _ (by omega)).trans h2
  | min | max =>
    cases h
    split_ifs <;> assumption
  | _ =>
    cases h
    exact boolNum_lt _

/-- When an opcode gives the same number for two vectors and for a number of arbitrary size. -/
def Agrees (x1 x2 : ℤ) : NumOp → Prop
  | .sub | .lessThan | .greaterThan | .lessThanOrEqual | .greaterThanOrEqual => x1 = x2
  | .div => x1.natAbs = x2.natAbs
  | .mod => x1.natAbs = x2.natAbs ∨ (0 < x1 ∧ x2 < 0 ∧ -x2 ≤ x1 ∧ x1 < -2 * x2)
  | _ => True

lemma tdiv_eq_tdiv_swap_iff (h1 : x1 ≠ 0) (h2 : x2 ≠ 0) :
    x2.tdiv x1 = x1.tdiv x2 ↔ x1.natAbs = x2.natAbs := by
  constructor
  · intro h
    have hnat : x2.natAbs / x1.natAbs = x1.natAbs / x2.natAbs :=
      (Int.natAbs_tdiv x2 x1).symm.trans ((congrArg Int.natAbs h).trans (Int.natAbs_tdiv x1 x2))
    rcases lt_trichotomy x1.natAbs x2.natAbs with hlt | heq | hlt
    · rw [Nat.div_eq_of_lt hlt] at hnat
      have hpos : 0 < x2.natAbs / x1.natAbs := Nat.div_pos hlt.le (by omega)
      omega
    · exact heq
    · rw [Nat.div_eq_of_lt hlt] at hnat
      have hpos : 0 < x1.natAbs / x2.natAbs := Nat.div_pos hlt.le (by omega)
      omega
  · intro h
    rcases Int.natAbs_eq_natAbs_iff.mp h with rfl | rfl
    · rfl
    · rw [Int.tdiv_neg, Int.neg_tdiv]

lemma emod_natAbs (x1 x2 : ℤ) : x2 % x1 = x2 % (x1.natAbs : ℤ) := by
  rw [Int.natCast_natAbs, Int.emod_abs]

lemma emod_of_neg (hneg : x2 < 0) (hlt : x2.natAbs < x1.natAbs) :
    x2 % x1 = x2 + x1.natAbs := by
  rw [emod_natAbs, ← Int.add_emod_right]
  exact Int.emod_eq_of_lt (by omega) (by omega)

lemma emod_eq_tmod_swap_iff (h1 : x1 ≠ 0) (h2 : x2 ≠ 0) :
    x2 % x1 = x1.tmod x2 ↔
      x1.natAbs = x2.natAbs ∨ (0 < x1 ∧ x2 < 0 ∧ -x2 ≤ x1 ∧ x1 < -2 * x2) := by
  have hlower := Int.emod_nonneg x2 h1
  have hupper := Int.emod_lt_abs x2 h1
  rw [← Int.natCast_natAbs] at hupper
  have hmod : (x1.tmod x2).natAbs < x2.natAbs := by
    rw [Int.natAbs_tmod]
    exact Nat.mod_lt _ (by omega)
  rcases lt_trichotomy x1.natAbs x2.natAbs with hlt | heq | hgt
  · rw [tmod_of_natAbs_lt hlt]
    omega
  · refine iff_of_true ?_ (.inl heq)
    rcases Int.natAbs_eq_natAbs_iff.mp heq with rfl | rfl
    · rw [Int.emod_self, Int.tmod_self]
    · rw [Int.emod_neg, Int.emod_self, Int.neg_tmod, Int.tmod_self, neg_zero]
  · rcases lt_or_gt_of_ne h2 with hneg | hpos
    · rw [emod_of_neg hneg hgt]
      rcases lt_or_gt_of_ne h1 with hneg1 | hpos1
      · have hsign : x1.tmod x2 ≤ 0 := by
          have := Int.tmod_nonneg x2 (a := -x1) (by omega)
          rw [Int.neg_tmod] at this
          omega
        omega
      · -- both magnitudes are positive now, and the quotient is one or more
        have htmod : x1.tmod x2 = x1 % (-x2) := by
          rw [Int.tmod_eq_emod_of_nonneg hpos1.le, Int.emod_neg]
        rw [htmod] at hmod ⊢
        by_cases htwo : x1 < -2 * x2
        · have hone : x1 % (-x2) = x1 + x2 :=
            calc x1 % (-x2) = (x1 + x2 + -x2) % (-x2) := by rw [add_neg_cancel_right]
              _ = (x1 + x2) % (-x2) := Int.add_emod_right _ _
              _ = x1 + x2 := Int.emod_eq_of_lt (by omega) (by omega)
          omega
        · omega
    · rw [emod_natAbs, Int.emod_eq_of_lt hpos.le (by omega)]
      omega

/-- The computation with numbers of arbitrary size, which is given the operands in the other
order, has the same result exactly in these cases. -/
lemma bigNumScriptOp_swap_iff (h1 : x1.natAbs < 2 ^ 63) (h2 : x2.natAbs < 2 ^ 63)
    (h : scriptNumOp op x1 x2 = .ok v) :
    bigNumScriptOp op x2 x1 (2 ^ 64) = .ok v ↔ Agrees x1 x2 op := by
  have hv := natAbs_lt_of_scriptNumOp h1 h2 h
  have hok (r : ℤ) (hr : r.natAbs < 2 ^ 63) :
      (Except.ok (r.tmod (2 ^ 64)) : Except ScriptError ℤ) = .ok v ↔ r = v := by
    rw [tmod_modulo hr, Except.ok.injEq]
  cases op with
  | add =>
    obtain ⟨rfl, -⟩ := safeNum_eq_ok.mp h
    exact iff_of_true ((hok _ (by rwa [add_comm])).mpr (add_comm x2 x1)) trivial
  | mul =>
    obtain ⟨rfl, -⟩ := safeNum_eq_ok.mp h
    exact iff_of_true ((hok _ (by rwa [mul_comm])).mpr (mul_comm x2 x1)) trivial
  | sub =>
    obtain ⟨rfl, -⟩ := safeNum_eq_ok.mp h
    refine (hok (x2 - x1) (by omega)).trans ?_
    rw [Agrees]
    omega
  | div =>
    obtain ⟨hzero, h⟩ := ite_throw_eq_ok.mp h
    rw [if_neg (by rw [int64Min]; omega)] at h
    cases h
    by_cases hx1 : x1 = 0
    · subst hx1
      refine iff_of_false nofun fun hagrees => hzero ?_
      exact Int.natAbs_eq_zero.mp hagrees.symm
    · have hbig : bigNumScriptOp .div x2 x1 (2 ^ 64) = .ok ((x2.tdiv x1).tmod (2 ^ 64)) := by
        simp only [bigNumScriptOp, if_neg hx1]
        rfl
      rw [hbig, hok _ ((Int.natAbs_tdiv_le_natAbs x2 x1).trans_lt h2)]
      exact tdiv_eq_tdiv_swap_iff hx1 hzero
  | mod =>
    obtain ⟨hzero, h⟩ := ite_throw_eq_ok.mp h
    rw [if_neg (by rw [int64Min]; omega)] at h
    cases h
    by_cases hx1 : x1 = 0
    · subst hx1
      refine iff_of_false nofun fun hagrees => hzero ?_
      rcases hagrees with hagrees | hagrees
      · exact Int.natAbs_eq_zero.mp hagrees.symm
      · exact absurd hagrees.1 (lt_irrefl 0)
    · have hbig : bigNumScriptOp .mod x2 x1 (2 ^ 64) = .ok ((x2 % x1).tmod (2 ^ 64)) := by
        simp only [bigNumScriptOp, if_neg hx1]
        rfl
      have hlower := Int.emod_nonneg x2 hx1
      have hupper := Int.emod_lt_abs x2 hx1
      rw [← Int.natCast_natAbs] at hupper
      rw [hbig, hok _ (by omega)]
      exact emod_eq_tmod_swap_iff hx1 hzero
  | min | max =>
    cases h
    refine iff_of_true ((hok _ (by split_ifs <;> assumption)).mpr ?_) trivial
    split_ifs <;> omega
  | boolAnd =>
    cases h
    exact iff_of_true ((hok _ (boolNum_lt _)).mpr (boolNum_inj.mpr (by simp [and_comm]))) trivial
  | boolOr =>
    cases h
    exact iff_of_true
      ((hok _ (boolNum_lt _)).mpr (boolNum_inj.mpr (by simp [Bool.or_comm]))) trivial
  | numEqual | numEqualVerify | numNotEqual =>
    cases h
    exact iff_of_true ((hok _ (boolNum_lt _)).mpr (boolNum_inj.mpr (by simp [eq_comm]))) trivial
  | lessThan | greaterThan | lessThanOrEqual | greaterThanOrEqual =>
    cases h
    refine (hok _ (boolNum_lt _)).trans (boolNum_inj.trans ?_)
    rw [decide_eq_decide, Agrees]
    omega

/-- The number that an item stands for. -/
def itemValue : StackItem → ℤ
  | .vch data => setVch data
  | .bigNum n => n

/-- A step on two operands replaces them by an item that stands for `v`. -/
def Yields (rest : Opcodes ScriptImportedState) (env : ScriptEnv ScriptImportedState) (next : Bytes)
    (m : ScriptMachine) (op : NumOp) (below : List StackItem) (second top : StackItem)
    (v : ℤ) : Prop :=
  ∃ m' item, ScriptMachine.step env (numericOps rest) { m with stack := below ++ [second, top] }
      ⟨op.opcode, [], next⟩ = .ok m' ∧ m'.stack = below ++ [item] ∧ itemValue item = v

/-- A minimally encoded number, or what `OP_BIN2BIGNUM` makes of it. -/
def operand (bmd : ℤ) (big : Bool) (x : ℤ) : StackItem :=
  if big then bin2BigNum bmd (.vch (serializeNum x)) else .vch (serializeNum x)

lemma opcode_facts (op : NumOp) :
    op16 < op.opcode ∧ isOpcodeDisabled op.opcode = false ∧ ¬op.opcode ≤ opPushData4 ∧
      op.opcode ≠ opReserved ∧ ¬op.opcode ≤ op16 ∧ op.opcode ≠ opBin2BigNum ∧
      ¬(opIf ≤ op.opcode ∧ op.opcode ≤ opEndIf) := by
  cases op <;> decide

lemma execBinaryNum_append (flags : BitVec 32) (hop : op ≠ .numEqualVerify) (m : ScriptMachine)
    (below : List StackItem) (second top : StackItem) :
    execBinaryNum flags op { m with stack := below ++ [second, top] } =
      (binaryNum flags op m.bigNumModulo second top).map
        fun item => { m with stack := below ++ [item] } := by
  have hpop : popItem { m with stack := below ++ [second, top] } =
      .ok (top, { m with stack := below ++ [second] }) := by
    simp [popItem]
    rfl
  have hpop' : popItem { m with stack := below ++ [second] } =
      .ok (second, { m with stack := below }) := by
    simp [popItem]
    rfl
  rw [execBinaryNum, hpop]
  simp only [bind, Except.bind]
  rw [hpop']
  simp only
  cases binaryNum flags op m.bigNumModulo second top with
  | error e => rfl
  | ok item => simp [hop, Except.map, pushItem, pure, Except.pure]

/-- What a step needs besides operands that have a result. -/
structure CanStep (env : ScriptEnv ScriptImportedState) (m : ScriptMachine)
    (below : List StackItem) : Prop where
  opCount : m.stats.nOpCount + 1 ≤ env.maxOps
  taken : m.vfExec.all id = true
  size : below.length + 1 + m.altstack.length ≤ maxStackSize

section Steps

variable {rest : Opcodes ScriptImportedState} {env : ScriptEnv ScriptImportedState} {next : Bytes}
  {m m' : ScriptMachine} {op : NumOp} {below : List StackItem} {second top : StackItem} {v : ℤ}

lemma countOp_opcode (m : ScriptMachine) (op : NumOp) :
    m.countOp op.opcode = { m with stats := { m.stats with nOpCount := m.stats.nOpCount + 1 } } :=
  if_pos (opcode_facts op).1

lemma step_eq_ok : ScriptMachine.step env (numericOps rest) m ⟨op.opcode, [], next⟩ = .ok m' ↔
    m.stats.nOpCount + 1 ≤ env.maxOps ∧
      ScriptMachine.execOp env (numericOps rest) (m.countOp op.opcode) ⟨op.opcode, [], next⟩ =
        .ok m' ∧ m'.stack.length + m'.altstack.length ≤ maxStackSize := by
  obtain ⟨hcount, hdisabled, -⟩ := opcode_facts op
  unfold ScriptMachine.step
  rw [ite_throw_eq_ok, ite_throw_eq_ok, ite_throw_eq_ok, bind_eq_ok, hdisabled, countOp_opcode]
  simp only [List.length_nil, Nat.not_lt_zero, not_false_iff, true_and, hcount, Nat.not_lt,
    Bool.false_eq_true]
  refine and_congr_right fun _ => ⟨?_, ?_⟩
  · rintro ⟨m'', hexec, hsize⟩
    obtain ⟨hsize, h⟩ := ite_throw_eq_ok.mp hsize
    cases h
    exact ⟨hexec, Nat.not_lt.mp hsize⟩
  · rintro ⟨hexec, hsize⟩
    exact ⟨m', hexec, ite_throw_eq_ok.mpr ⟨Nat.not_lt.mpr hsize, rfl⟩⟩

lemma execOp_of_taken (htaken : m.vfExec.all id = true) :
    ScriptMachine.execOp env (numericOps rest) m ⟨op.opcode, [], next⟩ =
      execBinaryNum env.flags op m := by
  obtain ⟨-, -, hpush, hreserved, hsmall, hbin, -⟩ := opcode_facts op
  unfold ScriptMachine.execOp
  rw [if_neg (fun h => hpush h.2), if_pos (.inl htaken), if_neg hreserved, if_neg hsmall,
    numericOps]
  simp only [hbin, if_false, NumOp.ofOpcode_opcode]

lemma execOp_of_not_taken (htaken : ¬m.vfExec.all id = true) :
    ScriptMachine.execOp env (numericOps rest) m ⟨op.opcode, [], next⟩ = .ok m := by
  obtain ⟨-, -, -, -, -, -, hcond⟩ := opcode_facts op
  unfold ScriptMachine.execOp
  rw [if_neg (fun h => htaken h.1), if_neg (not_or_intro htaken hcond)]
  rfl

lemma yields_iff (hop : op ≠ .numEqualVerify) :
    Yields rest env next m op below second top v ↔ CanStep env m below ∧
      ∃ item, binaryNum env.flags op m.bigNumModulo second top = .ok item ∧
        itemValue item = v := by
  unfold Yields
  simp only [step_eq_ok, countOp_opcode]
  by_cases htaken : m.vfExec.all id = true
  · have hexec := execBinaryNum_append env.flags hop
      { m with stats := { m.stats with nOpCount := m.stats.nOpCount + 1 } } below second top
    rw [execOp_of_taken (by exact htaken), hexec]
    constructor
    · rintro ⟨m', item, ⟨hcount, hmap, hsize⟩, hstack, hv⟩
      cases hresult : binaryNum env.flags op m.bigNumModulo second top with
      | error e =>
        rw [hresult] at hmap
        cases hmap
      | ok result =>
        rw [hresult] at hmap
        cases hmap
        have hitem : result = item := by simpa using hstack
        subst hitem
        exact ⟨⟨hcount, htaken, by simpa [Nat.add_assoc] using hsize⟩, result, rfl, hv⟩
    · rintro ⟨hcan, item, hresult, hv⟩
      rw [hresult]
      exact ⟨_, item, ⟨hcan.opCount, rfl, by simpa [Nat.add_assoc] using hcan.size⟩, rfl, hv⟩
  · rw [execOp_of_not_taken (by exact htaken)]
    refine iff_of_false ?_ fun h => htaken h.1.taken
    rintro ⟨m', item, ⟨-, hm', -⟩, hstack, -⟩
    cases hm'
    simpa using congrArg List.length hstack

end Steps

lemma asBigNum_operand (big : Bool) (hx : x.natAbs < 2 ^ 63) :
    asBigNum (2 ^ 64) (operand (2 ^ 64) big x) = x := by
  have hvalue : (deserialize (serializeNum x)).tmod (2 ^ 64) = x := by
    rw [deserialize_eq_setVch, setVch_serializeNum (by omega), tmod_modulo hx]
  cases big with
  | false | true => exact hvalue

/-- With a number of arbitrary size among the operands, in the order in which they are taken. -/
lemma binaryNum_operand {big1 big2 : Bool} (h1 : x1.natAbs < 2 ^ 63) (h2 : x2.natAbs < 2 ^ 63)
    (hbig : big1 = true ∨ big2 = true) :
    binaryNum flags op (2 ^ 64) (operand (2 ^ 64) big1 x1) (operand (2 ^ 64) big2 x2) =
      (bigNumScriptOp op x2 x1 (2 ^ 64)).map .bigNum := by
  have hvalue1 := asBigNum_operand big1 h1
  have hvalue2 := asBigNum_operand big2 h2
  have hmixed : binaryNum flags op (2 ^ 64) (operand (2 ^ 64) big1 x1) (operand (2 ^ 64) big2 x2) =
      (bigNumScriptOp op (asBigNum (2 ^ 64) (operand (2 ^ 64) big2 x2))
        (asBigNum (2 ^ 64) (operand (2 ^ 64) big1 x1)) (2 ^ 64)).map .bigNum := by
    cases big1 with
    | true => rfl
    | false =>
      cases big2 with
      | true => rfl
      | false => simp at hbig
  rw [hmixed, hvalue1, hvalue2]

lemma binaryNum_vch {bmd : ℤ} {item : StackItem} (h1 : x1.natAbs < 2 ^ 63) (h2 : x2.natAbs < 2 ^ 63)
    (h : binaryNum flags op bmd (operand bmd false x1) (operand bmd false x2) = .ok item) :
    scriptNumOp op x1 x2 = .ok (itemValue item) := by
  have hnum {data : Bytes} {x n : ℤ} (hx : x.natAbs < 2 ^ 63) (hdata : data = serializeNum x)
      (hn : scriptNum data (flags &&& scriptVerifyMinimalData != 0)
        (MultiSig.maxIntegerSize flags) = .ok n) : n = x := by
    rw [scriptNum, ite_throw_eq_ok, ite_throw_eq_ok] at hn
    obtain ⟨-, -, hn⟩ := hn
    cases hn
    rw [hdata, setVch_serializeNum (by omega)]
  obtain ⟨bn1, hbn1, h⟩ := bind_eq_ok.mp h
  obtain ⟨bn2, hbn2, h⟩ := bind_eq_ok.mp h
  obtain ⟨bn, hbn, h⟩ := bind_eq_ok.mp h
  cases h
  obtain rfl := hnum h1 rfl hbn1
  obtain rfl := hnum h2 rfl hbn2
  have hlt := natAbs_lt_of_scriptNumOp h1 h2 hbn
  rw [hbn, itemValue, setVch_serializeNum (by omega)]

/-- Where an opcode has a result for two vectors, it has the same one for a number of arbitrary
size among the operands exactly if the result does not depend on their order: always for sums,
products, equality, minimum, maximum and the logical opcodes; for equal operands for differences
and comparisons; for equal magnitudes for quotients; and for remainders also if the first operand
is positive, the second negative and the quotient minus one. -/
theorem bigNum_agrees_iff (rest : Opcodes ScriptImportedState) (env : ScriptEnv ScriptImportedState)
    (next : Bytes) (m : ScriptMachine) (op : NumOp) (below : List StackItem) (x1 x2 v : ℤ)
    (big1 big2 : Bool) (hop : op ≠ .numEqualVerify) (h1 : |x1| < 2 ^ 63) (h2 : |x2| < 2 ^ 63)
    (hmodulo : m.bigNumModulo = 2 ^ 64) (hbig : big1 = true ∨ big2 = true)
    (hnum : Yields rest env next m op below (operand (2 ^ 64) false x1) (operand (2 ^ 64) false x2)
      v) :
    Yields rest env next m op below (operand (2 ^ 64) big1 x1) (operand (2 ^ 64) big2 x2) v ↔
      Agrees x1 x2 op := by
  have hx1 : x1.natAbs < 2 ^ 63 := by
    rw [← Int.natCast_natAbs] at h1
    omega
  have hx2 : x2.natAbs < 2 ^ 63 := by
    rw [← Int.natCast_natAbs] at h2
    omega
  rw [yields_iff hop] at hnum
  obtain ⟨hcan, item, hitem, rfl⟩ := hnum
  have hvalue := binaryNum_vch hx1 hx2 hitem
  rw [yields_iff hop, hmodulo, binaryNum_operand hx1 hx2 hbig,
    ← bigNumScriptOp_swap_iff hx1 hx2 hvalue]
  constructor
  · rintro ⟨-, result, hresult, hsame⟩
    cases hbn : bigNumScriptOp op x2 x1 (2 ^ 64) with
    | error e =>
      rw [hbn] at hresult
      cases hresult
    | ok bn =>
      rw [hbn] at hresult
      cases hresult
      exact congrArg Except.ok hsame
  · intro hbn
    rw [hbn]
    exact ⟨hcan, _, rfl, rfl⟩

/-- A machine whose numbers have 64 bits. -/
def wideEnv : ScriptEnv ScriptImportedState where
  flags := MultiSig.scriptAllow64BitIntegers ||| scriptVerifyMinimalData
  sis := ⟨none⟩
  maxOps := 201
  maxConsensusSigOps := 0

def noOps : Opcodes ScriptImportedState := fun _ _ _ => throw .badOpcode

theorem bigNum_agrees_sum :
    Yields noOps wideEnv [] .init .add [] (.vch [7]) (.vch [0x83]) 4 ∧
      Yields noOps wideEnv [] .init .add [] (.bigNum 7) (.vch [0x83]) 4 := by
  have hnum : Yields noOps wideEnv [] .init .add [] (.vch [7]) (.vch [0x83]) 4 :=
    (yields_iff (by decide)).mpr ⟨⟨by decide, rfl, by decide⟩, .vch [4], by decide +kernel,
      by decide⟩
  have hseven : operand (2 ^ 64) false 7 = .vch [7] := by decide +kernel
  have hthree : operand (2 ^ 64) false (-3) = .vch [0x83] := by decide +kernel
  have hbig : operand (2 ^ 64) true 7 = .bigNum 7 := by decide +kernel
  have hagrees := bigNum_agrees_iff noOps wideEnv [] .init .add [] 7 (-3) 4 true false (by decide)
    (by decide) (by decide) rfl (.inl rfl)
  exact ⟨hnum, (hagrees hnum).mpr trivial⟩

/-- Seven minus three is four for two vectors, and minus four if one of them was converted. -/
theorem bigNum_sub_swapped :
    (ScriptMachine.step wideEnv (numericOps noOps)
        { ScriptMachine.init with stack := [.vch [7], .vch [3]] }
        ⟨NumOp.sub.opcode, [], []⟩).toOption.map (·.stack) = some [.vch [4]] ∧
      (ScriptMachine.step wideEnv (numericOps noOps)
        { ScriptMachine.init with stack := [.vch [7], .vch [3]] }
        ⟨opBin2BigNum, [], []⟩).toOption.map (·.stack) = some [.vch [7], .bigNum 3] ∧
      (ScriptMachine.step wideEnv (numericOps noOps)
        { ScriptMachine.init with stack := [.vch [7], .bigNum 3] }
        ⟨NumOp.sub.opcode, [], []⟩).toOption.map (·.stack) = some [.bigNum (-4)] := by
  decide +kernel

end PyrrhaNode.NumericOps
