import PyrrhaNode.NumericOps

/-!
# Truth values of big numbers

Comparisons of numbers of arbitrary size give one for true and zero for false, and like every result
these are reduced modulo the number that the script has set.  The modulus one is accepted, and it
makes every answer zero.  The operands are compared in the order in which they are popped, so that
an order is asked about the other way round.
-/
namespace PyrrhaNode.BigNumTruth

open Interpreter ScriptOps NumericOps Loop

def opSetBmd : UInt8 := 0xeb

def bigNumUpperLimit : ℤ := 2 ^ 4096

/-- The number that `OP_SETBMD` reads from an item; unlike an operand it is not reduced. -/
def bmdValue : StackItem → ℤ
  | .bigNum n => n
  | .vch data => deserialize data

def execSetBmd (m : ScriptMachine) : ScriptResult := do
  let (top, m₁) ← popItem m
  let bn := bmdValue top
  if bigNumUpperLimit < bn then throw scriptErrInvalidNumberRange
  else if bn ≤ 0 then throw scriptErrInvalidNumberRange
  else return { m₁ with bigNumModulo := bn }

lemma execSetBmd_eq_ok {m m' : ScriptMachine} {top : StackItem} :
    execSetBmd (pushItem m top) = .ok m' ↔
      0 < bmdValue top ∧ bmdValue top ≤ bigNumUpperLimit ∧
        m' = { m with bigNumModulo := bmdValue top } := by
  unfold execSetBmd
  rw [popItem_pushItem]
  change (if _ then throw _ else if _ then throw _ else _) = _ ↔ _
  rw [ite_throw_eq_ok, ite_throw_eq_ok, not_lt, not_le]
  constructor
  · rintro ⟨hle, hpos, h⟩
    cases h
    exact ⟨hpos, hle, rfl⟩
  · rintro ⟨hpos, hle, rfl⟩
    exact ⟨hle, hpos, rfl⟩

/-- The relation of the integers that an opcode asks about. -/
def relation : NumOp → Option (ℤ → ℤ → Bool)
  | .numEqual => some fun a b => decide (a = b)
  | .numNotEqual => some fun a b => decide (a ≠ b)
  | .lessThan => some fun a b => decide (a < b)
  | .greaterThan => some fun a b => decide (a > b)
  | .lessThanOrEqual => some fun a b => decide (a ≤ b)
  | .greaterThanOrEqual => some fun a b => decide (a ≥ b)
  | .boolAnd => some fun a b => decide (a ≠ 0 ∧ b ≠ 0)
  | .boolOr => some fun a b => decide (a ≠ 0 ∨ b ≠ 0)
  | _ => none

/-- The opcodes that ask about an order. -/
def isOrder : NumOp → Bool
  | .lessThan | .greaterThan | .lessThanOrEqual | .greaterThanOrEqual => true
  | _ => false

variable {op : NumOp} {rel : ℤ → ℤ → Bool}

/-- The two operands can be exchanged unless an order of different numbers is asked about. -/
lemma relation_swap_iff (hop : relation op = some rel) (x₁ x₂ : ℤ) :
    (rel x₂ x₁ = rel x₁ x₂) ↔ (isOrder op = true → x₁ = x₂) := by
  cases op <;> cases hop <;> simp only [isOrder] <;> grind

lemma bigNumScriptOp_relation (hop : relation op = some rel) (bn1 bn2 bmd : ℤ) :
    bigNumScriptOp op bn1 bn2 bmd = .ok ((boolNum (rel bn1 bn2)).tmod bmd) := by
  cases op <;> cases hop <;> rfl

lemma itemBool_boolNum_tmod {bmd : ℤ} (hpos : 0 < bmd) (b : Bool) :
    itemBool (.bigNum ((boolNum b).tmod bmd)) = (b && decide (bmd ≠ 1)) := by
  cases b with
  | false => simp [boolNum, itemBool]
  | true =>
    by_cases hone : bmd = 1
    · simp [itemBool, hone]
    · have hlt : (boolNum true).natAbs < bmd.natAbs := by
        simp only [boolNum]
        omega
      rw [tmod_of_natAbs_lt hlt]
      simp [boolNum, itemBool, hone]

/-- The opcode compares the top of the stack with the item below it, in this order. -/
lemma execBinaryNum_relation (hop : relation op = some rel) (flags : BitVec 32) (m : ScriptMachine)
    (x₁ x₂ : ℤ) :
    execBinaryNum flags op (pushItem (pushItem m (.bigNum x₁)) (.bigNum x₂)) =
      .ok (pushItem m (.bigNum ((boolNum (rel x₂ x₁)).tmod m.bigNumModulo))) := by
  have hverify : op ≠ .numEqualVerify := by
    rintro rfl
    cases hop
  unfold execBinaryNum
  rw [popItem_pushItem]
  change (popItem _ >>= _) = _
  rw [popItem_pushItem]
  change (binaryNum flags op m.bigNumModulo (.bigNum x₁) (.bigNum x₂) >>= _) = _
  rw [binaryNum]
  · rw [bigNumScriptOp_relation hop]
    exact if_neg hverify
  · intro data1 data2 h
    cases h

lemma pushItem_inj {m : ScriptMachine} {a b : StackItem} (h : pushItem m a = pushItem m b) :
    a = b := by
  have hstack := congrArg ScriptMachine.stack h
  simpa [pushItem] using hstack

/-- After `OP_SETBMD` a comparison of big numbers gives a true result iff the relation holds between
its operands, except that for the modulus one no result is true.  On the stack, where the first
operand lies below the second, the answer is right iff moreover the operands could be exchanged. -/
theorem bigNum_truth_iff (flags : BitVec 32) {m m' : ScriptMachine} {top : StackItem}
    (hset : execSetBmd (pushItem m top) = .ok m') (hop : relation op = some rel) (x₁ x₂ : ℤ) :
    ((∃ r, bigNumScriptOp op x₁ x₂ m'.bigNumModulo = .ok r ∧
      (itemBool (.bigNum r) = true ↔ rel x₁ x₂ = true)) ↔
        (m'.bigNumModulo = 1 → rel x₁ x₂ = false)) ∧
    ((∃ item, execBinaryNum flags op (pushItem (pushItem m' (.bigNum x₁)) (.bigNum x₂)) =
      .ok (pushItem m' item) ∧ (itemBool item = true ↔ rel x₁ x₂ = true)) ↔
        if m'.bigNumModulo = 1 then rel x₁ x₂ = false else isOrder op = true → x₁ = x₂) := by
  obtain ⟨hpos, -, rfl⟩ := execSetBmd_eq_ok.mp hset
  change 0 < ({ m with bigNumModulo := bmdValue top } : ScriptMachine).bigNumModulo at hpos
  generalize ({ m with bigNumModulo := bmdValue top } : ScriptMachine) = m' at hpos ⊢
  constructor
  · simp only [bigNumScriptOp_relation hop, Except.ok.injEq, exists_eq_left',
      itemBool_boolNum_tmod hpos]
    cases rel x₁ x₂ <;> simp
  · have hitem : (∃ item,
        execBinaryNum flags op (pushItem (pushItem m' (.bigNum x₁)) (.bigNum x₂)) =
        .ok (pushItem m' item) ∧ (itemBool item = true ↔ rel x₁ x₂ = true)) ↔
        ((rel x₂ x₁ && decide (m'.bigNumModulo ≠ 1)) = true ↔ rel x₁ x₂ = true) := by
      rw [execBinaryNum_relation hop, ← itemBool_boolNum_tmod hpos]
      constructor
      · rintro ⟨item, h, htrue⟩
        rwa [pushItem_inj (Except.ok.inj h)]
      · intro htrue
        exact ⟨_, rfl, htrue⟩
    rw [hitem]
    by_cases hone : m'.bigNumModulo = 1
    · cases rel x₁ x₂ <;> simp [hone]
    · rw [← relation_swap_iff hop x₁ x₂]
      cases rel x₁ x₂ <;> cases rel x₂ x₁ <;> simp [hone]

/-- A machine whose script has set the modulus. -/
def withModulus (bmd : ℤ) : ScriptMachine := { ScriptMachine.init with bigNumModulo := bmd }

theorem bigNum_truth_seven :
    (∃ item, execBinaryNum 0 .numEqual
      (pushItem (pushItem (withModulus 7) (.bigNum (-3))) (.bigNum (-3))) =
        .ok (pushItem (withModulus 7) item) ∧
          (itemBool item = true ↔ decide ((-3 : ℤ) = -3) = true)) := by
  have hset : execSetBmd (pushItem ScriptMachine.init (.vch [7])) = .ok (withModulus 7) :=
    execSetBmd_eq_ok.mpr ⟨by decide, by decide +kernel, rfl⟩
  have hop : relation .numEqual = some fun a b => decide (a = b) := rfl
  exact (bigNum_truth_iff 0 hset hop (-3) (-3)).2.mpr (by decide)

/-- With the modulus one, five is not equal to five; and two is not less than three. -/
theorem bigNum_lies :
    (execSetBmd (pushItem ScriptMachine.init (.vch [1]))).map ScriptMachine.bigNumModulo = .ok 1 ∧
    (execBinaryNum 0 .numEqual
      (pushItem (pushItem (withModulus 1) (.bigNum 5)) (.bigNum 5))).map
        (fun m => m.stack.map itemBool) = .ok [false] ∧
    (execBinaryNum 0 .lessThan
      (pushItem (pushItem (withModulus 7) (.bigNum 2)) (.bigNum 3))).map
        (fun m => m.stack.map itemBool) = .ok [false] := by
  refine ⟨?_, by decide, by decide⟩
  rw [execSetBmd_eq_ok.mpr ⟨by decide, by decide +kernel, rfl⟩]
  rfl

end PyrrhaNode.BigNumTruth
