import PyrrhaNode.NumericOps

/-!
# Control and stack opcodes

Most opcodes take a fixed number of items from the top of the stack and put others there; they are
instances of `replaceTop`.  Opcodes that only move items are written like the comments of the
source, as the numbers of the items that they leave.
-/
namespace PyrrhaNode.StackOps

open Interpreter ScriptOps BigNum NumericOps

def scriptErrOpReturn : ScriptError := .other 3
def scriptErrVerify : ScriptError := .other 15
def scriptErrDiscourageUpgradableNops : ScriptError := .other 43

def scriptVerifyDiscourageUpgradableNops : BitVec 32 := 1#32 <<< 7

def boolItem (b : Bool) : StackItem := if b then vchTrue else vchFalse

/-- The flag that asks for the shortest encoding of numbers. -/
def fRequireMinimal (flags : BitVec 32) : Bool := flags &&& scriptVerifyMinimalData != 0

/-- `CScriptNum` of an item, which has to be a vector. -/
def itemNum (flags : BitVec 32) (item : StackItem) : Except ScriptError ℤ := do
  let vch ← itemData item
  scriptNum vch (fRequireMinimal flags) (MultiSig.maxIntegerSize flags)

/-- How a step reports an exception of a conversion. -/
def conversionError : ConversionError → ScriptError
  | .scriptNum e => e
  | .badOpOnType _ => scriptErrBadOperationOnType
  | .outOfBounds _ => scriptErrInvalidNumberRange

/-- The items at the top of the stack, the deepest first, are replaced. -/
def replaceTop (n : ℕ) (f : List StackItem → Except ScriptError (List StackItem))
    (m : ScriptMachine) : ScriptResult :=
  if m.stack.length < n then throw scriptErrInvalidStackOperation
  else do
    let items ← f (m.stack.drop (m.stack.length - n))
    return { m with stack := m.stack.take (m.stack.length - n) ++ items }

/-- The items `x1 … xn` at the top are replaced by those with the given numbers. -/
def shuffle (n : ℕ) (out : List ℕ) : ScriptMachine → ScriptResult :=
  replaceTop n fun xs => return out.filterMap fun k => xs[k - 1]?

def execNop (m : ScriptMachine) : ScriptResult := return m

def execUpgradableNop (flags : BitVec 32) (m : ScriptMachine) : ScriptResult :=
  if flags &&& scriptVerifyDiscourageUpgradableNops ≠ 0 then
    throw scriptErrDiscourageUpgradableNops
  else return m

/-- `OP_IF` and `OP_NOTIF`.  In a branch that is not taken the condition is not looked at. -/
def execIf (notIf : Bool) (m : ScriptMachine) : ScriptResult :=
  if m.vfExec.all id then
    match m.stack.getLast? with
    | none => throw .unbalancedConditional
    | some item => do
        let vch ← itemData item
        return { m with
          stack := m.stack.dropLast
          vfExec := m.vfExec ++ [itemBool (.vch vch) != notIf] }
  else return { m with vfExec := m.vfExec ++ [false] }

def execElse (m : ScriptMachine) : ScriptResult :=
  match m.vfExec.getLast? with
  | none => throw .unbalancedConditional
  | some fValue => return { m with vfExec := m.vfExec.dropLast ++ [!fValue] }

def execEndIf (m : ScriptMachine) : ScriptResult :=
  if m.vfExec.isEmpty then throw .unbalancedConditional
  else return { m with vfExec := m.vfExec.dropLast }

def execVerify : ScriptMachine → ScriptResult :=
  replaceTop 1 fun
    | [x] => do
        let vch ← itemData x
        if itemBool (.vch vch) then return [] else throw scriptErrVerify
    | _ => throw scriptErrInvalidStackOperation

def execReturn (_ : ScriptMachine) : ScriptResult := throw scriptErrOpReturn

def execToAltStack (m : ScriptMachine) : ScriptResult :=
  match m.stack.getLast? with
  | none => throw scriptErrInvalidStackOperation
  | some item => return { m with stack := m.stack.dropLast, altstack := m.altstack ++ [item] }

def exec2Drop := shuffle 2 []
def exec2Dup := shuffle 2 [1, 2, 1, 2]
def exec3Dup := shuffle 3 [1, 2, 3, 1, 2, 3]
def exec2Over := shuffle 4 [1, 2, 3, 4, 1, 2]
def exec2Rot := shuffle 6 [3, 4, 5, 6, 1, 2]
def exec2Swap := shuffle 4 [3, 4, 1, 2]
def execDrop := shuffle 1 []
def execNip := shuffle 2 [2]
def execOver := shuffle 2 [1, 2, 1]
def execRot := shuffle 3 [2, 3, 1]
def execSwap := shuffle 2 [2, 1]
def execTuck := shuffle 2 [2, 1, 2]

def execIfDup : ScriptMachine → ScriptResult :=
  replaceTop 1 fun
    | [x] => do
        let vch ← itemData x
        return if itemBool (.vch vch) then [x, .vch vch] else [x]
    | _ => throw scriptErrInvalidStackOperation

def execDepth (m : ScriptMachine) : ScriptResult :=
  return pushItem m (numItem m.stack.length)

def execSize : ScriptMachine → ScriptResult :=
  replaceTop 1 fun
    | [x] => do
        let vch ← itemData x
        return [x, numItem vch.length]
    | _ => throw scriptErrInvalidStackOperation

/-- `OP_PICK` and `OP_ROLL`: the item at depth `n` is copied or moved to the top. -/
def execPick (flags : BitVec 32) (roll : Bool) (m : ScriptMachine) : ScriptResult :=
  if m.stack.length < 2 then throw scriptErrInvalidStackOperation
  else do
    let (top, m) ← popItem m
    let n ← itemNum flags top
    if n < 0 ∨ (m.stack.length : ℤ) ≤ n then throw scriptErrInvalidStackOperation
    else
      let i := m.stack.length - n.toNat - 1
      match m.stack[i]? with
      | none => throw scriptErrInvalidStackOperation
      | some item =>
        return pushItem { m with stack := if roll then m.stack.eraseIdx i else m.stack } item

/-- `OP_PLACE`: the item below the count overwrites another one.  A positive count is a depth, a
negative one a position from the bottom. -/
def execPlace (flags : BitVec 32) (memory : BitVec 64) (m : ScriptMachine) : ScriptResult :=
  if m.stack.length < 2 then throw scriptErrInvalidStackOperation
  else do
    let (countItem, m) ← popItem m
    let count ← (itemAsInt64 memory (fRequireMinimal flags) countItem).mapError conversionError
    let (item, _) ← popItem m
    if 0 < count then
      if (m.stack.length : ℤ) ≤ count then throw scriptErrInvalidStackOperation
      else return { m with stack := m.stack.set (m.stack.length - count.toNat - 1) item }
    else if count < 0 then
      if (m.stack.length : ℤ) ≤ -count - 1 then throw scriptErrInvalidStackOperation
      else return { m with stack := m.stack.set (-count - 1).toNat item }
    else return m

end PyrrhaNode.StackOps
