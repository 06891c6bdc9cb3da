import PyrrhaNode.StackOps

/-!
# Opcodes on bytes and numbers

Opcodes that compute with the bytes of vectors, those that compute with one number or compare three,
the hashes, and the conversions between vectors and numbers of arbitrary size.
-/
namespace PyrrhaNode.ByteOps

open ByteCodec Serialize Interpreter ScriptOps BigNum NumericOps StackOps

def scriptErrInvalidOperandSize : ScriptError := .other 10
def scriptErrImpossibleEncoding : ScriptError := .other 12
def scriptErrInvalidSplitRange : ScriptError := .other 13

def maxBigNumMagnitudeSize : ℕ := 512
def maxBigNumBitShiftSize : ℕ := maxBigNumMagnitudeSize * 8

/-- `OP_AND`, `OP_OR` and `OP_XOR` on vectors of one size. -/
def execBitwise (f : UInt8 → UInt8 → UInt8) : ScriptMachine → ScriptResult :=
  replaceTop 2 fun
    | [x1, x2] => do
        let vch1 ← itemData x1
        let vch2 ← itemData x2
        if vch1.length ≠ vch2.length then throw scriptErrInvalidOperandSize
        else return [.vch (vch1.zipWith f vch2)]
    | _ => throw scriptErrInvalidStackOperation

def execAnd := execBitwise fun a b => a &&& b
def execOr := execBitwise fun a b => a ||| b
def execXor := execBitwise fun a b => a ^^^ b

def execCat : ScriptMachine → ScriptResult :=
  replaceTop 2 fun
    | [x1, x2] => do
        let vch1 ← itemData x1
        let vch2 ← itemData x2
        if maxScriptElementSize < vch1.length + vch2.length then throw .pushSize
        else return [.vch (vch1 ++ vch2)]
    | _ => throw scriptErrInvalidStackOperation

def execSplit (flags : BitVec 32) : ScriptMachine → ScriptResult :=
  replaceTop 2 fun
    | [x, y] => do
        let data ← itemData x
        let position ← itemNum flags y
        if position < 0 ∨ (data.length : ℤ) < position then throw scriptErrInvalidSplitRange
        else return [.vch (data.take position.toNat), .vch (data.drop position.toNat)]
    | _ => throw scriptErrInvalidStackOperation

def execReverseBytes : ScriptMachine → ScriptResult :=
  replaceTop 1 fun
    | [x] => do
        let data ← itemData x
        return [.vch data.reverse]
    | _ => throw scriptErrInvalidStackOperation

/-- A hash of the vector at the top. -/
def execHash (hash : Bytes → Bytes) : ScriptMachine → ScriptResult :=
  replaceTop 1 fun
    | [x] => do
        let vch ← itemData x
        return [.vch (hash vch)]
    | _ => throw scriptErrInvalidStackOperation

inductive UnaryOp where
  | add1 | sub1 | negate | abs | not | notEqual0
  deriving DecidableEq

/-- The result for a number that a vector stands for. -/
def unaryNum (op : UnaryOp) (bn : ℤ) : Except ScriptError ℤ :=
  match op with
  | .add1 => safeNum (bn + 1)
  | .sub1 => safeNum (bn - 1)
  | .negate => return -bn
  | .abs => return if bn < 0 then -bn else bn
  | .not => return boolNum (bn = 0)
  | .notEqual0 => return boolNum (bn ≠ 0)

def execUnaryNum (flags : BitVec 32) (op : UnaryOp) : ScriptMachine → ScriptResult :=
  replaceTop 1 fun
    | [x] => do
        let bn ← itemNum flags x
        let result ← unaryNum op bn
        return [numItem result]
    | _ => throw scriptErrInvalidStackOperation

def execWithin (flags : BitVec 32) : ScriptMachine → ScriptResult :=
  replaceTop 3 fun
    | [x, min, max] => do
        let bn1 ← itemNum flags x
        let bn2 ← itemNum flags min
        let bn3 ← itemNum flags max
        return [boolItem (decide (bn2 ≤ bn1 ∧ bn1 < bn3))]
    | _ => throw scriptErrInvalidStackOperation

/-- `BigNum::operator<<`. -/
def shiftLeft (n : ℤ) (amt : ℕ) : Except ScriptError ℤ :=
  if maxBigNumBitShiftSize < amt then throw scriptErrInvalidNumberRange else return n * 2 ^ amt

/-- `BigNum::operator>>`, towards zero. -/
def shiftRight (n : ℤ) (amt : ℕ) : ℤ :=
  if maxBigNumBitShiftSize < amt then 0 else n.tdiv (2 ^ amt)

def shiftAmount (flags : BitVec 32) (memory : BitVec 64) (a : StackItem) :
    Except ScriptError ℕ := do
  let amt ← (itemAsUint64 memory (fRequireMinimal flags) a).mapError conversionError
  return amt.toNat

/-- The checks of a shift amount that is itself a number of arbitrary size. -/
def checkLeftAmount : StackItem → Except ScriptError Unit
  | .vch _ => return ()
  | .bigNum a =>
    if a < 0 then throw scriptErrBadOperationOnType
    else if (maxBigNumBitShiftSize : ℤ) < a then throw scriptErrInvalidNumberRange
    else return ()

/-- Only numbers of arbitrary size can be shifted. -/
def execLShift (flags : BitVec 32) (memory : BitVec 64) (m : ScriptMachine) : ScriptResult :=
  replaceTop 2 (fun
    | [b, a] => do
        checkLeftAmount a
        match b with
        | .vch _ => throw .disabledOpcode
        | .bigNum n => do
            let amt ← shiftAmount flags memory a
            let ret ← shiftLeft n amt
            return [.bigNum (ret.tmod m.bigNumModulo)]
    | _ => throw scriptErrInvalidStackOperation) m

/-- What `OP_RSHIFT` makes of a number.  An amount that is too large is not converted. -/
def shiftRightBy (flags : BitVec 32) (memory : BitVec 64) (n : ℤ) (a : StackItem) :
    Except ScriptError ℤ :=
  match a with
  | .vch data => do
      let amt ← shiftAmount flags memory (.vch data)
      return shiftRight n amt
  | .bigNum a =>
    if a < 0 then throw scriptErrBadOperationOnType
    else if (maxBigNumBitShiftSize : ℤ) < a then return 0
    else do
      let amt ← shiftAmount flags memory (.bigNum a)
      return shiftRight n amt

def execRShift (flags : BitVec 32) (memory : BitVec 64) (m : ScriptMachine) : ScriptResult :=
  replaceTop 2 (fun
    | [.bigNum n, a] => do
        let ret ← shiftRightBy flags memory n a
        return [.bigNum (ret.tmod m.bigNumModulo)]
    | [.vch _, _] => throw .disabledOpcode
    | _ => throw scriptErrInvalidStackOperation) m

/-- `CScriptNum::MinimallyEncode`: superfluous zeros at the end are dropped, the sign moves to the
last byte that is left, or to one more if the sign bit of that byte is taken. -/
def minimallyEncode (data : Bytes) : Bytes :=
  match data.getLast? with
  | none => data
  | some last =>
    if last &&& 0x7f ≠ 0 then data
    else
      match data.dropLast.getLast? with
      | none => []
      | some next =>
        if next &&& 0x80 ≠ 0 then data
        else
          let trimmed := (data.dropLast.reverse.dropWhile (· == 0)).reverse
          match trimmed.getLast? with
          | none => []
          | some b =>
            if b &&& 0x80 ≠ 0 then trimmed ++ [last] else trimmed.dropLast ++ [b ||| last]

/-- `BigNum::magSize`. -/
def magSize (n : ℤ) : ℕ := (sizeInBase2 n + 7) / 8

/-- `BigNum::serialize`.  The vector has room for the magnitude at the start.  For the number zero
no bytes are exported, so that the padding comes after the room for one byte. -/
def serializeBigNum (n : ℤ) (padTo : ℕ) : Bytes :=
  let count := if n = 0 then 0 else magSize n
  leBytes (magSize n) n.natAbs ++ List.replicate (padTo - count) 0 ++
    [if n < 0 then 0x80 else 0]

/-- The bytes of a number in `size` bytes: zeros are put in front of the sign bit. -/
def padNum (rawnum : Bytes) (size : ℕ) : Bytes :=
  match rawnum.getLast? with
  | none => List.replicate (size - 1) 0 ++ [0]
  | some last =>
    rawnum.dropLast ++ [last &&& 0x7f] ++ List.replicate (size - 1 - rawnum.length) 0 ++
      [last &&& 0x80]

def num2Bin (size : ℕ) : StackItem → Except ScriptError StackItem
  | .bigNum n =>
    if maxBigNumMagnitudeSize + 1 < size then throw .pushSize
    else return .vch (serializeBigNum n size)
  | .vch data =>
    if maxScriptElementSize < size then throw .pushSize
    else
      let rawnum := minimallyEncode data
      if size < rawnum.length then throw scriptErrImpossibleEncoding
      else if rawnum.length = size then return .vch rawnum
      else return .vch (padNum rawnum size)

def execNum2Bin (flags : BitVec 32) (memory : BitVec 64) : ScriptMachine → ScriptResult :=
  replaceTop 2 fun
    | [x, y] => do
        let size ← (itemAsUint64 memory (fRequireMinimal flags) y).mapError conversionError
        let result ← num2Bin size.toNat x
        return [result]
    | _ => throw scriptErrInvalidStackOperation

def execBin2Num (flags : BitVec 32) : ScriptMachine → ScriptResult :=
  replaceTop 1 fun
    | [x] => do
        let data ← itemData x
        let n := minimallyEncode data
        if !isMinimallyEncoded n (MultiSig.maxIntegerSize flags) then
          throw scriptErrInvalidNumberRange
        else return [.vch n]
    | _ => throw scriptErrInvalidStackOperation

end PyrrhaNode.ByteOps
