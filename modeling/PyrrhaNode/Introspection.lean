import PyrrhaNode.PushTxState
import PyrrhaNode.StackOps

/-!
# Introspection opcodes

Opcodes that push parts of the spending transaction.  Scripts are pushed whole, so their size is
compared with the largest size of an item.
-/
namespace PyrrhaNode.Introspection

open Serialize Transaction Interpreter ScriptOps NumericOps StackOps
open PushTxState (TxState)

def scriptAllowNativeIntrospection : BitVec 32 := 1#32 <<< 25

def scriptErrInvalidTxInputIndex : ScriptError := .other 49
def scriptErrInvalidTxOutputIndex : ScriptError := .other 50

/-- What introspection opcodes read. -/
structure TxView where
  state : TxState
  nIn : UInt32

inductive NullaryQuery where
  | inputIndex | activeBytecode | txVersion | txInputCount | txOutputCount | txLockTime
  deriving DecidableEq

inductive InputQuery where
  | utxoValue | utxoBytecode | outpointHash | inputBytecode | inputSequenceNumber
  deriving DecidableEq

inductive OutputQuery where
  | outputValue | outputBytecode
  deriving DecidableEq

/-- A script as an item of the stack. -/
def scriptItem (script : CScript) : Except ScriptError StackItem :=
  if maxScriptElementSize < script.length then throw .pushSize else return .vch script

/-- An amount as an item of the stack. -/
def amountItem (nValue : CAmount) : Except ScriptError StackItem :=
  if nValue.toInt = int64Min then throw scriptErrInvalidNumberRange
  else return numItem nValue.toInt

/-- The transaction, if the opcodes are enabled and there is one. -/
def introspected (flags : BitVec 32) (view : TxView) : Except ScriptError CTransaction :=
  if flags &&& scriptAllowNativeIntrospection = 0 then throw .badOpcode
  else
    match view.state.tx with
    | none => throw scriptErrDataRequired
    | some tx => return tx

def nullaryItem (tx : CTransaction) (view : TxView) (codeHash : Bytes) :
    NullaryQuery → Except ScriptError StackItem
  | .inputIndex => return numItem view.nIn.toNat
  | .activeBytecode => scriptItem codeHash
  | .txVersion => return numItem tx.nVersion.toNat
  | .txInputCount => return numItem tx.vin.length
  | .txOutputCount => return numItem tx.vout.length
  | .txLockTime => return numItem tx.nLockTime.toNat

def execNullary (flags : BitVec 32) (view : TxView) (q : NullaryQuery) (m : ScriptMachine) :
    ScriptResult := do
  let tx ← introspected flags view
  let item ← nullaryItem tx view m.codeHash q
  return pushItem m item

/-- `CScriptNum::getint32`. -/
def getInt32 (n : ℤ) : ℤ :=
  if 2 ^ 31 - 1 < n then 2 ^ 31 - 1 else if n < -2 ^ 31 then -2 ^ 31 else n

def inputItem (view : TxView) (idx : ℕ) (input : CTxIn) : InputQuery → Except ScriptError StackItem
  | .utxoValue =>
    match view.state.spentCoins[idx]? with
    | none => throw scriptErrDataRequired
    | some coin => amountItem coin.nValue
  | .utxoBytecode =>
    match view.state.spentCoins[idx]? with
    | none => throw scriptErrDataRequired
    | some coin => scriptItem coin.scriptPubKey
  | .outpointHash => return .vch input.prevout.hash.data
  | .inputBytecode => scriptItem input.scriptSig
  | .inputSequenceNumber => return numItem input.nSequence.toNat

def outputItem (output : CTxOut) : OutputQuery → Except ScriptError StackItem
  | .outputValue => amountItem output.nValue
  | .outputBytecode => scriptItem output.scriptPubKey

/-- The element of a list with the number at the top of the stack, which is consumed, is turned into
an item. -/
def execIndexed {α : Type} (flags : BitVec 32) (elems : List α) (err : ScriptError)
    (f : ℕ → α → Except ScriptError StackItem) : ScriptMachine → ScriptResult :=
  replaceTop 1 fun
    | [x] => do
        let top ← itemNum flags x
        let idx := getInt32 top
        if idx < 0 then throw err
        else
          match elems[idx.toNat]? with
          | none => throw err
          | some elem => do
              let item ← f idx.toNat elem
              return [item]
    | _ => throw scriptErrInvalidStackOperation

def execInput (flags : BitVec 32) (view : TxView) (q : InputQuery) (m : ScriptMachine) :
    ScriptResult := do
  let tx ← introspected flags view
  execIndexed flags tx.vin scriptErrInvalidTxInputIndex
    (fun idx input => inputItem view idx input q) m

def execOutput (flags : BitVec 32) (view : TxView) (q : OutputQuery) (m : ScriptMachine) :
    ScriptResult := do
  let tx ← introspected flags view
  execIndexed flags tx.vout scriptErrInvalidTxOutputIndex (fun _ output => outputItem output q) m

end PyrrhaNode.Introspection
