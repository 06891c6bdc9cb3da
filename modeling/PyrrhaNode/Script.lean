import PyrrhaNode.Transaction

/-!
# Reading scripts

A script is a string of opcodes; the opcodes up to `OP_PUSHDATA4` carry the data that
they push. A position in a script is modelled by the bytes that remain to be read.
-/
namespace PyrrhaNode.Script
open ByteCodec Serialize Transaction

def op0 : UInt8 := 0x00
def opPushData1 : UInt8 := 0x4c
def opPushData2 : UInt8 := 0x4d
def opPushData4 : UInt8 := 0x4e
def op1Negate : UInt8 := 0x4f
def opReserved : UInt8 := 0x50
def op1 : UInt8 := 0x51
def op16 : UInt8 := 0x60
def opReturn : UInt8 := 0x6a
def opFromAltStack : UInt8 := 0x6c
def opCheckSigVerify : UInt8 := 0xad

def maxScriptSize : ℕ := 10000

/-- The number of bytes that a push opcode carries and the position after it. The
size is part of the opcode or follows it in one, two or four bytes. -/
def pushSize (opcode : UInt8) (pc : Bytes) : Option (ℕ × Bytes) :=
  if opcode < opPushData1 then some (opcode.toNat, pc)
  else
    let width := if opcode = opPushData1 then 1 else if opcode = opPushData2 then 2 else 4
    if pc.length < width then none
    else some (ofLeBytes (pc.take width), pc.drop width)

/-- The opcode at the position, the data it carries and the position after it. The
remaining length is compared with the size as a 32-bit number. -/
def getOp : Bytes → Option (UInt8 × Bytes × Bytes)
  | [] => none
  | opcode :: pc =>
    if opcode ≤ opPushData4 then
      match pushSize opcode pc with
      | none => none
      | some (nSize, pc) =>
        if pc.length % 2 ^ 32 < nSize then none
        else some (opcode, pc.take nSize, pc.drop nSize)
    else some (opcode, [], pc)

variable {opcode : UInt8}

lemma pushSize_leBytes (width : ℕ) {n : ℕ} (hop : ¬ opcode < opPushData1)
    (hwidth : (if opcode = opPushData1 then 1 else if opcode = opPushData2 then 2 else 4) = width)
    (hn : n < 256 ^ width) (rest : Bytes) :
    pushSize opcode (leBytes width n ++ rest) = some (n, rest) := by
  have hlen := length_leBytes width n
  have hle : ¬ (leBytes width n ++ rest).length < width := by
    rw [List.length_append]
    omega
  rw [pushSize, if_neg hop]
  rw [hwidth, if_neg hle, List.take_left' hlen, List.drop_left' hlen, ofLeBytes_leBytes,
    Nat.mod_eq_of_lt hn]

lemma getOp_of_lt (h : opPushData4 < opcode) (pc : Bytes) :
    getOp (opcode :: pc) = some (opcode, [], pc) := by
  rw [getOp, if_neg (UInt8.not_le.mpr h)]

lemma getOp_of_pushSize {pc data rest : Bytes} (hop : opcode ≤ opPushData4)
    (hsize : pushSize opcode pc = some (data.length, data ++ rest))
    (hfits : (data ++ rest).length < 2 ^ 32) :
    getOp (opcode :: pc) = some (opcode, data, rest) := by
  have hle : ¬ (data ++ rest).length < data.length := by simp
  rw [getOp, if_pos hop, hsize]
  dsimp only
  rw [Nat.mod_eq_of_lt hfits, if_neg hle, List.take_left, List.drop_left]

def isUnspendable (script : CScript) : Bool :=
  script.head? == some opReturn || decide (maxScriptSize < script.length)

end PyrrhaNode.Script
