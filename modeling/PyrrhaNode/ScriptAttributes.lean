import PyrrhaNode.Script

/-!
# Group and template of an output script

A template script starts with its token group: `OP_0` for the native token, or the
group id followed by a quantity of two, four or eight bytes. A negative quantity is a
set of authority flags. The hash of the template and the hash of its hidden arguments
follow, then the visible arguments.
-/
namespace PyrrhaNode.ScriptAttributes
open ByteCodec Serialize Transaction Script

/-- A group id is a string of bytes; the empty one is the native token. -/
abbrev CGroupTokenID := Bytes

def noGroup : CGroupTokenID := []

abbrev GroupAuthorityFlags := BitVec 64

namespace GroupAuthorityFlags

def authority : GroupAuthorityFlags := 1#64 <<< 63
def mint : GroupAuthorityFlags := 1#64 <<< 62
def melt : GroupAuthorityFlags := 1#64 <<< 61
def baton : GroupAuthorityFlags := 1#64 <<< 60
def rescript : GroupAuthorityFlags := 1#64 <<< 59
def subgroup : GroupAuthorityFlags := 1#64 <<< 58
def none : GroupAuthorityFlags := 0#64
def activeFlagBits : GroupAuthorityFlags :=
  authority ||| mint ||| melt ||| baton ||| rescript ||| subgroup
def allFlagBits : GroupAuthorityFlags := 0xffff#64 <<< 48
def reservedFlagBits : GroupAuthorityFlags := activeFlagBits &&& ~~~allFlagBits

end GroupAuthorityFlags

def hasCapability (object capability : GroupAuthorityFlags) : Bool :=
  object &&& capability != 0#64

/-- What an output script says about its token group. -/
structure CGroupTokenInfo where
  associatedGroup : CGroupTokenID
  controllingGroupFlags : GroupAuthorityFlags
  quantity : CAmount
  invalid : Bool
  deriving DecidableEq

namespace CGroupTokenInfo

/-- The state of the record after it has been cleared: the native token. -/
def clear : CGroupTokenInfo := ⟨noGroup, GroupAuthorityFlags.none, 0, false⟩

def bad : CGroupTokenInfo := { clear with invalid := true }

def isAuthority (grp : CGroupTokenInfo) : Bool :=
  grp.controllingGroupFlags &&& GroupAuthorityFlags.authority == GroupAuthorityFlags.authority

end CGroupTokenInfo

/-- Two and four bytes are unsigned, eight bytes are a signed quantity. -/
def deserializeAmount (vec : Bytes) : Option CAmount :=
  if vec.length = 2 ∨ vec.length = 4 ∨ vec.length = 8 then
    some (UInt64.ofNat (ofLeBytes vec)).toInt64
  else none

/-- The group that follows a quantity: a negative one is a set of authority flags. -/
def groupOfQuantity (groupId : CGroupTokenID) (quantity : CAmount) : CGroupTokenInfo where
  associatedGroup := groupId
  controllingGroupFlags := if quantity < 0 then quantity.toBitVec else GroupAuthorityFlags.none
  quantity := quantity
  invalid := false

/-- The group of a script and, when the script is well formed, the position after it. -/
def isScriptGrouped (scriptType : ScriptType) (script : CScript) :
    CGroupTokenInfo × Option Bytes :=
  match scriptType with
  | .pushOnly => (.clear, none)
  | .satoscript => (.clear, some script)
  | .template =>
    match getOp script with
    | none => (.bad, none)
    | some (opcodeGrp, groupId, pc) =>
      if opcodeGrp = op0 then (.clear, some pc)
      else
        match getOp pc with
        | none => (.bad, none)
        | some (opcodeQty, tokenQty, pc) =>
          if opcodeGrp < 0x20 then (.bad, none)
          else if groupId.length < 0x20 then (.bad, none)
          else if opcodeQty ≠ 2 ∧ opcodeQty ≠ 4 ∧ opcodeQty ≠ 8 then (.bad, none)
          else
            match deserializeAmount tokenQty with
            | none => (.bad, none)
            | some quantity => (groupOfQuantity groupId quantity, some pc)

/-- The group information of an output. -/
def tokenInfo (out : CTxOut) : CGroupTokenInfo :=
  (isScriptGrouped out.scriptType out.scriptPubKey).1

def isPushOpcode (opcode : UInt8) : Bool := decide (opcode ≤ op16)

/-- The well-known template number one can be written as its opcode. -/
def numericOpcodeToVector (opcode : UInt8) (templateHash : Bytes) : Bytes :=
  if opcode = op1 then [1] else templateHash

def p2pktId : Bytes := [1]

/-- The pay-to-public-key template, `OP_FROMALTSTACK OP_CHECKSIGVERIFY`. -/
def p2pkt : CScript := [opFromAltStack, opCheckSigVerify]

/-- The script of a well-known template. -/
def convertWellKnownTemplateHash (templateHash : Bytes) : Option CScript :=
  if templateHash = p2pktId then some p2pkt else none

inductive ScriptTemplate where
  | ok (groupInfo : CGroupTokenInfo) (templateHash argsHash pcout : Bytes)
  | notATemplate
  | invalid

/-- A template hash has 20 or 32 bytes, or is a known one-byte name. -/
def templateHashOk (templateHash : Bytes) : Bool :=
  templateHash.length = 20 || templateHash.length = 32 ||
    (templateHash.length = 1 && (convertWellKnownTemplateHash templateHash).isSome)

def getScriptTemplate (scriptType : ScriptType) (script : CScript) : ScriptTemplate :=
  match scriptType with
  | .pushOnly => .notATemplate
  | .satoscript => .notATemplate
  | .template =>
    match isScriptGrouped scriptType script with
    | (_, none) => .invalid
    | (groupInfo, some pc) =>
      match getOp pc with
      | none => .invalid
      | some (opcode, data, pc) =>
        let templateHash := numericOpcodeToVector opcode data
        if !isPushOpcode opcode then .invalid
        else if !templateHashOk templateHash then .invalid
        else
          match getOp pc with
          | none => .invalid
          | some (opcode, argsHash, pc) =>
            if !isPushOpcode opcode then .invalid
            else .ok groupInfo templateHash argsHash pc

/-- The template hash that a caller receives; it is cleared where there is no template. -/
def ScriptTemplate.contractId : ScriptTemplate → Bytes
  | .ok _ templateHash _ _ => templateHash
  | _ => []

/-- The template hash of an output. -/
def outputContractId (out : CTxOut) : Bytes :=
  (getScriptTemplate out.scriptType out.scriptPubKey).contractId

end PyrrhaNode.ScriptAttributes
