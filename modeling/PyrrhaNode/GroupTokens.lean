import PyrrhaNode.Coins
import PyrrhaNode.ScriptAttributes

/-!
# The token group check of a transaction

The check keeps one balance for each group that the transaction mentions. It adds up
the outputs, then the inputs, lets subgroups inherit authorities of their parent
group, compares what comes in with what goes out, and last compares the templates of
covenanted outputs with the template of the inputs.
-/
namespace PyrrhaNode.GroupTokens
open ByteCodec Serialize Transaction Script
open ScriptAttributes Coins

/-- Why a transaction is rejected: code, reason and debug message. -/
structure Reject where
  code : ℕ
  reason : String
  debug : String := ""
  deriving DecidableEq

def rejectInvalid : ℕ := 0x10
def rejectGroupImbalance : ℕ := 0x104

def parentGroupIdSize : ℕ := 32

/-- The flags of a group id are the last two bytes of its first 32. -/
def groupIdFlags (g : CGroupTokenID) : ℕ := (g.getD 30 0).toNat * 256 + (g.getD 31 0).toNat

def covenantFlag : ℕ := 1
def holdsNexFlag : ℕ := 2
def groupReservedBits : ℕ := 0xfffc

def hasFlag (g : CGroupTokenID) (flag : ℕ) : Bool :=
  decide (parentGroupIdSize ≤ g.length) && (groupIdFlags g &&& flag == flag)

def isSubgroup (g : CGroupTokenID) : Bool := decide (parentGroupIdSize < g.length)

def parentGroup (g : CGroupTokenID) : CGroupTokenID := g.take parentGroupIdSize

/-- Some output has a group; an invalid group counts. -/
def isAnyTxOutputGrouped (tx : CTransaction) : Bool :=
  tx.vout.any fun out => (tokenInfo out).invalid || (tokenInfo out).associatedGroup != noGroup

/-- What a transaction does to one group. -/
structure GroupBalance where
  ctrlPerms : GroupAuthorityFlags := .none
  allowedCtrlOutputPerms : GroupAuthorityFlags := .none
  allowedSubgroupCtrlOutputPerms : GroupAuthorityFlags := .none
  ctrlOutputPerms : GroupAuthorityFlags := .none
  input : CAmount := 0
  output : CAmount := 0
  numOutputs : ℕ := 0
  numInputs : ℕ := 0
  covenant : Bytes := []
  deriving DecidableEq

instance : Inhabited GroupBalance := ⟨{}⟩

abbrev GroupBalanceMap := DefaultMap CGroupTokenID GroupBalance

/-- The amount that an output or a coin counts for its group: the value in native
units where the group holds them, the token quantity elsewhere. -/
def groupAmount (out : CTxOut) : CAmount :=
  if hasFlag (tokenInfo out).associatedGroup holdsNexFlag then out.nValue
  else (tokenInfo out).quantity

/-- The script of the first data output, which enters the id of a new group. -/
def firstOpReturn (vout : List CTxOut) : CScript :=
  ((vout.find? fun out => out.nValue == 0 && out.scriptPubKey.head? == some opReturn).map
    CTxOut.scriptPubKey).getD []

/-- Adds an output to the balance of its group. -/
def addOutput (out : CTxOut) (bal : GroupBalance) : Except Reject GroupBalance :=
  let grp := tokenInfo out
  let bal := { bal with numOutputs := bal.numOutputs + 1 }
  if hasFlag grp.associatedGroup holdsNexFlag ∧ 0 < grp.quantity then
    throw { code := rejectInvalid, reason := "fenced groups must hold 0 tokens" }
  else if grp.isAuthority then
    return { bal with ctrlOutputPerms := bal.ctrlOutputPerms ||| grp.controllingGroupFlags }
  else if 0 < groupAmount out then
    if Int64.maxValue - bal.output < groupAmount out then
      throw { code := rejectInvalid, reason := "token overflow" }
    else return { bal with output := bal.output + groupAmount out }
  else if groupAmount out = 0 then
    throw { code := rejectInvalid, reason := "GROUP quantity is zero" }
  else return bal

def outputStep (gBalance : GroupBalanceMap) (out : CTxOut) : Except Reject GroupBalanceMap :=
  let grp := tokenInfo out
  if grp.invalid then throw { code := rejectInvalid, reason := "bad GROUP" }
  else if grp.associatedGroup = noGroup then return gBalance
  else do
    let bal ← addOutput out (gBalance.get grp.associatedGroup)
    return gBalance.modify grp.associatedGroup fun _ => bal

/-- The authorities that an input brings. Only an authority with the baton may be
passed on to outputs. -/
def addPerms (flags : GroupAuthorityFlags) (bal : GroupBalance) : GroupBalance :=
  { bal with
    ctrlPerms := bal.ctrlPerms ||| flags
    allowedCtrlOutputPerms :=
      if hasCapability flags .baton then bal.allowedCtrlOutputPerms ||| flags
      else bal.allowedCtrlOutputPerms
    allowedSubgroupCtrlOutputPerms :=
      if hasCapability flags .baton ∧
          hasCapability flags .subgroup then
        bal.allowedSubgroupCtrlOutputPerms ||| flags
      else bal.allowedSubgroupCtrlOutputPerms }

/-- The first input of a covenanted group that is no authority sets the covenant. -/
def addCovenant (out : CTxOut) (bal : GroupBalance) : Except Reject GroupBalance :=
  let grp := tokenInfo out
  if !grp.isAuthority && hasFlag grp.associatedGroup covenantFlag && bal.covenant.isEmpty &&
      out.scriptType == .template then
    match getScriptTemplate out.scriptType out.scriptPubKey with
    | .invalid => throw { code := rejectInvalid, reason := "bad general txout" }
    | .ok _ contractId _ _ => return { bal with covenant := contractId }
    | .notATemplate => return bal
  else return bal

/-- Adds a spent coin to the balance of its group. -/
def addInput (out : CTxOut) (bal : GroupBalance) : Except Reject GroupBalance := do
  let grp := tokenInfo out
  let bal :=
    if grp.controllingGroupFlags ≠ GroupAuthorityFlags.none then
      addPerms grp.controllingGroupFlags bal
    else bal
  let bal ← addCovenant out bal
  if grp.associatedGroup ≠ noGroup ∧ ¬ grp.isAuthority then
    if Int64.maxValue - bal.input < groupAmount out then
      throw { code := rejectInvalid, reason := "token overflow" }
    else return { bal with input := bal.input + groupAmount out, numInputs := bal.numInputs + 1 }
  else return { bal with numInputs := bal.numInputs + 1 }

def inputStep (view : COutPoint → Option Coin) (gBalance : GroupBalanceMap) (inp : CTxIn) :
    Except Reject GroupBalanceMap :=
  match view inp.prevout with
  | none => throw { code := rejectInvalid, reason := "already-spent" }
  | some coin =>
    if coin.isSpent then throw { code := rejectInvalid, reason := "already-spent" }
    else if (tokenInfo coin.out).invalid then return gBalance
    else do
      let bal ← addInput coin.out (gBalance.get (tokenInfo coin.out).associatedGroup)
      return gBalance.modify (tokenInfo coin.out).associatedGroup fun _ => bal

def inheritPerms (parentData bal : GroupBalance) : GroupBalance :=
  { bal with
    ctrlPerms :=
      if hasCapability parentData.ctrlPerms .subgroup then
        bal.ctrlPerms ||| (parentData.ctrlPerms &&& ~~~GroupAuthorityFlags.subgroup)
      else bal.ctrlPerms
    allowedCtrlOutputPerms := bal.allowedCtrlOutputPerms |||
      (parentData.allowedSubgroupCtrlOutputPerms &&& ~~~GroupAuthorityFlags.subgroup) }

def inheritStep (gBalance : GroupBalanceMap) (group : CGroupTokenID) : GroupBalanceMap :=
  if isSubgroup group ∧ parentGroup group ∈ gBalance.keys then
    gBalance.modify group (inheritPerms (gBalance.get (parentGroup group)))
  else gBalance

/-- The message whose hash is the id of a group that the transaction creates. -/
def newGroupMessage (tx : CTransaction) (ctrlOutputPerms : GroupAuthorityFlags) : Bytes :=
  ((tx.vin.head?.map fun inp => serOutPoint inp.prevout).getD []) ++
    (if (firstOpReturn tx.vout).isEmpty then [] else serBytes (firstOpReturn tx.vout)) ++
    leBytes 8 ctrlOutputPerms.toNat

def newGroupId (H : HashFns) (tx : CTransaction) (ctrlOutputPerms : GroupAuthorityFlags) :
    CGroupTokenID :=
  (H.hash256 (newGroupMessage tx ctrlOutputPerms)).data

/-- Authority outputs without authority inputs must create the group. -/
def checkCreation (H : HashFns) (tx : CTransaction) (group : CGroupTokenID) (bal : GroupBalance) :
    Except Reject GroupBalance :=
  if hasCapability bal.ctrlOutputPerms .authority ∧
      bal.ctrlPerms = GroupAuthorityFlags.none then
    if newGroupId H tx bal.ctrlOutputPerms = group then
      if groupIdFlags group &&& groupReservedBits ≠ 0 then
        throw ⟨rejectGroupImbalance, "grp-invalid-create", "Nonzero group reserved bits"⟩
      else if bal.ctrlOutputPerms &&& GroupAuthorityFlags.reservedFlagBits ≠ 0#64 then
        throw ⟨rejectGroupImbalance, "grp-invalid-create", "Nonzero authority reserved bits"⟩
      else if bal.numOutputs ≠ 1 then
        throw ⟨rejectGroupImbalance, "grp-invalid-create",
          "Multiple grouped outputs created during group creation transaction"⟩
      else
        return { bal with
          allowedCtrlOutputPerms := GroupAuthorityFlags.activeFlagBits
          ctrlPerms := GroupAuthorityFlags.activeFlagBits }
    else if bal.ctrlOutputPerms &&& ~~~GroupAuthorityFlags.allFlagBits ≠ 0#64 then
      throw ⟨rejectInvalid, "grp-invalid-tx", "Only genesis transactions can have a nonce"⟩
    else return bal
  else return bal

/-- What goes out is covered by what comes in or by an authority. -/
def checkBalance (bal : GroupBalance) : Except Reject Unit :=
  if bal.output < bal.input ∧ ¬ hasCapability bal.ctrlPerms .melt then
    throw ⟨rejectGroupImbalance, "grp-invalid-melt",
      "Group input exceeds output, but no melt permission"⟩
  else if bal.input < bal.output ∧ ¬ hasCapability bal.ctrlPerms .mint then
    throw ⟨rejectGroupImbalance, "grp-invalid-mint",
      "Group output exceeds input, but no mint permission"⟩
  else if (bal.ctrlOutputPerms &&& GroupAuthorityFlags.activeFlagBits) &&&
      ~~~(bal.allowedCtrlOutputPerms &&& GroupAuthorityFlags.activeFlagBits) ≠ 0#64 then
    throw ⟨rejectGroupImbalance, "grp-invalid-perm",
      "Group output permissions exceeds input permissions"⟩
  else return ()

def balanceStep (H : HashFns) (tx : CTransaction) (gBalance : GroupBalanceMap)
    (group : CGroupTokenID) : Except Reject GroupBalanceMap := do
  let bal ← checkCreation H tx group (gBalance.get group)
  checkBalance bal
  return gBalance.modify group fun _ => bal

def checkCovenant (gBalance : GroupBalanceMap) (out : CTxOut) : Except Reject Unit :=
  match getScriptTemplate out.scriptType out.scriptPubKey with
  | .invalid => throw ⟨rejectInvalid, "template-invalid", "invalid template in constraint script"⟩
  | template =>
    let group := (tokenInfo out).associatedGroup
    if hasFlag group covenantFlag ∧
        ¬ hasCapability (gBalance.get group).ctrlPerms GroupAuthorityFlags.rescript ∧
        template.contractId ≠ (gBalance.get group).covenant then
      throw ⟨rejectInvalid, "grp-covenant-bad-template",
        "covenant group has incorrect output template"⟩
    else return ()

/-- The token group check of a transaction on the coins of a view. -/
def checkGroupTokens (H : HashFns) (tx : CTransaction) (view : COutPoint → Option Coin) :
    Except Reject GroupBalanceMap := do
  let outputs ← tx.vout.foldlM outputStep .empty
  let inputs ← tx.vin.foldlM (inputStep view) outputs
  let inherited := inputs.keys.foldl inheritStep inputs
  let checked ← inherited.keys.foldlM (balanceStep H tx) inherited
  tx.vout.forM (checkCovenant checked)
  return checked

end PyrrhaNode.GroupTokens
