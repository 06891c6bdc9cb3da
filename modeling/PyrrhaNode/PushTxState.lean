import Mathlib
import PyrrhaNode.GroupAcceptance
import PyrrhaNode.ScriptOps

/-!
# Queries of scripts about token groups

`OP_PUSH_TX_STATE` pushes data of the spending transaction. Counts and amounts of a group
come from the balances that the token group check left behind; the position of the n-th
input or output of a group is found by scanning the transaction again. Both views agree for
a transaction within the limits that are checked before its groups are.
-/
namespace PyrrhaNode.PushTxState
open Serialize Transaction ScriptAttributes
open Coins GroupTokens GroupAccounting GroupAcceptance
open Interpreter ScriptOps Loop

def specTxId : UInt8 := 0x2
def specTxIdem : UInt8 := 0x3
def specTxIncomingAmount : UInt8 := 0x5
def specTxOutgoingAmount : UInt8 := 0x6
def specGroupIncomingAmount : UInt8 := 0x7
def specGroupOutgoingAmount : UInt8 := 0x8
def specGroupIncomingCount : UInt8 := 0x9
def specGroupOutgoingCount : UInt8 := 0xa
def specGroupNthInput : UInt8 := 0xb
def specGroupNthOutput : UInt8 := 0xc
def specGroupCovenantHash : UInt8 := 0xd

def scriptErrInvalidStateSpecifier : ScriptError := .other 105

/-- The fields of `ScriptImportedState` that the queries read. -/
structure TxState where
  tx : Option CTransaction
  spentCoins : List CTxOut
  groupState : Option GroupBalanceMap
  txInAmount : CAmount
  txOutAmount : CAmount

/-- The scan for an output of the group, with the index of the next output and the number
of outputs of the group to skip. -/
def scanNth (grpId : CGroupTokenID) : List CTxOut → ℕ → ℕ → Option ℕ
  | [], _, _ => none
  | out :: outs, vIdx, nth =>
    if groupOf out = grpId then
      if nth = 0 then some vIdx else scanNth grpId outs (vIdx + 1) (nth - 1)
    else scanNth grpId outs (vIdx + 1) nth

/-- The position of an input or output of a group. -/
def evalNth (tx : CTransaction) (sis : TxState) (spec : UInt8) (args : Bytes) :
    Except ScriptError StackItem :=
  if args.length < 2 then throw scriptErrInvalidStateSpecifier
  else do
    let nth ← scriptNum (args.take 2) false 65536
    if nth < 0 ∨ (maxTxNumVout : ℤ) ≤ nth then throw scriptErrInvalidStateSpecifier
    else if (args.drop 2).length < 32 then throw scriptErrInvalidStateSpecifier
    else
      let outs := if spec = specGroupNthOutput then tx.vout else sis.spentCoins
      match scanNth (args.drop 2) outs 0 nth.toNat with
      | none => throw scriptErrInvalidStateSpecifier
      | some vIdx => return numItem vIdx

/-- A number or the covenant that the token group check left for a group; zero or nothing
for a group that it did not meet. -/
def evalGroup (sis : TxState) (spec : UInt8) (args : Bytes) : Except ScriptError StackItem :=
  match sis.groupState with
  | none => throw scriptErrDataRequired
  | some groupState =>
    if args.length < 32 then throw scriptErrInvalidStateSpecifier
    else if args ∈ groupState.keys then
      let gb := groupState.get args
      if spec = specGroupIncomingAmount then return numItem gb.input.toInt
      else if spec = specGroupOutgoingAmount then return numItem gb.output.toInt
      else if spec = specGroupIncomingCount then return numItem gb.numInputs
      else if spec = specGroupOutgoingCount then return numItem gb.numOutputs
      else return .vch gb.covenant
    else if spec = specGroupCovenantHash then return .vch []
    else return numItem 0

/-- The specifiers that take only a group. -/
def isGroupSpec (spec : UInt8) : Bool :=
  spec == specGroupIncomingAmount || spec == specGroupOutgoingAmount ||
    spec == specGroupIncomingCount || spec == specGroupOutgoingCount ||
    spec == specGroupCovenantHash

/-- `EvalPushTxState`. -/
def evalPushTxState (H : HashFns) (specifier : Bytes) (sis : TxState) (stack : List StackItem) :
    Except ScriptError (List StackItem) :=
  match specifier with
  | [] => throw scriptErrInvalidStateSpecifier
  | spec :: args =>
    match sis.tx with
    | none => throw scriptErrDataRequired
    | some tx => do
      let item ←
        if spec = specTxId then pure (.vch (getTxId H tx).data)
        else if spec = specTxIdem then pure (.vch (getTxIdem H tx).data)
        else if spec = specTxIncomingAmount then pure (numItem sis.txInAmount.toInt)
        else if spec = specTxOutgoingAmount then pure (numItem sis.txOutAmount.toInt)
        else if spec = specGroupNthInput ∨ spec = specGroupNthOutput then evalNth tx sis spec args
        else if isGroupSpec spec then evalGroup sis spec args
        else throw scriptErrInvalidStateSpecifier
      return stack ++ [item]

/-- `OP_PUSH_TX_STATE`. -/
def execPushTxState (H : HashFns) (sis : TxState) (m : ScriptMachine) : ScriptResult := do
  let (item, m) ← popItem m
  let specifier ← itemData item
  let stack ← evalPushTxState H specifier sis m.stack
  return { m with stack := stack }

/-- The output at `idx` is the one of the group that `n` others precede. -/
def IsNth (g : CGroupTokenID) (outs : List CTxOut) (n idx : ℕ) : Prop :=
  ∃ out, outs[idx]? = some out ∧ groupOf out = g ∧ outputCount g (outs.take idx) = n

section Scan

variable {g : CGroupTokenID} {out : CTxOut} {outs : List CTxOut} {n idx first : ℕ}

lemma outputCount_cons : outputCount g (out :: outs) =
    outputCount g outs + if groupOf out = g then 1 else 0 := by
  simp [outputCount, List.countP_cons]

lemma IsNth.skip (h : IsNth g outs n idx) (out : CTxOut) :
    IsNth g (out :: outs) (n + if groupOf out = g then 1 else 0) (idx + 1) := by
  obtain ⟨found, hfound, hgroup, hcount⟩ := h
  refine ⟨found, by simpa using hfound, hgroup, ?_⟩
  rw [List.take_succ_cons, outputCount_cons, hcount]

theorem isNth_of_scanNth (h : scanNth g outs first n = some idx) :
    ∃ i, idx = first + i ∧ IsNth g outs n i := by
  induction outs generalizing first n with
  | nil => cases h
  | cons out outs ih =>
    rw [scanNth] at h
    by_cases hgroup : groupOf out = g
    · rw [if_pos hgroup] at h
      cases n with
      | zero =>
        obtain rfl := Option.some.inj h
        exact ⟨0, rfl, out, rfl, hgroup, rfl⟩
      | succ n =>
        rw [Nat.add_sub_cancel] at h
        obtain ⟨i, rfl, hi⟩ := ih h
        refine ⟨i + 1, by omega, ?_⟩
        simpa only [if_pos hgroup] using hi.skip out
    · rw [if_neg hgroup] at h
      obtain ⟨i, rfl, hi⟩ := ih h
      refine ⟨i + 1, by omega, ?_⟩
      simpa only [if_neg hgroup, add_zero] using hi.skip out

theorem isSome_scanNth :
    (scanNth g outs first n).isSome = true ↔ n < outputCount g outs := by
  induction outs generalizing first n with
  | nil => simp [scanNth, outputCount]
  | cons out outs ih =>
    rw [scanNth, outputCount_cons]
    by_cases hgroup : groupOf out = g
    · rw [if_pos hgroup, if_pos hgroup]
      cases n with
      | zero => simp
      | succ n =>
        rw [if_neg (Nat.succ_ne_zero n), ih]
        omega
    · rw [if_neg hgroup, if_neg hgroup]
      exact ih

end Scan

def CountsInputs (ins : List CTxOut) (g : CGroupTokenID) (bal : GroupBalance) : Prop :=
  bal.numInputs = outputCount g ins

/-- Every group has its number of inputs. -/
def InputsCounted (ins : List CTxOut) (m : GroupBalanceMap) : Prop :=
  ∀ g, g ≠ noGroup → CountsInputs ins g (m.get g)

variable {m m' : GroupBalanceMap}

lemma InputsCounted.outputStep {ins : List CTxOut} {out : CTxOut} (hm : InputsCounted ins m)
    (h : outputStep m out = .ok m') : InputsCounted ins m' := by
  obtain ⟨-, ⟨-, rfl⟩ | ⟨bal, hbal, rfl⟩⟩ := outputStep_eq h
  · exact hm
  · refine forall_modify hm (fun _ _ _ hcount => hcount) fun hg => ?_
    rw [CountsInputs, addOutput_eq hbal]
    exact hm _ hg

variable {view : COutPoint → Option Coin} {tx : CTransaction} {H : HashFns} {g : CGroupTokenID}
  {inputs : GroupBalanceMap}

lemma InputsCounted.inputStep {done : List CTxIn} {inp : CTxIn}
    (hm : InputsCounted (spentOutputs view done) m) (h : inputStep view m inp = .ok m') :
    InputsCounted (spentOutputs view (done ++ [inp])) m' := by
  obtain ⟨coin, hcoin, -, ⟨hnone, hget⟩ | ⟨-, bal, hbal, rfl⟩⟩ := inputStep_eq h
  · intro g hg
    rw [CountsInputs, spentOutputs_append hcoin, outputCount_append, hget g hg, hm g hg]
    have hne : groupOf coin.out ≠ g := fun he => hg (he ▸ hnone)
    simp [hne]
  · rw [spentOutputs_append hcoin]
    refine forall_modify hm (fun g b hne hcount => ?_) fun hg => ?_
    · rw [CountsInputs, hcount, outputCount_append, if_neg hne, add_zero]
    · rw [CountsInputs, addInput_eq hg hbal, outputCount_append, if_pos rfl]
      exact congrArg (· + 1) (hm _ hg)

/-- Two balances with the same amounts and counts. -/
structure SameTotals (bal bal' : GroupBalance) : Prop where
  input : bal'.input = bal.input
  output : bal'.output = bal.output
  numInputs : bal'.numInputs = bal.numInputs
  numOutputs : bal'.numOutputs = bal.numOutputs

lemma sameTotals_of_balancePass
    (h : inputs.keys.foldlM (balanceStep H tx) (inputs.keys.foldl inheritStep inputs) = .ok m)
    (g : CGroupTokenID) : SameTotals (inputs.get g) (m.get g) := by
  have hkeeps := balancePass_keeps
    (fun bal => (bal.input, bal.output, bal.numInputs, bal.numOutputs)) (fun hcreate => ?_)
    (fun g => ?_) h g
  · simp only [Prod.mk.injEq] at hkeeps
    exact ⟨hkeeps.1, hkeeps.2.1, hkeeps.2.2.1, hkeeps.2.2.2⟩
  · unfold checkCreation at hcreate
    split_ifs at hcreate <;> cases hcreate <;> rfl
  · unfold inherited
    split_ifs <;> rfl

theorem checkGroupTokens_counts (h : checkGroupTokens H tx view = .ok m) (hg : g ≠ noGroup) :
    (m.get g).numInputs = outputCount g (spentOutputs view tx.vin) ∧
      (m.get g).numOutputs = outputCount g tx.vout := by
  obtain ⟨outputs, inputs, houtputs, hinputs, hbalance, -⟩ := checkGroupTokens_eq h
  have htotals := sameTotals_of_balancePass hbalance g
  have hm := (inputPass_counted (outputPass_counted houtputs).1 hinputs).1
  rw [htotals.numInputs, htotals.numOutputs]
  have hfirst : InputsCounted [] outputs :=
    foldlM_invariant (fun _ m => InputsCounted [] m)
      (fun _ _ _ _ _ hm hstep => hm.outputStep hstep) houtputs fun g _ => rfl
  have hcounted := foldlM_invariant (fun done m => InputsCounted (spentOutputs view done) m)
    (fun _ _ _ _ _ hm hstep => hm.inputStep hstep) hinputs hfirst
  exact ⟨hcounted g hg, (hm g hg).count⟩

section Queries

variable {H : HashFns} {sis : TxState} {tx : CTransaction} {m : GroupBalanceMap}
  {stack : List StackItem} {spec : UInt8} {g : CGroupTokenID} {nthSerialized : Bytes}
  {outs : List CTxOut}

/-- The four queries about amounts and counts read the balance of the group; a group that
the check did not meet has an empty one. -/
lemma evalGroup_eq (hstate : sis.groupState = some m) (hg : 32 ≤ g.length) :
    evalGroup sis specGroupIncomingAmount g = .ok (numItem (m.get g).input.toInt) ∧
    evalGroup sis specGroupOutgoingAmount g = .ok (numItem (m.get g).output.toInt) ∧
    evalGroup sis specGroupIncomingCount g = .ok (numItem (m.get g).numInputs) ∧
    evalGroup sis specGroupOutgoingCount g = .ok (numItem (m.get g).numOutputs) := by
  simp only [evalGroup, hstate, if_neg (not_lt.mpr hg)]
  by_cases hkey : g ∈ m.keys
  · simp only [if_pos hkey]
    exact ⟨rfl, rfl, rfl, rfl⟩
  · simp only [if_neg hkey, m.get_of_notMem g hkey]
    exact ⟨rfl, rfl, rfl, rfl⟩

lemma evalPushTxState_group (htx : sis.tx = some tx)
    (hspec : spec ∈ [specGroupIncomingAmount, specGroupOutgoingAmount, specGroupIncomingCount,
      specGroupOutgoingCount]) :
    evalPushTxState H (spec :: g) sis stack = do
      let item ← evalGroup sis spec g
      return stack ++ [item] := by
  simp only [evalPushTxState, htx]
  fin_cases hspec <;> rfl

lemma evalPushTxState_nth {args : Bytes} (htx : sis.tx = some tx)
    (hspec : spec ∈ [specGroupNthInput, specGroupNthOutput]) :
    evalPushTxState H (spec :: args) sis stack = do
      let item ← evalNth tx sis spec args
      return stack ++ [item] := by
  simp only [evalPushTxState, htx]
  fin_cases hspec <;> rfl

/-- The queries about one side of a transaction agree with the outputs of the group on that
side: the count, the position of the n-th output for every number of two bytes, and the
amount. -/
structure SideAgrees (query : Bytes → Except ScriptError (List StackItem))
    (stack : List StackItem) (countSpec nthSpec amountSpec : UInt8) (g : CGroupTokenID)
    (outs : List CTxOut) : Prop where
  count : query (countSpec :: g) = .ok (stack ++ [numItem (outputCount g outs)])
  found : ∀ (nthSerialized : Bytes) (n : ℕ), nthSerialized.length = 2 →
    setVch nthSerialized = n → n < outputCount g outs →
    ∃ idx, IsNth g outs n idx ∧
      query (nthSpec :: (nthSerialized ++ g)) = .ok (stack ++ [numItem idx])
  refused : ∀ nthSerialized : Bytes, nthSerialized.length = 2 →
    ¬ (0 ≤ setVch nthSerialized ∧ setVch nthSerialized < outputCount g outs) →
    ∃ e, query (nthSpec :: (nthSerialized ++ g)) = .error e
  amount : query (amountSpec :: g) = .ok (stack ++ [numItem (tokenSum g outs)])

/-- The n-th output is found, or refused, as the count of the group says. -/
lemma evalNth_agrees
    (houts : (if spec = specGroupNthOutput then tx.vout else sis.spentCoins) = outs)
    (hlimit : outs.length ≤ maxTxNumVout) (hnth : nthSerialized.length = 2) (hg : 32 ≤ g.length) :
    (∀ n : ℕ, setVch nthSerialized = n → n < outputCount g outs →
      ∃ idx, IsNth g outs n idx ∧
        evalNth tx sis spec (nthSerialized ++ g) = .ok (numItem idx)) ∧
    (¬ (0 ≤ setVch nthSerialized ∧ setVch nthSerialized < outputCount g outs) →
      evalNth tx sis spec (nthSerialized ++ g) = .error scriptErrInvalidStateSpecifier) := by
  have hcount : outputCount g outs ≤ maxTxNumVout := (List.countP_le_length).trans hlimit
  have htake : (nthSerialized ++ g).take 2 = nthSerialized := by rw [← hnth, List.take_left]
  have hdrop : (nthSerialized ++ g).drop 2 = g := by rw [← hnth, List.drop_left]
  have hnum : scriptNum nthSerialized false 65536 = .ok (setVch nthSerialized) := by
    rw [scriptNum, if_neg (by omega)]
    rfl
  have hlen : ¬ (nthSerialized ++ g).length < 2 := by
    rw [List.length_append]
    omega
  rw [evalNth, if_neg hlen, htake, hdrop, hnum]
  simp only [if_neg (not_lt.mpr hg), houts, bind, Except.bind, pure, Except.pure]
  constructor
  · intro n hn hlt
    have hsome : (scanNth g outs 0 n).isSome = true := isSome_scanNth.mpr hlt
    obtain ⟨idx, hscan⟩ := Option.isSome_iff_exists.mp hsome
    obtain ⟨i, rfl, hi⟩ := isNth_of_scanNth hscan
    refine ⟨i, hi, ?_⟩
    rw [if_neg (by omega), hn, Int.toNat_natCast, hscan, zero_add]
  · intro hout
    split_ifs with hrange
    · rfl
    · have hscan : scanNth g outs 0 (setVch nthSerialized).toNat = none := by
        rw [← Option.not_isSome_iff_eq_none, isSome_scanNth]
        omega
      rw [hscan]
      rfl

lemma sideAgrees_of_balance {countSpec nthSpec amountSpec : UInt8} (htx : sis.tx = some tx)
    (hg : 32 ≤ g.length) (hlimit : outs.length ≤ maxTxNumVout)
    (hnth : nthSpec ∈ [specGroupNthInput, specGroupNthOutput])
    (houts : (if nthSpec = specGroupNthOutput then tx.vout else sis.spentCoins) = outs)
    (hcount : evalPushTxState H (countSpec :: g) sis stack =
      .ok (stack ++ [numItem (outputCount g outs)]))
    (hamount : evalPushTxState H (amountSpec :: g) sis stack =
      .ok (stack ++ [numItem (tokenSum g outs)])) :
    SideAgrees (fun specifier => evalPushTxState H specifier sis stack) stack countSpec nthSpec
      amountSpec g outs := by
  refine ⟨hcount, ?_, ?_, hamount⟩
  · intro nthSerialized n hlen hn hlt
    obtain ⟨idx, hidx, hitem⟩ := (evalNth_agrees houts hlimit hlen hg).1 n hn hlt
    refine ⟨idx, hidx, ?_⟩
    rw [evalPushTxState_nth htx hnth, hitem]
    rfl
  · intro nthSerialized hlen hout
    refine ⟨scriptErrInvalidStateSpecifier, ?_⟩
    rw [evalPushTxState_nth htx hnth, (evalNth_agrees houts hlimit hlen hg).2 hout]
    rfl

/-- The output behind the limit cannot be asked for, however many the group has. -/
lemma not_sideAgrees_of_lt {countSpec nthSpec amountSpec : UInt8} (htx : sis.tx = some tx)
    (hnth : nthSpec ∈ [specGroupNthInput, specGroupNthOutput])
    (hmany : maxTxNumVout < outputCount g outs) :
    ¬ SideAgrees (fun specifier => evalPushTxState H specifier sis stack) stack countSpec nthSpec
      amountSpec g outs := by
  intro hagrees
  obtain ⟨idx, -, hok⟩ := hagrees.found [0, 1] 256 rfl (by decide) hmany
  have hrefused : evalNth tx sis nthSpec ([0, 1] ++ g) = .error scriptErrInvalidStateSpecifier := by
    have hnum : scriptNum [0, 1] false 65536 = .ok 256 := by decide +kernel
    simp [evalNth, hnum, maxTxNumVout, bind, Except.bind, throw, throwThe, MonadExceptOf.throw]
  rw [evalPushTxState_nth htx hnth, hrefused] at hok
  cases hok

end Queries

/-- The coins of the inputs, in order. -/
def SpentBy (view : COutPoint → Option Coin) (vin : List CTxIn) (spentCoins : List CTxOut) : Prop :=
  List.Forall₂ (fun inp out => ∃ coin, view inp.prevout = some coin ∧ coin.out = out) vin spentCoins

lemma spentOutputs_of_spentBy {vin : List CTxIn} {spentCoins : List CTxOut}
    (h : SpentBy view vin spentCoins) :
    spentOutputs view vin = spentCoins := by
  induction h with
  | nil => rfl
  | cons hhead _ ih =>
    obtain ⟨coin, hcoin, rfl⟩ := hhead
    rw [spentOutputs, List.filterMap_cons, hcoin] at *
    exact congrArg _ ih

/-- The group queries about a transaction within the limits of `CheckTransaction`, whose
values are not negative, agree with each other and with its inputs and outputs. -/
theorem groupQueries_agree {H : HashFns} {tx : CTransaction} {view : COutPoint → Option Coin}
    {m : GroupBalanceMap} {sis : TxState} {g : CGroupTokenID}
    (h : checkGroupTokens H tx view = .ok m) (htx : sis.tx = some tx)
    (hspent : SpentBy view tx.vin sis.spentCoins) (hstate : sis.groupState = some m)
    (hvinLimit : tx.vin.length ≤ maxTxNumVin) (hvoutLimit : tx.vout.length ≤ maxTxNumVout)
    (hvout : ∀ out ∈ tx.vout, 0 ≤ out.nValue.toInt)
    (hvin : ∀ inp ∈ tx.vin, ∀ coin, view inp.prevout = some coin → 0 ≤ coin.out.nValue.toInt)
    (hg : 32 ≤ g.length) (stack : List StackItem) :
    SideAgrees (fun specifier => evalPushTxState H specifier sis stack) stack
        specGroupIncomingCount specGroupNthInput specGroupIncomingAmount g sis.spentCoins ∧
      SideAgrees (fun specifier => evalPushTxState H specifier sis stack) stack
        specGroupOutgoingCount specGroupNthOutput specGroupOutgoingAmount g tx.vout := by
  have hne : g ≠ noGroup := by
    rintro rfl
    exact absurd hg (by decide)
  have hins := spentOutputs_of_spentBy hspent
  obtain ⟨hnumInputs, hnumOutputs⟩ := checkGroupTokens_counts h hne
  obtain ⟨outputs, inputs, houtputs, hinputs, hbalance, -⟩ := checkGroupTokens_eq h
  have htotals := sameTotals_of_balancePass hbalance g
  have hs := inputPass_summed (outputPass_summed houtputs hvout) hvin hinputs g hne
  have hinput := (congrArg Int64.toInt htotals.input).trans hs.input
  have houtput := (congrArg Int64.toInt htotals.output).trans hs.output
  rw [hins] at hnumInputs hinput
  obtain ⟨hinAmount, houtAmount, hinCount, houtCount⟩ := evalGroup_eq hstate hg
  constructor
  · apply sideAgrees_of_balance htx hg _ (by simp) (if_neg (by decide))
    · rw [evalPushTxState_group htx (by simp), hinCount, hnumInputs]
      rfl
    · rw [evalPushTxState_group htx (by simp), hinAmount, hinput]
      rfl
    · rw [← hspent.length_eq]
      exact hvinLimit
  · apply sideAgrees_of_balance htx hg hvoutLimit (by simp) (if_pos rfl)
    · rw [evalPushTxState_group htx (by simp), houtCount, hnumOutputs]
      rfl
    · rw [evalPushTxState_group htx (by simp), houtAmount, houtput]
      rfl

/-- The state that scripts of the transaction see. -/
def stateOf (tx : CTransaction) (spentCoins : List CTxOut) (m : GroupBalanceMap) : TxState :=
  ⟨some tx, spentCoins, some m, 0, 0⟩

/-- A transaction with one output of the fenced group, of value minus one. -/
def negativeTx : CTransaction where
  nVersion := 0
  vin := [⟨0, ⟨Uint256.null⟩, [], 0xffffffff, 5⟩]
  vout := [fencedOut (-1)]
  nLockTime := 0

/-- The token group check alone does not keep negative values out: the amount that leaves
the fenced group is not the one that a script is told. -/
theorem groupOutgoingAmount_negativeTx :
    ∃ m, checkGroupTokens lengthHash negativeTx (oneCoinView ⟨0, 5, []⟩) = .ok m ∧
      evalPushTxState lengthHash (specGroupOutgoingAmount :: fencedGroup)
        (stateOf negativeTx [⟨0, 5, []⟩] m) [] = .ok [numItem 0] ∧
      tokenSum fencedGroup negativeTx.vout = -1 ∧ numItem 0 ≠ numItem (-1) := by
  have hout : (checkGroupTokens lengthHash negativeTx (oneCoinView ⟨0, 5, []⟩)).toOption.map
      (fun m => (m.get fencedGroup).output) = some 0 := by
    decide +kernel
  match h : checkGroupTokens lengthHash negativeTx (oneCoinView ⟨0, 5, []⟩) with
  | .error e =>
    rw [h] at hout
    cases hout
  | .ok m =>
    rw [h] at hout
    have hzero : (m.get fencedGroup).output = 0 := Option.some.inj hout
    have hstate : (stateOf negativeTx [⟨0, 5, []⟩] m).groupState = some m := rfl
    have hamount := (evalGroup_eq hstate (by decide : 32 ≤ fencedGroup.length)).2.1
    rw [hzero] at hamount
    refine ⟨m, rfl, ?_, by decide +kernel, by decide +kernel⟩
    rw [evalPushTxState_group rfl (by simp), hamount]
    rfl

theorem groupQueries_agree_splitTx :
    ∃ m, checkGroupTokens lengthHash (splitTx plainGroup 2 3)
        (oneCoinView (tokenOut plainGroup 5)) = .ok m ∧
      evalPushTxState lengthHash (specGroupOutgoingAmount :: plainGroup)
        (stateOf (splitTx plainGroup 2 3) [tokenOut plainGroup 5] m) [] = .ok [numItem 5] := by
  obtain ⟨m, h⟩ : ∃ m, checkGroupTokens lengthHash (splitTx plainGroup 2 3)
      (oneCoinView (tokenOut plainGroup 5)) = .ok m := exists_eq_ok.mp (by decide +kernel)
  have hspent : SpentBy (oneCoinView (tokenOut plainGroup 5)) (splitTx plainGroup 2 3).vin
      (stateOf (splitTx plainGroup 2 3) [tokenOut plainGroup 5] m).spentCoins :=
    .cons ⟨_, rfl, rfl⟩ .nil
  have hvin : ∀ inp ∈ (splitTx plainGroup 2 3).vin, ∀ coin,
      oneCoinView (tokenOut plainGroup 5) inp.prevout = some coin →
        0 ≤ coin.out.nValue.toInt := by
    intro inp _ coin hcoin
    cases hcoin
    decide
  obtain ⟨-, houtputs⟩ := groupQueries_agree h rfl hspent rfl (by decide) (by decide) (by decide)
    hvin (by decide : 32 ≤ plainGroup.length) []
  exact ⟨m, h, houtputs.amount⟩

end PyrrhaNode.PushTxState
