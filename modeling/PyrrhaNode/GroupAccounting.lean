import PyrrhaNode.FlagSet
import PyrrhaNode.GroupTokens
import PyrrhaNode.SignedWord

/-!
# What the token group check adds up

For one group, a list of outputs has a sum of token amounts, a union of authority
flags and, as inputs, a covenant. The passes of the token group check compute exactly
these, so that an accepted transaction satisfies one statement for each group in
terms of its inputs and outputs alone.
-/
namespace PyrrhaNode.GroupAccounting
open Serialize Transaction ScriptAttributes Coins
open GroupTokens Loop SignedWord

abbrev groupOf (out : CTxOut) : CGroupTokenID := (tokenInfo out).associatedGroup

abbrev isAuthorityOut (out : CTxOut) : Bool := (tokenInfo out).isAuthority

/-- The amount that an output counts for group `g`; authorities count nothing. -/
def tokens (g : CGroupTokenID) (out : CTxOut) : ℤ :=
  if groupOf out = g ∧ ¬ isAuthorityOut out then (groupAmount out).toInt else 0

def tokenSum (g : CGroupTokenID) (outs : List CTxOut) : ℤ := (outs.map (tokens g)).sum

/-- The authority flags that an output has for group `g`. -/
def flagsOf (g : CGroupTokenID) (out : CTxOut) : GroupAuthorityFlags :=
  if groupOf out = g then (tokenInfo out).controllingGroupFlags else 0#64

def authorityFlags (g : CGroupTokenID) (outs : List CTxOut) : GroupAuthorityFlags :=
  FlagSet.union (outs.map (flagsOf g))

/-- The flags of those authorities that may be passed on to outputs. -/
def batonFlags (g : CGroupTokenID) (outs : List CTxOut) : GroupAuthorityFlags :=
  FlagSet.union (outs.map fun out =>
    if hasCapability (flagsOf g out) .baton then flagsOf g out else 0#64)

/-- The flags of those authorities that may be passed on to outputs of subgroups. -/
def subgroupBatonFlags (g : CGroupTokenID) (outs : List CTxOut) : GroupAuthorityFlags :=
  FlagSet.union (outs.map fun out =>
    if hasCapability (flagsOf g out) .baton ∧
        hasCapability (flagsOf g out) .subgroup then flagsOf g out else 0#64)

def outputCount (g : CGroupTokenID) (outs : List CTxOut) : ℕ :=
  outs.countP fun out => groupOf out = g

/-- The covenant of a group: the template of its first input that is no authority. -/
def covenantOf (g : CGroupTokenID) (ins : List CTxOut) : Bytes :=
  ins.foldl (fun covenant out =>
    if groupOf out = g ∧ ¬ isAuthorityOut out ∧ hasFlag g covenantFlag ∧ covenant.isEmpty then
      outputContractId out
    else covenant) []

section Append
variable (g : CGroupTokenID) (outs : List CTxOut) (out : CTxOut)

@[simp] lemma tokenSum_append :
    tokenSum g (outs ++ [out]) = tokenSum g outs + tokens g out := by
  simp [tokenSum]

@[simp] lemma authorityFlags_append :
    authorityFlags g (outs ++ [out]) = authorityFlags g outs ||| flagsOf g out := by
  simp [authorityFlags, FlagSet.union_append]

@[simp] lemma batonFlags_append :
    batonFlags g (outs ++ [out]) = batonFlags g outs |||
      (if hasCapability (flagsOf g out) .baton then flagsOf g out
        else 0#64) := by
  simp [batonFlags, FlagSet.union_append]

@[simp] lemma subgroupBatonFlags_append :
    subgroupBatonFlags g (outs ++ [out]) = subgroupBatonFlags g outs |||
      (if hasCapability (flagsOf g out) .baton ∧
          hasCapability (flagsOf g out) .subgroup then flagsOf g out
        else 0#64) := by
  simp [subgroupBatonFlags, FlagSet.union_append]

@[simp] lemma outputCount_append :
    outputCount g (outs ++ [out]) = outputCount g outs + if groupOf out = g then 1 else 0 := by
  simp [outputCount]

@[simp] lemma covenantOf_append :
    covenantOf g (outs ++ [out]) =
      if groupOf out = g ∧ ¬ isAuthorityOut out ∧ hasFlag g covenantFlag ∧
          (covenantOf g outs).isEmpty then outputContractId out
      else covenantOf g outs := by
  simp [covenantOf]

end Append

variable {out : CTxOut} {outs : List CTxOut} {bal bal' : GroupBalance} {m m' : GroupBalanceMap}
  {view : COutPoint → Option Coin} {inp : CTxIn} {vout ins : List CTxOut} {done : List CTxIn}
  {vin : List CTxIn} {g : CGroupTokenID} {i : ℕ} (flags : GroupAuthorityFlags)

lemma flagsOf_of_ne (h : groupOf out ≠ g) :
    flagsOf g out = 0#64 := if_neg h

lemma exists_of_union_flags (p : CTxOut → Prop) [DecidablePred p]
    (h : (FlagSet.union (ins.map fun out => if p out then flagsOf g out else 0#64)).getLsbD i =
      true) :
    ∃ out ∈ ins, groupOf out = g ∧ (tokenInfo out).controllingGroupFlags.getLsbD i = true := by
  obtain ⟨flags, hmem, hbit⟩ := (FlagSet.getLsbD_union _ i).mp h
  obtain ⟨out, hout, rfl⟩ := List.mem_map.mp hmem
  by_cases hp : p out
  · rw [if_pos hp] at hbit
    by_cases hgroup : groupOf out = g
    · rw [flagsOf, if_pos hgroup] at hbit
      exact ⟨out, hout, hgroup, hbit⟩
    · rw [flagsOf_of_ne hgroup] at hbit
      simp at hbit
  · rw [if_neg hp] at hbit
    simp at hbit

lemma exists_of_authorityFlags_bit (h : (authorityFlags g outs).getLsbD i = true) :
    ∃ out ∈ outs, groupOf out = g ∧ (tokenInfo out).controllingGroupFlags.getLsbD i = true := by
  have hunion : authorityFlags g outs =
      FlagSet.union (outs.map fun out => if True then flagsOf g out else 0#64) := by
    simp [authorityFlags]
  exact exists_of_union_flags (fun _ => True) h

lemma int64_lt_zero_iff (q : CAmount) : q < 0 ↔ q.toBitVec.getLsbD 63 = true := by
  rw [Int64.lt_iff_toInt_lt, ← BitVec.msb_eq_getLsbD_last]
  simp [BitVec.msb_eq_toInt]

lemma hasCapability_twoPow (i : ℕ) (hi : i < 64) :
    hasCapability flags (BitVec.twoPow 64 i) = flags.getLsbD i := by
  have hne : BitVec.twoPow 64 i ≠ 0#64 := by
    intro h
    have hbit := congrArg (fun v => v.getLsbD i) h
    simp [hi] at hbit
  rw [hasCapability, BitVec.and_twoPow]
  cases flags.getLsbD i with
  | false => simp
  | true => simpa using hne

lemma isAuthority_groupOfQuantity (g : CGroupTokenID) (q : CAmount) :
    (groupOfQuantity g q).isAuthority = true ↔ q < 0 := by
  have hauth : GroupAuthorityFlags.authority = BitVec.twoPow 64 63 := by decide
  by_cases hq : q < 0
  · have hbit := (int64_lt_zero_iff q).mp hq
    simp [CGroupTokenInfo.isAuthority, groupOfQuantity, hq, hauth, BitVec.and_twoPow, hbit]
  · simp only [CGroupTokenInfo.isAuthority, groupOfQuantity, hq, if_false]
    decide

/-- A group record is the native one, a malformed one, or comes from a quantity. -/
lemma tokenInfo_cases (out : CTxOut) :
    tokenInfo out = .clear ∨ tokenInfo out = .bad ∨
      ∃ g q, 32 ≤ g.length ∧ out.scriptType = .template ∧ tokenInfo out = groupOfQuantity g q := by
  unfold tokenInfo isScriptGrouped
  split
  · exact .inl rfl
  · exact .inl rfl
  · split
    · exact .inr (.inl rfl)
    split
    · exact .inl rfl
    split
    · exact .inr (.inl rfl)
    split
    · exact .inr (.inl rfl)
    split
    · exact .inr (.inl rfl)
    · split
      · exact .inr (.inl rfl)
      · split
        · exact .inr (.inl rfl)
        · exact .inr (.inr ⟨_, _, by omega, by assumption, rfl⟩)

/-- An output of a group other than the native one is well formed, and its record
comes from a quantity. -/
lemma tokenInfo_of_group (h : groupOf out ≠ noGroup) :
    32 ≤ (groupOf out).length ∧ out.scriptType = .template ∧
      tokenInfo out = groupOfQuantity (groupOf out) (tokenInfo out).quantity := by
  rcases tokenInfo_cases out with hinfo | hinfo | ⟨g, q, hlen, htype, hinfo⟩
  iterate 2 exact absurd (congrArg CGroupTokenInfo.associatedGroup hinfo) h
  · have hg : groupOf out = g := congrArg CGroupTokenInfo.associatedGroup hinfo
    have hq : (tokenInfo out).quantity = q := congrArg CGroupTokenInfo.quantity hinfo
    exact ⟨by rwa [hg], htype, by rw [hg, hq, hinfo]⟩

lemma controllingGroupFlags_eq_zero (h : isAuthorityOut out = false) :
    (tokenInfo out).controllingGroupFlags = 0#64 := by
  rcases tokenInfo_cases out with hinfo | hinfo | ⟨g, q, -, -, hinfo⟩
  · rw [hinfo]
    rfl
  · rw [hinfo]
    rfl
  · have hq : ¬ q < 0 := by
      rw [← isAuthority_groupOfQuantity g q, ← hinfo]
      simpa [isAuthorityOut] using h
    rw [hinfo, groupOfQuantity]
    simp [hq, GroupAuthorityFlags.none]

lemma groupAmount_nonneg (h : isAuthorityOut out = false)
    (hvalue : 0 ≤ out.nValue.toInt) : 0 ≤ (groupAmount out).toInt := by
  unfold groupAmount
  split_ifs
  · exact hvalue
  rcases tokenInfo_cases out with hinfo | hinfo | ⟨g, q, -, -, hinfo⟩
  · rw [hinfo]
    decide
  · rw [hinfo]
    decide
  · have hq : ¬ q < 0 := by
      rw [← isAuthority_groupOfQuantity g q, ← hinfo]
      simpa [isAuthorityOut] using h
    rw [hinfo]
    show 0 ≤ q.toInt
    rw [Int64.lt_iff_toInt_lt] at hq
    simpa using hq

/-- The three ways in which an output can be added to its balance. -/
lemma addOutput_cases (h : addOutput out bal = .ok bal') :
    (isAuthorityOut out = true ∧ bal' = { bal with
      numOutputs := bal.numOutputs + 1
      ctrlOutputPerms := bal.ctrlOutputPerms ||| (tokenInfo out).controllingGroupFlags }) ∨
    (isAuthorityOut out = false ∧ ¬ Int64.maxValue - bal.output < groupAmount out ∧
      bal' = { bal with
        numOutputs := bal.numOutputs + 1
        output := bal.output + groupAmount out }) ∨
    (isAuthorityOut out = false ∧ ¬ 0 < groupAmount out ∧ groupAmount out ≠ 0 ∧
      bal' = { bal with numOutputs := bal.numOutputs + 1 }) := by
  simp only [addOutput, ite_throw_eq_ok] at h
  obtain ⟨-, h⟩ := h
  cases hauth : isAuthorityOut out with
  | true =>
    rw [if_pos hauth] at h
    cases h
    exact .inl ⟨rfl, rfl⟩
  | false =>
    rw [if_neg (Bool.eq_false_iff.mp hauth)] at h
    by_cases hpos : 0 < groupAmount out
    · rw [if_pos hpos] at h
      obtain ⟨hroom, h⟩ := ite_throw_eq_ok.mp h
      cases h
      exact .inr (.inl ⟨rfl, hroom, rfl⟩)
    · rw [if_neg hpos] at h
      obtain ⟨hne, h⟩ := ite_throw_eq_ok.mp h
      cases h
      exact .inr (.inr ⟨rfl, hpos, hne, rfl⟩)

lemma addOutput_eq (h : addOutput out bal = .ok bal') :
    bal' = { bal with
      numOutputs := bal.numOutputs + 1
      ctrlOutputPerms := bal.ctrlOutputPerms ||| (tokenInfo out).controllingGroupFlags
      output := bal'.output } := by
  rcases addOutput_cases h with ⟨-, rfl⟩ | ⟨hauth, -, rfl⟩ | ⟨hauth, -, -, rfl⟩
  · rfl
  all_goals rw [controllingGroupFlags_eq_zero hauth, BitVec.or_zero]

lemma addOutput_output (h : addOutput out bal = .ok bal') (hbal : 0 ≤ bal.output.toInt)
    (hvalue : 0 ≤ out.nValue.toInt) :
    bal'.output.toInt =
        bal.output.toInt + (if isAuthorityOut out then 0 else (groupAmount out).toInt) ∧
      0 ≤ bal'.output.toInt := by
  rcases addOutput_cases h with ⟨hauth, rfl⟩ | ⟨hauth, hroom, rfl⟩ | ⟨hauth, hpos, hne, rfl⟩
  · simpa [hauth] using hbal
  · have hamount := groupAmount_nonneg hauth hvalue
    have hsum := toInt_add_of_room hbal hamount hroom
    have hnonneg : 0 ≤ (bal.output + groupAmount out).toInt := by omega
    simpa [hauth, hsum] using hnonneg
  · have hamount := groupAmount_nonneg hauth hvalue
    rw [Int64.lt_iff_toInt_lt] at hpos
    have hzero : (groupAmount out).toInt = (0 : Int64).toInt := by
      simp only [Int64.toInt_zero] at hpos ⊢
      omega
    exact absurd (Int64.toInt_inj.mp hzero) hne

/-- A completed step leaves the balances of other groups alone, and leaves the balance
of the output's own group with the output added. -/
lemma outputStep_eq (h : outputStep m out = .ok m') :
    (tokenInfo out).invalid = false ∧
      (groupOf out = noGroup ∧ m' = m ∨
        ∃ bal, addOutput out (m.get (groupOf out)) = .ok bal ∧
          m' = m.modify (groupOf out) fun _ => bal) := by
  unfold outputStep at h
  rw [ite_throw_eq_ok] at h
  obtain ⟨hvalid, h⟩ := h
  refine ⟨by simpa using hvalid, ?_⟩
  split at h
  · rename_i hg
    simp only [pure, Except.pure, Except.ok.injEq] at h
    exact .inl ⟨hg, h.symm⟩
  · obtain ⟨bal, hbal, h⟩ := bind_eq_ok.mp h
    simp only [pure, Except.pure, Except.ok.injEq] at h
    exact .inr ⟨bal, hbal, h.symm⟩

/-- The outputs that the inputs spend. -/
def spentOutputs (view : COutPoint → Option Coin) (vin : List CTxIn) : List CTxOut :=
  vin.filterMap fun inp => (view inp.prevout).map Coin.out

lemma hasCapability_zero : hasCapability 0#64 flags = false := by
  simp [hasCapability]

/-- The covenant after an input of the group. -/
def nextCovenant (out : CTxOut) (covenant : Bytes) : Bytes :=
  if ¬ isAuthorityOut out ∧ hasFlag (groupOf out) covenantFlag ∧ covenant.isEmpty then
    outputContractId out
  else covenant

section

variable (hg : groupOf out ≠ noGroup)
include hg

lemma addCovenant_eq (h : addCovenant out bal = .ok bal') :
    bal' = { bal with covenant := nextCovenant out bal.covenant } := by
  have htype := (tokenInfo_of_group hg).2.1
  unfold addCovenant at h
  by_cases hcond : ¬ isAuthorityOut out ∧ hasFlag (groupOf out) covenantFlag ∧
      bal.covenant.isEmpty
  · have hcond' : (!isAuthorityOut out && hasFlag (groupOf out) covenantFlag &&
        bal.covenant.isEmpty && out.scriptType == .template) = true := by
      simp [hcond, htype]
    rw [nextCovenant, if_pos hcond, outputContractId]
    rw [if_pos hcond'] at h
    cases htemplate : getScriptTemplate out.scriptType out.scriptPubKey with
    | ok grp contractId args pc =>
      rw [htemplate] at h
      cases h
      rfl
    | notATemplate =>
      rw [htemplate] at h
      cases h
      simp only [List.isEmpty_iff] at hcond
      simp [ScriptTemplate.contractId, ← hcond.2.2]
    | invalid =>
      rw [htemplate] at h
      cases h
  · have hcond' : ¬ (!isAuthorityOut out && hasFlag (groupOf out) covenantFlag &&
        bal.covenant.isEmpty && out.scriptType == .template) = true := by
      intro htrue
      apply hcond
      simp only [Bool.and_eq_true, Bool.not_eq_true'] at htrue
      exact ⟨by simp [htrue.1.1.1], htrue.1.1.2, htrue.1.2⟩
    rw [nextCovenant, if_neg hcond]
    rw [if_neg hcond'] at h
    cases h
    rfl

omit hg in
lemma addPerms_zero (bal : GroupBalance) : addPerms 0#64 bal = bal := by
  simp [addPerms]

/-- The two ways in which a spent output can be added to the balance of its group. -/
lemma addInput_cases (h : addInput out bal = .ok bal') :
    (isAuthorityOut out = true ∧
      bal' = { addPerms (tokenInfo out).controllingGroupFlags bal with
        covenant := nextCovenant out bal.covenant
        numInputs := bal.numInputs + 1 }) ∨
    (isAuthorityOut out = false ∧ ¬ Int64.maxValue - bal.input < groupAmount out ∧
      bal' = { addPerms (tokenInfo out).controllingGroupFlags bal with
        covenant := nextCovenant out bal.covenant
        numInputs := bal.numInputs + 1
        input := bal.input + groupAmount out }) := by
  have hperms : (if (tokenInfo out).controllingGroupFlags ≠ GroupAuthorityFlags.none then
      addPerms (tokenInfo out).controllingGroupFlags bal else bal) =
        addPerms (tokenInfo out).controllingGroupFlags bal := by
    split_ifs with hflags
    · rfl
    · rw [not_not.mp hflags]
      exact (addPerms_zero bal).symm
  dsimp only [addInput] at h
  rw [hperms] at h
  obtain ⟨bal₁, hbal₁, h⟩ := bind_eq_ok.mp h
  obtain rfl := addCovenant_eq hg hbal₁
  cases hauth : isAuthorityOut out with
  | true =>
    rw [if_neg (by simp [hauth])] at h
    cases h
    exact .inl ⟨rfl, rfl⟩
  | false =>
    rw [if_pos ⟨hg, by simp [hauth]⟩, ite_throw_eq_ok] at h
    obtain ⟨hroom, h⟩ := h
    cases h
    exact .inr ⟨rfl, hroom, rfl⟩

lemma addInput_eq (h : addInput out bal = .ok bal') :
    bal' = { addPerms (tokenInfo out).controllingGroupFlags bal with
      covenant := nextCovenant out bal.covenant
      numInputs := bal.numInputs + 1
      input := bal'.input } := by
  rcases addInput_cases hg h with ⟨-, rfl⟩ | ⟨-, -, rfl⟩
  · rfl
  · rfl

lemma addInput_input (h : addInput out bal = .ok bal') (hbal : 0 ≤ bal.input.toInt)
    (hvalue : 0 ≤ out.nValue.toInt) :
    bal'.input.toInt =
        bal.input.toInt + (if isAuthorityOut out then 0 else (groupAmount out).toInt) ∧
      0 ≤ bal'.input.toInt := by
  rcases addInput_cases hg h with ⟨hauth, rfl⟩ | ⟨hauth, hroom, rfl⟩
  · simpa [hauth, addPerms] using hbal
  · have hamount := groupAmount_nonneg hauth hvalue
    have hsum := toInt_add_of_room hbal hamount hroom
    have hnonneg : 0 ≤ (bal.input + groupAmount out).toInt := by omega
    simpa [hauth, hsum] using hnonneg

end

/-- A completed step finds an unspent coin, and adds its output to the balance of the
output's group; a malformed output is skipped. -/
lemma inputStep_eq (h : inputStep view m inp = .ok m') :
    ∃ coin, view inp.prevout = some coin ∧ coin.isSpent = false ∧
      (groupOf coin.out = noGroup ∧ (∀ g, g ≠ noGroup → m'.get g = m.get g) ∨
        groupOf coin.out ≠ noGroup ∧
        ∃ bal, addInput coin.out (m.get (groupOf coin.out)) = .ok bal ∧
          m' = m.modify (groupOf coin.out) fun _ => bal) := by
  unfold inputStep at h
  cases hcoin : view inp.prevout with
  | none =>
    rw [hcoin] at h
    cases h
  | some coin =>
    rw [hcoin] at h
    obtain ⟨hspent, h⟩ := ite_throw_eq_ok.mp h
    refine ⟨coin, rfl, Bool.eq_false_iff.mpr hspent, ?_⟩
    by_cases hinvalid : (tokenInfo coin.out).invalid = true
    · rw [if_pos hinvalid] at h
      cases h
      refine .inl ⟨?_, fun _ _ => rfl⟩
      by_contra hg
      rw [(tokenInfo_of_group hg).2.2] at hinvalid
      simp [groupOfQuantity] at hinvalid
    · rw [if_neg hinvalid] at h
      obtain ⟨bal, hbal, h⟩ := bind_eq_ok.mp h
      cases h
      by_cases hg : groupOf coin.out = noGroup
      · refine .inl ⟨hg, fun g hne => DefaultMap.get_modify_of_ne m ?_ _⟩
        rwa [← hg] at hne
      · exact .inr ⟨hg, bal, hbal, rfl⟩

/-- The balance of group `g` after the given outputs and spent outputs, apart from the
sums of amounts. -/
structure Counted (g : CGroupTokenID) (outs ins : List CTxOut) (bal : GroupBalance) : Prop where
  perms : bal.ctrlPerms = authorityFlags g ins
  allowed : bal.allowedCtrlOutputPerms = batonFlags g ins
  allowedSubgroup : bal.allowedSubgroupCtrlOutputPerms = subgroupBatonFlags g ins
  covenant : bal.covenant = covenantOf g ins
  flags : bal.ctrlOutputPerms = authorityFlags g outs
  count : bal.numOutputs = outputCount g outs

/-- The balance holds the exact sums of the given outputs and spent outputs. -/
structure Summed (g : CGroupTokenID) (outs ins : List CTxOut) (bal : GroupBalance) : Prop where
  input : bal.input.toInt = tokenSum g ins
  output : bal.output.toInt = tokenSum g outs
  input_nonneg : 0 ≤ bal.input.toInt
  output_nonneg : 0 ≤ bal.output.toInt

section OneBalance
variable {g : CGroupTokenID} {outs ins : List CTxOut} {out : CTxOut} {bal bal' : GroupBalance}

lemma Counted.output_of_ne (hc : Counted g outs ins bal) (h : groupOf out ≠ g) :
    Counted g (outs ++ [out]) ins bal :=
  ⟨hc.perms, hc.allowed, hc.allowedSubgroup, hc.covenant,
    by simp [hc.flags, flagsOf_of_ne h], by simp [hc.count, h]⟩

lemma Counted.input_of_ne (hc : Counted g outs ins bal) (h : groupOf out ≠ g) :
    Counted g outs (ins ++ [out]) bal :=
  ⟨by simp [hc.perms, flagsOf_of_ne h], by simp [hc.allowed, flagsOf_of_ne h],
    by simp [hc.allowedSubgroup, flagsOf_of_ne h], by simp [hc.covenant, h], hc.flags, hc.count⟩

lemma Summed.output_of_ne (hs : Summed g outs ins bal) (h : groupOf out ≠ g) :
    Summed g (outs ++ [out]) ins bal :=
  ⟨hs.input, by simp [hs.output, tokens, h], hs.input_nonneg, hs.output_nonneg⟩

lemma Summed.input_of_ne (hs : Summed g outs ins bal) (h : groupOf out ≠ g) :
    Summed g outs (ins ++ [out]) bal :=
  ⟨by simp [hs.input, tokens, h], hs.output, hs.input_nonneg, hs.output_nonneg⟩

lemma Counted.addOutput (hc : Counted (groupOf out) outs ins bal)
    (h : addOutput out bal = .ok bal') : Counted (groupOf out) (outs ++ [out]) ins bal' := by
  rw [addOutput_eq h]
  exact ⟨hc.perms, hc.allowed, hc.allowedSubgroup, hc.covenant,
    by simp [hc.flags, flagsOf], by simp [hc.count]⟩

lemma Summed.addOutput (hs : Summed (groupOf out) outs ins bal) (h : addOutput out bal = .ok bal')
    (hvalue : 0 ≤ out.nValue.toInt) :
    Summed (groupOf out) (outs ++ [out]) ins bal' := by
  obtain ⟨hsum, hnonneg⟩ := addOutput_output h hs.output_nonneg hvalue
  have hinput : bal'.input = bal.input := by rw [addOutput_eq h]
  refine ⟨by rw [hinput, hs.input], ?_, by rw [hinput]; exact hs.input_nonneg, hnonneg⟩
  rw [hsum, hs.output, tokenSum_append]
  cases hauth : isAuthorityOut out <;> simp [tokens, hauth]

lemma Counted.addInput (hc : Counted (groupOf out) outs ins bal) (hg : groupOf out ≠ noGroup)
    (h : addInput out bal = .ok bal') : Counted (groupOf out) outs (ins ++ [out]) bal' := by
  rw [addInput_eq hg h]
  have hflags : flagsOf (groupOf out) out = (tokenInfo out).controllingGroupFlags := if_pos rfl
  refine ⟨?_, ?_, ?_, ?_, hc.flags, hc.count⟩
  · simp [addPerms, hc.perms, hflags]
  · simp only [addPerms, hc.allowed, batonFlags_append, hflags]
    split_ifs <;> simp
  · simp only [addPerms, hc.allowedSubgroup, subgroupBatonFlags_append, hflags]
    split_ifs <;> simp
  · simp [nextCovenant, hc.covenant]

lemma Summed.addInput (hs : Summed (groupOf out) outs ins bal) (hg : groupOf out ≠ noGroup)
    (h : addInput out bal = .ok bal') (hvalue : 0 ≤ out.nValue.toInt) :
    Summed (groupOf out) outs (ins ++ [out]) bal' := by
  obtain ⟨hsum, hnonneg⟩ := addInput_input hg h hs.input_nonneg hvalue
  have houtput : bal'.output = bal.output := by rw [addInput_eq hg h]; rfl
  refine ⟨?_, by rw [houtput, hs.output], hnonneg, by rw [houtput]; exact hs.output_nonneg⟩
  rw [hsum, hs.input, tokenSum_append]
  cases hauth : isAuthorityOut out <;> simp [tokens, hauth]

end OneBalance

/-- Every group other than the native one has a counted balance. -/
def AllCounted (outs ins : List CTxOut) (gBalance : GroupBalanceMap) : Prop :=
  ∀ g, g ≠ noGroup → Counted g outs ins (gBalance.get g)

/-- Every group has its sums. -/
def AllSummed (outs ins : List CTxOut) (gBalance : GroupBalanceMap) : Prop :=
  ∀ g, g ≠ noGroup → Summed g outs ins (gBalance.get g)

/-- A step that changes only the balance of the output's own group keeps what is
known of every balance, when it does so for that group. -/
lemma forall_modify {P Q : CGroupTokenID → GroupBalance → Prop} {g₀ : CGroupTokenID}
    {bal : GroupBalance} (hm : ∀ g, g ≠ noGroup → P g (m.get g))
    (hne : ∀ g b, g₀ ≠ g → P g b → Q g b) (hself : g₀ ≠ noGroup → Q g₀ bal) :
    ∀ g, g ≠ noGroup → Q g ((m.modify g₀ fun _ => bal).get g) := by
  intro g hg
  by_cases hgg : g = g₀
  · subst hgg
    rw [DefaultMap.get_modify_self]
    exact hself hg
  · rw [DefaultMap.get_modify_of_ne m hgg]
    exact hne g _ (Ne.symm hgg) (hm g hg)

lemma AllCounted.outputStep {done : List CTxOut} (hm : AllCounted done ins m)
    (h : outputStep m out = .ok m') :
    AllCounted (done ++ [out]) ins m' := by
  obtain ⟨-, ⟨hnone, rfl⟩ | ⟨bal, hbal, rfl⟩⟩ := outputStep_eq h
  · exact fun g hg => (hm g hg).output_of_ne fun he => hg (he ▸ hnone)
  · exact forall_modify hm (fun g b hne hc => hc.output_of_ne hne)
      (fun hg => (hm _ hg).addOutput hbal)

lemma AllSummed.outputStep {done : List CTxOut} (hm : AllSummed done ins m)
    (hvalue : 0 ≤ out.nValue.toInt) (h : outputStep m out = .ok m') :
    AllSummed (done ++ [out]) ins m' := by
  obtain ⟨-, ⟨hnone, rfl⟩ | ⟨bal, hbal, rfl⟩⟩ := outputStep_eq h
  · exact fun g hg => (hm g hg).output_of_ne fun he => hg (he ▸ hnone)
  · exact forall_modify hm (fun g b hne hs => hs.output_of_ne hne)
      (fun hg => (hm _ hg).addOutput hbal hvalue)

/-- The first pass counts the outputs of every group and accepts no malformed one. -/
theorem outputPass_counted (h : vout.foldlM outputStep .empty = .ok m) :
    AllCounted vout [] m ∧ ∀ out ∈ vout, (tokenInfo out).invalid = false := by
  refine foldlM_invariant
    (fun done m => AllCounted done [] m ∧ ∀ out ∈ done, (tokenInfo out).invalid = false)
    ?_ h ⟨fun _ _ => ⟨rfl, rfl, rfl, rfl, rfl, rfl⟩, by simp⟩
  rintro done out s s' - ⟨hs, hvalid⟩ hstep
  refine ⟨hs.outputStep hstep, List.forall_mem_append.mpr ⟨hvalid, ?_⟩⟩
  exact List.forall_mem_singleton.mpr (outputStep_eq hstep).1

theorem outputPass_summed (h : vout.foldlM outputStep .empty = .ok m)
    (hvalue : ∀ out ∈ vout, 0 ≤ out.nValue.toInt) :
    AllSummed vout [] m :=
  foldlM_invariant (fun done m => AllSummed done [] m)
    (fun _ out _ _ hmem hs hstep => hs.outputStep (hvalue out hmem) hstep) h
    (fun _ _ => ⟨rfl, rfl, le_refl (0 : ℤ), le_refl (0 : ℤ)⟩)

lemma spentOutputs_append {coin : Coin} (hcoin : view inp.prevout = some coin) (vin : List CTxIn) :
    spentOutputs view (vin ++ [inp]) = spentOutputs view vin ++ [coin.out] := by
  simp [spentOutputs, hcoin]

lemma AllCounted.inputStep (hm : AllCounted outs (spentOutputs view done) m)
    (h : inputStep view m inp = .ok m') :
    AllCounted outs (spentOutputs view (done ++ [inp])) m' := by
  obtain ⟨coin, hcoin, -, ⟨hnone, hget⟩ | ⟨-, bal, hbal, rfl⟩⟩ := inputStep_eq h
  · rw [spentOutputs_append hcoin]
    intro g hg
    rw [hget g hg]
    exact (hm g hg).input_of_ne fun he => hg (he ▸ hnone)
  · rw [spentOutputs_append hcoin]
    exact forall_modify hm (fun g b hne hc => hc.input_of_ne hne)
      (fun hg => (hm _ hg).addInput hg hbal)

lemma AllSummed.inputStep (hm : AllSummed outs (spentOutputs view done) m)
    (hvalue : ∀ coin, view inp.prevout = some coin → 0 ≤ coin.out.nValue.toInt)
    (h : inputStep view m inp = .ok m') :
    AllSummed outs (spentOutputs view (done ++ [inp])) m' := by
  obtain ⟨coin, hcoin, -, ⟨hnone, hget⟩ | ⟨-, bal, hbal, rfl⟩⟩ := inputStep_eq h
  · rw [spentOutputs_append hcoin]
    intro g hg
    rw [hget g hg]
    exact (hm g hg).input_of_ne fun he => hg (he ▸ hnone)
  · rw [spentOutputs_append hcoin]
    exact forall_modify hm (fun g b hne hs => hs.input_of_ne hne)
      (fun hg => (hm _ hg).addInput hg hbal (hvalue coin hcoin))

/-- The second pass counts what the inputs spend, and every input spends a coin. -/
theorem inputPass_counted (hm : AllCounted outs [] m) (h : vin.foldlM (inputStep view) m = .ok m') :
    AllCounted outs (spentOutputs view vin) m' ∧
      ∀ inp ∈ vin, ∃ coin, view inp.prevout = some coin ∧ coin.isSpent = false := by
  refine foldlM_invariant
    (fun done m => AllCounted outs (spentOutputs view done) m ∧
      ∀ inp ∈ done, ∃ coin, view inp.prevout = some coin ∧ coin.isSpent = false)
    ?_ h ⟨hm, by simp⟩
  rintro done inp s s' - ⟨hs, hfound⟩ hstep
  obtain ⟨coin, hcoin, hspent, -⟩ := inputStep_eq hstep
  refine ⟨hs.inputStep hstep, List.forall_mem_append.mpr ⟨hfound, ?_⟩⟩
  exact List.forall_mem_singleton.mpr ⟨coin, hcoin, hspent⟩

theorem inputPass_summed (hm : AllSummed outs [] m)
    (hvalue : ∀ inp ∈ vin, ∀ coin, view inp.prevout = some coin → 0 ≤ coin.out.nValue.toInt)
    (h : vin.foldlM (inputStep view) m = .ok m') :
    AllSummed outs (spentOutputs view vin) m' :=
  foldlM_invariant (fun done m => AllSummed outs (spentOutputs view done) m)
    (fun _ inp _ _ hmem hs hstep => hs.inputStep (hvalue inp hmem) hstep) h hm

end PyrrhaNode.GroupAccounting
