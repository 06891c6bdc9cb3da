import PyrrhaNode.GroupAccounting

/-!
# What an accepted transaction satisfies for each group

The permissions of a group are the authorities among its inputs, with those that a
subgroup inherits from its parent. A transaction that passes the token group check
balances every group that it does not create, up to the mint and melt permissions,
passes on only authorities with the baton, and keeps the covenant.
-/
namespace PyrrhaNode.GroupAcceptance
open Serialize Transaction ScriptAttributes Coins
open GroupTokens GroupAccounting Loop

/-- The permissions that the spent outputs give to a group. -/
def inputPerms (g : CGroupTokenID) (ins : List CTxOut) : GroupAuthorityFlags :=
  authorityFlags g ins |||
    if isSubgroup g ∧
        hasCapability (authorityFlags (parentGroup g) ins) .subgroup then
      authorityFlags (parentGroup g) ins &&& ~~~GroupAuthorityFlags.subgroup
    else 0#64

/-- The permissions that authority outputs of a group may have. -/
def allowedPerms (g : CGroupTokenID) (ins : List CTxOut) : GroupAuthorityFlags :=
  batonFlags g ins |||
    if isSubgroup g then
      subgroupBatonFlags (parentGroup g) ins &&& ~~~GroupAuthorityFlags.subgroup
    else 0#64

/-- The transaction creates the group: it has authority outputs without permissions
from its inputs, and their hash is the group's id. -/
def Creates (H : HashFns) (tx : CTransaction) (ins : List CTxOut) (g : CGroupTokenID) : Prop :=
  hasCapability (authorityFlags g tx.vout) .authority ∧
    inputPerms g ins = 0#64 ∧ newGroupId H tx (authorityFlags g tx.vout) = g

instance (H : HashFns) (tx : CTransaction) (ins : List CTxOut) (g : CGroupTokenID) :
    Decidable (Creates H tx ins g) := inferInstanceAs (Decidable (_ ∧ _))

/-- The spent outputs give the capability to group `g`: an authority of `g` has it, or
`g` is a subgroup and the authorities of its parent together have it and the subgroup
permission. -/
def Grants (capability : GroupAuthorityFlags) (g : CGroupTokenID) (ins : List CTxOut) : Prop :=
  (∃ out ∈ ins, groupOf out = g ∧ isAuthorityOut out ∧
      hasCapability (tokenInfo out).controllingGroupFlags capability) ∨
    isSubgroup g ∧
      hasCapability (authorityFlags (parentGroup g) ins) .subgroup ∧
      hasCapability (authorityFlags (parentGroup g) ins) capability

instance (capability : GroupAuthorityFlags) (g : CGroupTokenID) (ins : List CTxOut) :
    Decidable (Grants capability g ins) := inferInstanceAs (Decidable (_ ∨ _))

/-- What acceptance says about the authorities and the covenant of a group. -/
structure Authorized (H : HashFns) (tx : CTransaction) (ins : List CTxOut)
    (g : CGroupTokenID) : Prop where
  create : Creates H tx ins g →
    outputCount g tx.vout = 1 ∧ groupIdFlags g &&& groupReservedBits = 0
  perms : ¬ Creates H tx ins g →
    FlagSet.Within (authorityFlags g tx.vout &&& GroupAuthorityFlags.activeFlagBits)
      (allowedPerms g ins &&& GroupAuthorityFlags.activeFlagBits)
  covenant : ¬ Creates H tx ins g → hasFlag g covenantFlag →
    hasCapability (inputPerms g ins) .rescript = false →
    ∀ out ∈ tx.vout, groupOf out = g → outputContractId out = covenantOf g ins

/-- What acceptance says about the amounts of a group. -/
structure Balanced (H : HashFns) (tx : CTransaction) (ins : List CTxOut)
    (g : CGroupTokenID) : Prop where
  melt : ¬ Creates H tx ins g → tokenSum g tx.vout < tokenSum g ins →
    hasCapability (inputPerms g ins) .melt
  mint : ¬ Creates H tx ins g → tokenSum g ins < tokenSum g tx.vout →
    hasCapability (inputPerms g ins) .mint

variable {out : CTxOut}

variable {g : CGroupTokenID} {ins : List CTxOut} {i : ℕ}

/-- Every permission of a group other than the subgroup permission is granted. -/
lemma grants_of_inputPerms (hi : i < 64)
    (h : hasCapability (inputPerms g ins) (BitVec.twoPow 64 i) = true) :
    Grants (BitVec.twoPow 64 i) g ins := by
  rw [hasCapability_twoPow _ i hi, inputPerms, BitVec.getLsbD_or, Bool.or_eq_true] at h
  rcases h with hown | hparent
  · obtain ⟨out, hout, hgroup, hbit⟩ := exists_of_authorityFlags_bit hown
    rw [← hasCapability_twoPow _ i hi] at hbit
    refine .inl ⟨out, hout, hgroup, ?_, hbit⟩
    by_contra hno
    rw [controllingGroupFlags_eq_zero (Bool.eq_false_iff.mpr hno), hasCapability_zero] at hbit
    cases hbit
  · split_ifs at hparent with hsub
    · rw [BitVec.getLsbD_and, Bool.and_eq_true, ← hasCapability_twoPow _ i hi] at hparent
      exact .inr ⟨hsub.1, hsub.2, hparent.1⟩
    · simp at hparent

lemma length_parentGroup (hsub : isSubgroup g = true) :
    (parentGroup g).length = parentGroupIdSize := by
  have hlen : parentGroupIdSize < g.length := by simpa [isSubgroup] using hsub
  simp only [parentGroup, List.length_take]
  omega

lemma ne_noGroup_of_length (hlen : g.length = parentGroupIdSize) :
    g ≠ noGroup := by
  rintro rfl
  cases hlen

section

variable (m : GroupBalanceMap) {k : CGroupTokenID} (l : List CGroupTokenID)
include m

lemma keys_inheritStep (hg : g ∈ m.keys) :
    (inheritStep m g).keys = m.keys := by
  unfold inheritStep
  split_ifs
  · simp [DefaultMap.modify, hg]
  · rfl

omit m in
lemma inheritPerms_default (bal : GroupBalance) : inheritPerms default bal = bal := by
  have hnone : (default : GroupBalance).ctrlPerms = 0#64 := rfl
  have hallowed : (default : GroupBalance).allowedSubgroupCtrlOutputPerms = 0#64 := rfl
  simp [inheritPerms, hnone, hallowed]

/-- The balance of a group after it has inherited from its parent. -/
def inherited (m : GroupBalanceMap) (g : CGroupTokenID) : GroupBalance :=
  if isSubgroup g then inheritPerms (m.get (parentGroup g)) (m.get g) else m.get g

lemma get_inheritStep_self (g : CGroupTokenID) :
    (inheritStep m g).get g = inherited m g := by
  unfold inheritStep inherited
  by_cases hsub : isSubgroup g = true
  · by_cases hkey : parentGroup g ∈ m.keys
    · simp [hsub, hkey]
    · simp [hkey, m.get_of_notMem _ hkey, inheritPerms_default]
  · simp [hsub]

lemma get_inheritStep_of_ne (h : g ≠ k) :
    (inheritStep m k).get g = m.get g := by
  unfold inheritStep
  split_ifs
  · exact m.get_modify_of_ne h _
  · rfl

/-- Inheriting does not change what other groups inherit, since no parent is itself a
subgroup. -/
lemma inherited_inheritStep (h : g ≠ k) :
    inherited (inheritStep m k) g = inherited m g := by
  unfold inherited
  rw [get_inheritStep_of_ne m h]
  by_cases hpk : parentGroup g = k
  · have hsub : isSubgroup k = false := by
      rw [← hpk]
      simp [isSubgroup, parentGroup]
    simp [inheritStep, hsub]
  · rw [get_inheritStep_of_ne m hpk]

theorem inheritPass_get (hl : l.Nodup) (g : CGroupTokenID) :
    (l.foldl inheritStep m).get g = if g ∈ l then inherited m g else m.get g := by
  induction l generalizing m with
  | nil => simp
  | cons k l ih =>
    obtain ⟨hk, hl⟩ := List.nodup_cons.mp hl
    rw [List.foldl_cons, ih (inheritStep m k) hl]
    by_cases hgk : g = k
    · subst hgk
      simp [hk, get_inheritStep_self]
    · rw [inherited_inheritStep m hgk, get_inheritStep_of_ne m hgk]
      simp [hgk]

lemma keys_inheritPass (hl : ∀ g ∈ l, g ∈ m.keys) :
    (l.foldl inheritStep m).keys = m.keys := by
  induction l generalizing m with
  | nil => rfl
  | cons k l ih =>
    have hkeys := keys_inheritStep m (hl k (by simp))
    rw [List.foldl_cons,
      ih (inheritStep m k) (fun g hg => by rw [hkeys]; exact hl g (by simp [hg])),
      hkeys]

end

variable {H : HashFns} {tx : CTransaction} {m inputs m' : GroupBalanceMap} {bal : GroupBalance}

lemma balanceStep_eq (h : balanceStep H tx m g = .ok m') :
    ∃ bal, checkCreation H tx g (m.get g) = .ok bal ∧ checkBalance bal = .ok () ∧
      m' = m.modify g fun _ => bal := by
  obtain ⟨bal, hbal, h⟩ := bind_eq_ok.mp h
  obtain ⟨u, hcheck, h⟩ := bind_eq_ok.mp h
  cases h
  exact ⟨bal, hbal, hcheck, rfl⟩

theorem balancePass_get (l : List CGroupTokenID) (hl : l.Nodup)
    (h : l.foldlM (balanceStep H tx) m = .ok m') :
    (∀ g ∈ l, ∃ bal, checkCreation H tx g (m.get g) = .ok bal ∧ checkBalance bal = .ok () ∧
      m'.get g = bal) ∧ ∀ g, g ∉ l → m'.get g = m.get g := by
  induction l generalizing m with
  | nil =>
    cases h
    exact ⟨by simp, fun _ _ => rfl⟩
  | cons k l ih =>
    obtain ⟨hk, hl⟩ := List.nodup_cons.mp hl
    obtain ⟨t, ht, h⟩ := foldlM_cons_eq_ok.mp h
    obtain ⟨bal, hcreate, hcheck, rfl⟩ := balanceStep_eq ht
    obtain ⟨hin, hout⟩ := ih hl h
    constructor
    · intro g hg
      rcases List.mem_cons.mp hg with rfl | hgl
      · exact ⟨bal, hcreate, hcheck, by rw [hout g hk, DefaultMap.get_modify_self]⟩
      · have hne : g ≠ k := ne_of_mem_of_not_mem hgl hk
        obtain ⟨bal', hcreate', hcheck', hget⟩ := hin g hgl
        rw [DefaultMap.get_modify_of_ne m hne] at hcreate'
        exact ⟨bal', hcreate', hcheck', hget⟩
    · intro g hg
      simp only [List.mem_cons, not_or] at hg
      rw [hout g hg.2, DefaultMap.get_modify_of_ne m hg.1]

/-- What neither the creation of a group nor an inherited permission changes stays as it was. -/
lemma balancePass_keeps {α : Type} (f : GroupBalance → α)
    (hcreate : ∀ {g bal bal'}, checkCreation H tx g bal = .ok bal' → f bal' = f bal)
    (hinherit : ∀ g, f (inherited inputs g) = f (inputs.get g))
    (h : inputs.keys.foldlM (balanceStep H tx) (inputs.keys.foldl inheritStep inputs) = .ok m)
    (g : CGroupTokenID) : f (m.get g) = f (inputs.get g) := by
  obtain ⟨hchecked, hother⟩ := balancePass_get _ inputs.nodup h
  have hget := inheritPass_get inputs inputs.keys inputs.nodup g
  by_cases hg : g ∈ inputs.keys
  · obtain ⟨bal, hcreated, -, rfl⟩ := hchecked g hg
    rw [hcreate hcreated, hget, if_pos hg, hinherit]
  · rw [hother g hg, hget, if_neg hg]

/-- The balance creates its group: there are authority outputs and no permissions, and
the outputs hash to the group. -/
def CreatesGroup (H : HashFns) (tx : CTransaction) (g : CGroupTokenID) (bal : GroupBalance) :
    Prop :=
  hasCapability bal.ctrlOutputPerms .authority ∧ bal.ctrlPerms = 0#64 ∧
    newGroupId H tx bal.ctrlOutputPerms = g

/-- Creating a group gives it all permissions; nothing else changes a balance. -/
lemma checkCreation_cases {bal' : GroupBalance} (h : checkCreation H tx g bal = .ok bal') :
    (CreatesGroup H tx g bal ∧ groupIdFlags g &&& groupReservedBits = 0 ∧ bal.numOutputs = 1) ∨
      ¬ CreatesGroup H tx g bal ∧ bal' = bal := by
  unfold checkCreation at h
  by_cases hauth : hasCapability bal.ctrlOutputPerms .authority ∧
      bal.ctrlPerms = GroupAuthorityFlags.none
  · rw [if_pos hauth] at h
    by_cases hid : newGroupId H tx bal.ctrlOutputPerms = g
    · rw [if_pos hid] at h
      obtain ⟨hgroup, h⟩ := ite_throw_eq_ok.mp h
      obtain ⟨-, h⟩ := ite_throw_eq_ok.mp h
      obtain ⟨hcount, -⟩ := ite_throw_eq_ok.mp h
      exact .inl ⟨⟨hauth.1, hauth.2, hid⟩, not_not.mp hgroup, not_not.mp hcount⟩
    · rw [if_neg hid] at h
      obtain ⟨-, h⟩ := ite_throw_eq_ok.mp h
      cases h
      exact .inr ⟨fun hc => hid hc.2.2, rfl⟩
  · rw [if_neg hauth] at h
    cases h
    exact .inr ⟨fun hc => hauth ⟨hc.1, hc.2.1⟩, rfl⟩

lemma checkBalance_ok (h : checkBalance bal = .ok ()) :
    (bal.output < bal.input → hasCapability bal.ctrlPerms .melt) ∧
      (bal.input < bal.output → hasCapability bal.ctrlPerms .mint) ∧
      FlagSet.Within (bal.ctrlOutputPerms &&& GroupAuthorityFlags.activeFlagBits)
        (bal.allowedCtrlOutputPerms &&& GroupAuthorityFlags.activeFlagBits) := by
  obtain ⟨hmelt, h⟩ := ite_throw_eq_ok.mp h
  obtain ⟨hmint, h⟩ := ite_throw_eq_ok.mp h
  obtain ⟨hperms, -⟩ := ite_throw_eq_ok.mp h
  refine ⟨fun hlt => ?_, fun hlt => ?_, not_not.mp hperms⟩
  · by_contra hcap
    exact hmelt ⟨hlt, hcap⟩
  · by_contra hcap
    exact hmint ⟨hlt, hcap⟩

lemma checks_of_default (H : HashFns) (tx : CTransaction) (g : CGroupTokenID)
    (hperms : bal.ctrlOutputPerms = 0#64) (hamount : bal.output = bal.input) :
    checkCreation H tx g bal = .ok bal ∧ checkBalance bal = .ok () := by
  constructor
  · simp [checkCreation, hperms, hasCapability_zero, pure, Except.pure]
  · simp [checkBalance, hperms, hamount, pure, Except.pure]

lemma checkCovenant_ok (h : checkCovenant m out = .ok ())
    (hflag : hasFlag (groupOf out) covenantFlag)
    (hrescript : hasCapability (m.get (groupOf out)).ctrlPerms GroupAuthorityFlags.rescript =
      false) :
    outputContractId out = (m.get (groupOf out)).covenant := by
  unfold checkCovenant at h
  split at h
  · cases h
  · obtain ⟨hcov, -⟩ := ite_throw_eq_ok.mp h
    by_contra hne
    exact hcov ⟨hflag, by simp [hrescript], hne⟩

variable {view : COutPoint → Option Coin}

lemma checkGroupTokens_eq (h : checkGroupTokens H tx view = .ok m) :
    ∃ outputs inputs, tx.vout.foldlM outputStep .empty = .ok outputs ∧
      tx.vin.foldlM (inputStep view) outputs = .ok inputs ∧
      inputs.keys.foldlM (balanceStep H tx) (inputs.keys.foldl inheritStep inputs) = .ok m ∧
      ∀ out ∈ tx.vout, checkCovenant m out = .ok () := by
  obtain ⟨outputs, houtputs, h⟩ := bind_eq_ok.mp h
  obtain ⟨inputs, hinputs, h⟩ := bind_eq_ok.mp h
  obtain ⟨checked, hchecked, h⟩ := bind_eq_ok.mp h
  obtain ⟨u, hcovenant, h⟩ := bind_eq_ok.mp h
  cases h
  rw [keys_inheritPass inputs inputs.keys (fun _ hg => hg)] at hchecked
  exact ⟨outputs, inputs, houtputs, hinputs, hchecked, forM_eq_ok.mp hcovenant⟩

/-- The last two passes judge every group on its inherited balance. -/
lemma judged
    (h : inputs.keys.foldlM (balanceStep H tx) (inputs.keys.foldl inheritStep inputs) = .ok m)
    (g : CGroupTokenID) :
    ∃ bal, checkCreation H tx g (inherited inputs g) = .ok bal ∧ checkBalance bal = .ok () ∧
      (g ∈ inputs.keys → m.get g = bal) := by
  have hget := inheritPass_get inputs inputs.keys inputs.nodup g
  by_cases hg : g ∈ inputs.keys
  · obtain ⟨bal, hcreate, hcheck, hm⟩ := (balancePass_get _ inputs.nodup h).1 g hg
    rw [hget, if_pos hg] at hcreate
    exact ⟨bal, hcreate, hcheck, fun _ => hm⟩
  have hdefault := inputs.get_of_notMem g hg
  have hperms : (inherited inputs g).ctrlOutputPerms = 0#64 := by
    unfold inherited
    split_ifs <;> rw [hdefault] <;> rfl
  have hamount : (inherited inputs g).output = (inherited inputs g).input := by
    unfold inherited
    split_ifs <;> rw [hdefault] <;> rfl
  obtain ⟨hcreate, hcheck⟩ := checks_of_default H tx g hperms hamount
  exact ⟨_, hcreate, hcheck, fun hmem => absurd hmem hg⟩

/-- What a subgroup inherits, in terms of the spent outputs. -/
lemma AllCounted.inherited {outs : List CTxOut} (hm : AllCounted outs ins m) (hg : g ≠ noGroup) :
    (GroupAcceptance.inherited m g).ctrlPerms = inputPerms g ins ∧
      (GroupAcceptance.inherited m g).allowedCtrlOutputPerms = allowedPerms g ins ∧
      (GroupAcceptance.inherited m g).covenant = covenantOf g ins ∧
      (GroupAcceptance.inherited m g).ctrlOutputPerms = authorityFlags g outs ∧
      (GroupAcceptance.inherited m g).numOutputs = outputCount g outs := by
  have hc := hm g hg
  unfold GroupAcceptance.inherited inputPerms allowedPerms
  by_cases hsub : isSubgroup g = true
  · have hp := hm (parentGroup g) (ne_noGroup_of_length (length_parentGroup hsub))
    rw [if_pos hsub]
    refine ⟨?_, ?_, hc.covenant, hc.flags, hc.count⟩
    · simp only [inheritPerms, hp.perms, hc.perms, hsub, true_and]
      split_ifs <;> simp
    · simp [inheritPerms, hp.allowedSubgroup, hc.allowed, hsub]
  · simp [hsub, hc.perms, hc.allowed, hc.covenant, hc.flags, hc.count]

lemma inherited_amounts (m : GroupBalanceMap) (g : CGroupTokenID) :
    (inherited m g).input = (m.get g).input ∧ (inherited m g).output = (m.get g).output := by
  unfold inherited
  split_ifs <;> exact ⟨rfl, rfl⟩

/-- Whether the balance of a group creates it, in terms of the transaction. -/
lemma AllCounted.createsGroup_iff (hm : AllCounted tx.vout ins m) (hg : g ≠ noGroup) :
    CreatesGroup H tx g (GroupAcceptance.inherited m g) ↔ Creates H tx ins g := by
  obtain ⟨hperms, -, -, hflags, -⟩ := AllCounted.inherited hm hg
  rw [CreatesGroup, hperms, hflags, Creates]

theorem checkGroupTokens_templates (h : checkGroupTokens H tx view = .ok m) (hout : out ∈ tx.vout) :
    getScriptTemplate out.scriptType out.scriptPubKey ≠ .invalid := by
  obtain ⟨outputs, inputs, -, -, -, hcovenant⟩ := checkGroupTokens_eq h
  intro hinvalid
  have hchecked := hcovenant out hout
  rw [checkCovenant, hinvalid] at hchecked
  cases hchecked

/-- A transaction that passes the check is authorized for every group. -/
theorem checkGroupTokens_authorized (h : checkGroupTokens H tx view = .ok m) (hg : g ≠ noGroup) :
    Authorized H tx (spentOutputs view tx.vin) g := by
  obtain ⟨outputs, inputs, houtputs, hinputs, hbalance, hcovenant⟩ := checkGroupTokens_eq h
  have hm := (inputPass_counted (outputPass_counted houtputs).1 hinputs).1
  obtain ⟨hperms, hallowed, hcov, hflags, hcount⟩ := AllCounted.inherited hm hg
  obtain ⟨bal, hcreate, hcheck, hget⟩ := judged hbalance g
  have hcreates := AllCounted.createsGroup_iff (H := H) hm hg
  rcases checkCreation_cases hcreate with ⟨hnew, hreserved, hone⟩ | ⟨hold, rfl⟩
  · have hyes := hcreates.mp hnew
    exact ⟨fun _ => ⟨hcount ▸ hone, hreserved⟩, fun hno => absurd hyes hno,
      fun hno => absurd hyes hno⟩
  have hno : ¬ Creates H tx (spentOutputs view tx.vin) g := fun hyes => hold (hcreates.mpr hyes)
  refine ⟨fun hyes => absurd hyes hno, fun _ => ?_, ?_⟩
  · rw [← hflags, ← hallowed]
    exact (checkBalance_ok hcheck).2.2
  · intro _ hflag hrescript out hout hgroup
    subst hgroup
    have hkey : groupOf out ∈ inputs.keys := by
      by_contra hnot
      have hzero := (hm _ hg).count
      rw [inputs.get_of_notMem _ hnot] at hzero
      have hpos : 0 < outputCount (groupOf out) tx.vout :=
        List.countP_pos_iff.mpr ⟨out, hout, by simp⟩
      rw [← hzero] at hpos
      exact absurd hpos (lt_irrefl 0)
    rw [← hcov, ← hget hkey]
    apply checkCovenant_ok (hcovenant out hout) hflag
    rw [hget hkey, hperms]
    exact hrescript

/-- A transaction that passes the check balances every group, when no value is
negative. -/
theorem checkGroupTokens_balanced (h : checkGroupTokens H tx view = .ok m)
    (hvout : ∀ out ∈ tx.vout, 0 ≤ out.nValue.toInt)
    (hvin : ∀ inp ∈ tx.vin, ∀ coin, view inp.prevout = some coin → 0 ≤ coin.out.nValue.toInt)
    (hg : g ≠ noGroup) : Balanced H tx (spentOutputs view tx.vin) g := by
  obtain ⟨outputs, inputs, houtputs, hinputs, hbalance, -⟩ := checkGroupTokens_eq h
  have hm := (inputPass_counted (outputPass_counted houtputs).1 hinputs).1
  have hs := inputPass_summed (outputPass_summed houtputs hvout) hvin hinputs g hg
  obtain ⟨hperms, -⟩ := AllCounted.inherited hm hg
  obtain ⟨hinput, houtput⟩ := inherited_amounts inputs g
  obtain ⟨bal, hcreate, hcheck, -⟩ := judged hbalance g
  have hcreates := AllCounted.createsGroup_iff (H := H) hm hg
  rcases checkCreation_cases hcreate with ⟨hnew, -⟩ | ⟨hold, rfl⟩
  · have hyes := hcreates.mp hnew
    exact ⟨fun hno => absurd hyes hno, fun hno => absurd hyes hno⟩
  · obtain ⟨hmelt, hmint, -⟩ := checkBalance_ok hcheck
    rw [hinput, houtput, hperms, Int64.lt_iff_toInt_lt, hs.input, hs.output] at hmelt hmint
    exact ⟨fun _ hlt => hmelt hlt, fun _ hlt => hmint hlt⟩

/-- An output of a group under the first well-known template. -/
def tokenOut (g : CGroupTokenID) (quantity : UInt8) : CTxOut :=
  ⟨1, 546, 0x20 :: g ++ [2, quantity, 0, Script.op1, Script.op0]⟩

/-- A transaction that spends one output and makes two of the group. -/
def splitTx (g : CGroupTokenID) (q₁ q₂ : UInt8) : CTransaction where
  nVersion := 0
  vin := [⟨0, ⟨Uint256.null⟩, [], 0xffffffff, 1092⟩]
  vout := [tokenOut g q₁, tokenOut g q₂]
  nLockTime := 0

/-- A group id without flags. -/
def plainGroup : CGroupTokenID := List.replicate 32 4

/-- A group that holds native coins. -/
def fencedGroup : CGroupTokenID := List.replicate 31 4 ++ [2]

def fencedOut (nValue : Int64) : CTxOut := { tokenOut fencedGroup 0 with nValue }

def oneCoinView (out : CTxOut) : COutPoint → Option Coin := fun _ => some ⟨out, false, 1⟩

end PyrrhaNode.GroupAcceptance
