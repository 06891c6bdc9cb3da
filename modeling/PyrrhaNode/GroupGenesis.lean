import PyrrhaNode.GroupAcceptance

/-!
# Nonces and reserved bits of authorities

The flags of an authority output fill 64 bits. Six of the upper sixteen have a
meaning, the other ten are reserved, and the lower 48 are the nonce of a new group.
The mask of reserved bits is empty, and the test for a nonce stands in a branch that
no accepted transaction takes for a group that it does not create, so acceptance says
nothing about these bits.
-/
namespace PyrrhaNode.GroupGenesis
open ByteCodec Serialize Transaction Script
open ScriptAttributes Coins FlagSet
open GroupTokens GroupAccounting GroupAcceptance

/-- The flag bits without a meaning. -/
def inactiveFlagBits : GroupAuthorityFlags :=
  GroupAuthorityFlags.allFlagBits &&& ~~~GroupAuthorityFlags.activeFlagBits

def nonceBits : GroupAuthorityFlags := ~~~GroupAuthorityFlags.allFlagBits

/-- The id of the group is the creation hash of the transaction. -/
def HasCreationId (H : HashFns) (tx : CTransaction) (g : CGroupTokenID) : Prop :=
  newGroupId H tx (authorityFlags g tx.vout) = g

instance (H : HashFns) (tx : CTransaction) (g : CGroupTokenID) :
    Decidable (HasCreationId H tx g) := inferInstanceAs (Decidable (_ = _))

/-- Bits that the authorities of a group must not have: the inactive flags where the
transaction creates the group, the nonce where it does not. -/
def forbiddenBits (H : HashFns) (tx : CTransaction) (g : CGroupTokenID) : GroupAuthorityFlags :=
  if HasCreationId H tx g then inactiveFlagBits else nonceBits

/-- No authority output has a forbidden bit. -/
def GenesisBits (H : HashFns) (tx : CTransaction) : Prop :=
  ∀ out ∈ tx.vout, isAuthorityOut out →
    (tokenInfo out).controllingGroupFlags &&& forbiddenBits H tx (groupOf out) = 0#64

instance (H : HashFns) (tx : CTransaction) : Decidable (GenesisBits H tx) :=
  inferInstanceAs (Decidable (∀ out ∈ tx.vout, _))

/-- What would have to be tested: the inactive flags of the groups that the transaction
creates, and the nonce of the groups for which its inputs bring permissions. -/
structure Tested (H : HashFns) (tx : CTransaction) (ins : List CTxOut) : Prop where
  created : ∀ g, HasCreationId H tx g → authorityFlags g tx.vout &&& inactiveFlagBits = 0#64
  renewed : ∀ g, ¬ HasCreationId H tx g → inputPerms g ins ≠ 0#64 →
    authorityFlags g tx.vout &&& nonceBits = 0#64

variable {out : CTxOut} {g : CGroupTokenID} {outs ins : List CTxOut}
  {mask : GroupAuthorityFlags} {i : ℕ}

lemma groupOf_ne_noGroup (h : isAuthorityOut out = true) :
    groupOf out ≠ noGroup := by
  rcases tokenInfo_cases out with hinfo | hinfo | ⟨g, q, hlen, -, hinfo⟩
  iterate 2
    rw [isAuthorityOut, hinfo] at h
    exact absurd h (by decide)
  · rw [groupOf, hinfo]
    rintro rfl
    exact absurd hlen (by decide)

lemma authority_bit (h : isAuthorityOut out = true) :
    (tokenInfo out).controllingGroupFlags.getLsbD 63 = true := by
  have hauth : GroupAuthorityFlags.authority = BitVec.twoPow 64 63 := by decide
  have hmask : (tokenInfo out).controllingGroupFlags &&& GroupAuthorityFlags.authority =
      GroupAuthorityFlags.authority := by
    simpa [CGroupTokenInfo.isAuthority] using h
  have hbit := congrArg (fun flags => flags.getLsbD 63) hmask
  simpa [hauth] using hbit

lemma authorityFlags_bit (hout : out ∈ outs) (hg : groupOf out = g)
    (hbit : (tokenInfo out).controllingGroupFlags.getLsbD i = true) :
    (authorityFlags g outs).getLsbD i = true := by
  refine (getLsbD_union _ i).mpr ⟨flagsOf g out, List.mem_map_of_mem hout, ?_⟩
  rw [flagsOf, if_pos hg, hbit]

lemma inputPerms_ne_zero
    (h : (allowedPerms g ins).getLsbD 63 = true) : inputPerms g ins ≠ 0#64 := by
  intro hzero
  have hnone : (inputPerms g ins).getLsbD 63 = false := by simp [hzero]
  rw [inputPerms, BitVec.getLsbD_or, Bool.or_eq_false_iff] at hnone
  rw [allowedPerms, BitVec.getLsbD_or, Bool.or_eq_true] at h
  rcases h with hown | hparent
  · obtain ⟨out, hout, hg, hbit⟩ := exists_of_union_flags _ hown
    rw [authorityFlags_bit hout hg hbit] at hnone
    exact absurd hnone.1 (by decide)
  split_ifs at hparent with hsubgroup
  · rw [BitVec.getLsbD_and, Bool.and_eq_true] at hparent
    have hsub : GroupAuthorityFlags.subgroup = BitVec.twoPow 64 58 := by decide
    obtain ⟨flags, hmem, hbit⟩ := (getLsbD_union _ 63).mp hparent.1
    obtain ⟨out, hout, rfl⟩ := List.mem_map.mp hmem
    split_ifs at hbit with hcap
    · by_cases hg : groupOf out = parentGroup g
      · rw [flagsOf, if_pos hg] at hbit hcap
        rw [hsub, hasCapability_twoPow _ 58 (by decide)] at hcap
        have hown := authorityFlags_bit hout hg hcap.2
        rw [if_pos ⟨hsubgroup, by rwa [hsub, hasCapability_twoPow _ 58 (by decide)]⟩,
          BitVec.getLsbD_and, authorityFlags_bit hout hg hbit] at hnone
        exact absurd hnone.2 (by decide)
      · simp [flagsOf_of_ne hg] at hbit
    · simp at hbit
  · simp at hparent

/-- The test for a nonce is never reached with success: an accepted transaction that has
authority outputs of a group with another id than its creation hash brings permissions
for the group. -/
theorem inputPerms_of_authority {H : HashFns} {tx : CTransaction} {view : COutPoint → Option Coin}
    {m : GroupBalanceMap} (h : checkGroupTokens H tx view = .ok m) (hout : out ∈ tx.vout)
    (hauth : isAuthorityOut out = true) (hid : ¬ HasCreationId H tx (groupOf out)) :
    inputPerms (groupOf out) (spentOutputs view tx.vin) ≠ 0#64 := by
  have hperms := (checkGroupTokens_authorized h (groupOf_ne_noGroup hauth)).perms
    fun hcreates => hid hcreates.2.2
  have hbit := authorityFlags_bit hout rfl (authority_bit hauth)
  have hallowed := within_iff.mp hperms 63 (by rw [BitVec.getLsbD_and, hbit]; rfl)
  rw [BitVec.getLsbD_and, Bool.and_eq_true] at hallowed
  exact inputPerms_ne_zero hallowed.1

lemma and_eq_zero_iff_within {flags : GroupAuthorityFlags} :
    flags &&& mask = 0#64 ↔ Within flags (~~~mask) := by
  rw [Within, BitVec.not_not]

lemma authorityFlags_and_eq_zero_iff :
    authorityFlags g outs &&& mask = 0#64 ↔
      ∀ out ∈ outs, groupOf out = g → isAuthorityOut out →
        (tokenInfo out).controllingGroupFlags &&& mask = 0#64 := by
  simp only [and_eq_zero_iff_within, authorityFlags, union_within_iff, List.mem_map,
    forall_exists_index, and_imp, forall_apply_eq_imp_iff₂]
  refine forall₂_congr fun out _ => ⟨fun h hg _ => ?_, fun h => ?_⟩
  · rwa [flagsOf, if_pos hg] at h
  · by_cases hg : groupOf out = g
    · rw [flagsOf, if_pos hg]
      by_cases hauth : isAuthorityOut out = true
      · exact h hg hauth
      · rw [controllingGroupFlags_eq_zero (Bool.eq_false_iff.mpr hauth)]
        exact within_zero _
    · rw [flagsOf_of_ne hg]
      exact within_zero _

/-- The authority outputs of an accepted transaction have no forbidden bits exactly when
the two tests that the code lacks would have passed. The other groups need none: they have no
authority outputs. -/
theorem genesisBits_iff {H : HashFns} {tx : CTransaction} {view : COutPoint → Option Coin}
    {m : GroupBalanceMap} (h : checkGroupTokens H tx view = .ok m) :
    (GenesisBits H tx ↔ Tested H tx (spentOutputs view tx.vin)) ∧
      ∀ out ∈ tx.vout, isAuthorityOut out → HasCreationId H tx (groupOf out) ∨
        inputPerms (groupOf out) (spentOutputs view tx.vin) ≠ 0#64 := by
  refine ⟨⟨?_, ?_⟩, fun out hout hauth => or_iff_not_imp_left.mpr fun hid =>
    inputPerms_of_authority h hout hauth hid⟩
  · intro hbits
    refine ⟨fun g hid => ?_, fun g hid _ => ?_⟩
    all_goals
      refine authorityFlags_and_eq_zero_iff.mpr fun out hout hg hauth => ?_
      simpa [forbiddenBits, hg, hid] using hbits out hout hauth
  · intro htested out hout hauth
    unfold forbiddenBits
    split_ifs with hid
    · exact authorityFlags_and_eq_zero_iff.mp (htested.created _ hid) out hout rfl hauth
    · have hperms := inputPerms_of_authority h hout hauth hid
      exact authorityFlags_and_eq_zero_iff.mp (htested.renewed _ hid hperms) out hout rfl hauth

/-- An authority output of a group under the first well-known template. -/
def authorityOut (g : CGroupTokenID) (flags : GroupAuthorityFlags) : CTxOut :=
  ⟨1, 546, 0x20 :: g ++ 8 :: leBytes 8 flags.toNat ++ [op1, op0]⟩

/-- A transaction that spends one output and makes one authority. -/
def authorityTx (g : CGroupTokenID) (flags : GroupAuthorityFlags) : CTransaction where
  nVersion := 0
  vin := [⟨0, ⟨Uint256.null⟩, [], 0xffffffff, 1092⟩]
  vout := [authorityOut g flags]
  nLockTime := 0

/-- The group that `authorityTx` creates: its message has forty bytes. -/
def createdGroup : CGroupTokenID := 40 :: List.replicate 31 0

/-- Authority and baton. -/
def batonAuthority : GroupAuthorityFlags :=
  GroupAuthorityFlags.authority ||| GroupAuthorityFlags.baton

/-- The check accepts the transaction if it spends this output. -/
def Accepts (tx : CTransaction) (spent : CTxOut) : Prop :=
  (checkGroupTokens lengthHash tx (oneCoinView spent)).isOk = true

instance (tx : CTransaction) (spent : CTxOut) : Decidable (Accepts tx spent) :=
  inferInstanceAs (Decidable (_ = _))

/-- A new group may have a reserved bit, and a renewed authority a nonce. -/
theorem forbidden_bits_accepted :
    (Accepts (authorityTx createdGroup (batonAuthority ||| 1#64 <<< 57)) ⟨0, 1092, []⟩ ∧
      ¬ GenesisBits lengthHash (authorityTx createdGroup (batonAuthority ||| 1#64 <<< 57))) ∧
    Accepts (authorityTx plainGroup (batonAuthority ||| 1#64))
        (authorityOut plainGroup batonAuthority) ∧
      ¬ GenesisBits lengthHash (authorityTx plainGroup (batonAuthority ||| 1#64)) := by
  decide +kernel

theorem genesisBits_of_baton :
    Accepts (authorityTx plainGroup batonAuthority) (authorityOut plainGroup batonAuthority) ∧
      Tested lengthHash (authorityTx plainGroup batonAuthority)
        (spentOutputs (oneCoinView (authorityOut plainGroup batonAuthority))
          (authorityTx plainGroup batonAuthority).vin) := by
  have hok : Accepts (authorityTx plainGroup batonAuthority)
      (authorityOut plainGroup batonAuthority) := by
    decide +kernel
  have hbits : GenesisBits lengthHash (authorityTx plainGroup batonAuthority) := by
    decide +kernel
  obtain ⟨m, h⟩ := Loop.exists_eq_ok.mp hok
  exact ⟨hok, (genesisBits_iff h).1.mp hbits⟩

end PyrrhaNode.GroupGenesis
