import PyrrhaNode.GroupRuns

/-!
# Authorities never escalate

Every authority of a group that exists after a sequence of accepted transactions goes
back to the one authority output of the transaction that created the group: its flags
are among the flags of that output. Authorities of a subgroup go back to the same
output, without the subgroup permission.
-/
namespace PyrrhaNode.GroupAuthority
open List ByteCodec Serialize Transaction
open ScriptAttributes Coins
open GroupTokens GroupAccounting GroupAcceptance
open GroupRuns Loop WriteBackCache

/-- A transaction of the sequence has group `g` as its creation hash, and its only
output of `g` has the authority flags `flags`. -/
def CreatedWith (H : HashFns) (steps : List (CTransaction × ℕ)) (g : CGroupTokenID)
    (flags : GroupAuthorityFlags) : Prop :=
  ∃ step ∈ steps, ∃ out, (step.1.vout.filter fun out => groupOf out = g) = [out] ∧
    (tokenInfo out).controllingGroupFlags = flags ∧
    hasCapability flags .authority ∧ newGroupId H step.1 flags = g

/-- The messages that are hashed for the ids of new groups. -/
def creationMessages (steps : List (CTransaction × ℕ)) : Set Bytes :=
  {message | ∃ step ∈ steps, ∃ g,
    hasCapability (authorityFlags g step.1.vout) .authority ∧
    message = newGroupMessage step.1 (authorityFlags g step.1.vout)}

variable {steps : List (CTransaction × ℕ)} {g : CGroupTokenID} {H : HashFns} {out : CTxOut}
  {step : CTransaction × ℕ} {flags f₁ f₂ : GroupAuthorityFlags} {view view' : CCoinsViewCache}

lemma CreatedWith.mono (h : CreatedWith H steps g flags)
    (more : List (CTransaction × ℕ)) : CreatedWith H (steps ++ more) g flags := by
  obtain ⟨step, hstep, h⟩ := h
  exact ⟨step, mem_append_left _ hstep, h⟩

lemma authorityFlags_eq_of_filter {outs : List CTxOut}
    (h : (outs.filter fun out => groupOf out = g) = [out]) :
    authorityFlags g outs = (tokenInfo out).controllingGroupFlags := by
  have hfilter : ∀ l : List CTxOut,
      authorityFlags g l = authorityFlags g (l.filter fun out => groupOf out = g) := by
    intro l
    induction l with
    | nil => rfl
    | cons a l ih =>
      have hcons : authorityFlags g (a :: l) = flagsOf g a ||| authorityFlags g l := rfl
      by_cases ha : groupOf a = g
      · rw [filter_cons_of_pos (by simpa using ha), hcons, ih]
        rfl
      · rw [filter_cons_of_neg (by simpa using ha), hcons, flagsOf_of_ne ha, ih,
          BitVec.zero_or]
  have hout : groupOf out = g := by
    have hmem : out ∈ outs.filter fun out => groupOf out = g := by rw [h]; simp
    simpa using (mem_filter.mp hmem).2
  rw [hfilter outs, h]
  simp [authorityFlags, flagsOf, hout]

lemma flags_eq_of_newGroupMessage_eq {tx₁ tx₂ : CTransaction}
    (h : newGroupMessage tx₁ f₁ = newGroupMessage tx₂ f₂) : f₁ = f₂ := by
  have hbytes := (append_inj' h (by simp)).2
  have hlt : ∀ f : GroupAuthorityFlags, f.toNat < 256 ^ 8 := fun f => f.isLt
  exact BitVec.eq_of_toNat_eq (leBytes_injOn 8 (hlt f₁) (hlt f₂) hbytes)

lemma CreatedWith.unique (hinj : Set.InjOn H.hash256 (creationMessages steps))
    (h₁ : CreatedWith H steps g f₁) (h₂ : CreatedWith H steps g f₂) : f₁ = f₂ := by
  obtain ⟨s₁, hs₁, out₁, hout₁, hf₁, hauth₁, hid₁⟩ := h₁
  obtain ⟨s₂, hs₂, out₂, hout₂, hf₂, hauth₂, hid₂⟩ := h₂
  have hflags₁ := (authorityFlags_eq_of_filter hout₁).trans hf₁
  have hflags₂ := (authorityFlags_eq_of_filter hout₂).trans hf₂
  refine flags_eq_of_newGroupMessage_eq (hinj ⟨s₁, hs₁, g, ?_, ?_⟩ ⟨s₂, hs₂, g, ?_, ?_⟩
    (Uint256.ext (hid₁.trans hid₂.symm)))
  · rw [hflags₁]
    exact hauth₁
  · rw [hflags₁]
  · rw [hflags₂]
    exact hauth₂
  · rw [hflags₂]

/-- Every active flag is a flag with which the group, or its parent, was created, and
no flag of a subgroup is the subgroup permission. -/
def Traced (H : HashFns) (steps : List (CTransaction × ℕ)) (g : CGroupTokenID)
    (flags : GroupAuthorityFlags) : Prop :=
  ∀ i, (flags &&& GroupAuthorityFlags.activeFlagBits).getLsbD i = true →
    ∃ f, CreatedWith H steps (parentGroup g) f ∧ f.getLsbD i = true ∧
      (isSubgroup g = true → i ≠ 58)

/-- The authorities of all coins that the view holds are traced. -/
def AllTraced (H : HashFns) (steps : List (CTransaction × ℕ)) (view : CCoinsViewCache) : Prop :=
  ∀ o coin, view.Holds o coin → groupOf coin.out ≠ noGroup →
    Traced H steps (groupOf coin.out) (tokenInfo coin.out).controllingGroupFlags

lemma Traced.mono (h : Traced H steps g flags)
    (more : List (CTransaction × ℕ)) : Traced H (steps ++ more) g flags := by
  intro i hi
  obtain ⟨f, hf, hbit⟩ := h i hi
  exact ⟨f, hf.mono more, hbit⟩

lemma parentGroup_parentGroup (g : CGroupTokenID) :
    parentGroup (parentGroup g) = parentGroup g := by
  simp [parentGroup]

lemma parentGroup_of_length (h : g.length = parentGroupIdSize) :
    parentGroup g = g := by
  rw [parentGroup, ← h, take_length]

lemma createdWith_of_creates {ins : List CTxOut} (hauth : Authorized H step.1 ins g)
    (hcreates : Creates H step.1 ins g) (steps : List (CTransaction × ℕ)) :
    CreatedWith H (steps ++ [step]) g (authorityFlags g step.1.vout) := by
  have hcount := (hauth.create hcreates).1
  rw [outputCount, countP_eq_length_filter] at hcount
  obtain ⟨out, hout⟩ := length_eq_one_iff.mp hcount
  exact ⟨step, by simp, out, hout, (authorityFlags_eq_of_filter hout).symm, hcreates.1,
    hcreates.2.2⟩

lemma traced_of_mem_vout {m : GroupBalanceMap} (h : checkGroupTokens H step.1 view.getCoin = .ok m)
    (hview : AllTraced H steps view) (hout : out ∈ step.1.vout) (hg : groupOf out ≠ noGroup) :
    Traced H (steps ++ [step]) (groupOf out) (tokenInfo out).controllingGroupFlags := by
  have hauth := checkGroupTokens_authorized h hg
  have hwithin : FlagSet.Within (tokenInfo out).controllingGroupFlags
      (authorityFlags (groupOf out) step.1.vout) := by
    have hself : flagsOf (groupOf out) out = (tokenInfo out).controllingGroupFlags := if_pos rfl
    rw [← hself, FlagSet.within_iff]
    exact fun i hi => (FlagSet.getLsbD_union _ i).mpr ⟨_, mem_map_of_mem hout, hi⟩
  have hold : ∀ prev ∈ spentOutputs view.getCoin step.1.vin, groupOf prev ≠ noGroup →
      Traced H (steps ++ [step]) (groupOf prev) (tokenInfo prev).controllingGroupFlags := by
    intro prev hprev hgroup
    obtain ⟨o, coin, hholds, rfl⟩ := holds_of_mem_spentOutputs h hprev
    exact (hview o coin hholds hgroup).mono [step]
  intro i hi
  rw [BitVec.getLsbD_and, Bool.and_eq_true] at hi
  have hbit := FlagSet.within_iff.mp hwithin i hi.1
  by_cases hcreates : Creates H step.1 (spentOutputs view.getCoin step.1.vin) (groupOf out)
  · have hlen : (groupOf out).length = parentGroupIdSize := by
      rw [← hcreates.2.2]
      exact (H.hash256 _).size_eq
    refine ⟨_, ?_, hbit, fun hsub => ?_⟩
    · rw [parentGroup_of_length hlen]
      exact createdWith_of_creates hauth hcreates steps
    · simp [isSubgroup, hlen] at hsub
  · have hallowed := FlagSet.within_iff.mp (hauth.perms hcreates) i
      (by rw [BitVec.getLsbD_and, hbit, hi.2]; rfl)
    rw [BitVec.getLsbD_and, Bool.and_eq_true, allowedPerms, BitVec.getLsbD_or,
      Bool.or_eq_true] at hallowed
    rcases hallowed.1 with hbaton | hparent
    · obtain ⟨prev, hprev, hgroup, hflag⟩ := exists_of_union_flags _ hbaton
      have htraced := hold prev hprev (by rwa [hgroup])
      rw [hgroup] at htraced
      exact htraced i (by rw [BitVec.getLsbD_and, hflag, hi.2]; rfl)
    · split_ifs at hparent with hsub
      · rw [BitVec.getLsbD_and, Bool.and_eq_true] at hparent
        obtain ⟨prev, hprev, hgroup, hflag⟩ := exists_of_union_flags _ hparent.1
        have htraced := hold prev hprev (by
          rw [hgroup]
          exact ne_noGroup_of_length (length_parentGroup hsub))
        rw [hgroup] at htraced
        obtain ⟨f, hf, hfbit, -⟩ := htraced i (by rw [BitVec.getLsbD_and, hflag, hi.2]; rfl)
        rw [parentGroup_parentGroup] at hf
        exact ⟨f, hf, hfbit, fun _ => by rintro rfl; exact absurd hparent.2 (by decide)⟩
      · simp at hparent

lemma AllTraced.acceptTx (hc : view.Coherent) (hview : AllTraced H steps view)
    (h : acceptTx H view step = .ok view') : AllTraced H (steps ++ [step]) view' := by
  obtain ⟨hcheck, -, hheld⟩ := acceptTx_holds hc h
  intro o coin hholds hg
  rcases hheld o coin hholds with hold | hnew
  · exact (hview o coin hold hg).mono [step]
  · rcases checkTokens_cases hcheck with hnone | ⟨-, m, hm⟩
    · exact absurd (hnone _ hnew) hg
    · exact traced_of_mem_vout hm hview hnew hg

/-- The unspent outputs of a view, in any number and order. -/
def AreUnspent (view : CCoinsViewCache) (utxos : List CTxOut) : Prop :=
  ∀ out ∈ utxos, ∃ o coin, view.Unspent o coin ∧ coin.out = out

section Unspent
variable {H : HashFns} {steps : List (CTransaction × ℕ)} {view : CCoinsViewCache}
  {g : CGroupTokenID} {flags : GroupAuthorityFlags} {utxos : List CTxOut}

variable {out : CTxOut}

variable (hview : AllTraced H steps view)
include hview

variable (hutxos : AreUnspent view utxos) {i : ℕ}
include hutxos

lemma AllTraced.utxo (hout : out ∈ utxos) (hg : groupOf out ≠ noGroup) :
    Traced H steps (groupOf out) (tokenInfo out).controllingGroupFlags := by
  obtain ⟨o, coin, hunspent, rfl⟩ := hutxos out hout
  exact hview o coin hunspent.holds hg

/-- An active flag of an unspent authority is a flag of the creation. -/
lemma AllTraced.flag_of_utxo (hinj : Set.InjOn H.hash256 (creationMessages steps))
    (hcreated : CreatedWith H steps g flags) {s : CGroupTokenID} (hs : s ≠ noGroup)
    (hparent : parentGroup s = g)
    (hi : (authorityFlags s utxos &&& GroupAuthorityFlags.activeFlagBits).getLsbD i = true) :
    flags.getLsbD i = true ∧ (isSubgroup s = true → i ≠ 58) := by
  rw [BitVec.getLsbD_and, Bool.and_eq_true] at hi
  obtain ⟨out, hout, rfl, hbit⟩ := exists_of_authorityFlags_bit hi.1
  obtain ⟨f, hf, hfbit, hsub⟩ := hview.utxo hutxos hout hs i
    (by rw [BitVec.getLsbD_and, hbit, hi.2]; rfl)
  rw [hparent] at hf
  rw [hcreated.unique hinj hf]
  exact ⟨hfbit, hsub⟩

end Unspent

/-- The active flags of all unspent authorities of a group are flags with which the group
was created, those of its subgroups are so without the subgroup permission, and a group
that was not created has no authorities. -/
theorem authorities_within_creation {H : HashFns} {view view' : CCoinsViewCache}
    {steps : List (CTransaction × ℕ)} (hstart : view.Valid)
    (hempty : ∀ o coin, view.Unspent o coin → groupOf coin.out = noGroup)
    (hrun : acceptTxs H view steps = .ok view')
    (hinj : Set.InjOn H.hash256 (creationMessages steps)) {g : CGroupTokenID}
    (hg : g.length = parentGroupIdSize) {utxos : List CTxOut} (hutxos : AreUnspent view' utxos) :
    (∀ flags, CreatedWith H steps g flags →
      FlagSet.Within (authorityFlags g utxos &&& GroupAuthorityFlags.activeFlagBits) flags ∧
      (∀ s, isSubgroup s = true → parentGroup s = g →
        FlagSet.Within (authorityFlags s utxos &&& GroupAuthorityFlags.activeFlagBits)
          (flags &&& ~~~GroupAuthorityFlags.subgroup)) ∧
      (hasCapability flags .mint = false →
        ∀ out ∈ utxos, parentGroup (groupOf out) = g →
          hasCapability (tokenInfo out).controllingGroupFlags GroupAuthorityFlags.mint = false)) ∧
    ((∀ flags, ¬ CreatedWith H steps g flags) →
      ∀ out ∈ utxos, parentGroup (groupOf out) = g → isAuthorityOut out = false) := by
  obtain ⟨-, htraced⟩ := foldlM_invariant (fun done v => v.Coherent ∧ AllTraced H done v)
    (fun done step v v' _ hv hstep =>
      ⟨(acceptTx_holds hv.1 hstep).2.1, hv.2.acceptTx hv.1 hstep⟩)
    hrun ⟨hstart.coherent, fun o coin hholds hg =>
      absurd (hempty o coin (hstart.unspent_of_holds hholds)) hg⟩
  have hself : parentGroup g = g := parentGroup_of_length hg
  have hgrouped : ∀ s, parentGroup s = g → s ≠ noGroup := by
    rintro s hs rfl
    rw [← hs] at hg
    cases hg
  constructor
  · intro flags hcreated
    refine ⟨?_, fun s hsub hparent => ?_, fun hmint out hout hparent => ?_⟩
    · rw [FlagSet.within_iff]
      intro i hi
      exact (htraced.flag_of_utxo hutxos hinj hcreated (hgrouped g hself) hself hi).1
    · rw [FlagSet.within_iff]
      intro i hi
      obtain ⟨hflag, hne⟩ :=
        htraced.flag_of_utxo hutxos hinj hcreated (hgrouped s hparent) hparent hi
      have hlt : i < 64 := BitVec.lt_of_getLsbD hflag
      have hbit : GroupAuthorityFlags.subgroup = BitVec.twoPow 64 58 := by decide
      simp [hflag, hbit, hlt, hne hsub]
    · have hmask : GroupAuthorityFlags.mint = BitVec.twoPow 64 62 := by decide
      rw [hmask, hasCapability_twoPow _ 62 (by decide)] at hmint ⊢
      by_contra hcap
      have hbit : (authorityFlags (groupOf out) utxos).getLsbD 62 = true :=
        (FlagSet.getLsbD_union _ 62).mpr ⟨_, mem_map_of_mem hout, by simpa [flagsOf] using hcap⟩
      have hflag := htraced.flag_of_utxo hutxos hinj hcreated (hgrouped _ hparent) hparent
        (by rw [BitVec.getLsbD_and, hbit]; rfl)
      rw [hmint] at hflag
      cases hflag.1
  · intro hnone out hout hparent
    by_contra hauth
    have hbit : (tokenInfo out).controllingGroupFlags.getLsbD 63 = true := by
      have hflags := eq_of_beq (not_not.mp fun h => hauth (Bool.eq_false_iff.mpr h))
      have htop := congrArg (fun v => v.getLsbD 63) hflags
      simpa [GroupAuthorityFlags.authority] using htop
    obtain ⟨f, hf, -⟩ := htraced.utxo hutxos hout (hgrouped _ hparent) 63
      (by rw [BitVec.getLsbD_and, hbit]; rfl)
    rw [hparent] at hf
    exact hnone f hf

/-- The id of the group that `createTx` creates. -/
def createdGroup : CGroupTokenID := leBytes 32 40

/-- An output of a group with the given flags, written as a quantity. -/
def authorityOut (g : CGroupTokenID) (flags : GroupAuthorityFlags) : CTxOut :=
  ⟨1, 546, 0x20 :: g ++ 8 :: leBytes 8 flags.toNat ++ [Script.op1, Script.op0]⟩

def mintFlags : GroupAuthorityFlags :=
  GroupAuthorityFlags.authority ||| GroupAuthorityFlags.mint ||| GroupAuthorityFlags.baton

/-- A transaction that creates a group with an authority to mint. -/
def createTx : CTransaction where
  nVersion := 0
  vin := [⟨0, ⟨Uint256.null⟩, [], 0xffffffff, 546⟩]
  vout := [authorityOut createdGroup mintFlags]
  nLockTime := 0

/-- A view whose every outpoint has a coin without a group. -/
def plainView : CCoinsViewCache :=
  ⟨Cache.above fun _ => some ⟨⟨0, 546, [Script.op1]⟩, false, 1⟩, Uint256.null, Uint256.null⟩

lemma creationMessages_createTx :
    Set.InjOn lengthHash.hash256 (creationMessages [(createTx, 2)]) := by
  have hauth : GroupAuthorityFlags.authority = BitVec.twoPow 64 63 := by decide
  have honly : ∀ message ∈ creationMessages [(createTx, 2)],
      message = newGroupMessage createTx (authorityFlags createdGroup createTx.vout) := by
    rintro message ⟨step, hstep, g, hcap, rfl⟩
    obtain rfl : step = (createTx, 2) := by simpa using hstep
    rw [hauth, hasCapability_twoPow _ 63 (by decide)] at hcap
    obtain ⟨out, hout, rfl, -⟩ := exists_of_authorityFlags_bit hcap
    obtain rfl : out = authorityOut createdGroup mintFlags := by simpa [createTx] using hout
    have hgroup : groupOf (authorityOut createdGroup mintFlags) = createdGroup := by decide +kernel
    rw [hgroup]
  intro a ha b hb _
  rw [honly a ha, honly b hb]

theorem authorities_within_creation_createTx :
    CreatedWith lengthHash [(createTx, 2)] createdGroup mintFlags ∧
      ∃ view', acceptTxs lengthHash plainView [(createTx, 2)] = .ok view' ∧
        AreUnspent view' [authorityOut createdGroup mintFlags] ∧
        FlagSet.Within (authorityFlags createdGroup [authorityOut createdGroup mintFlags] &&&
          GroupAuthorityFlags.activeFlagBits) mintFlags := by
  have hcreated : CreatedWith lengthHash [(createTx, 2)] createdGroup mintFlags :=
    ⟨(createTx, 2), by simp, authorityOut createdGroup mintFlags, by decide +kernel,
      by decide +kernel, by decide, by decide +kernel⟩
  have hcoin : ((acceptTxs lengthHash plainView [(createTx, 2)]).toOption.bind
      fun v => v.getCoin (outpointAt lengthHash createTx 0)) =
      some (coinOf createTx 2 (authorityOut createdGroup mintFlags)) := by
    decide +kernel
  match hrun : acceptTxs lengthHash plainView [(createTx, 2)] with
  | .error e =>
    rw [hrun] at hcoin
    cases hcoin
  | .ok view' =>
    rw [hrun] at hcoin
    have hutxos : AreUnspent view' [authorityOut createdGroup mintFlags] := by
      intro out hout
      obtain rfl : out = authorityOut createdGroup mintFlags := by simpa using hout
      exact ⟨_, _, ⟨by decide, hcoin⟩, rfl⟩
    refine ⟨hcreated, view', rfl, hutxos, ?_⟩
    refine ((authorities_within_creation (CCoinsViewCache.valid_above _ _ _) ?_ hrun
      creationMessages_createTx
      (by decide) hutxos).1 mintFlags hcreated).1
    rintro o coin ⟨-, hcoin⟩
    cases hcoin
    decide

end PyrrhaNode.GroupAuthority
