import PyrrhaNode.GroupRuns

/-!
# Covenants stick

The outputs of a covenanted group have the template of the first input of the group
that is no authority, unless the inputs grant the permission to change it. When all
such inputs have one template, so have all outputs, over whole sequences of
transactions.
-/
namespace PyrrhaNode.GroupCovenant
open Serialize Transaction ScriptAttributes Coins
open GroupTokens GroupAccounting GroupAcceptance
open GroupRuns Loop WriteBackCache

/-- The script of the output is a template with the given hash. -/
def HasTemplate (templateHash : Bytes) (out : CTxOut) : Prop :=
  ∃ groupInfo argsHash pc,
    getScriptTemplate out.scriptType out.scriptPubKey = .ok groupInfo templateHash argsHash pc

lemma getScriptTemplate_cases (script : CScript) :
    getScriptTemplate .template script = .invalid ∨
      ∃ groupInfo templateHash argsHash pc, templateHashOk templateHash = true ∧
        getScriptTemplate .template script = .ok groupInfo templateHash argsHash pc := by
  unfold getScriptTemplate
  dsimp only
  split
  · exact .inl rfl
  split
  · exact .inl rfl
  split_ifs with hpush hhash
  · exact .inl rfl
  · exact .inl rfl
  · split
    · exact .inl rfl
    · split_ifs
      · exact .inl rfl
      · exact .inr ⟨_, _, _, _, by simpa using hhash, rfl⟩

variable {out : CTxOut} {templateHash : Bytes} {g : CGroupTokenID} {ins : List CTxOut}

section

variable (h : HasTemplate templateHash out)
include h

lemma HasTemplate.contractId : outputContractId out = templateHash := by
  obtain ⟨groupInfo, argsHash, pc, h⟩ := h
  rw [outputContractId, h]
  rfl

lemma HasTemplate.scriptType : out.scriptType = .template := by
  obtain ⟨groupInfo, argsHash, pc, h⟩ := h
  cases htype : out.scriptType with
  | template => rfl
  | satoscript | pushOnly =>
    rw [htype] at h
    cases h

lemma HasTemplate.ne_nil : templateHash ≠ [] := by
  have htype := h.scriptType
  obtain ⟨groupInfo, argsHash, pc, h⟩ := h
  rw [htype] at h
  rcases getScriptTemplate_cases out.scriptPubKey with hinvalid | ⟨_, _, _, _, hok, heq⟩
  · rw [hinvalid] at h
    cases h
  · rw [heq] at h
    cases h
    rintro rfl
    revert hok
    decide

end

lemma covenantOf_eq_nil
    (h : ∀ out ∈ ins, groupOf out = g → isAuthorityOut out = true) : covenantOf g ins = [] := by
  induction ins using List.reverseRecOn with
  | nil => rfl
  | append_singleton ins out ih =>
    rw [covenantOf_append, ih fun o ho => h o (by simp [ho])]
    split_ifs with hset
    · exact absurd (h out (by simp) hset.1) hset.2.1
    · rfl

lemma covenantOf_eq (hflag : hasFlag g covenantFlag = true)
    (hall : ∀ out ∈ ins, groupOf out = g → isAuthorityOut out = false →
      HasTemplate templateHash out)
    (hex : ∃ out ∈ ins, groupOf out = g ∧ isAuthorityOut out = false) :
    covenantOf g ins = templateHash := by
  induction ins using List.reverseRecOn with
  | nil => simp at hex
  | append_singleton ins out ih =>
    have hprev : ∀ o ∈ ins, groupOf o = g → isAuthorityOut o = false →
        HasTemplate templateHash o := fun o ho => hall o (by simp [ho])
    rw [covenantOf_append]
    by_cases hex' : ∃ o ∈ ins, groupOf o = g ∧ isAuthorityOut o = false
    · obtain ⟨o, ho, hgroup, hauth⟩ := hex'
      rw [ih hprev ⟨o, ho, hgroup, hauth⟩]
      have hne := (hprev o ho hgroup hauth).ne_nil
      simp [hne]
    · obtain ⟨o, ho, hgroup, hauth⟩ := hex
      have hlast : o = out := by
        rcases List.mem_append.mp ho with ho | ho
        · exact absurd ⟨o, ho, hgroup, hauth⟩ hex'
        · simpa using ho
      subst hlast
      have hnil : covenantOf g ins = [] := covenantOf_eq_nil fun x hx hxg => by
        by_contra hxa
        exact hex' ⟨x, hx, hxg, Bool.eq_false_iff.mpr hxa⟩
      rw [hnil, if_pos ⟨hgroup, by simp [hauth], hflag, rfl⟩]
      exact (hall o (by simp) hgroup hauth).contractId

/-- No transaction creates the group. -/
def NeverCreated (H : HashFns) (steps : List (CTransaction × ℕ)) (g : CGroupTokenID) : Prop :=
  ∀ step ∈ steps, step.1.isCoinBase = false →
    newGroupId H step.1 (authorityFlags g step.1.vout) ≠ g

/-- No transaction spends authorities that grant the permission to change the covenant. -/
def NeverRescripted (H : HashFns) (view : CCoinsViewCache) (steps : List (CTransaction × ℕ))
    (g : CGroupTokenID) : Prop :=
  ∀ done step rest v, steps = done ++ step :: rest → acceptTxs H view done = .ok v →
    ¬ Grants .rescript g (spentOutputs v.getCoin step.1.vin)

/-- All coins of the group that are no authorities have the template. -/
def Covenanted (g : CGroupTokenID) (templateHash : Bytes) (view : CCoinsViewCache) : Prop :=
  ∀ o coin, view.Holds o coin → groupOf coin.out = g → isAuthorityOut coin.out = false →
    HasTemplate templateHash coin.out

section Run
variable {H : HashFns} {view v : CCoinsViewCache} {steps : List (CTransaction × ℕ)}
  {g : CGroupTokenID} {templateHash : Bytes}

/-- An accepted transaction on covenanted coins: every output of the group has the
template and some input of the group is no authority. -/
lemma Covenanted.acceptTx_vout {v' : CCoinsViewCache} {step : CTransaction × ℕ}
    (hflag : hasFlag g covenantFlag = true)
    (hnew : step.1.isCoinBase = false → newGroupId H step.1 (authorityFlags g step.1.vout) ≠ g)
    (hkeep : ¬ Grants .rescript g (spentOutputs v.getCoin step.1.vin)) (hcoh : v.Coherent)
    (hv : Covenanted g templateHash v) (hstep : acceptTx H v step = .ok v')
    (hout : out ∈ step.1.vout) (hgroup : groupOf out = g) :
    HasTemplate templateHash out ∧ ∃ prev ∈ spentOutputs v.getCoin step.1.vin,
      groupOf prev = g ∧ isAuthorityOut prev = false := by
  rcases checkTokens_cases (acceptTx_holds hcoh hstep).1 with hnone | ⟨hcb, m, hm⟩
  · rw [← hgroup, hnone out hout] at hflag
    cases hflag
  have hg : groupOf out ≠ noGroup := by
    rw [hgroup]
    rintro rfl
    cases hflag
  have hown : HasTemplate (outputContractId out) out := by
    have htype := (tokenInfo_of_group hg).2.1
    have hvalid := checkGroupTokens_templates hm hout
    rw [htype] at hvalid
    rcases getScriptTemplate_cases out.scriptPubKey with hinvalid | ⟨_, _, _, _, -, heq⟩
    · exact absurd hinvalid hvalid
    · rw [HasTemplate, outputContractId, htype, heq]
      exact ⟨_, _, _, rfl⟩
  have hrescript : GroupAuthorityFlags.rescript = BitVec.twoPow 64 59 := by decide
  have hcov : outputContractId out = covenantOf g (spentOutputs v.getCoin step.1.vin) := by
    refine (checkGroupTokens_authorized hm (hgroup ▸ hg)).covenant (fun hc => hnew hcb hc.2.2)
      hflag ?_ out hout hgroup
    by_contra hperm
    exact hkeep (grants_of_inputPerms (by decide)
      (not_not.mp fun h => hperm (Bool.eq_false_iff.mpr h)))
  by_cases hex : ∃ prev ∈ spentOutputs v.getCoin step.1.vin,
      groupOf prev = g ∧ isAuthorityOut prev = false
  · rw [hcov, covenantOf_eq hflag (fun prev hprev hprevg hauth => ?_) hex] at hown
    · exact ⟨hown, hex⟩
    · obtain ⟨o, coin, hholds, rfl⟩ := holds_of_mem_spentOutputs hm hprev
      exact hv o coin hholds hprevg hauth
  · have hnil : covenantOf g (spentOutputs v.getCoin step.1.vin) = [] :=
      covenantOf_eq_nil fun x hx hxg => by
        by_contra hxa
        exact hex ⟨x, hx, hxg, Bool.eq_false_iff.mpr hxa⟩
    exact absurd (hcov.trans hnil) hown.ne_nil

end Run

/-- Over a sequence that neither creates a covenanted group nor grants the permission to
change its covenant, all outputs of the group have the template of the coins at the
start, and a transaction makes them only from an input of the group that is no
authority. -/
theorem covenant_sticks {H : HashFns} {view view' : CCoinsViewCache}
    {steps : List (CTransaction × ℕ)} {g : CGroupTokenID} {templateHash : Bytes}
    (hstart : view.Valid) (hflag : hasFlag g covenantFlag = true)
    (htemplate : ∀ o coin, view.Unspent o coin → groupOf coin.out = g →
      isAuthorityOut coin.out = false → HasTemplate templateHash coin.out)
    (hrun : acceptTxs H view steps = .ok view') (hnew : NeverCreated H steps g)
    (hkeep : NeverRescripted H view steps g) :
    (∀ step ∈ steps, ∀ out ∈ step.1.vout, groupOf out = g → HasTemplate templateHash out) ∧
    (∀ done step rest v, steps = done ++ step :: rest → acceptTxs H view done = .ok v →
      (∀ prev ∈ spentOutputs v.getCoin step.1.vin, groupOf prev = g →
        isAuthorityOut prev = true) →
      ∀ out ∈ step.1.vout, groupOf out ≠ g) := by
  have hview : Covenanted g templateHash view := fun o coin hholds =>
    htemplate o coin (hstart.unspent_of_holds hholds)
  have hstep : ∀ done step rest v, steps = done ++ step :: rest → acceptTxs H view done = .ok v →
      ∀ out ∈ step.1.vout, groupOf out = g → HasTemplate templateHash out ∧
        ∃ prev ∈ spentOutputs v.getCoin step.1.vin,
          groupOf prev = g ∧ isAuthorityOut prev = false := by
    intro done step rest v hsplit hv out hout hgroup
    obtain ⟨hvcoh, hvcov⟩ : v.Coherent ∧ Covenanted g templateHash v := by
      refine foldlM_reaches (fun _ v => v.Coherent ∧ Covenanted g templateHash v)
        ⟨hstart.coherent, hview⟩ ?_ done _ v hsplit hv
      rintro done step rest v v' hsplit hv ⟨hvcoh, hvcov⟩ hstep
      obtain ⟨-, hcoh', hheld⟩ := acceptTx_holds hvcoh hstep
      refine ⟨hcoh', fun o coin hholds hgroup hauth => ?_⟩
      rcases hheld o coin hholds with hold | hout
      · exact hvcov o coin hold hgroup hauth
      · exact (hvcov.acceptTx_vout hflag (hnew step (by simp [hsplit]))
          (hkeep done step rest v hsplit hv) hvcoh hstep hout hgroup).1
    rw [hsplit] at hrun
    obtain ⟨t, ht, hrest⟩ := foldlM_append_eq_ok.mp hrun
    obtain ⟨t', ht', -⟩ := foldlM_cons_eq_ok.mp hrest
    cases ht.symm.trans hv
    exact hvcov.acceptTx_vout hflag (hnew step (by simp [hsplit]))
      (hkeep done step rest v hsplit hv) hvcoh ht' hout hgroup
  constructor
  · intro step hmem out hout hgroup
    obtain ⟨done, rest, hsplit⟩ := List.append_of_mem hmem
    have hfull := hrun
    rw [hsplit] at hfull
    obtain ⟨v, hv, -⟩ := foldlM_append_eq_ok.mp hfull
    exact (hstep done step rest v hsplit hv out hout hgroup).1
  · intro done step rest v hsplit hv hauth out hout hgroup
    obtain ⟨-, prev, hprev, hprevg, hno⟩ := hstep done step rest v hsplit hv out hout hgroup
    rw [hauth prev hprev hprevg] at hno
    cases hno

/-- A group id with the covenant flag alone. -/
def covenantGroup : CGroupTokenID := List.replicate 31 4 ++ [5]

/-- A view whose every outpoint has a coin of the covenanted group. -/
def covenantView : CCoinsViewCache :=
  ⟨Cache.above fun _ => some ⟨tokenOut covenantGroup 5, false, 1⟩, Uint256.null, Uint256.null⟩

theorem covenant_sticks_splitTx :
    (acceptTxs lengthHash covenantView [(splitTx covenantGroup 2 3, 2)]).isOk = true ∧
      ∀ out ∈ (splitTx covenantGroup 2 3).vout, groupOf out = covenantGroup →
        HasTemplate [1] out := by
  have hok : (acceptTxs lengthHash covenantView [(splitTx covenantGroup 2 3, 2)]).isOk = true := by
    decide +kernel
  have hgrant : ¬ Grants .rescript covenantGroup
      (spentOutputs covenantView.getCoin (splitTx covenantGroup 2 3).vin) := by
    decide +kernel
  obtain ⟨view', hrun⟩ := exists_eq_ok.mp hok
  refine ⟨hok, (covenant_sticks (CCoinsViewCache.valid_above _ _ _) (by decide) ?_ hrun ?_ ?_).1
    (splitTx covenantGroup 2 3, 2) (by simp)⟩
  · rintro o coin ⟨-, hcoin⟩ _ _
    cases hcoin
    exact ⟨_, _, _, rfl⟩
  · intro step hstep _
    obtain rfl : step = (splitTx covenantGroup 2 3, 2) := by simpa using hstep
    decide +kernel
  · rintro done step rest v hsplit hv
    match done with
    | [] =>
      cases hsplit
      cases hv
      exact hgrant
    | _ :: done => simp at hsplit

end PyrrhaNode.GroupCovenant
