import PyrrhaNode.ChainState

/-!
# Accurate totals

The totals of the clean entries are exact. To keep them so, the calls rely on two more
facts that also hold of dirty entries: the totals of an entry with one parent follow those
of the parent, and a dirty entry is a listed chain tip or has a dirty parent.
-/
namespace PyrrhaNode.MemPool.CTxMemPool
open Function Finset Ancestry

variable {Id Out : Type} {p : CTxMemPool Id Out} {s : Finset Id} {a b it k : Id}

lemma Indexed.mem_ids_of_isDirty (h : Indexed p) (ha : p.isDirty a = true) :
    a ∈ p.ids := by
  rw [h.mem_ids]
  cases he : p.mapTx a with
  | none => simp [isDirty, he] at ha
  | some e => rfl

lemma wellFormed_empty : WellFormed (empty : CTxMemPool Id Out) where
  mem_ids a := by simp [empty]
  id_eq a e he := by simp [empty] at he
  byIdem k a := by simp [empty]
  outpoint o a := by simp [empty, vout]
  nextTx o a ho := by simp [empty] at ho
  parent a b := by simp [empty, vin]
  child a b := by simp [empty]
  ranked := ⟨fun _ => 0, fun a b hb => by simp [empty] at hb⟩

lemma WellFormed.notMem_of_reach (h : WellFormed p) (hs : p.DescendantClosed s) (ha : a ∉ s)
    (hab : Reach p.parents a b) : b ∉ s := by
  induction hab with
  | refl => exact ha
  | tail _ hc ih => exact fun hcs => ih (hs _ hcs ((h.child _ _).mpr hc))

variable [DecidableEq Out]

/-- What `check` asserts of every entry that is not dirty. -/
def Exact (p : CTxMemPool Id Out) : Prop :=
  ∀ a ∈ p.ids, p.isDirty a = false → p.withAncestors a = p.total a

/-- The invariant of all calls. -/
structure Accurate (p : CTxMemPool Id Out) : Prop extends WellFormed p where
  exact : p.Exact
  single : ∀ a q, p.parents a = {q} → p.withAncestors a = p.own a + p.withAncestors q
  dirty : ∀ a, p.isDirty a = true →
    a ∈ p.setDirtyTxnChainTips ∨ ∃ q ∈ p.parents a, p.isDirty q = true

lemma WellFormed.total_of_parents_eq_singleton (h : WellFormed p) {q : Id}
    (hq : p.parents a = {q}) : p.total a = p.own a + p.total q := by
  obtain ⟨rank, hrank⟩ := h.ranked
  have ha := (h.mem_ids_of_parent (by rw [hq]; exact mem_singleton_self q)).1
  rw [h.total_eq, h.total_eq, sum_reached_of_next_eq_singleton hrank ha hq]

lemma WellFormed.accurate_of_clean (h : WellFormed p)
    (hclean : ∀ a ∈ p.ids, p.isDirty a = false ∧ p.withAncestors a = p.total a) :
    p.Accurate where
  toWellFormed := h
  exact a ha _ := (hclean a ha).2
  single a q hq := by
    obtain ⟨ha, hqids⟩ :=
      h.mem_ids_of_parent (by rw [hq]; exact mem_singleton_self q)
    rw [(hclean a ha).2, (hclean q hqids).2]
    exact h.total_of_parents_eq_singleton hq
  dirty a ha := by
    rw [(hclean a (h.mem_ids_of_isDirty ha)).1] at ha
    exact absurd ha Bool.false_ne_true

/-- No entry is dirty and all totals are exact. -/
structure Settled (p : CTxMemPool Id Out) : Prop extends WellFormed p where
  settled : ∀ a ∈ p.ids, p.isDirty a = false ∧ p.withAncestors a = p.total a

lemma accurate_empty : Accurate (empty : CTxMemPool Id Out) :=
  wellFormed_empty.accurate_of_clean fun a ha => by simp [empty] at ha

/-- Above every dirty entry there is a listed chain tip. -/
lemma Accurate.exists_dirtyTip (h : p.Accurate) (ha : p.isDirty a = true) :
    ∃ b ∈ p.setDirtyTxnChainTips, Reach p.parents a b := by
  obtain ⟨rank, hrank⟩ := h.ranked
  induction hr : rank a using Nat.strong_induction_on generalizing a with
  | _ n ih =>
    rcases h.dirty a ha with htip | ⟨q, hq, hdirty⟩
    · exact ⟨a, htip, Reach.refl _ _⟩
    · obtain ⟨b, hb, hreach⟩ := ih _ (hr ▸ hrank a q hq) hdirty rfl
      exact ⟨b, hb, hreach.of_mem hq⟩

/-- What a block needs of the pool: a dirty entry only has to be below a listed chain tip. -/
structure Recoverable (p : CTxMemPool Id Out) : Prop extends WellFormed p where
  exact : p.Exact
  single : ∀ a q, p.parents a = {q} → p.withAncestors a = p.own a + p.withAncestors q
  dirty : ∀ a, p.isDirty a = true → ∃ b ∈ p.setDirtyTxnChainTips, Reach p.parents a b

lemma Accurate.recoverable (h : p.Accurate) : p.Recoverable :=
  ⟨h.toWellFormed, h.exact, h.single, fun _ => h.exists_dirtyTip⟩

/-- The deltas of `PrioritiseTransaction` are no part of the totals. -/
lemma Accurate.setDeltas (h : p.Accurate) (deltas : Id → Option ℤ) :
    Accurate { p with mapDeltas := deltas } :=
  ⟨⟨⟨h.mem_ids, h.id_eq, h.byIdem, h.outpoint, h.nextTx⟩, h.parent, h.child, h.ranked⟩,
    h.exact, h.single, h.dirty⟩

variable [LinearOrder Id]

section Without
variable {s : Finset Id} {a : Id}

lemma own_without (ha : a ∉ s) : (p.without s).own a = p.own a := by
  simp [own, ha]

lemma withAncestors_without (ha : a ∉ s) :
    (p.without s).withAncestors a = p.withAncestors a := by
  simp [withAncestors, ha]

lemma isDirty_without (ha : a ∉ s) : (p.without s).isDirty a = p.isDirty a := by
  simp [isDirty, ha]

lemma WellFormed.total_without (h : WellFormed p)
    (ha : ∀ b, Reach p.parents a b → b ∉ s) : (p.without s).total a = p.total a := by
  have hparents : ∀ b, Reach p.parents a b → (p.without s).parents b = p.parents b := by
    intro b hb
    rw [parents_without, if_neg (ha b hb)]
    refine sdiff_eq_self_of_disjoint (disjoint_left.mpr fun q hq => ?_)
    exact ha q (hb.step hq)
  have hreached : reached (p.without s).parents (p.without s).ids a =
      reached p.parents p.ids a := by
    refine reached_congr fun b hb => ⟨hparents b hb, ?_⟩
    rw [ids_without, mem_sdiff]
    exact and_iff_left (ha b hb)
  rw [(h.without s).total_eq, h.total_eq, hreached]
  exact sum_congr rfl fun b hb => own_without (ha b (mem_reached.mp hb).2)

end Without

theorem Accurate.without (h : p.Accurate) (hs : p.DescendantClosed s) :
    (p.without s).Accurate := by
  have hparents : ∀ a, a ∉ s → (p.without s).parents a = p.parents a := by
    intro a ha
    rw [parents_without, if_neg ha]
    refine sdiff_eq_self_of_disjoint (disjoint_left.mpr fun q hq => ?_)
    exact h.notMem_of_reach hs ha ((Reach.refl _ _).step hq)
  refine ⟨h.toWellFormed.without s, ?_, ?_, ?_⟩
  · intro a ha hclean
    obtain ⟨haids, has⟩ := mem_sdiff.mp ha
    rw [isDirty_without has] at hclean
    rw [withAncestors_without has, h.exact a haids hclean,
      h.total_without fun b hb => h.notMem_of_reach hs has hb]
  · intro a q hq
    have has : a ∉ s := by
      intro has
      simp [has] at hq
    rw [hparents a has] at hq
    have hqs : q ∉ s :=
      h.notMem_of_reach hs has ((Reach.refl _ _).step (by simp [hq]))
    rw [withAncestors_without has, withAncestors_without hqs, own_without has]
    exact h.single a q hq
  · intro a hdirty
    have has : a ∉ s := by
      intro has
      simp [isDirty, has] at hdirty
    rw [isDirty_without has] at hdirty
    refine (h.dirty a hdirty).imp_right ?_
    rintro ⟨q, hq, hqdirty⟩
    have hqs : q ∉ s := h.notMem_of_reach hs has ((Reach.refl _ _).step hq)
    exact ⟨q, by rwa [hparents a has], by rwa [isDirty_without hqs]⟩

theorem Accurate.removeRecursive (h : p.Accurate) (tx : Tx Id Out) :
    (p.removeRecursive tx).Accurate := by
  obtain ⟨s, hs, heq⟩ := h.toWellFormed.removeRecursive_eq tx
  exact heq ▸ h.without hs

lemma Settled.without (h : p.Settled) (hs : p.DescendantClosed s) :
    (p.without s).Settled := by
  refine ⟨h.toWellFormed.without s, fun a ha => ?_⟩
  have has := (mem_sdiff.mp ha).2
  have hclean : (p.without s).isDirty a = false := by
    rw [isDirty_without has]
    exact (h.settled a (mem_sdiff.mp ha).1).1
  have haccurate := (h.toWellFormed.accurate_of_clean h.settled).without hs
  exact ⟨hclean, haccurate.exact a ha hclean⟩

theorem Settled.removeConflicts (h : p.Settled) (tx : Tx Id Out) : (p.removeConflicts tx).Settled :=
  removeConflicts_induction (fun _ h => h.toWellFormed) (fun _ _ h hs => h.without hs) h tx

open Classical in
/-- A change of what one entry adds, made in the totals of all its descendants. -/
lemma Accurate.of_shift (h : p.Accurate) {q : CTxMemPool Id Out} (hq : WellFormed q)
    (hit : it ∈ p.ids) {d : AncestorState} (hids : q.ids = p.ids) (hparents : q.parents = p.parents)
    (htips : q.setDirtyTxnChainTips = p.setDirtyTxnChainTips)
    (hdirty : ∀ a ∈ p.ids, q.isDirty a = p.isDirty a)
    (hown : ∀ a, q.own a = p.own a + if a = it then d else 0) (htotal : ∀ a ∈ p.ids,
      q.withAncestors a = p.withAncestors a + if Reach p.parents a it then d else 0) :
    q.Accurate := by
  have hexact : ∀ a, q.total a = p.total a + if Reach p.parents a it then d else 0 := by
    intro a
    rw [hq.total_eq, h.total_eq, hparents, hids, ← sum_reached_add_single hit]
    exact sum_congr rfl fun b _ => hown b
  refine ⟨hq, ?_, ?_, ?_⟩
  · intro a ha hclean
    rw [hids] at ha
    rw [hdirty a ha] at hclean
    rw [htotal a ha, hexact, h.exact a ha hclean]
  · intro a b hb
    rw [hparents] at hb
    have hba : b ∈ p.parents a := by simp [hb]
    obtain ⟨ha, hbids⟩ := h.mem_ids_of_parent hba
    rw [htotal a ha, htotal b hbids, hown, h.single a b hb]
    -- the entry itself shifts by its own change, every other one by that of its parent
    by_cases hait : a = it
    · subst hait
      have hnot : ¬ Reach p.parents b a := by
        obtain ⟨rank, hrank⟩ := h.ranked
        exact hrank.not_reach_of_mem hba
      rw [if_pos (Reach.refl _ _), if_neg hnot, if_pos rfl, add_zero, add_right_comm]
    · have hiff : Reach p.parents a it ↔ Reach p.parents b it := by
        constructor
        · intro hreach
          rcases hreach.cases_head with rfl | ⟨c, hc, hcit⟩
          · exact absurd rfl hait
          · rw [hb, mem_singleton] at hc
            exact hc ▸ hcit
        · exact fun hreach => hreach.of_mem hba
      rw [if_neg hait, if_congr hiff rfl rfl, add_zero, add_assoc]
  · intro a ha
    rw [hdirty a (hids ▸ hq.mem_ids_of_isDirty ha)] at ha
    rw [htips, hparents]
    refine (h.dirty a ha).imp_right ?_
    rintro ⟨b, hb, hbdirty⟩
    exact ⟨b, hb, by rwa [hdirty b (h.parents_subset a hb)]⟩

section FeeDelta
omit [DecidableEq Out]

lemma WellFormed.mem_ids_of_find (h : WellFormed p) (hit : p.find k = some it) :
    it ∈ p.ids := by
  rw [find] at hit
  split at hit
  · rename_i hk
    exact Option.some_inj.mp hit ▸ hk
  · obtain ⟨e, he, _⟩ := (h.byIdem k it).mp hit
    exact (h.mem_ids it).mpr (by simp [he])

lemma WellFormed.reach_childrenBut_empty (h : WellFormed p) :
    Reach (p.childrenBut ∅) a b ↔ Reach p.parents b a := by
  constructor
  · intro hab
    induction hab with
    | refl => exact Reach.refl _ _
    | tail _ hc ih => exact ih.of_mem (h.mem_childrenBut.mp hc).1
  · intro hba
    induction hba with
    | refl => exact Reach.refl _ _
    | tail _ hc ih => exact ih.of_mem (h.mem_childrenBut.mpr ⟨hc, by simp⟩)

variable (it : Id) (delta : ℤ)

lemma own_modify_updateFeeDelta (h : (p.mapTx it).isSome = true) (a : Id) :
    (p.modify it (·.updateFeeDelta delta)).own a =
      p.own a + if a = it then AncestorState.of 0 0 (delta - p.feeDelta it) 0 else 0 := by
  obtain ⟨e, he⟩ := Option.isSome_iff_exists.mp h
  by_cases ha : a = it
  · subst ha
    funext stat
    cases stat <;>
      simp [modify, own, feeDelta, he, CTxMemPoolEntry.own, CTxMemPoolEntry.updateFeeDelta,
        CTxMemPoolEntry.getModifiedFee, AncestorState.of]
  · simp [modify, own, ha]

lemma withAncestors_modify_updateFeeDelta (h : (p.mapTx it).isSome = true) (a : Id) :
    (p.modify it (·.updateFeeDelta delta)).withAncestors a =
      p.withAncestors a + if a = it then AncestorState.of 0 0 (delta - p.feeDelta it) 0 else 0 := by
  obtain ⟨e, he⟩ := Option.isSome_iff_exists.mp h
  by_cases ha : a = it
  · subst ha
    simp [modify, withAncestors, feeDelta, he, CTxMemPoolEntry.updateFeeDelta]
  · simp [modify, withAncestors, ha]

lemma isDirty_modify_updateFeeDelta (a : Id) :
    (p.modify it (·.updateFeeDelta delta)).isDirty a = p.isDirty a := by
  by_cases ha : a = it
  · subst ha
    cases he : p.mapTx a <;> simp [modify, isDirty, he, CTxMemPoolEntry.updateFeeDelta]
  · simp [modify, isDirty, ha]

lemma isSome_mapTx_modify (f : CTxMemPoolEntry Id Out → CTxMemPoolEntry Id Out) (a : Id) :
    ((p.modify it f).mapTx a).isSome = (p.mapTx a).isSome := by
  by_cases ha : a = it
  · subst ha
    simp [modify]
  · simp [modify, ha]

end FeeDelta

/-- The entry that is prioritised has the delta on record, and neither it nor a descendant
of it is dirty. -/
def PrioritisesCleanly (p : CTxMemPool Id Out) (h : Id) : Prop :=
  ∀ it, p.find h = some it →
    p.feeDelta it = (p.mapDeltas h).getD 0 ∧
      ∀ a ∈ p.ids, Reach p.spentParents a it → p.isDirty a = false

theorem Accurate.prioritiseTransaction (h : p.Accurate) {nFeeDelta : ℤ}
    (hk : p.PrioritisesCleanly k) : (p.prioritiseTransaction k nFeeDelta).Accurate := by
  rw [CTxMemPool.prioritiseTransaction]
  set delta := (p.mapDeltas k).getD 0 + nFeeDelta
  have hrec := h.setDeltas (update p.mapDeltas k (some delta))
  set r : CTxMemPool Id Out :=
    { p with mapDeltas := update p.mapDeltas k (some delta) }
  cases hfind : r.find k with
  | none => exact hrec
  | some it =>
    obtain ⟨hdelta, hclean⟩ := hk it hfind
    rw [← h.parents_eq] at hclean
    have hit : it ∈ p.ids := hrec.toWellFormed.mem_ids_of_find hfind
    have hsome : (r.mapTx it).isSome = true := (hrec.mem_ids it).mp hit
    have hsame : r.updateTxnChainState it = r := by
      rw [updateTxnChainState, if_neg]
      rw [Bool.not_eq_true]
      exact hclean it hit (Reach.refl _ _)
    have hd : delta - r.feeDelta it = nFeeDelta := by
      have hfee : r.feeDelta it = (p.mapDeltas k).getD 0 := hdelta
      omega
    simp only [hsame]
    rw [modifyAll_updateAncestorState]
    have hwf : WellFormed (r.modify it (·.updateFeeDelta delta)) := by
      refine hrec.toWellFormed.withEntries fun a => ?_
      by_cases ha : a = it
      · subst ha
        rw [update_self, Option.map_map]
        rfl
      · rw [update_of_ne ha]
    have hmem : ∀ a, a ∈ ((r.modify it (·.updateFeeDelta delta)).calculateDescendants it ∅
        ∅).erase it ↔ a ≠ it ∧ Reach p.parents a it := by
      intro a
      rw [mem_erase, hwf.mem_calculateDescendants_empty hit, hwf.reach_childrenBut_empty]
      rfl
    refine hrec.of_shift (hwf.setTotals _ _) hit (d := .of 0 0 nFeeDelta 0) rfl rfl rfl ?_ ?_ ?_
    · intro a ha
      have hasome := (isSome_mapTx_modify it (·.updateFeeDelta delta) a).trans
        ((hrec.mem_ids a).mp ha)
      rw [isDirty_setTotals _ _ hasome, isDirty_modify_updateFeeDelta]
      split
      · rename_i hdesc
        exact (hclean a ha ((hmem a).mp hdesc).2).symm
      · rfl
    · intro a
      rw [own_setTotals, own_modify_updateFeeDelta it delta hsome, hd]
    · intro a ha
      have hasome := (isSome_mapTx_modify it (·.updateFeeDelta delta) a).trans
        ((hrec.mem_ids a).mp ha)
      rw [withAncestors_setTotals _ _ hasome, withAncestors_modify_updateFeeDelta it delta hsome,
        hd]
      have hreach : Reach r.parents a it ↔ Reach p.parents a it := Iff.rfl
      by_cases hait : a = it
      · subst hait
        simp [Reach.refl]
      · by_cases hpar : Reach p.parents a it
        · rw [if_pos ((hmem a).mpr ⟨hait, hpar⟩), if_neg hait, if_pos (hreach.mpr hpar), add_zero]
        · rw [if_neg fun hdesc => hpar ((hmem a).mp hdesc).2, if_neg hait,
            if_neg fun hr => hpar (hreach.mp hr)]

end PyrrhaNode.MemPool.CTxMemPool
