import PyrrhaNode.MemPoolBlock

/-!
# Runs of the mempool

A new entry is linked to its parents and takes over their totals. With this every call
keeps the totals accurate, if it meets its condition: what is added is new to the pool and
is not summed up from prioritised ancestors, what is prioritised has the delta on record
and no dirty descendant, and a block brings the parents of its transactions.
-/
namespace PyrrhaNode.MemPool.CTxMemPool
open Function Finset Ancestry

variable {Id Out : Type} [LinearOrder Id] [DecidableEq Out] {p : CTxMemPool Id Out}
  {tx : Tx Id Out} {a : Id} {sigOpCount nFee : ℤ}

/-- The entries from which the transaction spends. -/
def parentsOf (p : CTxMemPool Id Out) (tx : Tx Id Out) : Finset Id :=
  p.ids.filter fun b => ∃ o ∈ tx.vin, o ∈ p.vout b

open Classical in
/-- Its ancestors in the pool. -/
noncomputable def ancestorsOf (p : CTxMemPool Id Out) (tx : Tx Id Out) : Finset Id :=
  p.ids.filter fun b => ∃ q ∈ p.parentsOf tx, Reach p.spentParents q b

/-- The transaction has nothing to do with the entries of the pool but for spending from
them. -/
structure Fresh (p : CTxMemPool Id Out) (tx : Tx Id Out) : Prop where
  idem : ∀ a e, p.mapTx a = some e → e.tx.idem ≠ tx.idem
  unspent : ∀ o ∈ tx.vout, ∀ a ∈ p.ids, o ∉ p.vin a
  created : ∀ o ∈ tx.vout, ∀ a ∈ p.ids, o ∉ p.vout a
  acyclic : ∀ o ∈ tx.vout, o ∉ tx.vin

omit [LinearOrder Id] in
/-- The outpoints of a map with those that are emplaced. -/
lemma foldl_emplaceOut (outs : List Out) (a : Id) (map : Out → Option Id) (o : Out) :
    outs.foldl (fun map o => emplaceOut map a o) map o =
      if (map o).isSome then map o else if o ∈ outs then some a else none := by
  induction outs generalizing map with
  | nil =>
    cases ho : map o <;> simp [ho]
  | cons o' outs ih =>
    rw [List.foldl_cons, ih]
    by_cases hoo : o = o'
    · subst hoo
      cases ho : map o <;> simp [emplaceOut, ho]
    have hkeep : emplaceOut map a o' o = map o := by
      rw [emplaceOut]
      split
      · rfl
      · exact update_of_ne hoo _ _
    simp [hkeep, hoo]

/-- The pool with the new entry and its links. -/
def inserted (p : CTxMemPool Id Out) (e : CTxMemPoolEntry Id Out) : CTxMemPool Id Out :=
  { p with
    ids := insert e.tx.id p.ids
    mapTx := update p.mapTx e.tx.id (some e)
    byIdem := update p.byIdem e.tx.idem (some e.tx.id)
    parents := update p.parents e.tx.id (p.parentsOf e.tx)
    children := fun a =>
      if a ∈ p.parentsOf e.tx then insert e.tx.id (p.children a)
      else update p.children e.tx.id ∅ a
    mapNextTx := e.tx.vin.foldl (fun map o => emplaceOut map e.tx.id o) p.mapNextTx
    outpointMap := e.tx.vout.foldl (fun map o => emplaceOut map e.tx.id o) p.outpointMap }

section Inserted
variable {e : CTxMemPoolEntry Id Out} {tx : Tx Id Out} {b a : Id}

lemma vin_inserted (a : Id) :
    (p.inserted e).vin a = if a = e.tx.id then e.tx.vin else p.vin a := by
  by_cases ha : a = e.tx.id <;> simp [vin, inserted, ha]

lemma vout_inserted (a : Id) :
    (p.inserted e).vout a = if a = e.tx.id then e.tx.vout else p.vout a := by
  by_cases ha : a = e.tx.id <;> simp [vout, inserted, ha]

lemma parents_inserted (a : Id) :
    (p.inserted e).parents a = if a = e.tx.id then p.parentsOf e.tx else p.parents a := by
  by_cases ha : a = e.tx.id <;> simp [inserted, ha]

omit [LinearOrder Id] in
lemma mem_parentsOf :
    a ∈ p.parentsOf tx ↔ a ∈ p.ids ∧ ∃ o ∈ tx.vin, o ∈ p.vout a := mem_filter

lemma Indexed.inserted (h : Indexed p) (hid : e.tx.id ∉ p.ids) (hfresh : p.Fresh e.tx) :
    Indexed (p.inserted e) where
  mem_ids a := by
    by_cases ha : a = e.tx.id
    · simp [CTxMemPool.inserted, ha]
    · simp [CTxMemPool.inserted, ha, h.mem_ids]
  id_eq a e' he' := by
    by_cases ha : a = e.tx.id
    · subst ha
      have : e = e' := by simpa [CTxMemPool.inserted] using he'
      exact this ▸ rfl
    · exact h.id_eq a e' (by simpa [CTxMemPool.inserted, ha] using he')
  byIdem k a := by
    by_cases hk : k = e.tx.idem
    · subst hk
      by_cases ha : a = e.tx.id
      · subst ha
        simp [CTxMemPool.inserted]
      · have hnone : ¬ ∃ e', p.mapTx a = some e' ∧ e'.tx.idem = e.tx.idem :=
          fun ⟨e', he', hidem⟩ => hfresh.idem a e' he' hidem
        simp [CTxMemPool.inserted, ha, Ne.symm ha, hnone]
    · by_cases ha : a = e.tx.id
      · subst ha
        have hnone : ¬ p.byIdem k = some e.tx.id := by
          rw [h.byIdem]
          rintro ⟨e', he', _⟩
          exact hid ((h.mem_ids _).mpr (by simp [he']))
        simp [CTxMemPool.inserted, hk, Ne.symm hk, hnone]
      · simp [CTxMemPool.inserted, hk, ha, h.byIdem]
  outpoint o a := by
    rw [vout_inserted, show (p.inserted e).outpointMap o = _ from foldl_emplaceOut _ _ _ _]
    cases ho : p.outpointMap o with
    | some b =>
      have hob := (h.outpoint o b).mp ho
      have hbids := h.mem_ids_of_mem_vout hob
      have hnew : o ∉ e.tx.vout := fun hoe => hfresh.created o hoe b hbids hob
      by_cases ha : a = e.tx.id
      · subst ha
        have hne : b ≠ e.tx.id := fun hb => hid (hb ▸ hbids)
        simp [hnew, hne]
      · rw [if_neg ha, ← h.outpoint, ho]
        simp
    | none =>
      have hold : ∀ b, o ∉ p.vout b := by
        intro b hb
        rw [(h.outpoint o b).mpr hb] at ho
        exact absurd ho (by simp)
      by_cases ha : a = e.tx.id
      · simp [ha]
      · simp [ha, Ne.symm ha, hold a]
  nextTx o a ho := by
    rw [show (p.inserted e).mapNextTx o = _ from foldl_emplaceOut _ _ _ _] at ho
    rw [vin_inserted]
    split at ho
    · have hoa := h.nextTx o a ho
      have hne : a ≠ e.tx.id := fun ha => hid (ha ▸ h.mem_ids_of_mem_vin hoa)
      rwa [if_neg hne]
    · split at ho
      · rename_i hmem
        rw [if_pos (Option.some_inj.mp ho).symm]
        exact hmem
      · exact absurd ho (by simp)

lemma WellFormed.inserted (h : WellFormed p) (hid : e.tx.id ∉ p.ids) (hfresh : p.Fresh e.tx) :
    WellFormed (p.inserted e) := by
  have hidx := h.toIndexed.inserted hid hfresh
  have hnotParent : ∀ a, e.tx.id ∉ p.parents a := fun a ha => hid (h.parents_subset a ha)
  have hnotParentOf : e.tx.id ∉ p.parentsOf e.tx := fun ha => hid (mem_parentsOf.mp ha).1
  have hnoParents : p.parents e.tx.id = ∅ :=
    eq_empty_of_forall_notMem fun b hb => hid (h.mem_ids_of_parent hb).1
  refine ⟨hidx, ?_, ?_, ?_⟩
  · intro a b
    rw [parents_inserted, vin_inserted, vout_inserted]
    by_cases ha : a = e.tx.id
    · rw [if_pos ha, if_pos ha]
      by_cases hb : b = e.tx.id
      · subst hb
        simp only [hnotParentOf, false_iff]
        rintro ⟨o, hin, hout⟩
        exact hfresh.acyclic o hout hin
      · rw [if_neg hb, mem_parentsOf]
        exact and_iff_right_of_imp fun ⟨o, _, ho⟩ => h.mem_ids_of_mem_vout ho
    · rw [if_neg ha, if_neg ha]
      by_cases hb : b = e.tx.id
      · subst hb
        simp only [hnotParent, false_iff]
        rintro ⟨o, hin, hout⟩
        exact hfresh.unspent o hout a (h.mem_ids_of_mem_vin hin) hin
      · rw [if_neg hb]
        exact h.parent a b
  · intro a b
    rw [parents_inserted]
    show b ∈ (if a ∈ p.parentsOf e.tx then insert e.tx.id (p.children a)
      else update p.children e.tx.id ∅ a) ↔ _
    by_cases hb : b = e.tx.id
    · subst hb
      by_cases ha : a ∈ p.parentsOf e.tx
      · simp [ha]
      · by_cases hae : a = e.tx.id
        · simp [hae, hnotParentOf]
        · simp [ha, hae, h.child, hnoParents]
    · rw [if_neg hb]
      by_cases ha : a ∈ p.parentsOf e.tx
      · rw [if_pos ha, mem_insert, h.child]
        simp [hb]
      · by_cases hae : a = e.tx.id
        · subst hae
          simp [ha, hnotParent]
        · simp [ha, hae, h.child]
  · obtain ⟨rank, hrank⟩ := h.ranked
    refine ⟨update rank e.tx.id ((p.parentsOf e.tx).sup rank + 1), fun a b hb => ?_⟩
    rw [parents_inserted] at hb
    by_cases ha : a = e.tx.id
    · subst ha
      rw [if_pos rfl] at hb
      have hbe : b ≠ e.tx.id := fun hbe => hnotParentOf (hbe ▸ hb)
      rw [update_self, update_of_ne hbe]
      exact Nat.lt_succ_of_le (le_sup hb)
    · rw [if_neg ha] at hb
      have hbe : b ≠ e.tx.id := fun hbe => hnotParent a (hbe ▸ hb)
      rw [update_of_ne ha, update_of_ne hbe]
      exact hrank a b hb

lemma own_inserted (a : Id) :
    (p.inserted e).own a = if a = e.tx.id then e.own else p.own a := by
  by_cases ha : a = e.tx.id <;> simp [own, CTxMemPool.inserted, ha]

lemma withAncestors_inserted (a : Id) : (p.inserted e).withAncestors a =
    if a = e.tx.id then e.withAncestors else p.withAncestors a := by
  by_cases ha : a = e.tx.id <;> simp [withAncestors, CTxMemPool.inserted, ha]

lemma isDirty_inserted (a : Id) :
    (p.inserted e).isDirty a = if a = e.tx.id then e.fDirty else p.isDirty a := by
  by_cases ha : a = e.tx.id <;> simp [isDirty, CTxMemPool.inserted, ha]

lemma WellFormed.total_inserted_of_mem (h : WellFormed p) (hid : e.tx.id ∉ p.ids)
    (hfresh : p.Fresh e.tx) (ha : a ∈ p.ids) : (p.inserted e).total a = p.total a := by
  have hne : ∀ b, Reach p.parents a b → b ≠ e.tx.id :=
    fun b hb hbe => hid (hbe ▸ h.mem_ids_of_reach ha hb)
  have hreached : reached (p.inserted e).parents (p.inserted e).ids a =
      reached p.parents p.ids a := by
    refine reached_congr fun b hb => ⟨?_, ?_⟩
    · rw [parents_inserted, if_neg (hne b hb)]
    · exact mem_insert.trans (or_iff_right (hne b hb))
  rw [(h.inserted hid hfresh).total_eq, h.total_eq, hreached]
  refine sum_congr rfl fun b hb => ?_
  rw [own_inserted, if_neg (hne b (mem_reached.mp hb).2)]

lemma WellFormed.reach_inserted (h : WellFormed p) (hid : e.tx.id ∉ p.ids) {q : Id}
    (hq : q ∈ p.ids) : Reach (p.inserted e).parents q b ↔ Reach p.spentParents q b := by
  rw [← h.parents_eq]
  have hparents : ∀ c, c ∈ p.ids → (p.inserted e).parents c = p.parents c := by
    intro c hc
    have hce : c ≠ e.tx.id := fun hce => hid (hce ▸ hc)
    rw [parents_inserted, if_neg hce]
  constructor
  · intro hqb
    have hboth : b ∈ p.ids ∧ Reach p.parents q b := by
      induction hqb with
      | refl => exact ⟨hq, Reach.refl _ _⟩
      | tail _ hc ih =>
        rw [hparents _ ih.1] at hc
        exact ⟨h.parents_subset _ hc, ih.2.step hc⟩
    exact hboth.2
  · exact fun hqb => hqb.congr fun c hc => hparents c (h.mem_ids_of_reach hq hc)

omit [LinearOrder Id] in
lemma mem_ancestorsOf :
    b ∈ p.ancestorsOf tx ↔ b ∈ p.ids ∧ ∃ q ∈ p.parentsOf tx, Reach p.spentParents q b := by
  simp [ancestorsOf]

lemma WellFormed.mem_ancestorsOf_iff (h : WellFormed p) (hid : e.tx.id ∉ p.ids) :
    b ∈ p.ancestorsOf e.tx ↔
      ∃ q ∈ p.parentsOf e.tx, Reach (p.inserted e).parents q b := by
  rw [mem_ancestorsOf]
  constructor
  · rintro ⟨_, q, hq, hqb⟩
    exact ⟨q, hq, (h.reach_inserted hid (mem_parentsOf.mp hq).1).mpr hqb⟩
  · rintro ⟨q, hq, hqb⟩
    have hqids := (mem_parentsOf.mp hq).1
    have hreach := (h.reach_inserted hid hqids).mp hqb
    exact ⟨h.mem_ids_of_reach hqids (h.parents_eq ▸ hreach), q, hq, hreach⟩

/-- The totals of the new entry: its own and those of its ancestors. -/
lemma WellFormed.total_inserted_self (h : WellFormed p) (hid : e.tx.id ∉ p.ids)
    (hfresh : p.Fresh e.tx) :
    (p.inserted e).total e.tx.id = e.own + ∑ b ∈ p.ancestorsOf e.tx, p.own b := by
  have hnot : ∀ b ∈ p.ancestorsOf e.tx, b ≠ e.tx.id :=
    fun b hb hbe => hid (hbe ▸ (mem_ancestorsOf.mp hb).1)
  have hreached : reached (p.inserted e).parents (p.inserted e).ids e.tx.id =
      insert e.tx.id (p.ancestorsOf e.tx) := by
    ext b
    rw [mem_reached, mem_insert, h.mem_ancestorsOf_iff hid]
    constructor
    · rintro ⟨_, hreach⟩
      rcases hreach.cases_head with hb | ⟨q, hq, hqb⟩
      · exact .inl hb.symm
      · rw [parents_inserted, if_pos rfl] at hq
        exact .inr ⟨q, hq, hqb⟩
    · rintro (rfl | ⟨q, hq, hqb⟩)
      · exact ⟨mem_insert_self _ _, Reach.refl _ _⟩
      · have hq' : q ∈ (p.inserted e).parents e.tx.id := by rwa [parents_inserted, if_pos rfl]
        refine ⟨?_, hqb.of_mem hq'⟩
        exact mem_insert_of_mem
          (mem_ancestorsOf.mp ((h.mem_ancestorsOf_iff hid).mpr ⟨q, hq, hqb⟩)).1
  rw [(h.inserted hid hfresh).total_eq, hreached,
    sum_insert fun hmem => hnot _ hmem rfl, own_inserted, if_pos rfl]
  congr 1
  refine sum_congr rfl fun b hb => ?_
  rw [own_inserted, if_neg (hnot b hb)]

/-- The new entry with any totals that are right for it. -/
theorem Accurate.inserted (h : p.Accurate) (hid : e.tx.id ∉ p.ids) (hfresh : p.Fresh e.tx)
    {state : AncestorState} {d : Bool} {tips : Finset Id} (htips : p.setDirtyTxnChainTips ⊆ tips)
    (hexact : d = false → state = (p.inserted e).total e.tx.id)
    (hsingle : ∀ q, p.parentsOf e.tx = {q} → state = e.own + p.withAncestors q)
    (hdirty : d = true → e.tx.id ∈ tips ∨ ∃ q ∈ p.parentsOf e.tx, p.isDirty q = true) :
    Accurate (CTxMemPool.setTotals { p.inserted e with setDirtyTxnChainTips := tips }
      (update (p.inserted e).withAncestors e.tx.id state)
      (update (p.inserted e).isDirty e.tx.id d)) := by
  have hw := h.toWellFormed.inserted hid hfresh
  have hwf : WellFormed { p.inserted e with setDirtyTxnChainTips := tips } :=
    ⟨⟨hw.mem_ids, hw.id_eq, hw.byIdem, hw.outpoint, hw.nextTx⟩, hw.parent, hw.child, hw.ranked⟩
  set r := CTxMemPool.setTotals { p.inserted e with setDirtyTxnChainTips := tips }
    (update (p.inserted e).withAncestors e.tx.id state)
    (update (p.inserted e).isDirty e.tx.id d) with hr
  have hwith : ∀ a ∈ r.ids, r.withAncestors a =
      if a = e.tx.id then state else p.withAncestors a := by
    intro a ha
    rw [withAncestors_setTotals _ _ ((hwf.mem_ids a).mp ha), update_apply, withAncestors_inserted]
    split_ifs <;> rfl
  have hflag : ∀ a ∈ r.ids, r.isDirty a = if a = e.tx.id then d else p.isDirty a := by
    intro a ha
    rw [isDirty_setTotals _ _ ((hwf.mem_ids a).mp ha), update_apply, isDirty_inserted]
    split_ifs <;> rfl
  have htotal : ∀ a, r.total a = (p.inserted e).total a := fun a => total_setTotals _ _ a
  have hmem : ∀ a, a ≠ e.tx.id → a ∈ r.ids → a ∈ p.ids :=
    fun a hae ha => (mem_insert.mp ha).resolve_left hae
  have hparents : ∀ a, r.parents a =
      if a = e.tx.id then p.parentsOf e.tx else p.parents a := fun a => parents_inserted a
  have hwr : WellFormed r := hwf.setTotals _ _
  refine ⟨hwr, ?_, ?_, ?_⟩
  · intro a ha hclean
    rw [hflag a ha] at hclean
    rw [hwith a ha, htotal]
    by_cases hae : a = e.tx.id
    · subst hae
      rw [if_pos rfl] at hclean ⊢
      exact hexact hclean
    · rw [if_neg hae] at hclean ⊢
      rw [h.toWellFormed.total_inserted_of_mem hid hfresh (hmem a hae ha)]
      exact h.exact a (hmem a hae ha) hclean
  · intro a q hq
    have hqa : q ∈ r.parents a := by simp [hq]
    obtain ⟨ha, hqids⟩ := hwr.mem_ids_of_parent hqa
    rw [hparents] at hq hqa
    have hown : r.own a = if a = e.tx.id then e.own else p.own a :=
      (own_setTotals _ _ a).trans (own_inserted a)
    have hqe : q ≠ e.tx.id := by
      rintro rfl
      split at hqa
      · exact hid (mem_parentsOf.mp hqa).1
      · exact hid (h.parents_subset a hqa)
    rw [hwith a ha, hwith q hqids, hown, if_neg hqe]
    by_cases hae : a = e.tx.id
    · rw [if_pos hae] at hq
      rw [if_pos hae, if_pos hae]
      exact hsingle q hq
    · rw [if_neg hae] at hq
      rw [if_neg hae, if_neg hae]
      exact h.single a q hq
  · intro a hadirty
    have ha := hwr.mem_ids_of_isDirty hadirty
    rw [hflag a ha] at hadirty
    rw [hparents]
    have hkeep : ∀ q ∈ p.ids, p.isDirty q = true → r.isDirty q = true := by
      intro q hq hqdirty
      have hqe : q ≠ e.tx.id := fun hqe => hid (hqe ▸ hq)
      rw [hflag q (mem_insert_of_mem hq), if_neg hqe]
      exact hqdirty
    by_cases hae : a = e.tx.id
    · subst hae
      rw [if_pos rfl] at hadirty ⊢
      refine (hdirty hadirty).imp_right ?_
      rintro ⟨q, hq, hqdirty⟩
      exact ⟨q, hq, hkeep q (mem_parentsOf.mp hq).1 hqdirty⟩
    · rw [if_neg hae] at hadirty ⊢
      refine (h.dirty a hadirty).imp (fun htip => htips htip) ?_
      rintro ⟨q, hq, hqdirty⟩
      exact ⟨q, hq, hkeep q (h.parents_subset a hq) hqdirty⟩

end Inserted

omit [DecidableEq Out] in
lemma foldl_updateParent_true {outpoints : Out → Option Id} {ids : Finset Id}
    {f : CTxMemPool Id Out → Out → CTxMemPool Id Out}
    (hf : ∀ q o, f q o = (outpoints o).elim q fun phash =>
      if phash ∈ ids then q.updateParent a phash true else q) (vin : List Out)
    (q : CTxMemPool Id Out) :
    vin.foldl f q =
      { q with
        parents := update q.parents a
          (q.parents a ∪ (vin.filterMap outpoints).toFinset.filter (· ∈ ids)) } := by
  induction vin generalizing q with
  | nil => simp
  | cons o vin ih =>
    rw [List.foldl_cons, ih, hf]
    cases ho : outpoints o with
    | none => simp [ho]
    | some b =>
      by_cases hb : b ∈ ids
      · simp [updateParent, ho, hb, filter_insert]
      · simp [ho, hb, filter_insert]

omit [DecidableEq Out] in
lemma linkParents_eq (q : CTxMemPool Id Out) (a : Id) :
    q.linkParents a =
      { q with
        parents := update q.parents a
          (q.parents a ∪ ((q.vin a).filterMap q.outpointMap).toFinset.filter (· ∈ q.ids)) } := by
  refine foldl_updateParent_true (fun r o => ?_) _ _
  cases q.outpointMap o <;> rfl

omit [DecidableEq Out] in
lemma applyDelta_eq {q : CTxMemPool Id Out} (hq : q.mapTx tx.id = some (.new tx nFee sigOpCount)) :
    ∃ e : CTxMemPoolEntry Id Out, e.tx = tx ∧ e.withAncestors = e.own ∧
      q.applyDelta tx tx.id = { q with mapTx := update q.mapTx tx.id (some e) } := by
  have hsame : q = { q with
      mapTx := update q.mapTx tx.id (some (.new tx nFee sigOpCount)) } := by
    rw [← hq, update_eq_self]
  have hown : (CTxMemPoolEntry.new tx nFee sigOpCount).withAncestors =
      (CTxMemPoolEntry.new tx nFee sigOpCount).own := by
    funext stat
    cases stat <;> simp [CTxMemPoolEntry.new, CTxMemPoolEntry.own,
      CTxMemPoolEntry.getModifiedFee]
  rw [applyDelta]
  split
  · rename_i delta _
    split
    · exact ⟨_, rfl, hown, hsame⟩
    refine ⟨(CTxMemPoolEntry.new tx nFee sigOpCount).updateFeeDelta delta, rfl, ?_, ?_⟩
    · funext stat
      cases stat <;> simp [CTxMemPoolEntry.new, CTxMemPoolEntry.own, AncestorState.of,
        CTxMemPoolEntry.getModifiedFee, CTxMemPoolEntry.updateFeeDelta]
    · rw [modify, hq]
      rfl
  · exact ⟨_, rfl, hown, hsame⟩

lemma WellFormed.addUnchecked_eq (h : WellFormed p) (hid : tx.id ∉ p.ids) (hfresh : p.Fresh tx)
    (nFee sigOpCount : ℤ) :
    ∃ e : CTxMemPoolEntry Id Out, e.tx = tx ∧ e.withAncestors = e.own ∧
      p.addUnchecked (.new tx nFee sigOpCount) =
        (p.inserted e).updateEntryForAncestors tx.id := by
  have hidem : p.byIdem tx.idem = none := by
    cases hk : p.byIdem tx.idem with
    | none => rfl
    | some a =>
      obtain ⟨e, he, hidem⟩ := (h.byIdem _ a).mp hk
      exact absurd hidem (hfresh.idem a e he)
  have hnew : (CTxMemPoolEntry.new tx nFee sigOpCount).tx = tx := rfl
  set q : CTxMemPool Id Out := { p with
    ids := insert tx.id p.ids
    mapTx := update p.mapTx tx.id (some (.new tx nFee sigOpCount))
    byIdem := update p.byIdem tx.idem (some tx.id)
    parents := update p.parents tx.id ∅
    children := update p.children tx.id ∅ } with hq
  have hinsert : p.insertEntry (.new tx nFee sigOpCount) = (q, tx.id) := by
    rw [insertEntry, hnew, hidem]
  rw [addUnchecked, hnew, if_neg hid, hinsert]
  dsimp only
  have hentry : q.mapTx tx.id = some (.new tx nFee sigOpCount) := update_self _ _ _
  obtain ⟨e, rfl, hown, hdelta⟩ := applyDelta_eq hentry
  refine ⟨e, rfl, hown, ?_⟩
  rw [hdelta]
  have hwf := h.inserted hid hfresh
  -- the parents found by the outpoints are the ones from which the entry spends
  have hparents : (e.tx.vin.filterMap (p.inserted e).outpointMap).toFinset.filter
      (· ∈ (p.inserted e).ids) = p.parentsOf e.tx := by
    have hset := hwf.filterMap_outpointMap e.tx.id
    rw [vin_inserted, if_pos rfl, ← hwf.parents_eq, parents_inserted, if_pos rfl] at hset
    exact hset
  have hoff : e.tx.id ∉ p.parentsOf e.tx := fun ha => hid (mem_parentsOf.mp ha).1
  have hvin : vin { q with mapTx := update q.mapTx e.tx.id (some e) } e.tx.id =
      e.tx.vin := by
    simp [vin]
  have hvout : vout { q with mapTx := update q.mapTx e.tx.id (some e) } e.tx.id =
      e.tx.vout := by
    simp [vout]
  rw [emplaceOutpoints, hvin, hvout]
  set r : CTxMemPool Id Out := { q with
    mapTx := update q.mapTx e.tx.id (some e)
    mapNextTx := (p.inserted e).mapNextTx
    outpointMap := (p.inserted e).outpointMap } with hr
  have hlink : r.linkParents e.tx.id =
      { r with parents := update p.parents e.tx.id (p.parentsOf e.tx) } := by
    rw [linkParents_eq, show r.vin e.tx.id = e.tx.vin from hvin]
    have hnone : r.parents e.tx.id = ∅ := update_self _ _ _
    have hset : (e.tx.vin.filterMap r.outpointMap).toFinset.filter (· ∈ r.ids) =
        p.parentsOf e.tx := hparents
    rw [hset, hnone, empty_union]
    congr 1
    exact update_idem _ _ _
  change ((r.linkParents e.tx.id).updateAncestorsOf true e.tx.id).updateEntryForAncestors e.tx.id =
    (p.inserted e).updateEntryForAncestors e.tx.id
  rw [hlink, updateAncestorsOf, foldl_updateChild]
  congr 1
  ext1 <;> try rfl
  · exact update_idem _ _ _
  · funext a
    show (if a ∈ ascending (update p.parents e.tx.id (p.parentsOf e.tx) e.tx.id)
      then insert e.tx.id (update p.children e.tx.id ∅ a)
      else update p.children e.tx.id ∅ a) = _
    by_cases ha : a ∈ p.parentsOf e.tx
    · have hae : a ≠ e.tx.id := fun hae => hoff (hae ▸ ha)
      simp [CTxMemPool.inserted, hae]
    · simp [CTxMemPool.inserted, ha]

/-- The transaction is in the pool, or it is new to it and, if its totals are summed up over
all its ancestors, has less than 500 parents and no priorities above it. -/
def AddsCleanly (p : CTxMemPool Id Out) (tx : Tx Id Out) : Prop :=
  tx.id ∈ p.ids ∨ p.Fresh tx ∧
    (1 < (p.parentsOf tx).card → (∀ q ∈ p.parentsOf tx, p.isDirty q = false) →
      ∑ q ∈ p.parentsOf tx, p.withAncestors q .count ≤ maxUpdatedChainState →
      (p.parentsOf tx).card < maxUpdatedChainState ∧ ∑ b ∈ p.ancestorsOf tx, p.feeDelta b = 0)

omit [LinearOrder Id] [DecidableEq Out] in
lemma Indexed.own_count (h : Indexed p) (ha : a ∈ p.ids) : p.own a .count = 1 := by
  obtain ⟨e, he⟩ := Option.isSome_iff_exists.mp ((h.mem_ids a).mp ha)
  simp [own, he, CTxMemPoolEntry.own, AncestorState.of]

omit [LinearOrder Id] [DecidableEq Out] in
/-- What the search may miss: the priorities. -/
lemma own_eq_ownUnmodified_add (a : Id) :
    p.own a = p.ownUnmodified a + .of 0 0 (p.feeDelta a) 0 := by
  cases he : p.mapTx a with
  | none =>
    funext stat
    cases stat <;> simp [own, ownUnmodified, feeDelta, he, AncestorState.of]
  | some e =>
    funext stat
    cases stat <;> simp [own, ownUnmodified, feeDelta, he, AncestorState.of,
      CTxMemPoolEntry.own, CTxMemPoolEntry.ownUnmodified, CTxMemPoolEntry.getModifiedFee]

omit [LinearOrder Id] [DecidableEq Out] in
lemma sum_own_eq {s : Finset Id} (hs : ∑ b ∈ s, p.feeDelta b = 0) :
    ∑ b ∈ s, p.own b = ∑ b ∈ s, p.ownUnmodified b := by
  have hzero : ∑ b ∈ s, AncestorState.of 0 0 (p.feeDelta b) 0 = 0 := by
    funext stat
    cases stat <;> simp [AncestorState.of, hs]
  rw [sum_congr rfl fun b _ => own_eq_ownUnmodified_add b, sum_add_distrib, hzero,
    add_zero]

/-- The counts of clean parents bound the number of ancestors. -/
lemma Accurate.card_ancestorsOf_le (h : p.Accurate)
    (hclean : ∀ q ∈ p.parentsOf tx, p.isDirty q = false) :
    ((p.ancestorsOf tx).card : ℤ) ≤ ∑ q ∈ p.parentsOf tx, p.withAncestors q .count := by
  have hcount : ∀ q ∈ p.parentsOf tx,
      p.withAncestors q .count = ((reached p.spentParents p.ids q).card : ℤ) := by
    intro q hq
    rw [h.exact q (mem_parentsOf.mp hq).1 (hclean q hq), total, Finset.sum_apply,
      sum_congr rfl fun b hb => h.own_count (mem_reached.mp hb).1]
    simp
  rw [sum_congr rfl hcount]
  have hsub : p.ancestorsOf tx ⊆
      (p.parentsOf tx).biUnion fun q => reached p.spentParents p.ids q := by
    intro b hb
    obtain ⟨hbids, q, hq, hqb⟩ := mem_ancestorsOf.mp hb
    exact mem_biUnion.mpr ⟨q, hq, mem_reached.mpr ⟨hbids, hqb⟩⟩
  exact_mod_cast (card_le_card hsub).trans card_biUnion_le

lemma WellFormed.calculateMemPoolAncestors_inserted (h : WellFormed p) {e : CTxMemPoolEntry Id Out}
    (hid : e.tx.id ∉ p.ids) (hfresh : p.Fresh e.tx)
    (hparents : (p.parentsOf e.tx).card < maxUpdatedChainState)
    (hcard : (p.ancestorsOf e.tx).card ≤ maxUpdatedChainState) :
    (p.inserted e).calculateMemPoolAncestors e.tx.id ∅ maxUpdatedChainState =
      p.ancestorsOf e.tx := by
  have hself : (p.inserted e).parents e.tx.id = p.parentsOf e.tx := by
    rw [parents_inserted, if_pos rfl]
  have hfrontier : Frontier (p.inserted e).parents (p.parentsOf e.tx) ∅
      ((p.inserted e).parents e.tx.id) := by
    rw [hself]
    refine ⟨fun x hx => ⟨x, by simpa using hx, Reach.refl _ _⟩, subset_union_right,
      fun x hx => ?_⟩
    simp at hx
  refine (h.inserted hid hfresh).mem_calculateMemPoolAncestors hfrontier
    (disjoint_empty_right _) (fun x => h.mem_ancestorsOf_iff hid) ?_ ?_
  · rw [hself]
    exact_mod_cast hparents
  · exact_mod_cast hcard

theorem Accurate.addUnchecked (h : p.Accurate)
    (hadd : p.AddsCleanly tx) : (p.addUnchecked (.new tx nFee sigOpCount)).Accurate := by
  by_cases hid : tx.id ∈ p.ids
  · rw [CTxMemPool.addUnchecked, if_pos (show (CTxMemPoolEntry.new tx nFee sigOpCount).tx.id ∈ p.ids
      from hid)]
    exact h
  obtain ⟨hfresh, hsum⟩ := hadd.resolve_left hid
  obtain ⟨e, rfl, hown, heq⟩ := h.toWellFormed.addUnchecked_eq hid hfresh nFee sigOpCount
  have hwf := h.toWellFormed.inserted hid hfresh
  rw [heq]
  -- what is read of the new entry and its parents
  have hself : (p.inserted e).withAncestors e.tx.id = e.own := by
    rw [withAncestors_inserted, if_pos rfl, hown]
  have hparents : (p.inserted e).parents e.tx.id = p.parentsOf e.tx := by
    rw [parents_inserted, if_pos rfl]
  have hne : ∀ q ∈ p.parentsOf e.tx, q ≠ e.tx.id :=
    fun q hq hqe => hid (hqe ▸ (mem_parentsOf.mp hq).1)
  have hupdate : ∑ q ∈ p.parentsOf e.tx, (p.inserted e).withAncestors q =
      ∑ q ∈ p.parentsOf e.tx, p.withAncestors q := by
    refine sum_congr rfl fun q hq => ?_
    rw [withAncestors_inserted, if_neg (hne q hq)]
  have hflags : (∃ q ∈ p.parentsOf e.tx, (p.inserted e).isDirty q = true) ↔
      ∃ q ∈ p.parentsOf e.tx, p.isDirty q = true := by
    refine exists_congr fun q => and_congr_right fun hq => ?_
    rw [isDirty_inserted, if_neg (hne q hq)]
  have hsingle : ∀ q, p.parentsOf e.tx = {q} →
      e.own + ∑ q ∈ p.parentsOf e.tx, p.withAncestors q = e.own + p.withAncestors q := by
    intro q hq
    rw [hq, sum_singleton]
  rw [updateEntryForAncestors]
  simp only [hparents, hupdate, hflags, decide_eq_true_eq]
  by_cases hdirty : ∃ q ∈ p.parentsOf e.tx, p.isDirty q = true
  · -- below a dirty parent
    rw [if_pos (.inr hdirty), if_neg fun hc => hc.2 hdirty, if_pos hdirty,
      modify_updateAncestorState, hself]
    exact h.inserted hid hfresh (Finset.Subset.refl _) (by simp) hsingle fun _ => .inr hdirty
  have hclean : ∀ q ∈ p.parentsOf e.tx, p.isDirty q = false := by
    intro q hq
    rw [← Bool.not_eq_true]
    exact fun hq' => hdirty ⟨q, hq, hq'⟩
  by_cases hcard : 1 < (p.parentsOf e.tx).card
  · rw [if_pos (.inl hcard)]
    have hnotSingle : ∀ q, p.parentsOf e.tx ≠ {q} := by
      intro q hq
      simp [hq] at hcard
    by_cases hcount : (∑ q ∈ p.parentsOf e.tx, p.withAncestors q) .count ≤ maxUpdatedChainState
    · -- the totals are summed up over the ancestors
      rw [Finset.sum_apply] at hcount
      obtain ⟨hlt, hdelta⟩ := hsum hcard hclean hcount
      have hle : (p.ancestorsOf e.tx).card ≤ maxUpdatedChainState := by
        exact_mod_cast (h.card_ancestorsOf_le hclean).trans hcount
      have hnot : e.tx.id ∉ p.ancestorsOf e.tx := fun hmem => hid (mem_ancestorsOf.mp hmem).1
      have hunmodified : ∑ b ∈ p.ancestorsOf e.tx, (p.inserted e).ownUnmodified b =
          ∑ b ∈ p.ancestorsOf e.tx, p.own b := by
        rw [sum_own_eq hdelta]
        refine sum_congr rfl fun b hb => ?_
        have hbe : b ≠ e.tx.id := fun hbe => hnot (hbe ▸ hb)
        simp [ownUnmodified, CTxMemPool.inserted, hbe]
      rw [if_pos ⟨by rwa [Finset.sum_apply], hdirty⟩,
        h.toWellFormed.calculateMemPoolAncestors_inserted hid hfresh hlt hle,
        erase_eq_of_notMem hnot, hunmodified, modify_updateAncestorState, hself]
      refine h.inserted hid hfresh (Finset.Subset.refl _) (fun _ => ?_)
        (fun q hq => absurd hq (hnotSingle q)) (by simp)
      exact (h.toWellFormed.total_inserted_self hid hfresh).symm
    · -- a new dirty chain tip
      rw [if_neg fun hc => hcount hc.1, if_neg hdirty, modify_updateAncestorState]
      have hread : withAncestors { p.inserted e with
          setDirtyTxnChainTips := insert e.tx.id (p.inserted e).setDirtyTxnChainTips } e.tx.id =
          e.own := hself
      rw [hread]
      exact h.inserted hid hfresh (subset_insert _ _) (by simp) hsingle
        fun _ => .inl (mem_insert_self _ _)
  · -- at most one parent
    rw [if_neg (not_or.mpr ⟨hcard, hdirty⟩), modify_updateAncestorState, hself]
    refine h.inserted hid hfresh (Finset.Subset.refl _) (fun _ => ?_) hsingle (by simp)
    rcases Nat.lt_or_ge 0 (p.parentsOf e.tx).card with hpos | hzero
    · obtain ⟨q, hq⟩ := card_eq_one.mp (le_antisymm (not_lt.mp hcard) hpos)
      have hqmem : q ∈ p.parentsOf e.tx := by simp [hq]
      have hqids := (mem_parentsOf.mp hqmem).1
      rw [hsingle q hq, hwf.total_of_parents_eq_singleton (hparents.trans hq), own_inserted,
        if_pos rfl, h.toWellFormed.total_inserted_of_mem hid hfresh hqids,
        h.exact q hqids (hclean q hqmem)]
    · have hempty := card_eq_zero.mp (Nat.le_zero.mp hzero)
      have hnone : p.ancestorsOf e.tx = ∅ := by
        refine eq_empty_of_forall_notMem fun b hb => ?_
        obtain ⟨_, q, hq, _⟩ := mem_ancestorsOf.mp hb
        simp [hempty] at hq
      rw [h.toWellFormed.total_inserted_self hid hfresh, hempty, hnone, sum_empty,
        sum_empty]

/-- The calls that change the pool. -/
inductive Call (Id Out : Type)
  | addUnchecked (tx : Tx Id Out) (nFee sigOpCount : ℤ)
  | prioritiseTransaction (h : Id) (nFeeDelta : ℤ)
  | removeForBlock (vtx : List (Tx Id Out))
  | removeRecursive (tx : Tx Id Out)

def call (p : CTxMemPool Id Out) : Call Id Out → CTxMemPool Id Out
  | .addUnchecked tx nFee sigOpCount => p.addUnchecked (.new tx nFee sigOpCount)
  | .prioritiseTransaction h nFeeDelta => p.prioritiseTransaction h nFeeDelta
  | .removeForBlock vtx => p.removeForBlock vtx
  | .removeRecursive tx => p.removeRecursive tx

/-- The calls that keep the totals exact. -/
def Careful (p : CTxMemPool Id Out) : Call Id Out → Prop
  | .addUnchecked tx _ _ => p.AddsCleanly tx
  | .prioritiseTransaction h _ => p.PrioritisesCleanly h
  | .removeForBlock vtx => p.BringsParents vtx
  | .removeRecursive _ => True

theorem Accurate.call (h : p.Accurate) {c : Call Id Out} (hc : p.Careful c) :
    (p.call c).Accurate := by
  cases c with
  | addUnchecked tx nFee sigOpCount => exact h.addUnchecked hc
  | prioritiseTransaction k nFeeDelta => exact h.prioritiseTransaction hc
  | removeForBlock vtx => exact h.removeForBlock hc
  | removeRecursive tx => exact h.removeRecursive tx

/-- All calls of the sequence are careful in the pool in which they are made. -/
def CarefulRun : CTxMemPool Id Out → List (Call Id Out) → Prop
  | _, [] => True
  | p, c :: cs => p.Careful c ∧ CarefulRun (p.call c) cs

lemma Accurate.run (h : p.Accurate) {cs : List (Call Id Out)} (hcs : p.CarefulRun cs) :
    (cs.foldl CTxMemPool.call p).Accurate := by
  induction cs generalizing p with
  | nil => exact h
  | cons c cs ih => exact ih (h.call hcs.1) hcs.2

lemma CarefulRun.of_append {cs ds : List (Call Id Out)} (h : p.CarefulRun (cs ++ ds)) :
    p.CarefulRun cs := by
  induction cs generalizing p with
  | nil => trivial
  | cons c cs ih => exact ⟨h.1, ih h.2⟩

lemma CarefulRun.append {cs ds : List (Call Id Out)} (h : p.CarefulRun cs)
    (hds : (cs.foldl call p).CarefulRun ds) : p.CarefulRun (cs ++ ds) := by
  induction cs generalizing p with
  | nil => exact hds
  | cons c cs ih => exact ⟨h.1, ih h.2 hds⟩

/-- In a sequence of careful calls on an empty pool every clean entry has exact totals after
each call. -/
theorem exact_of_carefulRun {cs made : List (Call Id Out)}
    (hcs : (empty : CTxMemPool Id Out).CarefulRun cs) (hmade : made <+: cs) :
    (made.foldl call (empty : CTxMemPool Id Out)).Exact := by
  obtain ⟨rest, rfl⟩ := hmade
  exact (accurate_empty.run hcs.of_append).exact

/-! ### Two parents

Two transactions and a third one that spends from both. -/

section TwoParents

def firstParent : Tx ℕ ℕ := ⟨1, 11, [100], [10], 250⟩
def secondParent : Tx ℕ ℕ := ⟨2, 12, [200], [20], 250⟩
def child : Tx ℕ ℕ := ⟨3, 13, [10, 20], [30], 400⟩

def addBoth : List (Call ℕ ℕ) :=
  [.addUnchecked firstParent 5 1, .addUnchecked secondParent 5 1]

def addThree : List (Call ℕ ℕ) := addBoth ++ [.addUnchecked child 5 1]

/-- The child is added, then a parent is prioritised and confirmed. -/
def orderlyCalls : List (Call ℕ ℕ) :=
  addThree ++ [.prioritiseTransaction 1 1000, .removeForBlock [firstParent]]

/-- The child is added after a parent has been prioritised. -/
def lateChild : List (Call ℕ ℕ) :=
  addBoth ++ [.prioritiseTransaction 1 1000, .addUnchecked child 5 1]

/-- A pool without priorities in which the transaction is new. -/
lemma WellFormed.addsCleanly_of_clear {p : CTxMemPool ℕ ℕ} (h : WellFormed p) {tx : Tx ℕ ℕ}
    (hclear : ∀ a ∈ p.ids, p.feeDelta a = 0 ∧ (p.mapTx a).map (·.tx.idem) ≠ some tx.idem ∧
      ∀ o ∈ tx.vout, o ∉ p.vin a ∧ o ∉ p.vout a) (hown : ∀ o ∈ tx.vout, o ∉ tx.vin)
    (hcard : (p.parentsOf tx).card < maxUpdatedChainState) :
    p.AddsCleanly tx := by
  refine .inr ⟨⟨fun a e he hidem => ?_, ?_, ?_, hown⟩, fun _ _ _ => ⟨hcard, ?_⟩⟩
  · refine (hclear a ((h.mem_ids a).mpr (by simp [he]))).2.1 ?_
    simp [he, hidem]
  · exact fun o ho a ha => ((hclear a ha).2.2 o ho).1
  · exact fun o ho a ha => ((hclear a ha).2.2 o ho).2
  · exact sum_eq_zero fun b hb => (hclear b (mem_ancestorsOf.mp hb).1).1

lemma prioritisesCleanly_of_clean {p : CTxMemPool ℕ ℕ} {h : ℕ}
    (hdelta : ∀ it ∈ p.find h, p.feeDelta it = (p.mapDeltas h).getD 0)
    (hclean : ∀ a ∈ p.ids, p.isDirty a = false) : p.PrioritisesCleanly h :=
  fun it hit => ⟨hdelta it hit, fun a ha _ => hclean a ha⟩

lemma carefulRun_addBoth : (empty : CTxMemPool ℕ ℕ).CarefulRun addBoth := by
  have hfirst : (empty : CTxMemPool ℕ ℕ).Careful (.addUnchecked firstParent 5 1) :=
    wellFormed_empty.addsCleanly_of_clear (by decide +kernel) (by decide) (by decide +kernel)
  exact ⟨hfirst, (accurate_empty.call hfirst).toWellFormed.addsCleanly_of_clear
    (by decide +kernel) (by decide) (by decide +kernel), trivial⟩

lemma carefulRun_addThree : (empty : CTxMemPool ℕ ℕ).CarefulRun addThree :=
  have hboth := accurate_empty.run carefulRun_addBoth
  carefulRun_addBoth.append ⟨hboth.toWellFormed.addsCleanly_of_clear (by decide +kernel)
    (by decide) (by decide +kernel), trivial⟩

/-- The pool after a block that confirms one parent of the child. -/
def parentConfirmed : CTxMemPool ℕ ℕ := (addThree.foldl call empty).removeForBlock [firstParent]

theorem removeForBlock_exact_parentConfirmed :
    parentConfirmed.ids = {2, 3} ∧ parentConfirmed.parents 3 = {2} ∧
      ∀ a ∈ parentConfirmed.ids, parentConfirmed.isDirty a = false ∧
        parentConfirmed.withAncestors a = parentConfirmed.total a :=
  ⟨by decide +kernel, by decide +kernel,
    removeForBlock_exact (accurate_empty.run carefulRun_addThree).recoverable
      (by unfold BringsParents; decide +kernel)⟩

lemma carefulRun_orderlyCalls : (empty : CTxMemPool ℕ ℕ).CarefulRun orderlyCalls := by
  refine carefulRun_addThree.append
    ⟨prioritisesCleanly_of_clean (by decide +kernel) (by decide +kernel), ?_, trivial⟩
  change BringsParents _ _
  unfold BringsParents
  decide +kernel

theorem exact_of_orderlyCalls :
    (orderlyCalls.foldl call (empty : CTxMemPool ℕ ℕ)).Exact ∧
      (orderlyCalls.foldl call (empty : CTxMemPool ℕ ℕ)).ids = {2, 3} :=
  ⟨exact_of_carefulRun carefulRun_orderlyCalls (List.prefix_refl _), by decide +kernel⟩

/-- The totals of the late child are summed up without the priority of its parent. -/
theorem lateChild_misses_priority :
    ¬ (lateChild.foldl call (empty : CTxMemPool ℕ ℕ)).Exact := by
  intro hexact
  have hfee := congrFun (hexact 3 (by decide +kernel) (by decide +kernel)) .fee
  have hreached : reached (lateChild.foldl call (empty : CTxMemPool ℕ ℕ)).spentParents
      (lateChild.foldl call (empty : CTxMemPool ℕ ℕ)).ids 3 = {1, 2, 3} := by
    have hids : (lateChild.foldl call (empty : CTxMemPool ℕ ℕ)).ids = {1, 2, 3} := by
      decide +kernel
    have hparents : (lateChild.foldl call (empty : CTxMemPool ℕ ℕ)).spentParents 3 = {1, 2} := by
      decide +kernel
    rw [hids]
    ext b
    rw [mem_reached]
    refine and_iff_left_of_imp fun hb => ?_
    simp only [mem_insert, mem_singleton] at hb
    rcases hb with rfl | rfl | rfl
    iterate 2 exact (Reach.refl _ _).step (by simp [hparents])
    · exact Reach.refl _ _
  rw [total, hreached] at hfee
  revert hfee
  decide +kernel

end TwoParents

end PyrrhaNode.MemPool.CTxMemPool
