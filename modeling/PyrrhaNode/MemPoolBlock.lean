import PyrrhaNode.MemPoolAccuracy

/-!
# The mempool after a block

`removeForBlock` takes the transactions of the block out of the pool. The entries that lose
a parent, the dirty chain tips and those below them with several parents are summed up anew;
the rest follows its one parent. Afterwards no entry is dirty.
-/
namespace PyrrhaNode.MemPool.CTxMemPool
open Finset Ancestry

variable {Id Out : Type} [LinearOrder Id] {p : CTxMemPool Id Out}

/-- The entries whose transactions are in the block. -/
def blockEntries (p : CTxMemPool Id Out) (vtx : List (Tx Id Out)) : Finset Id :=
  p.ids.filter fun a => ∃ tx ∈ vtx, tx.id = a

/-- The recorded states are the current ones. -/
def Saved (p : CTxMemPool Id Out) (tips : History Id) : Prop :=
  ∀ t ∈ tips.keys, tips.state t = p.withAncestors t

@[simp] lemma keys_emplaceState (tips : History Id) (a : Id) :
    (p.emplaceState tips a).keys = insert a tips.keys := by
  rw [emplaceState]
  split
  · rename_i ha
    exact (insert_eq_of_mem ha).symm
  · rfl

variable {tips : History Id} {s : BlockScan Id Out} {block : Finset Id} (l : List Id)

lemma Saved.emplaceState (h : p.Saved tips) (a : Id) :
    p.Saved (p.emplaceState tips a) := by
  rw [CTxMemPool.emplaceState]
  split
  · exact h
  rename_i ha
  intro t ht
  rcases mem_insert.mp ht with rfl | ht
  · exact Function.update_self _ _ _
  · have hta : t ≠ a := fun hta => ha (hta ▸ ht)
    exact (Function.update_of_ne hta _ _).trans (h t ht)

lemma keys_foldl_emplaceState (tips : History Id) :
    (l.foldl p.emplaceState tips).keys = tips.keys ∪ l.toFinset := by
  induction l generalizing tips with
  | nil => simp
  | cons a l ih =>
    rw [List.foldl_cons, ih, keys_emplaceState, List.toFinset_cons, insert_union,
      union_insert]

lemma Saved.foldl_emplaceState (h : p.Saved tips) (l : List Id) :
    p.Saved (l.foldl p.emplaceState tips) := by
  induction l generalizing tips with
  | nil => exact h
  | cons a l ih => exact ih (h.emplaceState a)

/-- The pool with the entries of `done` taken out of the parents. -/
def detached (p : CTxMemPool Id Out) (done : Finset Id) : CTxMemPool Id Out :=
  { p with parents := fun a => p.parents a \ done }

lemma foldl_detach (it : Id) (q : CTxMemPool Id Out) (tips : History Id) :
    l.foldl (fun acc child => (acc.1.updateParent child it false, acc.1.emplaceState acc.2 child))
        (q, tips) =
      ({ q with parents := fun a => if a ∈ l then (q.parents a).erase it else q.parents a },
        l.foldl q.emplaceState tips) := by
  induction l generalizing q tips with
  | nil => simp
  | cons c l ih =>
    rw [List.foldl_cons, ih]
    refine Prod.ext ?_ rfl
    ext1 <;> try rfl
    funext a
    by_cases hac : a = c
    · subst hac
      simp [updateParent]
    · simp [updateParent, hac]

lemma WellFormed.detachChildren_eq (h : WellFormed p) (done : Finset Id) (tips : History Id)
    (it : Id) : detachChildren (p.detached done) tips it =
      (p.detached (insert it done), (ascending (p.children it)).foldl p.emplaceState tips) := by
  rw [detachChildren, foldl_detach]
  refine Prod.ext ?_ rfl
  ext1 <;> try rfl
  funext a
  have hset : (p.parents a \ done).erase it = p.parents a \ insert it done := by
    rw [sdiff_insert, erase_eq]
  by_cases ha : a ∈ p.children it
  · simp only [detached, mem_ascending]
    rw [if_pos ha, hset]
  · have hit : it ∉ p.parents a := fun hit => ha ((h.child it a).mpr hit)
    simp only [detached, mem_ascending]
    rw [if_neg ha, ← hset, erase_eq_of_notMem]
    exact fun hmem => hit (mem_sdiff.mp hmem).1

/-- What the first loop has gathered of the part of the block that it has seen. -/
structure Scanned (p : CTxMemPool Id Out) (block : Finset Id) (s : BlockScan Id Out) : Prop where
  pool : s.pool = p.detached s.setTxnsInBlock
  keys : s.tips.keys = s.setTxnsInBlock.biUnion p.children
  saved : p.Saved s.tips
  ancestors : s.setAncestorsFromBlock ⊆ block

lemma Scanned.scanTx (hs : Scanned p block s) (h : WellFormed p)
    (hblock : ∀ a ∈ block, p.parents a ⊆ block) {tx : Tx Id Out}
    (htx : tx.id ∈ p.ids → tx.id ∈ block) :
    Scanned p block (scanTx s tx) ∧ (scanTx s tx).setTxnsInBlock =
      if tx.id ∈ p.ids then insert tx.id s.setTxnsInBlock else s.setTxnsInBlock := by
  have hids : s.pool.ids = p.ids := by rw [hs.pool]; rfl
  rw [CTxMemPool.scanTx]
  by_cases hid : tx.id ∈ p.ids
  · rw [if_pos (hids ▸ hid), if_pos hid]
    have hdetach : detachChildren s.pool s.tips tx.id =
        (p.detached (insert tx.id s.setTxnsInBlock),
          (ascending (p.children tx.id)).foldl p.emplaceState s.tips) := by
      rw [hs.pool]
      exact h.detachChildren_eq _ _ _
    rw [hdetach]
    refine ⟨⟨rfl, ?_, hs.saved.foldl_emplaceState _, ?_⟩, rfl⟩
    · rw [keys_foldl_emplaceState, toFinset_ascending, hs.keys, biUnion_insert,
        union_comm]
    · have hparents : ∀ a ∈ block, s.pool.parents a ⊆ block := by
        intro a ha
        rw [hs.pool]
        exact sdiff_subset.trans (hblock a ha)
      exact union_subset hs.ancestors
        (ancestorLoop_subset _ hparents (hparents _ (htx hid)) (empty_subset _))
  · rw [if_neg (hids ▸ hid), if_neg hid]
    exact ⟨hs, rfl⟩

variable {vtx : List (Tx Id Out)}

lemma Scanned.foldl (hs : Scanned p block s) (h : WellFormed p)
    (hblock : ∀ a ∈ block, p.parents a ⊆ block) (hvtx : ∀ tx ∈ vtx, tx.id ∈ p.ids → tx.id ∈ block) :
    Scanned p block (vtx.foldl CTxMemPool.scanTx s) ∧
      (vtx.foldl CTxMemPool.scanTx s).setTxnsInBlock =
        s.setTxnsInBlock ∪ p.blockEntries vtx := by
  induction vtx generalizing s with
  | nil => exact ⟨hs, by simp [blockEntries]⟩
  | cons tx vtx ih =>
    obtain ⟨hscan, hset⟩ := hs.scanTx h hblock (hvtx tx List.mem_cons_self)
    obtain ⟨hrest, hrestSet⟩ := ih hscan fun tx' htx' => hvtx tx' (List.mem_cons_of_mem _ htx')
    refine ⟨hrest, ?_⟩
    rw [List.foldl_cons, hrestSet, hset]
    ext a
    split_ifs with hid
    · simp only [blockEntries, mem_union, mem_insert, mem_filter, List.mem_cons, exists_eq_or_imp]
      grind
    · simp only [blockEntries, mem_union, mem_filter, List.mem_cons, exists_eq_or_imp]
      grind

lemma reach_childrenBut_mono {s t : Finset Id} (hst : s ⊆ t) {a b : Id}
    (h : Reach (p.childrenBut t) a b) : Reach (p.childrenBut s) a b := by
  induction h with
  | refl => exact Reach.refl _ _
  | tail _ hc ih =>
    obtain ⟨hchild, hnot⟩ := mem_filter.mp hc
    exact ih.step (mem_filter.mpr ⟨hchild, fun hs => hnot (hst hs)⟩)

lemma WellFormed.mem_additionalChainTips (h : WellFormed p) (hkeys : tips.keys ⊆ p.ids) {a : Id} :
    a ∈ p.additionalChainTips tips ↔
      1 < (p.parents a).card ∧ ∃ t ∈ tips.keys, Reach (p.childrenBut tips.keys) t a := by
  simp only [additionalChainTips, mem_biUnion, mem_filter]
  constructor
  · rintro ⟨t, ht, hdesc, hcard⟩
    exact ⟨hcard, t, ht, (h.mem_calculateDescendants_empty (hkeys ht) _).mp hdesc⟩
  · rintro ⟨hcard, t, ht, hreach⟩
    exact ⟨t, ht, (h.mem_calculateDescendants_empty (hkeys ht) _).mpr hreach, hcard⟩

variable [DecidableEq Out]

/-- With a transaction of the pool its parents in the pool are in the block too. -/
def BringsParents (p : CTxMemPool Id Out) (vtx : List (Tx Id Out)) : Prop :=
  ∀ a ∈ p.blockEntries vtx, p.spentParents a ⊆ p.blockEntries vtx

/-- The pool without the block, with no chain tips listed. -/
def afterBlock (p : CTxMemPool Id Out) (block : Finset Id) : CTxMemPool Id Out :=
  { p.without block with setDirtyTxnChainTips := ∅ }

lemma WellFormed.afterBlock (h : WellFormed p) (block : Finset Id) :
    WellFormed (p.afterBlock block) :=
  have hw := h.without block
  ⟨⟨hw.mem_ids, hw.id_eq, hw.byIdem, hw.outpoint, hw.nextTx⟩, hw.parent, hw.child, hw.ranked⟩

/-- The entries that lose a parent and the listed ones. -/
def blockTips (p : CTxMemPool Id Out) (block : Finset Id) : Finset Id :=
  (block.biUnion p.children ∪ p.setDirtyTxnChainTips ∩ p.ids) \ block

lemma WellFormed.removeForBlock_eq (h : WellFormed p) (hvtx : p.BringsParents vtx) :
    ∃ tips : History Id, (p.afterBlock (p.blockEntries vtx)).Saved tips ∧
      tips.keys = p.blockTips (p.blockEntries vtx) ∧
      p.removeForBlock vtx =
        vtx.foldl removeConflicts ((p.afterBlock (p.blockEntries vtx)).updateTxnChainStates
          ((ascending ((p.afterBlock (p.blockEntries vtx)).additionalChainTips tips)).foldl
            (p.afterBlock (p.blockEntries vtx)).emplaceState tips)) := by
  have hblock : ∀ a ∈ p.blockEntries vtx, p.parents a ⊆ p.blockEntries vtx := by
    rw [h.parents_eq]
    exact hvtx
  have hinit : Scanned p (p.blockEntries vtx) ⟨p, ⟨∅, fun _ => 0⟩, ∅, ∅⟩ := by
    refine ⟨?_, by simp, fun t ht => by simp at ht, empty_subset _⟩
    ext1 <;> try rfl
    funext a
    exact sdiff_empty.symm
  have hentries : ∀ tx ∈ vtx, tx.id ∈ p.ids → tx.id ∈ p.blockEntries vtx := by
    intro tx htx hid
    rw [blockEntries, mem_filter]
    exact ⟨hid, tx, htx, rfl⟩
  obtain ⟨hscan, hset⟩ := hinit.foldl h hblock hentries
  rw [empty_union] at hset
  set s := vtx.foldl CTxMemPool.scanTx ⟨p, ⟨∅, fun _ => 0⟩, ∅, ∅⟩ with hs
  set block := p.blockEntries vtx
  have hpool : s.pool = p.detached block := by rw [hscan.pool, hset]
  have htips : s.pool.addDirtyTips s.tips =
      (ascending (p.setDirtyTxnChainTips ∩ p.ids)).foldl p.emplaceState s.tips := by
    rw [hpool]
    rfl
  refine ⟨⟨(s.pool.addDirtyTips s.tips).keys \ block, (s.pool.addDirtyTips s.tips).state⟩,
    ?_, ?_, ?_⟩
  · intro t ht
    obtain ⟨ht, htb⟩ := mem_sdiff.mp ht
    rw [htips] at ht ⊢
    rw [hscan.saved.foldl_emplaceState _ t ht]
    exact (withAncestors_without htb).symm
  · rw [htips, keys_foldl_emplaceState, toFinset_ascending, hscan.keys, hset]
    rfl
  · -- what is removed is the block and nothing else
    have hnone : s.setAncestorsFromBlock \ block = ∅ :=
      sdiff_eq_empty_iff_subset.mpr hscan.ancestors
    have hdrop : (ascending block).foldl removeUnchecked
        { s.pool with setDirtyTxnChainTips := ∅ } = p.afterBlock block := by
      rw [foldl_removeUnchecked, toFinset_ascending, hpool]
      ext1 <;> try rfl
      funext a
      by_cases ha : a ∈ block
      · simp [dropAll, CTxMemPool.afterBlock, ha]
      · simp only [dropAll, CTxMemPool.afterBlock, CTxMemPool.without, ha]
        refine (sdiff_eq_self_of_disjoint (disjoint_left.mpr ?_)).symm
        intro c hc hcb
        exact ha (hblock c hcb ((h.child a c).mp hc))
    have hempty : ascending (∅ : Finset Id) = [] := rfl
    rw [removeForBlock]
    simp only [← hs, hset, hnone, hdrop, hempty, List.foldl_nil]

section AfterBlock
variable {block keys : Finset Id} {a b : Id}

/-- Of an entry that is no chain tip the parents stay. -/
lemma WellFormed.parents_afterBlock (h : WellFormed p) (hb : a ∉ block)
    (ha : a ∉ p.blockTips block) : (p.afterBlock block).parents a = p.parents a := by
  show (if a ∈ block then ∅ else p.parents a \ block) = _
  rw [if_neg hb]
  refine sdiff_eq_self_of_disjoint (disjoint_left.mpr fun q hq hqb => ha ?_)
  refine mem_sdiff.mpr ⟨mem_union_left _ ?_, hb⟩
  exact mem_biUnion.mpr ⟨q, hqb, (h.child q a).mpr hq⟩

/-- Out of reach of the chain tips. -/
def OutOfReach (p : CTxMemPool Id Out) (block keys : Finset Id) (a : Id) : Prop :=
  a ∈ p.ids ∧ a ∉ block ∧ a ∉ keys ∧
    ∀ t ∈ keys, ¬ Reach ((p.afterBlock block).childrenBut keys) t a

lemma WellFormed.outOfReach_of_reach (h : WellFormed p) (hkeys : p.blockTips block ⊆ keys)
    (ha : p.OutOfReach block keys a) (hab : Reach p.parents a b) : p.OutOfReach block keys b := by
  induction hab with
  | refl => exact ha
  | tail _ hc ih =>
    rename_i b c _
    obtain ⟨_, hbb, hbk, hbt⟩ := ih
    have hparents := h.parents_afterBlock hbb fun hb => hbk (hkeys hb)
    have hcr : c ∈ (p.afterBlock block).parents b := by rwa [hparents]
    have hstep : b ∈ (p.afterBlock block).childrenBut keys c :=
      (h.afterBlock block).mem_childrenBut.mpr ⟨hcr, hbk⟩
    have hcids := (h.afterBlock block).parents_subset b hcr
    refine ⟨(mem_sdiff.mp hcids).1, (mem_sdiff.mp hcids).2, ?_, ?_⟩
    · exact fun hck => hbt c hck ((Reach.refl _ _).step hstep)
    · exact fun t ht hreach => hbt t ht (hreach.step hstep)

/-- The entries out of reach are clean and keep their totals. -/
lemma Recoverable.clean_of_outOfReach (h : p.Recoverable) (hkeys : p.blockTips block ⊆ keys)
    (ha : p.OutOfReach block keys a) :
    p.isDirty a = false ∧ p.withAncestors a = (p.afterBlock block).total a := by
  have hreach : ∀ b, Reach p.parents a b → p.OutOfReach block keys b :=
    fun b hb => h.toWellFormed.outOfReach_of_reach hkeys ha hb
  have hclean : p.isDirty a = false := by
    rw [← Bool.not_eq_true]
    intro hdirty
    obtain ⟨b, hb, hab⟩ := h.dirty a hdirty
    obtain ⟨hbids, hbb, hbk, _⟩ := hreach b hab
    refine hbk (hkeys (mem_sdiff.mpr ⟨mem_union_right _ ?_, hbb⟩))
    exact mem_inter.mpr ⟨hb, hbids⟩
  refine ⟨hclean, ?_⟩
  rw [h.exact a ha.1 hclean]
  exact (h.toWellFormed.total_without fun b hb => (hreach b hb).2.1).symm

end AfterBlock

/-- Updating the chain states after a block makes all entries clean and exact. -/
theorem Recoverable.updateTxnChainStates_afterBlock (h : p.Recoverable)
    (hsaved : (p.afterBlock block).Saved tips) (htips : tips.keys = p.blockTips block) :
    ((p.afterBlock block).updateTxnChainStates
      ((ascending ((p.afterBlock block).additionalChainTips tips)).foldl
        (p.afterBlock block).emplaceState tips)).Settled := by
  set r := p.afterBlock block with hr
  have hwf : WellFormed r := h.toWellFormed.afterBlock block
  set all := (ascending (r.additionalChainTips tips)).foldl r.emplaceState tips with hall
  have hkeys : all.keys = tips.keys ∪ r.additionalChainTips tips := by
    rw [keys_foldl_emplaceState, toFinset_ascending]
  have hsub : tips.keys ⊆ r.ids := by
    rw [htips]
    refine sdiff_subset_sdiff (union_subset ?_ inter_subset_right)
      (Finset.Subset.refl _)
    exact biUnion_subset.mpr fun b _ => h.children_subset b
  have hadd : ∀ a, a ∈ r.additionalChainTips tips → a ∈ r.ids := by
    intro a ha
    obtain ⟨hcard, _⟩ := (hwf.mem_additionalChainTips hsub).mp ha
    obtain ⟨q, hq⟩ := card_pos.mp (Nat.lt_of_succ_lt hcard)
    exact (hwf.mem_ids_of_parent hq).1
  have hallsub : all.keys ⊆ r.ids := by
    rw [hkeys]
    exact union_subset hsub hadd
  have hbelow : p.blockTips block ⊆ all.keys := by
    rw [hkeys, ← htips]
    exact subset_union_left
  have hread : ∀ a ∈ r.ids, r.withAncestors a = p.withAncestors a ∧ r.own a = p.own a ∧
      r.isDirty a = p.isDirty a := by
    intro a ha
    have hab := (mem_sdiff.mp ha).2
    exact ⟨withAncestors_without hab, own_without hab, isDirty_without hab⟩
  have hout : ∀ a ∈ r.ids, a ∉ all.keys →
      (∀ t ∈ all.keys, ¬ Reach (r.childrenBut all.keys) t a) → p.OutOfReach block all.keys a :=
    fun a ha hak hat =>
      ⟨(mem_sdiff.mp ha).1, (mem_sdiff.mp ha).2, hak, hat⟩
  -- an entry below the tips that is none has one parent, as before the block
  have hfollow : ∀ a ∈ r.ids, a ∉ all.keys →
      (∃ t ∈ all.keys, Reach (r.childrenBut all.keys) t a) →
      ∃ q, r.parents a = {q} ∧ r.withAncestors a = r.own a + r.withAncestors q := by
    rintro a ha hak ⟨t, ht, hreach⟩
    have hfrom : ∃ t ∈ tips.keys, Reach (r.childrenBut tips.keys) t a := by
      have hreach' : Reach (r.childrenBut tips.keys) t a :=
        reach_childrenBut_mono (htips ▸ hbelow) hreach
      rw [hkeys] at ht
      rcases mem_union.mp ht with ht | ht
      · exact ⟨t, ht, hreach'⟩
      · obtain ⟨_, t₀, ht₀, hreach₀⟩ := (hwf.mem_additionalChainTips hsub).mp ht
        exact ⟨t₀, ht₀, hreach₀.trans hreach'⟩
    have hcard : ¬ 1 < (r.parents a).card := by
      intro hcard
      refine hak ?_
      rw [hkeys]
      exact mem_union_right _ ((hwf.mem_additionalChainTips hsub).mpr ⟨hcard, hfrom⟩)
    obtain ⟨q, hq⟩ : ∃ q, q ∈ r.parents a := by
      rcases hreach.cases_tail with rfl | ⟨q, _, hq⟩
      · exact absurd ht hak
      · exact ⟨q, (hwf.mem_childrenBut.mp hq).1⟩
    have hone : r.parents a = {q} :=
      eq_singleton_iff_unique_mem.mpr ⟨hq, fun q' hq' =>
        card_le_one.mp (not_lt.mp hcard) q' hq' q hq⟩
    refine ⟨q, hone, ?_⟩
    obtain ⟨hwith, hown, _⟩ := hread a ha
    rw [hwith, hown, (hread q (hwf.parents_subset a hq)).1]
    refine h.single a q ?_
    rw [← h.toWellFormed.parents_afterBlock (mem_sdiff.mp ha).2 fun hab => hak (hbelow hab)]
    exact hone
  have hexact : ∀ a ∈ r.ids, passOn (r.childrenBut all.keys) all.keys r.withAncestors r.total a =
      r.total a := by
    intro a ha
    obtain ⟨rank, hrank⟩ := hwf.ranked
    have htotal : r.total = fun a => ∑ b ∈ reached r.parents r.ids a, r.own b :=
      funext hwf.total_eq
    rw [htotal]
    refine passOn_eq_sum_reached (fun _ _ => hwf.mem_childrenBut) hrank
      (fun a _ => hwf.parents_subset a) ?_ hfollow ha
    intro a ha hak hat
    rw [(hread a ha).1, (h.clean_of_outOfReach hbelow (hout a ha hak hat)).2, hwf.total_eq]
  rw [hwf.updateTxnChainStates_eq hallsub (hsaved.foldl_emplaceState _)]
  refine ⟨hwf.setTotals _ _, fun a ha => ?_⟩
  have hsome := (hwf.mem_ids a).mp ha
  rw [isDirty_setTotals _ _ hsome, withAncestors_setTotals _ _ hsome, total_setTotals]
  refine ⟨?_, hexact a ha⟩
  split
  · rfl
  · rename_i hnone
    rw [not_or] at hnone
    rw [(hread a ha).2.2]
    exact (h.clean_of_outOfReach hbelow
      (hout a ha hnone.1 fun t ht hreach => hnone.2 ⟨t, ht, hreach⟩)).1

lemma Settled.foldl_removeConflicts (h : p.Settled) (vtx : List (Tx Id Out)) :
    (vtx.foldl CTxMemPool.removeConflicts p).Settled := by
  induction vtx generalizing p with
  | nil => exact h
  | cons tx vtx ih => exact ih (h.removeConflicts tx)

lemma Recoverable.removeForBlock (h : p.Recoverable)
    (hvtx : p.BringsParents vtx) : (p.removeForBlock vtx).Settled := by
  obtain ⟨tips, hsaved, htips, heq⟩ := h.toWellFormed.removeForBlock_eq hvtx
  rw [heq]
  exact (h.updateTxnChainStates_afterBlock hsaved htips).foldl_removeConflicts vtx

theorem Accurate.removeForBlock (h : p.Accurate)
    (hvtx : p.BringsParents vtx) : (p.removeForBlock vtx).Accurate :=
  have hsettled := h.recoverable.removeForBlock hvtx
  hsettled.toWellFormed.accurate_of_clean hsettled.settled

/-- After a block every entry that is left is clean, and its totals are exact. -/
theorem removeForBlock_exact (h : p.Recoverable) {vtx : List (Tx Id Out)}
    (hvtx : p.BringsParents vtx) : ∀ a ∈ (p.removeForBlock vtx).ids,
    (p.removeForBlock vtx).isDirty a = false ∧
      (p.removeForBlock vtx).withAncestors a = (p.removeForBlock vtx).total a :=
  (h.removeForBlock hvtx).settled

end PyrrhaNode.MemPool.CTxMemPool
