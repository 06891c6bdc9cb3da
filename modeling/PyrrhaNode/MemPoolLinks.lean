import PyrrhaNode.MemPool

/-!
# The links of the mempool

In a well-formed pool the indices and the links say what can be read off the transactions:
which entry creates an outpoint, which one spends it, and who is whose parent. The searches
along the links then find the ancestors and the descendants.
-/
namespace PyrrhaNode.MemPool.CTxMemPool
open Option Finset Ancestry

variable {Id Out : Type} {p : CTxMemPool Id Out}

/-- The indices agree with the entries. -/
structure Indexed (p : CTxMemPool Id Out) : Prop where
  mem_ids : ∀ a, a ∈ p.ids ↔ (p.mapTx a).isSome = true
  id_eq : ∀ a e, p.mapTx a = some e → e.tx.id = a
  byIdem : ∀ h a, p.byIdem h = some a ↔ ∃ e, p.mapTx a = some e ∧ e.tx.idem = h
  outpoint : ∀ o a, p.outpointMap o = some a ↔ o ∈ p.vout a
  nextTx : ∀ o a, p.mapNextTx o = some a → o ∈ p.vin a

/-- So do the links, and there are no cycles. -/
structure Linked (p : CTxMemPool Id Out) : Prop where
  parent : ∀ a b, b ∈ p.parents a ↔ ∃ o ∈ p.vin a, o ∈ p.vout b
  child : ∀ a b, b ∈ p.children a ↔ a ∈ p.parents b
  ranked : ∃ rank, Ranked p.parents rank

/-- Indices and links are right. -/
structure WellFormed (p : CTxMemPool Id Out) : Prop extends Indexed p, Linked p

variable {a : Id} {limit : WithTop ℕ} {x it b : Id} {fuel : ℕ} {o : Out}
  {tips found stage done roots : Finset Id}

lemma Indexed.mem_ids_of_mem_vin (h : Indexed p) (ho : o ∈ p.vin a) :
    a ∈ p.ids := by
  rw [h.mem_ids]
  cases ha : p.mapTx a with
  | none => simp [vin, ha] at ho
  | some e => rfl

lemma Indexed.mem_ids_of_mem_vout (h : Indexed p) (ho : o ∈ p.vout a) :
    a ∈ p.ids := by
  rw [h.mem_ids]
  cases ha : p.mapTx a with
  | none => simp [vout, ha] at ho
  | some e => rfl

lemma WellFormed.mem_ids_of_parent (h : WellFormed p) (hb : b ∈ p.parents a) :
    a ∈ p.ids ∧ b ∈ p.ids := by
  obtain ⟨o, ho, hbo⟩ := (h.parent a b).mp hb
  exact ⟨h.mem_ids_of_mem_vin ho, h.mem_ids_of_mem_vout hbo⟩

lemma WellFormed.parents_subset (h : WellFormed p) (a : Id) : p.parents a ⊆ p.ids :=
  fun _ hb => (h.mem_ids_of_parent hb).2

lemma WellFormed.children_subset (h : WellFormed p) (a : Id) : p.children a ⊆ p.ids :=
  fun _ hb => (h.mem_ids_of_parent ((h.child _ _).mp hb)).1

lemma WellFormed.notMem_parents_self (h : WellFormed p) (a : Id) : a ∉ p.parents a := by
  obtain ⟨rank, hrank⟩ := h.ranked
  intro ha
  exact absurd (hrank a a ha) (lt_irrefl _)

lemma WellFormed.withEntries (h : WellFormed p) {m : Id → Option (CTxMemPoolEntry Id Out)}
    (hm : ∀ a, (m a).map (·.tx) = (p.mapTx a).map (·.tx)) :
    WellFormed { p with mapTx := m } := by
  have hsome : ∀ a, (m a).isSome = (p.mapTx a).isSome := by
    intro a
    rw [← isSome_map, hm, isSome_map]
  have hread : ∀ {β : Type} (x : β) (f : Tx Id Out → β) a,
      (m a).elim x (fun e => f e.tx) = (p.mapTx a).elim x (fun e => f e.tx) := by
    intro β x f a
    have helim := congrArg (Option.elim · x f) (hm a)
    simpa only [elim_map] using! helim
  have htx : ∀ a e, m a = some e → ∃ e', p.mapTx a = some e' ∧ e'.tx = e.tx := by
    intro a e he
    have hmap := hm a
    rw [he] at hmap
    exact map_eq_some_iff.mp hmap.symm
  have htx' : ∀ a e, p.mapTx a = some e → ∃ e', m a = some e' ∧ e'.tx = e.tx := by
    intro a e he
    have hmap := hm a
    rw [he] at hmap
    exact map_eq_some_iff.mp hmap
  have hvin : ∀ a, CTxMemPool.vin { p with mapTx := m } a = p.vin a :=
    fun a => hread [] (·.vin) a
  have hvout : ∀ a, CTxMemPool.vout { p with mapTx := m } a = p.vout a :=
    fun a => hread [] (·.vout) a
  refine ⟨⟨?_, ?_, ?_, ?_, ?_⟩, ?_, h.child, h.ranked⟩
  · exact fun a => (h.mem_ids a).trans (by rw [hsome])
  · intro a e he
    obtain ⟨e', he', htxe⟩ := htx a e he
    exact htxe ▸ h.id_eq a e' he'
  · intro k a
    refine (h.byIdem k a).trans ⟨?_, ?_⟩
    · rintro ⟨e, he, hk⟩
      obtain ⟨e', he', htxe⟩ := htx' a e he
      exact ⟨e', he', htxe ▸ hk⟩
    · rintro ⟨e, he, hk⟩
      obtain ⟨e', he', htxe⟩ := htx a e he
      exact ⟨e', he', htxe ▸ hk⟩
  · intro o a
    rw [hvout]
    exact h.outpoint o a
  · intro o a
    rw [hvin]
    exact h.nextTx o a
  · intro a b
    simp only [hvin, hvout]
    exact h.parent a b

lemma card_ids_le_searchFuel (p : CTxMemPool Id Out) : p.ids.card ≤ p.searchFuel := by
  unfold searchFuel
  nlinarith

section Spent
variable [DecidableEq Out]

/-- The entries that create an outpoint which the entry spends. -/
def spentParents (p : CTxMemPool Id Out) (a : Id) : Finset Id :=
  p.ids.filter fun b => ∃ o ∈ p.vin a, o ∈ p.vout b

lemma WellFormed.parents_eq (h : WellFormed p) : p.parents = p.spentParents := by
  ext b
  rw [h.parent, spentParents, mem_filter]
  constructor
  · rintro ⟨o, ho, hb⟩
    exact ⟨h.mem_ids_of_mem_vout hb, o, ho, hb⟩
  · exact fun hb => hb.2

end Spent

variable [LinearOrder Id]

lemma searchParents_eq (p : CTxMemPool Id Out) {vin : List Out} {acc : Finset Id}
    (hlimit : (((acc ∪ (vin.filterMap p.outpointMap).toFinset.filter (· ∈ p.ids)).card + 1 : ℕ) :
      WithTop ℕ) ≤ limit) :
    p.searchParents limit vin acc =
      some (acc ∪ (vin.filterMap p.outpointMap).toFinset.filter (· ∈ p.ids)) := by
  induction vin generalizing acc with
  | nil => simp [searchParents]
  | cons o vin ih =>
    rw [searchParents]
    cases ho : p.outpointMap o with
    | none =>
      simp only [List.filterMap_cons, ho] at hlimit ⊢
      exact ih hlimit
    | some b =>
      simp only [List.filterMap_cons, ho, List.toFinset_cons, filter_insert] at hlimit ⊢
      by_cases hb : b ∈ p.ids
      · simp only [hb, if_true] at hlimit ⊢
        have hset : insert b acc ∪ (vin.filterMap p.outpointMap).toFinset.filter (· ∈ p.ids) =
            acc ∪ insert b ((vin.filterMap p.outpointMap).toFinset.filter (· ∈ p.ids)) := by
          rw [insert_union, union_insert]
        rw [← hset] at hlimit ⊢
        have hle : (((insert b acc).card + 1 : ℕ) : WithTop ℕ) ≤ limit := by
          refine le_trans ?_ hlimit
          exact_mod_cast Nat.add_le_add_right
            (card_le_card subset_union_left) 1
        rw [if_neg (not_lt.mpr hle)]
        exact ih hlimit
      · simp only [hb] at hlimit ⊢
        exact ih hlimit

/-- The inner loop over the parents of an entry: either all are staged, or the limit is
exceeded by what has been found. -/
lemma stageParents_cases (limit : WithTop ℕ) (anc : Finset Id) (ps : List Id) (stage : Finset Id) :
    stageParents limit anc ps stage = .ok (stage ∪ (ps.toFinset \ anc)) ∨
      ∃ stage', stage ⊆ stage' ∧ stage' ⊆ stage ∪ (ps.toFinset \ anc) ∧
        limit < ((stage'.card + anc.card : ℕ) : WithTop ℕ) ∧
        stageParents limit anc ps stage = .error (anc ∪ stage') := by
  induction ps generalizing stage with
  | nil =>
    simp [stageParents]
  | cons q ps ih =>
    rw [stageParents]
    have hset : (if q ∈ anc then stage else insert q stage) ∪ (ps.toFinset \ anc) =
        stage ∪ ((q :: ps).toFinset \ anc) := by
      ext x
      by_cases hq : q ∈ anc
      · simp only [hq, mem_union, mem_sdiff, List.mem_toFinset,
          List.mem_cons]
        constructor
        · tauto
        · rintro (hx | ⟨rfl | hx, hxa⟩)
          · exact .inl hx
          · exact absurd hq hxa
          · exact .inr ⟨hx, hxa⟩
      · simp only [hq, if_false, mem_union, mem_sdiff, List.mem_toFinset,
          List.mem_cons, mem_insert]
        constructor
        · rintro ((rfl | hx) | hx)
          · exact .inr ⟨.inl rfl, hq⟩
          · exact .inl hx
          · exact .inr ⟨.inr hx.1, hx.2⟩
        · tauto
    have hsub : stage ⊆ if q ∈ anc then stage else insert q stage := by
      split
      · exact Finset.Subset.refl _
      · exact subset_insert _ _
    by_cases hlim : limit < (((if q ∈ anc then stage else insert q stage).card + anc.card : ℕ) :
        WithTop ℕ)
    · right
      refine ⟨if q ∈ anc then stage else insert q stage, hsub, ?_, hlim, ?_⟩
      · rw [← hset]
        exact subset_union_left
      · rw [if_pos hlim]
    · rw [if_neg hlim, ← hset]
      rcases ih (if q ∈ anc then stage else insert q stage) with hok | ⟨s, h₁, h₂, h₃, h₄⟩
      · exact .inl hok
      · exact .inr ⟨s, hsub.trans h₁, h₂, h₃, h₄⟩

/-- If the limit is exceeded by what has been found, all has been found. -/
lemma eq_of_limit_lt {anc : Finset Id} (hcard : (found.card : WithTop ℕ) ≤ limit)
    (hlimit : limit < ((stage.card + anc.card : ℕ) : WithTop ℕ)) (hsub : anc ∪ stage ⊆ found)
    (hinter : ∀ y ∈ stage, y ∈ anc → y = x) :
    anc ∪ stage = found := by
  refine eq_of_subset_of_card_le hsub ?_
  have hlt : found.card < stage.card + anc.card := by exact_mod_cast hcard.trans_lt hlimit
  have hone : (anc ∩ stage).card ≤ 1 := by
    refine card_le_one.mpr fun y hy z hz => ?_
    rw [mem_inter] at hy hz
    rw [hinter y hy.2 hy.1, hinter z hz.2 hz.1]
  have hadd := card_union_add_card_inter anc stage
  omega

lemma mem_ancestorLoop {nodes : Finset Id}
    (hfound : ∀ x, x ∈ found ↔ ∃ r ∈ roots, Reach p.parents r x)
    (hcard : (found.card : WithTop ℕ) ≤ limit) (h : Search p.parents nodes roots done stage fuel)
    (hnext : ∀ x ∈ nodes, p.parents x ⊆ nodes) :
    x ∈ p.ancestorLoop limit ∅ fuel stage done ↔ x ∈ found := by
  induction fuel generalizing stage done with
  | zero =>
    have hempty := h.stage_eq_empty
    subst hempty
    rw [hfound]
    exact h.toFrontier.mem_iff
  | succ fuel ih =>
    rw [ancestorLoop]
    by_cases hne : stage.Nonempty
    · rw [dif_pos hne]
      simp only [notMem_empty, if_false]
      have hmin := stage.min'_mem hne
      have hvisit := h.visit hnext hmin
      set it := stage.min' hne
      have hps : (ascending (p.parents it)).toFinset = p.parents it := by
        ext y
        simp
      have hcases := stageParents_cases limit (insert it done) (ascending (p.parents it)) stage
      rw [hps] at hcases
      rcases hcases with hok | ⟨stage', h₁, h₂, h₃, herr⟩
      · rw [hok]
        exact ih hvisit
      rw [herr]
      have hall : insert it done ∪ stage' = found := by
        refine eq_of_limit_lt hcard h₃ ?_ (x := it) ?_
        · intro y hy
          refine (hfound y).mpr (hvisit.sound y ?_)
          by_cases hyit : y = it
          · simp [hyit]
          · rcases mem_union.mp hy with hy | hy
            · exact mem_union_left _ hy
            · exact mem_union_right _ (mem_erase.mpr ⟨hyit, h₂ hy⟩)
        · intro y hy hdone
          rcases mem_insert.mp hdone with hyit | hdone
          · exact hyit
          · rcases mem_union.mp (h₂ hy) with hy | hy
            · exact (disjoint_left.mp h.disjoint hy hdone).elim
            · exact ((mem_sdiff.mp hy).2 (mem_insert_of_mem hdone)).elim
      rw [hall]
    · have hempty := not_nonempty_iff_eq_empty.mp hne
      subst hempty
      rw [hfound]
      exact h.toFrontier.mem_iff

/-- Whatever is found lies in any set that has the parents of its entries. -/
lemma ancestorLoop_subset (p : CTxMemPool Id Out) {c inBlock : Finset Id}
    (hc : ∀ x ∈ c, p.parents x ⊆ c) (hstage : stage ⊆ c) (hdone : done ⊆ c) :
    p.ancestorLoop ⊤ inBlock fuel stage done ⊆ c := by
  induction fuel generalizing stage done with
  | zero => exact hdone
  | succ fuel ih =>
    rw [ancestorLoop]
    by_cases hne : stage.Nonempty
    · rw [dif_pos hne]
      have hmin := hstage (stage.min'_mem hne)
      set it := stage.min' hne
      by_cases hit : it ∈ inBlock
      · rw [if_pos hit]
        exact ih ((erase_subset _ _).trans hstage) hdone
      simp only [if_neg hit]
      have hcases := stageParents_cases ⊤ (insert it done) (ascending (p.parents it)) stage
      rcases hcases with hok | ⟨_, _, _, hlt, _⟩
      · rw [hok]
        refine ih ?_ (insert_subset hmin hdone)
        refine (erase_subset _ _).trans (union_subset hstage ?_)
        intro y hy
        exact hc it hmin (by simpa using (mem_sdiff.mp hy).1)
      · exact absurd hlt not_top_lt
    · rw [dif_neg hne]
      exact hdone

/-- The children, but for chain tips. -/
def childrenBut (p : CTxMemPool Id Out) (tips : Finset Id) (a : Id) : Finset Id :=
  (p.children a).filter (· ∉ tips)

lemma WellFormed.mem_childrenBut (h : WellFormed p) :
    b ∈ p.childrenBut tips a ↔ a ∈ p.parents b ∧ b ∉ tips := by
  rw [childrenBut, mem_filter, h.child]

/-- The descendants, added to a set that already has those of its entries. -/
lemma WellFormed.mem_calculateDescendants (h : WellFormed p) (hit : it ∈ p.ids) {s : Finset Id}
    (hs : ∀ x ∈ s, p.childrenBut tips x ⊆ s) :
    x ∈ p.calculateDescendants it s tips ↔
      ∃ r ∈ insert it s, Reach (p.childrenBut tips) r x := by
  have hsearch : Search (p.childrenBut tips) p.ids (insert it s) s
      (if it ∈ s then ∅ else {it}) p.searchFuel := by
    refine ⟨⟨?_, ?_, ?_⟩, ?_, ?_, ?_⟩
    · intro y hy
      refine ⟨y, ?_, Reach.refl _ y⟩
      rcases mem_union.mp hy with hy | hy
      · exact mem_insert_of_mem hy
      · split at hy
        · simp at hy
        · exact mem_insert.mpr (.inl (mem_singleton.mp hy))
    · intro y hy
      rcases mem_insert.mp hy with rfl | hy
      · by_cases hmem : y ∈ s
        · exact mem_union_left _ hmem
        · simp [hmem]
      · exact mem_union_left _ hy
    · exact fun y hy => (hs y hy).trans subset_union_left
    · split
      · simp
      · exact singleton_subset_iff.mpr hit
    · split
      · simp
      · rename_i hmem
        exact disjoint_singleton_left.mpr hmem
    · exact (card_le_card sdiff_subset).trans p.card_ids_le_searchFuel
  exact mem_explore hsearch fun y _ => (filter_subset _ _).trans (h.children_subset y)

lemma WellFormed.mem_calculateDescendants_empty (h : WellFormed p) (hit : it ∈ p.ids)
    (tips : Finset Id) :
    x ∈ p.calculateDescendants it ∅ tips ↔ Reach (p.childrenBut tips) it x := by
  rw [h.mem_calculateDescendants hit (by simp)]
  simp

variable [DecidableEq Out]

lemma Indexed.filterMap_outpointMap (h : Indexed p) (a : Id) :
    ((p.vin a).filterMap p.outpointMap).toFinset.filter (· ∈ p.ids) = p.spentParents a := by
  ext b
  simp only [mem_filter, List.mem_toFinset, List.mem_filterMap, spentParents, h.outpoint]
  tauto

/-- The search for the ancestors finds them, if there are not too many of them. -/
lemma WellFormed.mem_calculateMemPoolAncestors (h : WellFormed p)
    (hfrontier : Frontier p.parents roots done (p.parents a)) (hdisj : Disjoint (p.parents a) done)
    (hfound : ∀ x, x ∈ found ↔ ∃ r ∈ roots, Reach p.parents r x)
    (hparents : (((p.parents a).card + 1 : ℕ) : WithTop ℕ) ≤ limit)
    (hcard : (found.card : WithTop ℕ) ≤ limit) :
    p.calculateMemPoolAncestors a done limit = found := by
  have hsearch : p.searchParents limit (p.vin a) ∅ = some (p.parents a) := by
    have hset : ∅ ∪ ((p.vin a).filterMap p.outpointMap).toFinset.filter (· ∈ p.ids) =
        p.parents a := by
      rw [empty_union, h.filterMap_outpointMap, h.parents_eq]
    rw [p.searchParents_eq (by rw [hset]; exact hparents), hset]
  rw [calculateMemPoolAncestors, hsearch]
  ext x
  have hfuel : (p.ids \ done).card ≤ p.searchFuel :=
    (card_le_card sdiff_subset).trans p.card_ids_le_searchFuel
  exact mem_ancestorLoop hfound hcard ⟨hfrontier, h.parents_subset a, hdisj, hfuel⟩
    fun x _ => h.parents_subset x

end PyrrhaNode.MemPool.CTxMemPool
