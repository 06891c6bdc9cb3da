import PyrrhaNode.MemPoolLinks

/-!
# Removal from the mempool

Entries are removed one by one, after their links have been taken out of the links of
other entries. What is left is the pool without them, and it is well formed again.
-/
namespace PyrrhaNode.MemPool.CTxMemPool
open Finset Ancestry

variable {Id Out : Type} [LinearOrder Id] [DecidableEq Out] {p : CTxMemPool Id Out} {l : List Id}

/-- What calls of `removeUnchecked` do: the links of other entries stay. -/
def dropAll (p : CTxMemPool Id Out) (s : Finset Id) : CTxMemPool Id Out :=
  { p with
    ids := p.ids \ s
    mapTx := fun a => if a ∈ s then none else p.mapTx a
    byIdem := fun h => if ∃ a ∈ s, (p.mapTx a).map (·.tx.idem) = some h then none else p.byIdem h
    parents := fun a => if a ∈ s then ∅ else p.parents a
    children := fun a => if a ∈ s then ∅ else p.children a
    mapNextTx := fun o => if ∃ a ∈ s, o ∈ p.vin a then none else p.mapNextTx o
    outpointMap := fun o => if ∃ a ∈ s, o ∈ p.vout a then none else p.outpointMap o }

/-- The pool without some of its entries. -/
def without (p : CTxMemPool Id Out) (s : Finset Id) : CTxMemPool Id Out :=
  dropAll
    { p with parents := fun a => p.parents a \ s, children := fun a => p.children a \ s } s

/-- Nothing is left that spends from an entry of the set. -/
def DescendantClosed (p : CTxMemPool Id Out) (s : Finset Id) : Prop :=
  ∀ a ∈ s, p.children a ⊆ s

@[simp] lemma vin_dropAll (s : Finset Id) (a : Id) :
    (p.dropAll s).vin a = if a ∈ s then [] else p.vin a := by
  by_cases ha : a ∈ s <;> simp [vin, dropAll, ha]

@[simp] lemma vout_dropAll (s : Finset Id) (a : Id) :
    (p.dropAll s).vout a = if a ∈ s then [] else p.vout a := by
  by_cases ha : a ∈ s <;> simp [vout, dropAll, ha]

lemma removeUnchecked_eq (it : Id) : p.removeUnchecked it = p.dropAll {it} := by
  ext1
  · exact erase_eq _ _
  · funext a
    by_cases ha : a = it <;> simp [removeUnchecked, dropAll, ha]
  · funext h
    cases hit : p.mapTx it with
    | none => simp [removeUnchecked, dropAll, hit]
    | some e =>
      by_cases hh : e.tx.idem = h
      · simp [removeUnchecked, dropAll, hit, hh]
      · simp [removeUnchecked, dropAll, hit, hh, Function.update_of_ne (Ne.symm hh)]
  iterate 2
    funext a
    by_cases ha : a = it <;> simp [removeUnchecked, dropAll, ha]
  iterate 2
    funext o
    simp [removeUnchecked, dropAll, eraseOuts]
  · rfl
  · rfl

/-- Two rounds of blanking out what belongs to some entries. -/
lemma ite_exists_union {β : Type*} {s t : Finset Id} {c c' : Id → Prop} [DecidablePred c]
    [DecidablePred c'] (hc : ∀ a, c' a ↔ a ∉ s ∧ c a) (x y : β) :
    (if ∃ a ∈ t, c' a then x else if ∃ a ∈ s, c a then x else y) =
      if ∃ a ∈ s ∪ t, c a then x else y := by
  by_cases hs : ∃ a ∈ s, c a
  · have hu : ∃ a ∈ s ∪ t, c a := by
      obtain ⟨a, ha, hca⟩ := hs
      exact ⟨a, mem_union_left _ ha, hca⟩
    rw [if_pos hs, if_pos hu, ite_self]
  · rw [if_neg hs]
    refine if_congr ?_ rfl rfl
    constructor
    · rintro ⟨a, ha, hca⟩
      exact ⟨a, mem_union_right _ ha, ((hc a).mp hca).2⟩
    · rintro ⟨a, ha, hca⟩
      have has : a ∉ s := fun has => hs ⟨a, has, hca⟩
      exact ⟨a, (mem_union.mp ha).resolve_left has, (hc a).mpr ⟨has, hca⟩⟩

lemma dropAll_dropAll (s t : Finset Id) : (p.dropAll s).dropAll t = p.dropAll (s ∪ t) := by
  ext1
  · exact sdiff_sdiff_left
  · funext a
    by_cases hs : a ∈ s <;> by_cases ht : a ∈ t <;> simp [dropAll, ht]
  · funext h
    refine ite_exists_union (fun a => ?_) _ _
    by_cases hs : a ∈ s <;> simp [dropAll, hs]
  iterate 2
    funext a
    by_cases hs : a ∈ s <;> by_cases ht : a ∈ t <;> simp [dropAll, ht]
  iterate 2
    funext o
    refine ite_exists_union (fun a => ?_) _ _
    by_cases hs : a ∈ s <;> simp [hs]
  · rfl
  · rfl

lemma foldl_removeUnchecked (l : List Id) (p : CTxMemPool Id Out) :
    l.foldl removeUnchecked p = p.dropAll l.toFinset := by
  induction l generalizing p with
  | nil => ext1 <;> simp [dropAll]
  | cons it l ih =>
    rw [List.foldl_cons, ih, removeUnchecked_eq, dropAll_dropAll, List.toFinset_cons,
      insert_eq]

section

variable (s : Finset Id) (a : Id)
include s

@[simp] lemma ids_without : (p.without s).ids = p.ids \ s := rfl

@[simp] lemma mapTx_without :
    (p.without s).mapTx a = if a ∈ s then none else p.mapTx a := rfl

@[simp] lemma vin_without :
    (p.without s).vin a = if a ∈ s then [] else p.vin a := vin_dropAll s a

@[simp] lemma vout_without :
    (p.without s).vout a = if a ∈ s then [] else p.vout a := vout_dropAll s a

@[simp] lemma parents_without :
    (p.without s).parents a = if a ∈ s then ∅ else p.parents a \ s := rfl

@[simp] lemma children_without :
    (p.without s).children a = if a ∈ s then ∅ else p.children a \ s := rfl

end

lemma Indexed.without (h : Indexed p) (s : Finset Id) : Indexed (p.without s) where
  mem_ids a := by
    by_cases ha : a ∈ s <;> simp [ha, h.mem_ids]
  id_eq a e he := by
    by_cases ha : a ∈ s
    · simp [ha] at he
    · exact h.id_eq a e (by simpa [ha] using he)
  byIdem k a := by
    show (if _ then _ else _) = _ ↔ _
    constructor
    · intro hk
      split at hk
      · simp at hk
      rename_i hnone
      obtain ⟨e, he, hidem⟩ := (h.byIdem k a).mp hk
      have ha : a ∉ s := fun ha => hnone ⟨a, ha, by simp [he, hidem]⟩
      exact ⟨e, by simp [ha, he], hidem⟩
    · rintro ⟨e, he, hidem⟩
      have ha : a ∉ s := by
        intro ha
        simp [ha] at he
      have hk : p.byIdem k = some a := (h.byIdem k a).mpr ⟨e, by simpa [ha] using he, hidem⟩
      rw [if_neg, hk]
      rintro ⟨b, hb, hbk⟩
      obtain ⟨e', he', hidem'⟩ := Option.map_eq_some_iff.mp hbk
      have hkb := (h.byIdem k b).mpr ⟨e', he', hidem'⟩
      rw [hk, Option.some_inj] at hkb
      exact ha (hkb ▸ hb)
  outpoint o a := by
    rw [vout_without]
    show (if _ then _ else _) = _ ↔ _
    constructor
    · intro ho
      split at ho
      · simp at ho
      rename_i hnone
      have hoa := (h.outpoint o a).mp ho
      have ha : a ∉ s := fun ha => hnone ⟨a, ha, hoa⟩
      simpa [ha] using hoa
    · intro hoa
      have ha : a ∉ s := by
        intro ha
        simp [ha] at hoa
      rw [if_neg ha] at hoa
      have ho := (h.outpoint o a).mpr hoa
      rw [if_neg, ho]
      rintro ⟨b, hb, hob⟩
      have hbo := (h.outpoint o b).mpr hob
      rw [ho, Option.some_inj] at hbo
      exact ha (hbo ▸ hb)
  nextTx o a ho := by
    change (if _ then _ else _) = _ at ho
    split at ho
    · simp at ho
    rename_i hnone
    have hoa := h.nextTx o a ho
    have ha : a ∉ s := fun ha => hnone ⟨a, ha, hoa⟩
    simpa [ha] using hoa

lemma Linked.without (h : Linked p) (s : Finset Id) : Linked (p.without s) where
  parent a b := by
    by_cases ha : a ∈ s
    · simp [ha]
    · by_cases hb : b ∈ s
      · simp [ha, hb]
      · simp [ha, hb, h.parent]
  child a b := by
    by_cases ha : a ∈ s <;> by_cases hb : b ∈ s <;> simp [ha, hb, h.child]
  ranked := by
    obtain ⟨rank, hrank⟩ := h.ranked
    refine ⟨rank, fun a b hb => ?_⟩
    rw [parents_without] at hb
    split at hb
    · simp at hb
    · exact hrank a b (mem_sdiff.mp hb).1

lemma WellFormed.without (h : WellFormed p) (s : Finset Id) : WellFormed (p.without s) :=
  ⟨h.toIndexed.without s, h.toLinked.without s⟩

omit [DecidableEq Out] in
lemma foldl_updateChild (add : Bool) (l : List Id) (it : Id) (p : CTxMemPool Id Out) :
    l.foldl (fun p parent => p.updateChild parent it add) p =
      { p with children := fun a => if a ∈ l then
          if add then insert it (p.children a) else (p.children a).erase it
          else p.children a } := by
  induction l generalizing p with
  | nil => simp
  | cons q l ih =>
    rw [List.foldl_cons, ih]
    ext1 <;> try rfl
    funext a
    by_cases haq : a = q
    · subst haq
      cases add <;> simp [updateChild]
    · simp [updateChild, haq]

omit [DecidableEq Out] in
lemma foldl_updateAncestorsOf_false (l : List Id) {p : CTxMemPool Id Out}
    (h : ∀ a b, b ∈ p.children a → a ∈ p.parents b) :
    l.foldl (fun p it => p.updateAncestorsOf false it) p =
      { p with children := fun a => p.children a \ l.toFinset } := by
  induction l generalizing p with
  | nil => simp
  | cons it l ih =>
    have hstep : p.updateAncestorsOf false it =
        { p with children := fun a => (p.children a).erase it } := by
      rw [updateAncestorsOf, foldl_updateChild]
      ext1 <;> try rfl
      funext a
      by_cases ha : a ∈ p.parents it
      · simp [ha]
      · have hit : it ∉ p.children a := fun hit => ha (h a it hit)
        simp [hit]
    rw [List.foldl_cons, hstep, ih]
    · ext1 <;> try rfl
      simp only [List.toFinset_cons]
      ext b
      simp only [mem_sdiff, mem_erase, mem_insert]
      tauto
    · exact fun a b hb => h a b (mem_of_mem_erase hb)

omit [DecidableEq Out] in
lemma foldl_updateChildrenForRemoval {p : CTxMemPool Id Out}
    (h : ∀ a ∈ l, p.children a = ∅) : l.foldl updateChildrenForRemoval p = p := by
  induction l with
  | nil => rfl
  | cons it l ih =>
    have hstep : p.updateChildrenForRemoval it = p := by
      rw [updateChildrenForRemoval, h it List.mem_cons_self]
      rfl
    rw [List.foldl_cons, hstep]
    exact ih fun a ha => h a (List.mem_cons_of_mem _ ha)

@[simp] lemma toFinset_ascending (s : Finset Id) : (ascending s).toFinset = s := by
  ext a
  simp

theorem WellFormed.removeStaged_eq (h : WellFormed p) {s : Finset Id}
    (hs : p.DescendantClosed s) : p.removeStaged s = p.without s := by
  rw [removeStaged]
  have hfirst := foldl_updateAncestorsOf_false (ascending s) fun a b hb => (h.child a b).mp hb
  rw [toFinset_ascending] at hfirst
  simp only [hfirst]
  rw [foldl_updateChildrenForRemoval, foldl_removeUnchecked, toFinset_ascending,
    CTxMemPool.without]
  · ext1 <;> try rfl
    funext a
    by_cases ha : a ∈ s
    · simp [dropAll, ha]
    · simp only [dropAll, ha]
      refine (sdiff_eq_self_of_disjoint (disjoint_left.mpr fun q hq hqs => ?_)).symm
      exact ha (hs q hqs ((h.child q a).mpr hq))
  · intro a ha
    exact sdiff_eq_empty_iff_subset.mpr (hs a (mem_ascending.mp ha))

omit [DecidableEq Out] in
/-- The entries that are gathered for removal, with all that spend from them. -/
lemma WellFormed.descendantClosed_foldl (h : WellFormed p) (hl : ∀ a ∈ l, a ∈ p.ids) {s : Finset Id}
    (hs : p.DescendantClosed s) :
    p.DescendantClosed (l.foldl (fun s it => p.calculateDescendants it s ∅) s) := by
  induction l generalizing s with
  | nil => exact hs
  | cons it l ih =>
    refine ih (fun a ha => hl a (List.mem_cons_of_mem _ ha)) ?_
    have hbut : ∀ a, p.childrenBut ∅ a = p.children a := by simp [childrenBut]
    have hmem := fun x => h.mem_calculateDescendants (hl it List.mem_cons_self) (x := x)
      fun x hx => (hbut x).symm ▸ hs x hx
    intro a ha b hb
    obtain ⟨r, hr, hra⟩ := (hmem a).mp ha
    exact (hmem b).mpr ⟨r, hr, hra.step ((hbut a).symm ▸ hb)⟩

omit [DecidableEq Out] in
lemma WellFormed.removalRoots_subset (h : WellFormed p) (tx : Tx Id Out) :
    p.removalRoots tx ⊆ p.ids := by
  intro a ha
  rw [removalRoots] at ha
  split at ha
  · rename_i hid
    exact mem_singleton.mp ha ▸ hid
  · obtain ⟨o, _, ho⟩ := List.mem_filterMap.mp (List.mem_toFinset.mp ha)
    exact h.mem_ids_of_mem_vin (h.nextTx o a ho)

theorem WellFormed.removeRecursive_eq (h : WellFormed p) (tx : Tx Id Out) :
    ∃ s, p.DescendantClosed s ∧ p.removeRecursive tx = p.without s := by
  have hclosed := h.descendantClosed_foldl (s := ∅)
    (fun a ha => h.removalRoots_subset tx (mem_ascending.mp ha)) (by simp [DescendantClosed])
  exact ⟨_, hclosed, h.removeStaged_eq hclosed⟩

theorem removeConflicts_induction {P : CTxMemPool Id Out → Prop} (hwf : ∀ p, P p → WellFormed p)
    (hwithout : ∀ p s, P p → p.DescendantClosed s → P (p.without s)) (hp : P p)
    (tx : Tx Id Out) : P (p.removeConflicts tx) := by
  rw [removeConflicts]
  generalize tx.vin = vin
  induction vin generalizing p with
  | nil => exact hp
  | cons o vin ih =>
    refine ih ?_
    dsimp only
    split
    · rename_i conflict _
      split
      · exact hp
      · obtain ⟨s, hs, heq⟩ := (hwf p hp).removeRecursive_eq conflict.tx
        exact heq ▸ hwithout p s hp hs
    · exact hp

end PyrrhaNode.MemPool.CTxMemPool
