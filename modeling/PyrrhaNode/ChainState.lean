import PyrrhaNode.MemPoolRemoval

/-!
# Chain state

`UpdateTxnChainState` sums the totals of the chain tips up anew and adds the differences to
the descendants between the tips. In closed form it sets the totals of all entries at once,
to what comes of passing the differences on.
-/
namespace PyrrhaNode.MemPool.CTxMemPool
open Function Finset Ancestry

variable {Id Out : Type} {p : CTxMemPool Id Out} {l : List Id}
  {tips : History Id} {tip : Id}

/-- The pool with other totals and flags. -/
def setTotals (p : CTxMemPool Id Out) (totals : Id → AncestorState) (dirty : Id → Bool) :
    CTxMemPool Id Out :=
  { p with mapTx := fun a =>
      (p.mapTx a).map fun e => { e with withAncestors := totals a, fDirty := dirty a } }

section SetTotals
variable (totals : Id → AncestorState) (dirty : Id → Bool) (a : Id)

@[simp] lemma vin_setTotals : (p.setTotals totals dirty).vin a = p.vin a := by
  cases ha : p.mapTx a <;> simp [vin, setTotals, ha]

@[simp] lemma vout_setTotals : (p.setTotals totals dirty).vout a = p.vout a := by
  cases ha : p.mapTx a <;> simp [vout, setTotals, ha]

@[simp] lemma own_setTotals : (p.setTotals totals dirty).own a = p.own a := by
  cases ha : p.mapTx a with
  | none => simp [own, setTotals, ha]
  | some e =>
    simp only [own, setTotals, ha]
    rfl

lemma withAncestors_setTotals {a : Id} (ha : (p.mapTx a).isSome = true) :
    (p.setTotals totals dirty).withAncestors a = totals a := by
  obtain ⟨e, he⟩ := Option.isSome_iff_exists.mp ha
  simp [withAncestors, setTotals, he]

lemma isDirty_setTotals {a : Id} (ha : (p.mapTx a).isSome = true) :
    (p.setTotals totals dirty).isDirty a = dirty a := by
  obtain ⟨e, he⟩ := Option.isSome_iff_exists.mp ha
  simp [isDirty, setTotals, he]

@[simp] lemma setTotals_setTotals (totals' : Id → AncestorState) (dirty' : Id → Bool) :
    (p.setTotals totals' dirty').setTotals totals dirty = p.setTotals totals dirty := by
  simp only [setTotals, Option.map_map]
  rfl

lemma setTotals_congr {totals totals' : Id → AncestorState} {dirty dirty' : Id → Bool}
    (h : ∀ a, (p.mapTx a).isSome = true → totals a = totals' a ∧ dirty a = dirty' a) :
    p.setTotals totals dirty = p.setTotals totals' dirty' := by
  rw [setTotals]
  congr 1
  funext a
  cases ha : p.mapTx a with
  | none => rfl
  | some e =>
    obtain ⟨htotal, hdirty⟩ := h a (by simp [ha])
    simp [htotal, hdirty]

lemma WellFormed.setTotals (h : WellFormed p) : WellFormed (p.setTotals totals dirty) :=
  h.withEntries fun b => by rw [Option.map_map]; rfl

variable [DecidableEq Out]

/-- The exact totals, over the entry and its ancestors in the pool. -/
noncomputable def total (p : CTxMemPool Id Out) (a : Id) : AncestorState :=
  ∑ b ∈ reached p.spentParents p.ids a, p.own b

@[simp] lemma spentParents_setTotals :
    (p.setTotals totals dirty).spentParents a = p.spentParents a := by
  simp only [spentParents, vin_setTotals, vout_setTotals]
  rfl

@[simp] lemma total_setTotals : (p.setTotals totals dirty).total a = p.total a := by
  have hparents : (p.setTotals totals dirty).spentParents = p.spentParents :=
    funext fun b => spentParents_setTotals totals dirty b
  simp only [total, own_setTotals, hparents]
  rfl

lemma WellFormed.total_eq (h : WellFormed p) (a : Id) :
    p.total a = ∑ b ∈ reached p.parents p.ids a, p.own b := by
  rw [total, h.parents_eq]

end SetTotals

lemma WellFormed.mem_ids_of_reach (h : WellFormed p) {a b : Id} (ha : a ∈ p.ids)
    (hab : Reach p.parents a b) : b ∈ p.ids := by
  rcases hab.cases_tail with rfl | ⟨c, _, hb⟩
  · exact ha
  · exact h.parents_subset c hb

variable [LinearOrder Id]

lemma modify_eq_setTotals {a : Id} {f : CTxMemPoolEntry Id Out → CTxMemPoolEntry Id Out}
    {state : AncestorState} {dirty : Bool}
    (hf : ∀ e, p.mapTx a = some e → f e = { e with withAncestors := state, fDirty := dirty }) :
    p.modify a f = p.setTotals (update p.withAncestors a state)
      (update p.isDirty a dirty) := by
  rw [modify]
  congr 1
  funext b
  by_cases hb : b = a
  · subst hb
    cases he : p.mapTx b with
    | none => simp
    | some e => simp [hf e he]
  · cases he : p.mapTx b with
    | none => simp [hb, he]
    | some e => simp [hb, he, withAncestors, isDirty]

lemma modify_updateAncestorState (a : Id) (m : AncestorState) (dirty : Bool) :
    p.modify a (·.updateAncestorState m dirty) =
      p.setTotals (update p.withAncestors a (p.withAncestors a + m))
        (update p.isDirty a dirty) := by
  refine modify_eq_setTotals fun e he => ?_
  simp [CTxMemPoolEntry.updateAncestorState, withAncestors, he]

lemma foldl_modify_updateAncestorState (hl : l.Nodup) (m : AncestorState) (dirty : Bool)
    (p : CTxMemPool Id Out) :
    l.foldl (fun p a => p.modify a (·.updateAncestorState m dirty)) p =
      p.setTotals (fun a => if a ∈ l then p.withAncestors a + m else p.withAncestors a)
        (fun a => if a ∈ l then dirty else p.isDirty a) := by
  induction l generalizing p with
  | nil =>
    rw [setTotals]
    ext1 <;> try rfl
    funext a
    cases ha : p.mapTx a with
    | none => simp [ha]
    | some e => simp [ha, withAncestors, isDirty]
  | cons b l ih =>
    obtain ⟨hb, hl⟩ := List.nodup_cons.mp hl
    rw [List.foldl_cons, ih hl, modify_updateAncestorState, setTotals_setTotals]
    refine setTotals_congr fun a ha => ?_
    rw [withAncestors_setTotals _ _ ha, isDirty_setTotals _ _ ha]
    by_cases hab : a = b
    · subst hab
      simp [hb]
    · simp [hab]

lemma modifyAll_updateAncestorState (s : Finset Id) (m : AncestorState) (dirty : Bool) :
    p.modifyAll s (·.updateAncestorState m dirty) =
      p.setTotals (fun a => if a ∈ s then p.withAncestors a + m else p.withAncestors a)
        (fun a => if a ∈ s then dirty else p.isDirty a) := by
  rw [modifyAll, foldl_modify_updateAncestorState (nodup_ascending s)]
  simp only [mem_ascending]

/-- The descendants to which the difference at a tip is added. -/
def tipDescendants (p : CTxMemPool Id Out) (keys : Finset Id) (tip : Id) : Finset Id :=
  (p.calculateDescendants tip ∅ keys).erase tip

lemma WellFormed.mem_tipDescendants (h : WellFormed p) {keys : Finset Id} {a : Id}
    (htip : tip ∈ p.ids) (hkey : tip ∈ keys) :
    a ∈ p.tipDescendants keys tip ↔ a ∉ keys ∧ Reach (p.childrenBut keys) tip a := by
  rw [tipDescendants, mem_erase, h.mem_calculateDescendants_empty htip]
  refine and_congr_left fun hreach => ?_
  constructor
  · intro hne hkeys
    exact hne ((reach_prev_of_mem_tips (fun _ _ => h.mem_childrenBut) hkeys).mp hreach)
  · rintro hkeys rfl
    exact hkeys hkey

lemma foldl_modifyAll (l : List Id) (desc : Id → Finset Id) (diff : Id → AncestorState)
    (p : CTxMemPool Id Out) :
    l.foldl (fun p t => p.modifyAll (desc t) (·.updateAncestorState (diff t) false)) p =
      p.setTotals
        (fun a => p.withAncestors a + (l.map fun t => if a ∈ desc t then diff t else 0).sum)
        (fun a => if ∃ t ∈ l, a ∈ desc t then false else p.isDirty a) := by
  induction l generalizing p with
  | nil => exact (foldl_modify_updateAncestorState List.nodup_nil 0 false p).trans (by simp)
  | cons t l ih =>
    rw [List.foldl_cons, ih, modifyAll_updateAncestorState, setTotals_setTotals]
    refine setTotals_congr fun a ha => ?_
    rw [withAncestors_setTotals _ _ ha, isDirty_setTotals _ _ ha, List.map_cons]
    by_cases hmem : a ∈ desc t
    · simp [hmem, add_assoc]
    · simp [hmem]

/-- The totals of the tips are not touched by the second loop, so the differences do not
depend on it. -/
lemma WellFormed.foldl_applyTip (h : WellFormed p) (hl : ∀ t ∈ l, t ∈ p.ids ∧ t ∈ tips.keys)
    {desc : Id → Finset Id} {diff : Id → AncestorState}
    (hdesc : ∀ t ∈ l, p.tipDescendants tips.keys t = desc t)
    (hdiff : ∀ t ∈ l, p.withAncestors t - tips.state t = diff t) :
    l.foldl (fun p tip => p.applyTip tips tip) p =
      l.foldl (fun p t => p.modifyAll (desc t) (·.updateAncestorState (diff t) false)) p := by
  induction l generalizing p with
  | nil => rfl
  | cons t l ih =>
    obtain ⟨ht, hkey⟩ := hl t List.mem_cons_self
    have hstep : p.applyTip tips t =
        p.modifyAll (desc t) (·.updateAncestorState (diff t) false) := by
      rw [applyTip, hdiff t List.mem_cons_self, ← hdesc t List.mem_cons_self, tipDescendants]
    rw [List.foldl_cons, List.foldl_cons, hstep, modifyAll_updateAncestorState]
    refine ih (h.setTotals _ _) (fun t' ht' => hl t' (List.mem_cons_of_mem _ ht'))
      (fun t' ht' => ?_) fun t' ht' => ?_
    · exact hdesc t' (List.mem_cons_of_mem _ ht')
    · obtain ⟨hid, hkey'⟩ := hl t' (List.mem_cons_of_mem _ ht')
      have hnot : t' ∉ desc t := by
        rw [← hdesc t List.mem_cons_self]
        exact fun hmem => ((h.mem_tipDescendants ht hkey).mp hmem).1 hkey'
      rw [withAncestors_setTotals _ _ ((h.mem_ids t').mp hid), if_neg hnot]
      exact hdiff t' (List.mem_cons_of_mem _ ht')

variable [DecidableEq Out]

lemma WellFormed.replaceTip_eq (h : WellFormed p) (htip : tip ∈ p.ids) :
    p.replaceTip tip = p.setTotals (update p.withAncestors tip (p.total tip))
      (update p.isDirty tip false) := by
  have hfrontier : Frontier p.parents {tip} {tip} (p.parents tip) := by
    refine ⟨fun x hx => ⟨tip, mem_singleton_self _, ?_⟩, subset_union_left,
      fun x hx => ?_⟩
    · rcases mem_union.mp hx with hx | hx
      · exact mem_singleton.mp hx ▸ Reach.refl _ _
      · exact (Reach.refl _ _).step hx
    · exact mem_singleton.mp hx ▸ subset_union_right
  have hset : p.calculateMemPoolAncestors tip {tip} ⊤ = reached p.parents p.ids tip := by
    refine h.mem_calculateMemPoolAncestors hfrontier ?_ (fun x => ?_) le_top le_top
    · exact disjoint_singleton_right.mpr (h.notMem_parents_self tip)
    · rw [mem_reached]
      constructor
      · exact fun hx => ⟨tip, mem_singleton_self _, hx.2⟩
      · rintro ⟨r, hr, hrx⟩
        rw [mem_singleton.mp hr] at hrx
        exact ⟨h.mem_ids_of_reach htip hrx, hrx⟩
  rw [replaceTip, hset, ← h.total_eq]
  exact modify_eq_setTotals fun e _ => rfl

lemma WellFormed.foldl_replaceTip (h : WellFormed p) (hl : ∀ a ∈ l, a ∈ p.ids) :
    l.foldl replaceTip p =
      p.setTotals (fun a => if a ∈ l then p.total a else p.withAncestors a)
        (fun a => if a ∈ l then false else p.isDirty a) := by
  induction l generalizing p with
  | nil => exact (foldl_modify_updateAncestorState List.nodup_nil 0 false p).trans (by simp)
  | cons tip l ih =>
    rw [List.foldl_cons, h.replaceTip_eq (hl tip List.mem_cons_self),
      ih (h.setTotals _ _) fun a ha => hl a (List.mem_cons_of_mem _ ha), setTotals_setTotals]
    refine setTotals_congr fun a ha => ?_
    rw [withAncestors_setTotals _ _ ha, isDirty_setTotals _ _ ha]
    by_cases hat : a = tip
    · subst hat
      by_cases hal : a ∈ l <;> simp [hal]
    · simp [hat]

open Classical in
theorem WellFormed.updateTxnChainStates_eq (h : WellFormed p) (hkeys : tips.keys ⊆ p.ids)
    (hstate : ∀ t ∈ tips.keys, tips.state t = p.withAncestors t) :
    p.updateTxnChainStates tips = p.setTotals
      (passOn (p.childrenBut tips.keys) tips.keys p.withAncestors p.total)
      (fun a => if a ∈ tips.keys ∨ ∃ t ∈ tips.keys, Reach (p.childrenBut tips.keys) t a
        then false else p.isDirty a) := by
  have hids : ∀ t ∈ ascending tips.keys, t ∈ p.ids := fun t ht => hkeys (mem_ascending.mp ht)
  have hmem : ∀ t ∈ tips.keys, ∀ a, (a ∈ p.tipDescendants tips.keys t ↔
      a ∉ tips.keys ∧ Reach (p.childrenBut tips.keys) t a) :=
    fun t ht a => h.mem_tipDescendants (hkeys ht) ht
  have hdiff : ∀ t ∈ ascending tips.keys,
      (p.setTotals (fun a => if a ∈ ascending tips.keys then p.total a else p.withAncestors a)
        (fun a => if a ∈ ascending tips.keys then false else p.isDirty a)).withAncestors t -
          tips.state t = p.total t - p.withAncestors t := by
    intro t ht
    have hkey := mem_ascending.mp ht
    rw [withAncestors_setTotals _ _ ((h.mem_ids t).mp (hkeys hkey)), if_pos ht, hstate t hkey]
  rw [updateTxnChainStates, h.foldl_replaceTip hids, (h.setTotals _ _).foldl_applyTip
    (fun t ht => ⟨hids t ht, mem_ascending.mp ht⟩)
    (fun t _ => show _ = p.tipDescendants tips.keys t from rfl) hdiff, foldl_modifyAll,
    setTotals_setTotals]
  refine setTotals_congr fun a ha => ⟨?_, ?_⟩
  · rw [withAncestors_setTotals _ _ ha, passOn, ← List.sum_toFinset _ (nodup_ascending _),
      toFinset_ascending, sum_congr rfl fun t ht => if_congr (hmem t ht a) rfl rfl]
    by_cases hkey : a ∈ tips.keys <;> simp [hkey]
  · have hiff : (∃ t ∈ ascending tips.keys, a ∈ p.tipDescendants tips.keys t) ↔
        a ∉ tips.keys ∧ ∃ t ∈ tips.keys, Reach (p.childrenBut tips.keys) t a := by
      simp only [mem_ascending]
      constructor
      · rintro ⟨t, ht, hat⟩
        exact ⟨((hmem t ht a).mp hat).1, t, ht, ((hmem t ht a).mp hat).2⟩
      · rintro ⟨hkey, t, ht, hreach⟩
        exact ⟨t, ht, (hmem t ht a).mpr ⟨hkey, hreach⟩⟩
    rw [isDirty_setTotals _ _ ha, if_congr hiff rfl rfl]
    by_cases hkey : a ∈ tips.keys <;> simp [hkey]

end PyrrhaNode.MemPool.CTxMemPool
