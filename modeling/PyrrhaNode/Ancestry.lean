import Mathlib

/-!
# Searches in finite graphs

A graph is given by the finite set of successors of each node. A search keeps the nodes it
has visited and the ones it has still to visit; what it has found at its end are the nodes
that can be reached, in whatever order it goes. Sums over what can be reached behave well
along nodes with one successor, which is what incremental bookkeeping relies on.
-/
namespace PyrrhaNode.Ancestry
open Finset Relation

section Reach
variable {α : Type*} {next : α → Finset α} {a c b : α}

/-- Reached by steps to successors. -/
def Reach (next : α → Finset α) : α → α → Prop := ReflTransGen fun x y => y ∈ next x

lemma Reach.refl (next : α → Finset α) (a : α) : Reach next a a := ReflTransGen.refl

lemma Reach.step (h : Reach next a b) (hc : c ∈ next b) : Reach next a c :=
  ReflTransGen.tail h hc

lemma Reach.trans (hab : Reach next a b) (hbc : Reach next b c) : Reach next a c :=
  ReflTransGen.trans hab hbc

lemma Reach.of_mem (hb : b ∈ next a) (hbc : Reach next b c) : Reach next a c :=
  ReflTransGen.head hb hbc

lemma Reach.cases_head (h : Reach next a c) :
    a = c ∨ ∃ b ∈ next a, Reach next b c := by
  rcases ReflTransGen.cases_head h with rfl | ⟨b, hb, hbc⟩
  · exact .inl rfl
  · exact .inr ⟨b, hb, hbc⟩

lemma Reach.cases_tail (h : Reach next a c) :
    c = a ∨ ∃ b, Reach next a b ∧ c ∈ next b := by
  rcases ReflTransGen.cases_tail h with rfl | ⟨b, hab, hc⟩
  · exact .inl rfl
  · exact .inr ⟨b, hab, hc⟩

lemma Reach.congr {next' : α → Finset α} (h : Reach next a c)
    (hagree : ∀ b, Reach next a b → next' b = next b) : Reach next' a c := by
  induction h with
  | refl => exact Reach.refl _ _
  | tail hb hc ih => exact ih.step ((hagree _ hb).symm ▸ hc)

end Reach

section Search
variable {α : Type*} [DecidableEq α] {next : α → Finset α} {x : α} {fuel : ℕ}
  {roots done stage nodes : Finset α}

/-- A search that has visited `done` and has still to visit `stage`. -/
structure Frontier (next : α → Finset α) (roots done stage : Finset α) : Prop where
  sound : ∀ x ∈ done ∪ stage, ∃ r ∈ roots, Reach next r x
  rooted : roots ⊆ done ∪ stage
  closed : ∀ x ∈ done, next x ⊆ done ∪ stage

lemma Frontier.visit (h : Frontier next roots done stage) (hx : x ∈ stage) :
    Frontier next roots (insert x done) ((stage ∪ (next x \ insert x done)).erase x) := by
  -- what was visited or staged before still is
  have hkeep : done ∪ stage ⊆
      insert x done ∪ (stage ∪ (next x \ insert x done)).erase x := by
    intro y hy
    simp only [mem_union, mem_insert, mem_erase] at hy ⊢
    tauto
  obtain ⟨r, hr, hrx⟩ := h.sound x (mem_union_right _ hx)
  refine ⟨?_, h.rooted.trans hkeep, ?_⟩
  · intro y hy
    rcases mem_union.mp hy with hy | hy
    · rcases mem_insert.mp hy with rfl | hy
      · exact ⟨r, hr, hrx⟩
      · exact h.sound y (mem_union_left _ hy)
    · rcases mem_union.mp (mem_of_mem_erase hy) with hy | hy
      · exact h.sound y (mem_union_right _ hy)
      · exact ⟨r, hr, hrx.step (mem_sdiff.mp hy).1⟩
  · intro y hy z hz
    rcases mem_insert.mp hy with rfl | hy
    · simp only [mem_union, mem_insert, mem_erase, mem_sdiff]
      tauto
    · exact hkeep (h.closed y hy hz)

lemma Frontier.mem_iff (h : Frontier next roots done ∅) :
    x ∈ done ↔ ∃ r ∈ roots, Reach next r x := by
  constructor
  · exact fun hx => h.sound x (mem_union_left _ hx)
  · rintro ⟨r, hr, hrx⟩
    induction hrx with
    | refl => simpa using h.rooted hr
    | tail _ hc ih => simpa using h.closed _ ih hc

/-- A search among finitely many nodes that may go on for as many rounds as there are
nodes left. -/
structure Search (next : α → Finset α) (nodes roots done stage : Finset α) (fuel : ℕ) : Prop
    extends Frontier next roots done stage where
  within : stage ⊆ nodes
  disjoint : Disjoint stage done
  enough : (nodes \ done).card ≤ fuel

lemma Search.stage_eq_empty (h : Search next nodes roots done stage 0) : stage = ∅ := by
  refine eq_empty_of_forall_notMem fun y hy => ?_
  have hsub : nodes ⊆ done :=
    sdiff_eq_empty_iff_subset.mp (card_eq_zero.mp (Nat.le_zero.mp h.enough))
  exact disjoint_left.mp h.disjoint hy (hsub (h.within hy))

lemma Search.visit (h : Search next nodes roots done stage (fuel + 1))
    (hnext : ∀ x ∈ nodes, next x ⊆ nodes) (hx : x ∈ stage) :
    Search next nodes roots (insert x done) ((stage ∪ (next x \ insert x done)).erase x) fuel := by
  have hnew := disjoint_left.mp h.disjoint hx
  refine ⟨h.toFrontier.visit hx, ?_, ?_, ?_⟩
  · intro y hy
    rcases mem_union.mp (mem_of_mem_erase hy) with hy | hy
    · exact h.within hy
    · exact hnext _ (h.within hx) (mem_sdiff.mp hy).1
  · rw [disjoint_left]
    intro y hy hdone
    obtain ⟨hyx, hy⟩ := mem_erase.mp hy
    rcases mem_union.mp hy with hy | hy
    · exact disjoint_left.mp h.disjoint hy ((mem_insert.mp hdone).resolve_left hyx)
    · exact (mem_sdiff.mp hy).2 hdone
  · have hlt : (nodes \ insert x done).card < (nodes \ done).card := by
      refine card_lt_card ⟨?_, fun hsub => ?_⟩
      · exact sdiff_subset_sdiff (Finset.Subset.refl _) (subset_insert _ _)
      · have := hsub (mem_sdiff.mpr ⟨h.within hx, hnew⟩)
        simp at this
    have := h.enough
    omega

variable {β : Type*} [LinearOrder β]

/-- A search that takes the least staged node first. -/
def explore (next : β → Finset β) : ℕ → Finset β → Finset β → Finset β
  | 0, _, done => done
  | fuel + 1, stage, done =>
    if h : stage.Nonempty then
      let x := stage.min' h
      explore next fuel ((stage ∪ (next x \ insert x done)).erase x) (insert x done)
    else done

/-- The search finds what can be reached. -/
theorem mem_explore {next : β → Finset β} {nodes roots stage done : Finset β}
    (h : Search next nodes roots done stage fuel) (hnext : ∀ x ∈ nodes, next x ⊆ nodes) {x : β} :
    x ∈ explore next fuel stage done ↔ ∃ r ∈ roots, Reach next r x := by
  induction fuel generalizing stage done with
  | zero =>
    have hempty := h.stage_eq_empty
    subst hempty
    exact h.toFrontier.mem_iff
  | succ fuel ih =>
    rw [explore]
    by_cases hne : stage.Nonempty
    · rw [dif_pos hne]
      exact ih (h.visit hnext (stage.min'_mem hne))
    · have hempty := not_nonempty_iff_eq_empty.mp hne
      subst hempty
      exact h.toFrontier.mem_iff

end Search

section Ascending
variable {α : Type*} [LinearOrder α] {s : Finset α} {a : α} {fuel : ℕ}

def ascendingLoop : ℕ → Finset α → List α
  | 0, _ => []
  | fuel + 1, s =>
    if h : s.Nonempty then s.min' h :: ascendingLoop fuel (s.erase (s.min' h)) else []

/-- The elements of a set in ascending order, least first. -/
def ascending (s : Finset α) : List α := ascendingLoop s.card s

lemma mem_ascendingLoop (hfuel : s.card ≤ fuel) :
    a ∈ ascendingLoop fuel s ↔ a ∈ s := by
  induction fuel generalizing s with
  | zero =>
    have hs : s = ∅ := card_eq_zero.mp (Nat.le_zero.mp hfuel)
    simp [ascendingLoop, hs]
  | succ fuel ih =>
    rw [ascendingLoop]
    by_cases h : s.Nonempty
    · have hmin := s.min'_mem h
      have hcard := card_erase_of_mem hmin
      rw [dif_pos h, List.mem_cons, ih (by omega)]
      by_cases ha : a = s.min' h
      · simp [ha, hmin]
      · simp [ha]
    · simp [not_nonempty_iff_eq_empty.mp h]

@[simp] lemma mem_ascending : a ∈ ascending s ↔ a ∈ s :=
  mem_ascendingLoop le_rfl

lemma mem_of_mem_ascendingLoop (h : a ∈ ascendingLoop fuel s) :
    a ∈ s := by
  induction fuel generalizing s with
  | zero => simp [ascendingLoop] at h
  | succ fuel ih =>
    rw [ascendingLoop] at h
    split at h
    · rename_i hs
      rcases List.mem_cons.mp h with rfl | h
      · exact s.min'_mem hs
      · exact mem_of_mem_erase (ih h)
    · simp at h

lemma nodup_ascendingLoop (fuel : ℕ) (s : Finset α) : (ascendingLoop fuel s).Nodup := by
  induction fuel generalizing s with
  | zero => exact List.nodup_nil
  | succ fuel ih =>
    rw [ascendingLoop]
    split
    · refine List.nodup_cons.mpr ⟨fun hmem => ?_, ih _⟩
      exact notMem_erase _ _ (mem_of_mem_ascendingLoop hmem)
    · exact List.nodup_nil

lemma nodup_ascending (s : Finset α) : (ascending s).Nodup := nodup_ascendingLoop _ s

end Ascending

section Sums
variable {α M : Type*} {next : α → Finset α} {nodes : Finset α} {rank : α → ℕ} {a b q : α}

/-- Every step goes down. -/
def Ranked (next : α → Finset α) (rank : α → ℕ) : Prop := ∀ a, ∀ b ∈ next a, rank b < rank a

open Classical in
/-- The nodes of a finite set that can be reached from `a`, with `a` itself. -/
noncomputable def reached (next : α → Finset α) (nodes : Finset α) (a : α) : Finset α :=
  nodes.filter (Reach next a)

lemma mem_reached :
    b ∈ reached next nodes a ↔ b ∈ nodes ∧ Reach next a b := by
  simp [reached]

lemma Ranked.reach_le (h : Ranked next rank) (hab : Reach next a b) :
    rank b ≤ rank a := by
  induction hab with
  | refl => exact le_rfl
  | tail _ hc ih => exact (h _ _ hc).le.trans ih

lemma Ranked.not_reach_of_mem (h : Ranked next rank) (hb : b ∈ next a) : ¬ Reach next b a := by
  intro hr
  have h₁ := h.reach_le hr
  have h₂ := h a b hb
  omega

lemma reached_of_next_eq_singleton [DecidableEq α] (ha : a ∈ nodes) (hnext : next a = {q}) :
    reached next nodes a = insert a (reached next nodes q) := by
  ext b
  simp only [mem_reached, mem_insert]
  constructor
  · rintro ⟨hb, hr⟩
    rcases ReflTransGen.cases_head hr with rfl | ⟨c, hc, hcb⟩
    · exact .inl rfl
    · obtain rfl : c = q := by simpa [hnext] using hc
      exact .inr ⟨hb, hcb⟩
  · rintro (rfl | ⟨hb, hr⟩)
    · exact ⟨ha, ReflTransGen.refl⟩
    · exact ⟨hb, ReflTransGen.head (by simp [hnext]) hr⟩

theorem sum_reached_of_next_eq_singleton [AddCommMonoid M] (hrank : Ranked next rank)
    (ha : a ∈ nodes) (hnext : next a = {q}) (f : α → M) :
    ∑ b ∈ reached next nodes a, f b = f a + ∑ b ∈ reached next nodes q, f b := by
  classical
  rw [reached_of_next_eq_singleton ha hnext, sum_insert]
  intro hmem
  exact hrank.not_reach_of_mem (by simp [hnext]) (mem_reached.mp hmem).2

lemma reached_congr {next' : α → Finset α} {nodes nodes' : Finset α}
    (hagree : ∀ b, Reach next a b → next' b = next b ∧ (b ∈ nodes' ↔ b ∈ nodes)) :
    reached next' nodes' a = reached next nodes a := by
  have hback : ∀ {b}, Reach next' a b → Reach next a b := by
    intro b hb
    induction hb with
    | refl => exact Reach.refl _ _
    | tail _ hc ih => exact ih.step ((hagree _ ih).1 ▸ hc)
  ext b
  rw [mem_reached, mem_reached]
  constructor
  · exact fun ⟨hb, hr⟩ => ⟨(hagree b (hback hr)).2.mp hb, hback hr⟩
  · exact fun ⟨hb, hr⟩ => ⟨(hagree b hr).2.mpr hb, hr.congr fun c hc => (hagree c hc).1⟩

open Classical in
/-- A change of one value shows in the sums of the nodes from which it can be reached. -/
lemma sum_reached_add_single [DecidableEq α] [AddCommMonoid M] {x : α} (hx : x ∈ nodes) (f : α → M)
    (d : M) (a : α) :
    ∑ b ∈ reached next nodes a, (f b + if b = x then d else 0) =
      (∑ b ∈ reached next nodes a, f b) + if Reach next a x then d else 0 := by
  rw [sum_add_distrib]
  simp [mem_reached, hx]

end Sums

/-! ### Passing differences on

The sums of some nodes, the tips, are taken anew, and what has changed there is added to
all nodes from which a tip is reached without another tip in between. -/

section Differences
variable {α : Type*} {next prev : α → Finset α} {tips : Finset α}

variable (hprev : ∀ a b, b ∈ prev a ↔ a ∈ next b ∧ b ∉ tips) {M : Type*} {a t q : α}
include hprev

lemma reach_prev_of_mem_tips (ha : a ∈ tips) : Reach prev t a ↔ a = t := by
  constructor
  · intro h
    rcases h.cases_tail with hat | ⟨b, _, hb⟩
    · exact hat
    · exact absurd ha ((hprev b a).mp hb).2
  · rintro rfl
    exact Reach.refl _ _

lemma reach_prev_of_next_eq_singleton (ht : t ∈ tips) (ha : a ∉ tips) (hnext : next a = {q}) :
    Reach prev t a ↔ Reach prev t q := by
  constructor
  · intro h
    rcases h.cases_tail with rfl | ⟨b, hb, hab⟩
    · exact absurd ht ha
    · have hbq := ((hprev b a).mp hab).1
      rw [hnext, mem_singleton] at hbq
      exact hbq ▸ hb
  · exact fun h => h.step ((hprev q a).mpr ⟨by simp [hnext], ha⟩)

open Classical in
/-- The values after the differences at the tips have been passed on. -/
noncomputable def passOn {M : Type*} [AddCommGroup M] (prev : α → Finset α) (tips : Finset α)
    (total anew : α → M) (a : α) : M :=
  if a ∈ tips then anew a
  else total a + ∑ t ∈ tips, if Reach prev t a then anew t - total t else 0

/-- Along a single successor the difference is passed on unchanged. -/
lemma passOn_of_next_eq_singleton [AddCommGroup M] {total anew : α → M} (ha : a ∉ tips)
    (hnext : next a = {q}) (d : M) (htotal : total a = d + total q) :
    passOn prev tips total anew a = d + passOn prev tips total anew q := by
  have hsum : ∀ t ∈ tips, (Reach prev t a ↔ Reach prev t q) :=
    fun t ht => reach_prev_of_next_eq_singleton hprev ht ha hnext
  classical
  rw [passOn, if_neg ha, sum_congr rfl fun t ht => if_congr (hsum t ht) rfl rfl, htotal]
  by_cases hq : q ∈ tips
  · have hone : ∑ t ∈ tips, (if Reach prev t q then anew t - total t else 0) =
        anew q - total q := by
      rw [sum_congr rfl fun t _ => if_congr (reach_prev_of_mem_tips hprev hq) rfl rfl,
        sum_ite_eq, if_pos hq]
    rw [hone, passOn, if_pos hq]
    abel
  · rw [passOn, if_neg hq, add_assoc]

/-- Passing on the differences makes all values sums again, if off the tips a value was
right to begin with or follows the one value that it depends on. -/
theorem passOn_eq_sum_reached [AddCommGroup M] {rank : α → ℕ} {nodes : Finset α} {own total : α → M}
    (hrank : Ranked next rank) (hnodes : ∀ a ∈ nodes, next a ⊆ nodes)
    (hstay : ∀ a ∈ nodes, a ∉ tips → (∀ t ∈ tips, ¬ Reach prev t a) →
      total a = ∑ b ∈ reached next nodes a, own b)
    (hfollow : ∀ a ∈ nodes, a ∉ tips → (∃ t ∈ tips, Reach prev t a) →
      ∃ q, next a = {q} ∧ total a = own a + total q) (ha : a ∈ nodes) :
    passOn prev tips total (fun t => ∑ b ∈ reached next nodes t, own b) a =
      ∑ b ∈ reached next nodes a, own b := by
  induction hr : rank a using Nat.strong_induction_on generalizing a with
  | _ n ih =>
    by_cases hat : a ∈ tips
    · rw [passOn, if_pos hat]
    by_cases hreach : ∃ t ∈ tips, Reach prev t a
    · obtain ⟨q, hq, htotal⟩ := hfollow a ha hat hreach
      have hqa : q ∈ next a := by simp [hq]
      rw [passOn_of_next_eq_singleton hprev hat hq (own a) htotal,
        sum_reached_of_next_eq_singleton hrank ha hq,
        ih _ (hr ▸ hrank a q hqa) (hnodes a ha hqa) rfl]
    · have hnone : ∀ t ∈ tips, ¬ Reach prev t a := fun t ht hta => hreach ⟨t, ht, hta⟩
      rw [passOn, if_neg hat, sum_congr rfl fun t ht => if_neg (hnone t ht),
        sum_const_zero, add_zero]
      exact hstay a ha hat hnone

end Differences

end PyrrhaNode.Ancestry
