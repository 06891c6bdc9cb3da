import Mathlib.Data.Set.Function
import Mathlib.Data.List.Nodup
import Mathlib.Tactic

/-!
# Trees of hashes built level by level

A level is made from the one below by hashing its entries in pairs; the last entry of an
odd level is paired with itself. `Levels` relates a list to the number of levels over it,
to the entry at the top, and to whether two equal entries were paired on the way. With a
pair hash that is injective on the pairs it is applied to, the entry at the top determines
the list as long as no two equal entries were paired.
-/
namespace PyrrhaNode.MerkleLevels

open List

variable {α : Type*}

/-- The pairs of consecutive entries, the last entry of an odd list with itself. -/
def pairs : List α → List (α × α)
  | [] => []
  | [a] => [(a, a)]
  | a :: b :: l => (a, b) :: pairs l

/-- The level above. -/
def nextLevel (hash : α → α → α) (l : List α) : List α :=
  (pairs l).map fun p => hash p.1 p.2

/-- Some consecutive entries that are paired are equal. -/
def hasEqualPair [DecidableEq α] : List α → Bool
  | [] => false
  | [_] => false
  | a :: b :: l => decide (a = b) || hasEqualPair l

theorem length_pairs (l : List α) : (pairs l).length = (l.length + 1) / 2 := by
  fun_induction pairs l with
  | case1 => simp
  | case2 a => simp
  | case3 a b l ih =>
    simp only [length_cons]
    omega

section

variable (hash : α → α → α)
include hash

@[simp] theorem length_nextLevel (l : List α) :
    (nextLevel hash l).length = (l.length + 1) / 2 := by
  rw [nextLevel, length_map, length_pairs]

omit hash in
/-- The pair at a place has the two entries below it; a missing one is the other one repeated. -/
theorem getElem?_pairs (l : List α) (i : ℕ) :
    (pairs l)[i]? = l[2 * i]?.map fun a => (a, l[2 * i + 1]?.getD a) := by
  fun_induction pairs l generalizing i with
  | case1 => simp
  | case2 a => cases i <;> simp [Nat.mul_add]
  | case3 a b l ih =>
    cases i with
    | zero => simp
    | succ i => simp [Nat.mul_add, ih]

/-- The level `h` steps above the list. -/
def level (hash : α → α → α) (h : ℕ) (l : List α) : List α := (nextLevel hash)^[h] l

theorem level_succ (h : ℕ) (l : List α) :
    level hash (h + 1) l = nextLevel hash (level hash h l) :=
  Function.iterate_succ_apply' _ h l

theorem level_succ' (h : ℕ) (l : List α) :
    level hash (h + 1) l = level hash h (nextLevel hash l) :=
  Function.iterate_succ_apply _ h l

theorem lt_length_level (h pos : ℕ) (l : List α) :
    pos < (level hash h l).length ↔ pos * 2 ^ h < l.length := by
  induction h generalizing pos with
  | zero => simp [level]
  | succ h ih =>
    rw [level_succ, length_nextLevel, pow_succ', ← Nat.mul_assoc, ← ih]
    omega

end

/-- Pairing loses nothing but whether the last entry was repeated. -/
theorem eq_of_pairs_eq [DecidableEq α] {l l' : List α} (h : pairs l = pairs l')
    (hl : hasEqualPair l = false) (hl' : hasEqualPair l' = false) : l = l' := by
  induction l using pairs.induct generalizing l' with
  | case1 =>
    rcases l' with _ | ⟨a, _ | ⟨b, l'⟩⟩
    · rfl
    · cases h
    · cases h
  | case2 a =>
    rcases l' with _ | ⟨c, _ | ⟨d, l'⟩⟩
    · cases h
    · simp only [pairs, List.cons.injEq, Prod.mk.injEq, and_true] at h
      rw [h.1]
    · simp only [pairs, List.cons.injEq, Prod.mk.injEq] at h
      simp [hasEqualPair, ← h.1.1, ← h.1.2] at hl'
  | case3 a b l ih =>
    rcases l' with _ | ⟨c, _ | ⟨d, l'⟩⟩
    · cases h
    · simp only [pairs, List.cons.injEq, Prod.mk.injEq] at h
      simp [hasEqualPair, h.1.1, h.1.2] at hl
    · simp only [pairs, List.cons.injEq, Prod.mk.injEq] at h
      simp only [hasEqualPair, Bool.or_eq_false_iff] at hl hl'
      rw [h.1.1, h.1.2, ih h.2 hl.2 hl'.2]

theorem mem_of_mem_pairs {l : List α} {p : α × α} (h : p ∈ pairs l) : p.1 ∈ l ∧ p.2 ∈ l := by
  fun_induction pairs l with
  | case1 => cases h
  | case2 a =>
    obtain rfl := mem_singleton.mp h
    simp
  | case3 a b l ih =>
    rcases mem_cons.mp h with rfl | h
    · simp
    · exact ⟨by simp [(ih h).1], by simp [(ih h).2]⟩

theorem nodup_pairs {l : List α} (h : l.Nodup) : (pairs l).Nodup := by
  fun_induction pairs l with
  | case1 => exact nodup_nil
  | case2 a => exact nodup_singleton _
  | case3 a b l ih =>
    obtain ⟨ha, hbl⟩ := nodup_cons.mp h
    refine nodup_cons.mpr ⟨fun hmem => ?_, ih (nodup_cons.mp hbl).2⟩
    exact ha (mem_cons_of_mem _ (mem_of_mem_pairs hmem).1)

theorem hasEqualPair_of_nodup [DecidableEq α] {l : List α} (h : l.Nodup) :
    hasEqualPair l = false := by
  fun_induction hasEqualPair l with
  | case1 => rfl
  | case2 => rfl
  | case3 a b l ih =>
    obtain ⟨ha, hbl⟩ := nodup_cons.mp h
    have hab : a ≠ b := fun heq => ha (by simp [heq])
    simp [hab, ih (nodup_cons.mp hbl).2]

variable {hash : α → α → α} {P : Set (α × α)} {l l' : List α} {n n' : ℕ}

/-- The pair hash is injective on the pairs in question. -/
abbrev InjectiveOn (hash : α → α → α) (P : Set (α × α)) : Prop :=
  Set.InjOn (fun p : α × α => hash p.1 p.2) P

theorem pairs_eq_of_nextLevel_eq (hinj : InjectiveOn hash P) (hP : ∀ p ∈ pairs l, p ∈ P)
    (hP' : ∀ p ∈ pairs l', p ∈ P) (h : nextLevel hash l = nextLevel hash l') :
    pairs l = pairs l' := by
  have haux : ∀ {ps qs : List (α × α)}, (∀ p ∈ ps, p ∈ P) → (∀ q ∈ qs, q ∈ P) →
      ps.map (fun p => hash p.1 p.2) = qs.map (fun p => hash p.1 p.2) → ps = qs := by
    intro ps qs hps hqs hmap
    induction ps generalizing qs with
    | nil => exact (map_eq_nil_iff.mp hmap.symm).symm
    | cons p ps ih =>
      cases qs with
      | nil => cases hmap
      | cons q qs =>
        obtain ⟨hhead, htail⟩ := List.cons.inj hmap
        rw [hinj (hps p mem_cons_self) (hqs q mem_cons_self) hhead,
          ih (fun p hp => hps p (mem_cons_of_mem _ hp))
            (fun q hq => hqs q (mem_cons_of_mem _ hq)) htail]
  exact haux hP hP' h

/-- `LeftSpine leaf n x`: going to the left entry of the hashed pair `n` times leads from
`x` to a leaf. -/
inductive LeftSpine (hash : α → α → α) (P : Set (α × α)) (leaf : Set α) : ℕ → α → Prop
  | leaf {a : α} (h : a ∈ leaf) : LeftSpine hash P leaf 0 a
  | node {n : ℕ} {a b : α} (hP : (a, b) ∈ P) (h : LeftSpine hash P leaf n a) :
      LeftSpine hash P leaf (n + 1) (hash a b)

theorem LeftSpine.unique {leaf : Set α} (hinj : InjectiveOn hash P)
    (hleaf : ∀ p ∈ P, hash p.1 p.2 ∉ leaf) {x y : α} (h : LeftSpine hash P leaf n x)
    (h' : LeftSpine hash P leaf n' y) (hxy : x = y) : n = n' := by
  induction h generalizing n' y with
  | leaf ha =>
    cases h' with
    | leaf hb => rfl
    | node hP h' => exact absurd (hxy ▸ ha) (hleaf _ hP)
  | @node n a b hP h ih =>
    cases h' with
    | leaf ha => exact absurd (hxy.symm ▸ ha) (hleaf _ hP)
    | node hP' h' =>
      have hpair := hinj hP hP' hxy
      rw [ih h' (congrArg Prod.fst hpair)]

section Levels

variable [DecidableEq α] {top : α} {m m' : Bool}

/-- `Levels hash P n l top m`: there are `n` levels over `l`, all pairs hashed are in `P`,
the last level is `top`, and `m` says whether equal entries were paired. -/
inductive Levels (hash : α → α → α) (P : Set (α × α)) : ℕ → List α → α → Bool → Prop
  | single (a : α) : Levels hash P 0 [a] a false
  | level {n : ℕ} {l : List α} {top : α} {m : Bool} (hl : 1 < l.length)
      (hP : ∀ p ∈ pairs l, p ∈ P) (h : Levels hash P n (nextLevel hash l) top m) :
      Levels hash P (n + 1) l top (hasEqualPair l || m)

theorem Levels.mono {Q : Set (α × α)} (h : Levels hash P n l top m) (hPQ : P ⊆ Q) :
    Levels hash Q n l top m := by
  induction h with
  | single a => exact .single a
  | level hl hP _ ih => exact .level hl (fun p hp => hPQ (hP p hp)) ih

/-- Below equal tops at equal height stand equal lists, unless equal entries are paired. -/
theorem Levels.eq_of_top_eq (hinj : InjectiveOn hash P) (h : Levels hash P n l top m)
    (h' : Levels hash P n l' top m') (hm : m = false) (hm' : m' = false) : l = l' := by
  induction h generalizing l' m' with
  | single a =>
    cases h'
    rfl
  | @level n l top m hl hP h ih =>
    cases h' with
    | level hl' hP' h' =>
      obtain ⟨hpair, hm⟩ := Bool.or_eq_false_iff.mp hm
      obtain ⟨hpair', hm'⟩ := Bool.or_eq_false_iff.mp hm'
      exact eq_of_pairs_eq (pairs_eq_of_nextLevel_eq hinj hP hP' (ih h' hm hm')) hpair hpair'

theorem Levels.leftSpine {leaf : Set α} {k : ℕ} (h : Levels hash P n l top m)
    (hspine : ∀ a ∈ l, LeftSpine hash P leaf k a) : LeftSpine hash P leaf (n + k) top := by
  induction h generalizing k with
  | single a => simpa using hspine a (mem_singleton_self a)
  | @level n l top m hl hP h ih =>
    have hnext : ∀ a ∈ nextLevel hash l, LeftSpine hash P leaf (k + 1) a := by
      intro a ha
      obtain ⟨p, hp, rfl⟩ := mem_map.mp ha
      exact .node (hP p hp) (hspine p.1 (mem_of_mem_pairs hp).1)
    have := ih hnext
    rwa [show n + 1 + k = n + (k + 1) by omega]

/-- Equal tops have the same number of levels below them, if no leaf is itself the hash of
a pair. -/
theorem Levels.height_eq (hinj : InjectiveOn hash P)
    (hleaf : ∀ p ∈ P, hash p.1 p.2 ∉ l ∧ hash p.1 p.2 ∉ l') (h : Levels hash P n l top m)
    (h' : Levels hash P n' l' top m') : n = n' := by
  have hspine : LeftSpine hash P {a | a ∈ l ∨ a ∈ l'} (n + 0) top :=
    h.leftSpine fun a ha => .leaf (.inl ha)
  have hspine' : LeftSpine hash P {a | a ∈ l ∨ a ∈ l'} (n' + 0) top :=
    h'.leftSpine fun a ha => .leaf (.inr ha)
  exact hspine.unique hinj (fun p hp hmem => hmem.elim (hleaf p hp).1 (hleaf p hp).2)
    hspine' rfl

theorem Levels.eq_false_of_nodup (hinj : InjectiveOn hash P) (h : Levels hash P n l top m)
    (hnodup : l.Nodup) : m = false := by
  induction h with
  | single a => rfl
  | level hl hP h ih =>
    rw [hasEqualPair_of_nodup hnodup]
    refine ih ((nodup_pairs hnodup).map_on fun p hp q hq heq => ?_)
    exact hinj (hP p hp) (hP q hq) heq

end Levels

end PyrrhaNode.MerkleLevels
