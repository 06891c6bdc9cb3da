import Mathlib
import PyrrhaNode.MerkleLevels
import PyrrhaNode.Transaction

/-!
# Merkle roots

`ComputeMerkleRoot` replaces a list of hashes by the hashes of its consecutive pairs until
one is left. The last hash of an odd list is repeated, so different lists can have the
same root; the function reports whether two equal hashes were paired.
-/
namespace PyrrhaNode.Merkle

open List ByteCodec
open MerkleLevels
open Serialize
open Transaction

variable {α : Type} [DecidableEq α] {hashes : List α} {fuel : ℕ}

/-- `hashes.push_back(hashes.back())` where the number of hashes is odd. -/
def padOdd (hashes : List α) : List α :=
  if hashes.length % 2 = 1 then hashes ++ hashes.getLast?.toList else hashes

/-- `SHA256D64`: the hash of each pair of neighbours. -/
def hashNeighbours (pairHash : α → α → α) : List α → List α
  | a :: b :: hashes => pairHash a b :: hashNeighbours pairHash hashes
  | _ => []

/-- The loop of `ComputeMerkleRoot`, for at most `fuel` levels. -/
def merkleLoop (pairHash : α → α → α) : ℕ → List α → Bool → List α × Bool
  | 0, hashes, mutation => (hashes, mutation)
  | fuel + 1, hashes, mutation =>
    if 1 < hashes.length then
      merkleLoop pairHash fuel (hashNeighbours pairHash (padOdd hashes))
        (mutation || hasEqualPair hashes)
    else (hashes, mutation)

/-- `ComputeMerkleRoot` with its `mutated` flag. Each level is shorter, so there are fewer
levels than hashes. -/
def computeMerkleRoot (null : α) (pairHash : α → α → α) (hashes : List α) : α × Bool :=
  let (hashes, mutation) := merkleLoop pairHash hashes.length hashes false
  (hashes.headD null, mutation)

/-- The pairs that are hashed on the way. -/
def hashedPairs (pairHash : α → α → α) : ℕ → List α → List (α × α)
  | 0, _ => []
  | fuel + 1, hashes =>
    if 1 < hashes.length then
      pairs hashes ++ hashedPairs pairHash fuel (nextLevel pairHash hashes)
    else []

omit [DecidableEq α] in
theorem hashNeighbours_padOdd (pairHash : α → α → α) (hashes : List α) :
    hashNeighbours pairHash (padOdd hashes) = nextLevel pairHash hashes := by
  induction hashes using pairs.induct with
  | case1 => rfl
  | case2 a => rfl
  | case3 a b hashes ih =>
    have hpad : padOdd (a :: b :: hashes) = a :: b :: padOdd hashes := by
      cases hashes with
      | nil => simp [padOdd]
      | cons c hashes =>
        simp only [padOdd, length_cons, cons_append]
        rw [show (hashes.length + 1 + 1 + 1) % 2 = (hashes.length + 1) % 2 by omega]
        split <;> rfl
    rw [hpad, hashNeighbours, ih]
    rfl

theorem levels_merkleLoop (pairHash : α → α → α) (null : α) (hfuel : hashes.length ≤ fuel)
    (hne : hashes ≠ []) (mutation : Bool) :
    ∃ n m, Levels pairHash {p | p ∈ hashedPairs pairHash fuel hashes} n hashes
        ((merkleLoop pairHash fuel hashes mutation).1.headD null) m ∧
      (merkleLoop pairHash fuel hashes mutation).2 = (mutation || m) := by
  induction fuel generalizing hashes mutation with
  | zero => exact absurd (length_eq_zero_iff.mp (Nat.le_zero.mp hfuel)) hne
  | succ fuel ih =>
    by_cases hl : 1 < hashes.length
    · have hshorter : (nextLevel pairHash hashes).length ≤ fuel := by
        rw [length_nextLevel]
        omega
      have hnext : nextLevel pairHash hashes ≠ [] := by
        rw [← length_pos_iff, length_nextLevel]
        omega
      obtain ⟨n, m, hlevels, hm⟩ := ih hshorter hnext (mutation || hasEqualPair hashes)
      refine ⟨n + 1, hasEqualPair hashes || m, ?_, ?_⟩
      · simp only [merkleLoop, if_pos hl, hashNeighbours_padOdd, hashedPairs]
        refine .level hl (fun p hp => mem_append_left _ hp) (hlevels.mono fun p hp => ?_)
        exact mem_append_right _ hp
      · simp only [merkleLoop, if_pos hl, hashNeighbours_padOdd, hm, Bool.or_assoc]
    · obtain ⟨a, rfl⟩ : ∃ a, hashes = [a] := length_eq_one_iff.mp (by
        have := length_pos_iff.mpr hne
        omega)
      exact ⟨0, false, by simpa [merkleLoop] using Levels.single a, by simp [merkleLoop]⟩

/-- The pairs hashed by `ComputeMerkleRoot`. -/
def merklePairs (pairHash : α → α → α) (hashes : List α) : List (α × α) :=
  hashedPairs pairHash hashes.length hashes

/-- The loop ends on the first level that is not longer than one, and the pairs of all levels
below it are hashed. -/
theorem merkleLoop_eq_level (pairHash : α → α → α) {k : ℕ} (hfuel : hashes.length ≤ fuel)
    (hbelow : ∀ j < k, 1 < (level pairHash j hashes).length)
    (htop : (level pairHash k hashes).length ≤ 1) (mutation : Bool) :
    (merkleLoop pairHash fuel hashes mutation).1 = level pairHash k hashes ∧
      ∀ j < k, ∀ p ∈ pairs (level pairHash j hashes), p ∈ hashedPairs pairHash fuel hashes := by
  induction fuel generalizing hashes k mutation with
  | zero =>
    obtain rfl : k = 0 := by
      by_contra hk
      have := hbelow 0 (by omega)
      simp only [level, Function.iterate_zero_apply] at this
      omega
    exact ⟨rfl, fun j hj => absurd hj (by omega)⟩
  | succ fuel ih =>
    cases k with
    | zero =>
      have hstop : ¬1 < hashes.length := not_lt.mpr htop
      rw [merkleLoop, if_neg hstop]
      exact ⟨rfl, fun j hj => absurd hj (by omega)⟩
    | succ k =>
      have hl : 1 < hashes.length := hbelow 0 (by omega)
      have hshorter : (nextLevel pairHash hashes).length ≤ fuel := by
        rw [length_nextLevel]
        omega
      have hrest := ih hshorter
        (fun j hj => level_succ' pairHash j hashes ▸ hbelow (j + 1) (by omega))
        (level_succ' pairHash k hashes ▸ htop) (mutation || hasEqualPair hashes)
      rw [merkleLoop, if_pos hl, hashNeighbours_padOdd, hashedPairs, if_pos hl]
      refine ⟨hrest.1, ?_⟩
      intro j hj p hp
      cases j with
      | zero => exact mem_append_left _ hp
      | succ j =>
        exact mem_append_right _ (hrest.2 j (by omega) p hp)

theorem levels_computeMerkleRoot (null : α) (pairHash : α → α → α)
    (hne : hashes ≠ []) : ∃ n, Levels pairHash {p | p ∈ merklePairs pairHash hashes} n hashes
      (computeMerkleRoot null pairHash hashes).1 (computeMerkleRoot null pairHash hashes).2 := by
  obtain ⟨n, m, hlevels, hm⟩ := levels_merkleLoop pairHash null le_rfl hne false
  refine ⟨n, ?_⟩
  rwa [computeMerkleRoot, hm]

section Identify

variable {null : α} {pairHash : α → α → α} {hashes hashes' : List α}

/-- Lists with the same root are equal if none is empty and none is reported. -/
theorem eq_of_computeMerkleRoot_eq (hinj : InjectiveOn pairHash
      {p | p ∈ merklePairs pairHash hashes ∨ p ∈ merklePairs pairHash hashes'})
    (hleaf : ∀ p, p ∈ merklePairs pairHash hashes ∨ p ∈ merklePairs pairHash hashes' →
      pairHash p.1 p.2 ∉ hashes ∧ pairHash p.1 p.2 ∉ hashes') (hne : hashes ≠ [])
    (hne' : hashes' ≠ []) (hroot : (computeMerkleRoot null pairHash hashes).1 =
      (computeMerkleRoot null pairHash hashes').1)
    (hm : (computeMerkleRoot null pairHash hashes).2 = false)
    (hm' : (computeMerkleRoot null pairHash hashes').2 = false) : hashes = hashes' := by
  obtain ⟨n, hlevels⟩ := levels_computeMerkleRoot null pairHash hne
  obtain ⟨n', hlevels'⟩ := levels_computeMerkleRoot null pairHash hne'
  have h := hlevels.mono (Q := {p | p ∈ merklePairs pairHash hashes ∨
    p ∈ merklePairs pairHash hashes'}) fun p hp => .inl hp
  have h' := hlevels'.mono (Q := {p | p ∈ merklePairs pairHash hashes ∨
    p ∈ merklePairs pairHash hashes'}) fun p hp => .inr hp
  rw [← hroot] at h'
  obtain rfl := h.height_eq hinj hleaf h'
  exact h.eq_of_top_eq hinj h' hm hm'

end Identify

/-- A root identifies the list of hashes, unless two equal hashes were paired for one of
the lists or one list is empty, which has the null hash as its root; and a list without
repetition is never reported. The pair hash is injective on the pairs hashed for the two
lists, and none of their entries is the hash of such a pair. -/
theorem computeMerkleRoot_identifies (null : α) (pairHash : α → α → α) (hashes hashes' : List α)
    (hinj : InjectiveOn pairHash
      {p | p ∈ merklePairs pairHash hashes ∨ p ∈ merklePairs pairHash hashes'})
    (hleaf : ∀ p, p ∈ merklePairs pairHash hashes ∨ p ∈ merklePairs pairHash hashes' →
      pairHash p.1 p.2 ∉ hashes ∧ pairHash p.1 p.2 ∉ hashes') :
    (hashes ≠ hashes' →
      (computeMerkleRoot null pairHash hashes).1 =
        (computeMerkleRoot null pairHash hashes').1 →
      (computeMerkleRoot null pairHash hashes).2 = true ∨
      (computeMerkleRoot null pairHash hashes').2 = true ∨
      ((hashes = [] ∨ hashes' = []) ∧
        (computeMerkleRoot null pairHash hashes).1 = null)) ∧
    (hashes.Nodup → (computeMerkleRoot null pairHash hashes).2 = false) := by
  refine ⟨fun hdiff hroot => ?_, fun hnodup => ?_⟩
  swap
  · by_cases hne : hashes = []
    · rw [hne]
      rfl
    · obtain ⟨n, hlevels⟩ := levels_computeMerkleRoot null pairHash hne
      exact hlevels.eq_false_of_nodup (hinj.mono fun p hp => .inl hp) hnodup
  by_cases hempty : hashes = [] ∨ hashes' = []
  · refine .inr (.inr ⟨hempty, ?_⟩)
    rcases hempty with rfl | rfl
    · rfl
    · exact hroot
  · obtain ⟨hne, hne'⟩ := not_or.mp hempty
    by_contra hcontra
    simp only [not_or, Bool.not_eq_true] at hcontra
    exact hdiff (eq_of_computeMerkleRoot_eq hinj hleaf hne hne' hroot hcontra.1 hcontra.2.1)

/-- A pair hash for runs on small numbers. -/
def mixHash (a b : Uint256) : Uint256 :=
  ⟨leBytes 32 (ofLeBytes a.data + 10 * ofLeBytes b.data + 100), by simp⟩

def threeHashes : List Uint256 := [1, 2, 3].map Uint256.ofByte
def lastRepeated : List Uint256 := [1, 2, 3, 3].map Uint256.ofByte

theorem computeMerkleRoot_identifies_three :
    (computeMerkleRoot Uint256.null mixHash threeHashes).1 =
        (computeMerkleRoot Uint256.null mixHash lastRepeated).1 ∧
      (computeMerkleRoot Uint256.null mixHash threeHashes).2 = false ∧
      (computeMerkleRoot Uint256.null mixHash lastRepeated).2 = true := by
  have hinj : ∀ p ∈ merklePairs mixHash threeHashes ++ merklePairs mixHash lastRepeated,
      ∀ q ∈ merklePairs mixHash threeHashes ++ merklePairs mixHash lastRepeated,
      mixHash p.1 p.2 = mixHash q.1 q.2 → p = q := by decide +kernel
  have hleaf : ∀ p ∈ merklePairs mixHash threeHashes ++ merklePairs mixHash lastRepeated,
      mixHash p.1 p.2 ∉ threeHashes ∧ mixHash p.1 p.2 ∉ lastRepeated := by decide +kernel
  have hroot : (computeMerkleRoot Uint256.null mixHash threeHashes).1 =
      (computeMerkleRoot Uint256.null mixHash lastRepeated).1 := by decide +kernel
  have h := computeMerkleRoot_identifies Uint256.null mixHash threeHashes lastRepeated
    (fun p hp q hq => hinj p (mem_append.mpr hp) q (mem_append.mpr hq))
    (fun p hp => hleaf p (mem_append.mpr hp))
  have hunmutated := h.2 (by decide)
  refine ⟨hroot, hunmutated, ?_⟩
  rcases h.1 (by decide) hroot with hm | hm | ⟨hempty, -⟩
  · cases hm
  · exact hm
  · exact absurd hempty (by decide)

/-- The empty list and the list of one null hash have the same root, and neither is
reported: no pair is hashed for them, whatever the pair hash is. -/
theorem computeMerkleRoot_empty_null :
    (∀ pairHash : Uint256 → Uint256 → Uint256,
      computeMerkleRoot Uint256.null pairHash [] = (Uint256.null, false) ∧
      computeMerkleRoot Uint256.null pairHash [Uint256.null] = (Uint256.null, false) ∧
      merklePairs pairHash [] = [] ∧ merklePairs pairHash [Uint256.null] = []) ∧
    Function.Injective2 (fun a b : ℕ => Nat.pair a b + 1) ∧
    (∀ a b : ℕ, Nat.pair a b + 1 ≠ 0) ∧
    computeMerkleRoot 0 (fun a b : ℕ => Nat.pair a b + 1) [] = (0, false) ∧
    computeMerkleRoot 0 (fun a b : ℕ => Nat.pair a b + 1) [0] = (0, false) := by
  refine ⟨fun pairHash => ⟨rfl, rfl, rfl, rfl⟩, fun a a' b b' h => ?_, fun a b => by simp,
    rfl, rfl⟩
  exact Nat.pair_eq_pair.mp (Nat.succ_injective h)

/-- The pair hash of the node. -/
def sha256d64 (H : HashFns) (a b : Uint256) : Uint256 := H.hash256 (a.data ++ b.data)

/-- `BlockMerkleRoot`. -/
def blockMerkleRoot (H : HashFns) (vtx : List CTransaction) : Uint256 × Bool :=
  computeMerkleRoot Uint256.null (sha256d64 H) (vtx.map (getTxId H))

end PyrrhaNode.Merkle
