import Mathlib
import PyrrhaNode.Serialize

/-!
# The fast filter

`CFastFilter` is a Bloom filter for values that are random already: the bit positions
of a hash are cut out of its own 32-bit words, each word read once in memory order and
once with its bytes reversed. The filter is modelled by the set of its set bits. All
that the users of the filter need is that a hash once set is found set until the next
reset.
-/
namespace PyrrhaNode.FastFilter
open ByteCodec Serialize

/-- The bytes of word `i` of a hash. -/
def wordBytes (hash : Uint256) (i : ℕ) : List UInt8 := (hash.data.drop (4 * i)).take 4

structure CFastFilter (filterSize numHashFns : ℕ) where
  vData : Finset ℕ
  deriving DecidableEq

namespace CFastFilter
variable {filterSize numHashFns : ℕ}

/-- The bit that word `i` of the hash stands for. -/
def idx (filterSize : ℕ) (hash : Uint256) (i : ℕ) : ℕ :=
  ofLeBytes (wordBytes hash i) &&& (filterSize - 1)

/-- The bit that word `i` stands for after `__builtin_bswap32`. -/
def idx2 (filterSize : ℕ) (hash : Uint256) (i : ℕ) : ℕ :=
  ofLeBytes (wordBytes hash i).reverse &&& (filterSize - 1)

/-- One round of the loop of `checkAndSet`: the two bits are tested, then set. -/
def checkWord (hash : Uint256) (acc : Bool × CFastFilter filterSize numHashFns) (i : ℕ) :
    Bool × CFastFilter filterSize numHashFns :=
  let idx := idx filterSize hash i
  let idx2 := idx2 filterSize hash i
  (acc.1 || decide (idx ∉ acc.2.vData) || decide (idx2 ∉ acc.2.vData),
    ⟨acc.2.vData ∪ {idx, idx2}⟩)

/-- Sets the bits of the hash. The answer is true if one of them was not set before. -/
def checkAndSet (f : CFastFilter filterSize numHashFns) (hash : Uint256) :
    Bool × CFastFilter filterSize numHashFns :=
  (List.range (numHashFns / 2)).foldl (checkWord hash) (false, f)

def insert (f : CFastFilter filterSize numHashFns) (hash : Uint256) :
    CFastFilter filterSize numHashFns :=
  (List.range (numHashFns / 2)).foldl
    (fun f i => ⟨f.vData ∪ {idx filterSize hash i, idx2 filterSize hash i}⟩) f

def contains (f : CFastFilter filterSize numHashFns) (hash : Uint256) : Bool :=
  (List.range (numHashFns / 2)).all fun i =>
    decide (idx filterSize hash i ∈ f.vData) && decide (idx2 filterSize hash i ∈ f.vData)

def reset (_ : CFastFilter filterSize numHashFns) : CFastFilter filterSize numHashFns := ⟨∅⟩

/-- The bits that some words of a hash stand for. -/
def bitsOf (filterSize : ℕ) (hash : Uint256) (words : List ℕ) : Finset ℕ :=
  (words.flatMap fun i => [idx filterSize hash i, idx2 filterSize hash i]).toFinset

@[simp] lemma bitsOf_nil (hash : Uint256) : bitsOf filterSize hash [] = ∅ := rfl

@[simp] lemma bitsOf_cons (hash : Uint256) (i : ℕ) (words : List ℕ) :
    bitsOf filterSize hash (i :: words) =
      {idx filterSize hash i, idx2 filterSize hash i} ∪ bitsOf filterSize hash words := by
  simp [bitsOf]

variable (f : CFastFilter filterSize numHashFns)
include f

lemma contains_iff (hash : Uint256) :
    f.contains hash = true ↔
      bitsOf filterSize hash (List.range (numHashFns / 2)) ⊆ f.vData := by
  unfold contains
  generalize List.range (numHashFns / 2) = words
  induction words with
  | nil => simp
  | cons i words ih => simp_all [Finset.insert_subset_iff, and_assoc]

omit f in
/-- The loop sets the bits of the words it goes over, and reports whether one of them
was unset when it began: a bit that an earlier round has set was reported there. -/
lemma foldl_checkWord (hash : Uint256) (words : List ℕ) (unset : Bool)
    (f : CFastFilter filterSize numHashFns) :
    let r := words.foldl (checkWord hash) (unset, f)
    (r.1 = true ↔ unset = true ∨ ¬ bitsOf filterSize hash words ⊆ f.vData) ∧
      r.2.vData = f.vData ∪ bitsOf filterSize hash words := by
  induction words generalizing unset f with
  | nil => simp
  | cons i words ih =>
    obtain ⟨hunset, hdata⟩ := ih (checkWord hash (unset, f) i).1 (checkWord hash (unset, f) i).2
    refine ⟨?_, ?_⟩
    · rw [List.foldl_cons, hunset, bitsOf_cons, Finset.union_subset_iff,
        Finset.insert_subset_iff]
      simp only [checkWord]
      by_cases h₁ : idx filterSize hash i ∈ f.vData
      · by_cases h₂ : idx2 filterSize hash i ∈ f.vData
        · have heq : f.vData ∪ {idx filterSize hash i, idx2 filterSize hash i} = f.vData := by
            simp [h₁, h₂]
          simp [h₁, h₂]
        · simp [h₂]
      · simp [h₁]
    · rw [List.foldl_cons, hdata]
      simp [checkWord]

/-- The answer of `checkAndSet` is the one of `contains`, turned round. -/
theorem checkAndSet_fst (hash : Uint256) :
    (f.checkAndSet hash).1 = !f.contains hash := by
  have h := (foldl_checkWord hash (List.range (numHashFns / 2)) false f).1
  rw [Bool.eq_iff_iff, Bool.not_eq_true', checkAndSet, h, ← Bool.not_eq_true, contains_iff]
  simp

theorem vData_checkAndSet (hash : Uint256) :
    (f.checkAndSet hash).2.vData =
      f.vData ∪ bitsOf filterSize hash (List.range (numHashFns / 2)) :=
  (foldl_checkWord hash _ false f).2

theorem vData_insert (hash : Uint256) :
    (f.insert hash).vData = f.vData ∪ bitsOf filterSize hash (List.range (numHashFns / 2)) := by
  unfold insert
  generalize List.range (numHashFns / 2) = words
  induction words generalizing f with
  | nil => simp
  | cons i words ih => rw [List.foldl_cons, ih, bitsOf_cons, Finset.union_assoc]

omit f in
/-- A hash whose bits have been set is found, however many others are set after it. -/
theorem contains_of_subset {f g : CFastFilter filterSize numHashFns} {hash : Uint256}
    (hfg : f.vData ⊆ g.vData) (h : f.contains hash = true) : g.contains hash = true := by
  rw [contains_iff] at h ⊢
  exact h.trans hfg

lemma subset_checkAndSet (hash : Uint256) :
    f.vData ⊆ (f.checkAndSet hash).2.vData := by
  rw [vData_checkAndSet]
  exact Finset.subset_union_left

lemma subset_insert (hash : Uint256) :
    f.vData ⊆ (f.insert hash).vData := by
  rw [vData_insert]
  exact Finset.subset_union_left

theorem contains_checkAndSet (hash : Uint256) :
    (f.checkAndSet hash).2.contains hash = true := by
  rw [contains_iff, vData_checkAndSet]
  exact Finset.subset_union_right

theorem contains_insert (hash : Uint256) :
    (f.insert hash).contains hash = true := by
  rw [contains_iff, vData_insert]
  exact Finset.subset_union_right

end CFastFilter
end PyrrhaNode.FastFilter
