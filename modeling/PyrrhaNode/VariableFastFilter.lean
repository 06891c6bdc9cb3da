import PyrrhaNode.Loop
import PyrrhaNode.Serialize

/-!
# The variable fast filter

The filter sets one bit for each of its hash functions, which are the words of the hash. After
every eighth word the hash is rotated by a byte and the cursor set back to its start; the head
of the loop then moves it on, so that every further pass ends on the word behind the hash.
-/
namespace PyrrhaNode.VariableFastFilter
open List Serialize ByteCodec Loop

/-- The numbers are of 8, 32 and 64 bits. -/
structure CVariableFastFilter where
  vData : Bytes
  nHashFuncs : ℕ
  nFilterBytes : ℕ
  nFilterBits : ℕ

/-- The word under the cursor; `beyond` is the one that lies behind the hash. -/
def wordAt (rotHash : Bytes) (beyond : UInt32) (pos : ℕ) : ℕ :=
  if pos < 8 then ofLeBytes ((rotHash.drop (4 * pos)).take 4) else beyond.toNat

/-- The bits of the rounds from `i` on. A division by zero has no meaning in the source. -/
def probesFrom (nFilterBits : ℕ) (beyond : ℕ → UInt32) : ℕ → ℕ → Bytes → ℕ → List ℕ
  | 0, _, _, _ => []
  | rounds + 1, i, rotHash, pos =>
    let val := wordAt rotHash (beyond i) pos
    let idx := val % ((nFilterBits + 2 ^ 64 - 1) % 2 ^ 64)
    let (rotHash, pos) := if i % 8 = 7 then (rotHash.rotate 1, 0) else (rotHash, pos)
    idx :: probesFrom nFilterBits beyond rounds (i + 1) rotHash (pos + 1)

def mask (idx : ℕ) : UInt8 := 1 <<< UInt8.ofNat (idx &&& 7)

def setBit (vData : Bytes) (idx : ℕ) : Bytes := vData.modify (idx >>> 3) (· ||| mask idx)

def isSet (vData : Bytes) (idx : ℕ) : Bool := vData.getD (idx >>> 3) 0 &&& mask idx ≠ 0

namespace CVariableFastFilter
variable (f : CVariableFastFilter) (beyond : ℕ → UInt32) (hash : Uint256)

/-- The bits that `insert` sets and `contains` tests. -/
def probes : List ℕ := probesFrom f.nFilterBits beyond f.nHashFuncs 0 hash.data 0

def insert : CVariableFastFilter := { f with vData := (f.probes beyond hash).foldl setBit f.vData }

def contains : Bool := (f.probes beyond hash).all (isSet f.vData)

def serialize : Bytes := serBytes f.vData ++ leBytes 1 f.nHashFuncs ++ leBytes 8 f.nFilterBits

/-- A filter as the constructor makes it, of any size. -/
structure Constructed : Prop where
  nonempty : 0 < f.vData.length
  fits : f.vData.length < 2 ^ 32
  bits : f.nFilterBits = 8 * f.vData.length % 2 ^ 32

/-- The probes depend on the hash only. -/
def ProbesHash : Prop := ∀ hash beyond beyond', f.probes beyond hash = f.probes beyond' hash

/-- What was inserted is found, whatever is inserted after it. -/
def NoFalseNegatives : Prop := ∀ hash beyond beyond' (later : List (Uint256 × (ℕ → UInt32))),
  (later.foldl (fun f x => f.insert x.2 x.1) (f.insert beyond hash)).contains beyond' hash = true

/-- The sizes agree and every probe falls into the data. -/
structure WellFormed : Prop where
  bits : 1 < f.nFilterBits ∧ ∃ k, f.nFilterBits = 2 ^ k
  bytes : f.nFilterBytes = f.vData.length
  size : f.vData.length = f.nFilterBits / 8
  hashFuncs : 1 ≤ f.nHashFuncs
  inside : ∀ beyond hash, ∀ idx ∈ f.probes beyond hash, idx >>> 3 < f.vData.length

end CVariableFastFilter

def unserialize : Reader CVariableFastFilter := do
  let vData ← readByteVector
  let nHashFuncs ← readLe 1
  if nHashFuncs < 1 ∨ 32 < nHashFuncs then
    throw "nHashFuncs must be in the range [1,32], inclusive"
  let nFilterBits ← readLe 8
  return ⟨vData, nHashFuncs, 8 * nFilterBits % 2 ^ 32, nFilterBits⟩

variable {vData rotHash : Bytes} {idx rounds bits pos i : ℕ} {f : CVariableFastFilter}

lemma mask_ne_zero (idx : ℕ) : mask idx ≠ 0 := by
  have hmask : ∀ k < 8, (1 : UInt8) <<< UInt8.ofNat k ≠ 0 := by decide
  exact hmask (idx &&& 7) (Nat.lt_succ_of_le Nat.and_le_right)

lemma isSet_setBit {idx' : ℕ} (h : isSet vData idx = true ∨ idx = idx' ∧ idx >>> 3 < vData.length) :
    isSet (setBit vData idx') idx = true := by
  have hor (x y m : UInt8) : (x ||| y) &&& m = x &&& m ||| y &&& m :=
    UInt8.toBitVec_inj.mp (by simp [BitVec.and_or_distrib_right])
  simp only [isSet, setBit, getD_eq_getElem?_getD, getElem?_modify, decide_eq_true_eq] at h ⊢
  rcases h with h | ⟨rfl, h⟩
  · cases hv : vData[idx >>> 3]? with
    | none => simp [hv] at h
    | some x => by_cases heq : idx' >>> 3 = idx >>> 3 <;> simp_all
  · simp [getElem?_eq_getElem h, hor, mask_ne_zero]

lemma isSet_foldl {l : List ℕ} (h : isSet vData idx = true ∨ idx ∈ l ∧ idx >>> 3 < vData.length) :
    isSet (l.foldl setBit vData) idx = true := by
  induction l generalizing vData with
  | nil => simpa using h
  | cons idx' l ih =>
    have hlength : (setBit vData idx').length = vData.length := by simp [setBit]
    refine ih ?_
    rw [hlength]
    rcases h with h | ⟨hmem, h⟩
    · exact .inl (isSet_setBit (.inl h))
    · rcases mem_cons.mp hmem with heq | hmem
      · exact .inl (isSet_setBit (.inr ⟨heq, h⟩))
      · exact .inr ⟨hmem, h⟩

/-- Up to the fifteenth round the cursor stays on the hash. -/
lemma probesFrom_congr (beyond beyond' : ℕ → UInt32) (hi : i + rounds ≤ 15)
    (hpos : pos = if i < 8 then i else i - 7) :
    probesFrom bits beyond rounds i rotHash pos = probesFrom bits beyond' rounds i rotHash pos := by
  induction rounds generalizing i pos rotHash with
  | zero => rfl
  | succ rounds ih =>
    have hlt : pos < 8 := by split_ifs at hpos <;> omega
    simp only [probesFrom, wordAt, if_pos hlt]
    split_ifs with hrow
    · exact congrArg _ (ih (by omega) (by split_ifs <;> omega))
    · exact congrArg _ (ih (by omega) (by split_ifs at hpos ⊢ <;> omega))

lemma exists_word_of_mem_probesFrom {beyond : ℕ → UInt32}
    (h : idx ∈ probesFrom bits beyond rounds i rotHash pos) :
    ∃ val < 2 ^ 32, idx = val % ((bits + 2 ^ 64 - 1) % 2 ^ 64) := by
  induction rounds generalizing i pos rotHash with
  | zero => cases h
  | succ rounds ih =>
    rcases mem_cons.mp h with rfl | h
    · refine ⟨_, ?_, rfl⟩
      rw [wordAt]
      split_ifs
      · exact (ofLeBytes_lt _).trans_le (Nat.pow_le_pow_right (by decide) (length_take_le _ _))
      · exact (beyond i).toNat_lt
    · exact ih h

namespace CVariableFastFilter

/-- Every probe is a bit of the filter. -/
lemma Constructed.probes_lt (h : f.Constructed) {beyond : ℕ → UInt32} {hash : Uint256}
    (hidx : idx ∈ f.probes beyond hash) : idx >>> 3 < f.vData.length := by
  obtain ⟨val, hval, rfl⟩ := exists_word_of_mem_probesFrom hidx
  have hlen := h.nonempty
  have hbits := h.bits
  rw [Nat.shiftRight_eq_div_pow, Nat.div_lt_iff_lt_mul (by decide)]
  by_cases hzero : f.nFilterBits = 0
  · have hle := Nat.mod_le val ((f.nFilterBits + 2 ^ 64 - 1) % 2 ^ 64)
    omega
  · have hlt := Nat.mod_lt val (y := (f.nFilterBits + 2 ^ 64 - 1) % 2 ^ 64) (by omega)
    omega

lemma inserts_spec (f : CVariableFastFilter) (later : List (Uint256 × (ℕ → UInt32))) :
    let g := later.foldl (fun f x => f.insert x.2 x.1) f
    (∀ idx, isSet f.vData idx = true → isSet g.vData idx = true) ∧
      g.nHashFuncs = f.nHashFuncs ∧ g.nFilterBits = f.nFilterBits := by
  induction later generalizing f with
  | nil => exact ⟨fun _ h => h, rfl, rfl⟩
  | cons x later ih =>
    obtain ⟨hset, hfields⟩ := ih (f.insert x.2 x.1)
    exact ⟨fun idx h => hset idx (isSet_foldl (.inl h)), hfields⟩

/-- The probes stay on the hash and what is inserted is found, with fifteen hash functions at
most. -/
theorem Constructed.probesHash_iff (h : f.Constructed) (hpos : 1 ≤ f.nHashFuncs)
    (hmax : f.nHashFuncs ≤ 32) :
    f.ProbesHash ∧ f.NoFalseNegatives ↔ f.nHashFuncs ≤ 15 := by
  constructor
  · rintro ⟨hprobes, -⟩
    by_contra hlt
    obtain ⟨k, hk⟩ := Nat.exists_eq_add_of_le' (not_le.mp hlt)
    have hword (beyond : ℕ → UInt32) : (f.probes beyond .null)[15]? =
        some ((beyond 15).toNat % ((f.nFilterBits + 2 ^ 64 - 1) % 2 ^ 64)) := by
      rw [probes, hk]
      rfl
    have hsame := hprobes .null (fun _ => 0) fun _ => 1
    have hmod := Option.some.inj ((hword _).symm.trans ((congrArg (·[15]?) hsame).trans (hword _)))
    have hbits := h.bits
    have hlen := h.nonempty
    simp only [UInt32.reduceToNat, Nat.zero_mod] at hmod
    rw [Nat.mod_eq_of_lt (by omega)] at hmod
    cases hmod
  · intro hle
    have hprobes : f.ProbesHash := fun hash beyond beyond' =>
      probesFrom_congr beyond beyond' (by omega) rfl
    refine ⟨hprobes, fun hash beyond beyond' later => all_eq_true.mpr fun idx hidx => ?_⟩
    obtain ⟨hset, hfuncs, hbits⟩ := inserts_spec (f.insert beyond hash) later
    rw [probes, hfuncs, hbits] at hidx
    exact hset idx (isSet_foldl (.inr ⟨hprobes hash beyond beyond' ▸ hidx, h.probes_lt hidx⟩))

end CVariableFastFilter

open CVariableFastFilter

/-- The filter that the constructor makes for one element and the rate 0.00001. -/
def sixteenFuncs : CVariableFastFilter := ⟨[0, 0, 0], 16, 3, 24⟩

theorem sixteen_not_probesHash :
    sixteenFuncs.Constructed ∧ ¬ (sixteenFuncs.ProbesHash ∧ sixteenFuncs.NoFalseNegatives) := by
  refine ⟨⟨by decide, by decide, by decide⟩, fun ⟨h, _⟩ => ?_⟩
  exact absurd (h .null (fun _ => 0) fun _ => 1) (by decide)

/-- The filter that the constructor makes for five elements and the rate 0.00003. -/
def fifteenFuncs : CVariableFastFilter := ⟨List.replicate 14 0, 15, 14, 112⟩

theorem fifteen_probesHash : fifteenFuncs.ProbesHash ∧ fifteenFuncs.NoFalseNegatives :=
  (Constructed.probesHash_iff ⟨by decide, by decide, by decide⟩ (by decide) (by decide)).mpr
    (by decide)

lemma nFilterBytes_of_unserialize {bytes rest : Bytes} (h : unserialize bytes = .ok (f, rest)) :
    f.nFilterBytes = 8 * f.nFilterBits % 2 ^ 32 := by
  obtain ⟨⟨vData, s⟩, -, h⟩ := bind_eq_ok.mp h
  obtain ⟨⟨n, s⟩, -, h⟩ := bind_eq_ok.mp h
  dsimp only at h
  split_ifs at h
  · cases h
  · obtain ⟨⟨bits, s⟩, -, h⟩ := bind_eq_ok.mp h
    cases h
    rfl

/-- No filter that is read is well formed: its size in bytes is taken for eight times that in
bits. Its contents and answers are those of the filter that was written. -/
theorem unserialize_wellFormed_iff (bytes : Bytes) :
    ((∀ f rest, unserialize bytes = .ok (f, rest) → f.WellFormed) ↔
      ∃ e, unserialize bytes = .error e) ∧
    ∀ (f : CVariableFastFilter) (rest : Bytes), f.vData.length ≤ maxSize → 1 ≤ f.nHashFuncs →
      f.nHashFuncs ≤ 32 → f.nFilterBits < 2 ^ 64 →
      ∃ g, unserialize (f.serialize ++ rest) = .ok (g, rest) ∧ g.vData = f.vData ∧
        ∀ beyond hash, g.contains beyond hash = f.contains beyond hash := by
  refine ⟨⟨fun h => ?_, fun ⟨e, he⟩ f rest hok => ?_⟩, fun f rest hsize hone hmax hbits => ?_⟩
  · cases hread : unserialize bytes with
    | error e => exact ⟨e, rfl⟩
    | ok r =>
      obtain ⟨⟨hone, k, hk⟩, hbytes, hsize, -, -⟩ := h r.1 r.2 hread
      rw [nFilterBytes_of_unserialize hread, hsize] at hbytes
      rcases le_total k 28 with hle | hle
      · have := Nat.pow_le_pow_right (n := 2) (by decide) hle
        rw [Nat.mod_eq_of_lt (by omega)] at hbytes
        omega
      · obtain ⟨j, rfl⟩ := Nat.exists_eq_add_of_le hle
        have := Nat.two_pow_pos j
        rw [pow_add] at hk
        omega
  · rw [he] at hok
    cases hok
  · refine ⟨{ f with nFilterBytes := 8 * f.nFilterBits % 2 ^ 32 }, ?_, rfl, fun _ _ => rfl⟩
    have hreads : Reads unserialize f.serialize
        { f with nFilterBytes := 8 * f.nFilterBits % 2 ^ 32 } := by
      rw [serialize, append_assoc]
      refine (reads_readByteVector f.vData hsize).bind
        ((reads_readLe 1 f.nHashFuncs (by omega)).bind ?_)
      rw [if_neg (by omega)]
      exact (reads_readLe 8 f.nFilterBits hbits).bind_pure
    exact hreads rest

theorem unserialize_fifteenFuncs :
    ∃ g, unserialize (fifteenFuncs.serialize ++ [7]) = .ok (g, [7]) ∧
      g.vData = fifteenFuncs.vData ∧
      ∀ beyond hash, g.contains beyond hash = fifteenFuncs.contains beyond hash :=
  (unserialize_wellFormed_iff []).2 fifteenFuncs [7] (by decide) (by decide) (by decide) (by decide)

/-- The filter that the default constructor makes, as it is written. -/
theorem unserialize_default :
    ¬ ∀ f rest, unserialize (CVariableFastFilter.serialize ⟨[0], 1, 1, 8⟩) = .ok (f, rest) →
      f.WellFormed :=
  fun h => absurd (h _ _ rfl).bytes (by decide)

end PyrrhaNode.VariableFastFilter
