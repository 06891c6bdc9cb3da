import Mathlib.Data.Nat.Log
import Mathlib.Data.Nat.Bitwise
import Mathlib.Tactic.Ring
import PyrrhaNode.ListWrites
import PyrrhaNode.Loop
import PyrrhaNode.Serialize

/-!
# The bit-packed order of a Graphene set

A Graphene set sends the order of its items as one number per item, each written with
`nBits` bits, low-order bit first, without padding between the numbers.
-/
namespace PyrrhaNode.RankCodec

open List Serialize
open ListWrites
open Loop

abbrev Outcome := Except Failure

/-- The outcome of array accesses that may lie outside the array. -/
def bounded {α : Type} : Option α → Outcome α
  | some a => .ok a
  | none => .error .outOfBounds

theorem bounded_eq_ok {α : Type} {x : Option α} {a : α} : bounded x = .ok a ↔ x = some a := by
  cases x <;> simp [bounded]

def wordBits : ℕ := 8

/-- The conversion of an integer to `float`, which keeps 24 significant bits and rounds to
the nearest value, ties to even. -/
def toFloat (n : ℕ) : ℕ :=
  let ulp := 2 ^ (n.log2 - 23)
  let q := n / ulp
  let r := n % ulp
  if 2 * r < ulp ∨ (2 * r = ulp ∧ q % 2 = 0) then q * ulp else (q + 1) * ulp

/-- `int(ceil(nBitsPerItem * nItems / float(WORD_BITS)))`; dividing a `float` by eight is
exact. -/
def nEncodedWords (nBitsPerItem nItems : ℕ) : ℕ :=
  (toFloat (nBitsPerItem * nItems) + (wordBits - 1)) / wordBits

/-- The loop `x |= bit(j) << j` for `j` below `n`. -/
def packBits (bit : ℕ → Bool) (n : ℕ) : ℕ :=
  (List.range n).foldl (fun x j => x ||| (bit j).toNat <<< j) 0

/-- The assignments `bits[j + i * nBitsPerItem] = (item >> j) & 1` of `EncodeRank`. -/
def bitWrites (items : List ℕ) (nBitsPerItem : ℕ) : List (ℕ × Bool) :=
  (List.range items.length).flatMap fun i =>
    (List.range nBitsPerItem).map fun j => (j + i * nBitsPerItem, (items.getD i 0).testBit j)

/-- The encoding of a boolean array, eight bits a word. -/
def packWords (bits : List Bool) (words : ℕ) : Bytes :=
  (List.range words).map fun i =>
    UInt8.ofNat (packBits (fun j => bits.getD (j + i * wordBits) false) wordBits)

/-- `EncodeRank`. The array `bits` is allocated without being initialised, so the bits
after the last item have arbitrary values `uninit`. -/
def encodeRank (uninit : ℕ → Bool) (items : List ℕ) (nBitsPerItem : ℕ) : Outcome Bytes := do
  let words := nEncodedWords nBitsPerItem items.length
  if ∃ item ∈ items, nBitsPerItem < Nat.clog 2 item then
    throw (.assertion "ceil(log2(item)) <= nBitsPerItem")
  let bits ← bounded (writeAll ((List.range (words * wordBits)).map uninit)
    (bitWrites items nBitsPerItem))
  return packWords bits words

/-- The boolean array of `DecodeRank`, low-order bit of each word first. -/
def bitArray (words : Bytes) : List Bool :=
  (List.range (words.length * wordBits)).map fun p =>
    (words.getD (p / wordBits) 0).toNat.testBit (p % wordBits)

/-- The conversion of the bits of item `i` to a number. -/
def decodeItem (bits : List Bool) (nBitsPerItem i : ℕ) : Option ℕ := do
  let itemBits ← readAll bits ((List.range nBitsPerItem).map fun j => j + i * nBitsPerItem)
  return packBits (fun j => itemBits.getD j false) nBitsPerItem

/-- `DecodeRank`, with nothing where it reads outside `encoded` or `bits`. -/
def decodeRank (encoded : Bytes) (nItems nBitsPerItem : ℕ) : Option (List ℕ) := do
  let words ← readAll encoded (List.range (nEncodedWords nBitsPerItem nItems))
  (List.range nItems).mapM (decodeItem (bitArray words) nBitsPerItem)

/-- Bit `p` of a byte vector, low-order bit first. -/
def streamBit (encoded : Bytes) (p : ℕ) : Bool :=
  (encoded.getD (p / wordBits) 0).toNat.testBit (p % wordBits)

/-- The number in place `i` of a byte vector that holds numbers of `nBits` bits. -/
def rankAt (encoded : Bytes) (nBits i : ℕ) : ℕ :=
  packBits (fun j => streamBit encoded (j + i * nBits)) nBits

/-- The words have room for all the bits, which fails where `float` rounds down past a
multiple of eight. -/
def BitsFit (nBits nItems : ℕ) : Prop := nBits * nItems ≤ nEncodedWords nBits nItems * wordBits

instance (nBits nItems : ℕ) : Decidable (BitsFit nBits nItems) :=
  inferInstanceAs (Decidable (_ ≤ _))

theorem testBit_packBits (bit : ℕ → Bool) (n k : ℕ) :
    (packBits bit n).testBit k = (decide (k < n) && bit k) := by
  induction n with
  | zero => simp [packBits]
  | succ n ih =>
    have hstep : packBits bit (n + 1) = packBits bit n ||| (bit n).toNat <<< n := by
      simp [packBits, range_succ]
    have hbit : ((bit n).toNat <<< n).testBit k = (decide (k = n) && bit n) := by
      by_cases hk : k = n
      · cases hbit : bit n <;> simp [hk]
      · by_cases hge : n ≤ k
        · have hone : 1 < 2 ^ (k - n) := Nat.one_lt_two_pow (by omega)
          cases hbit : bit n <;> simp [hk, Nat.testBit_lt_two_pow hone]
        · simp [hk, hge]
    rw [hstep, Nat.testBit_or, ih, hbit]
    by_cases hk : k = n
    · simp [hk]
    · have : k < n + 1 ↔ k < n := by omega
      simp [hk, this]

theorem packBits_lt (bit : ℕ → Bool) (n : ℕ) : packBits bit n < 2 ^ n :=
  Nat.lt_pow_two_of_testBit _ fun k hk => by simp [testBit_packBits, Nat.not_lt.mpr hk]

theorem packBits_testBit {x n : ℕ} (h : x < 2 ^ n) : packBits x.testBit n = x := by
  refine Nat.eq_of_testBit_eq fun k => ?_
  rw [testBit_packBits]
  by_cases hk : k < n
  · simp [hk]
  · have hle : 2 ^ n ≤ 2 ^ k := Nat.pow_le_pow_right (by decide) (by omega)
    simp [Nat.testBit_lt_two_pow (h.trans_le hle)]

theorem packBits_congr {bit bit' : ℕ → Bool} {n : ℕ} (h : ∀ j < n, bit j = bit' j) :
    packBits bit n = packBits bit' n := by
  refine Nat.eq_of_testBit_eq fun k => ?_
  rw [testBit_packBits, testBit_packBits]
  by_cases hk : k < n
  · simp [h k hk]
  · simp [hk]

theorem flatMap_range (n w : ℕ) :
    ((List.range n).flatMap fun i => (List.range w).map fun j => j + i * w) =
      List.range (n * w) := by
  induction n with
  | zero => simp
  | succ n ih =>
    rw [range_succ, flatMap_append, ih, Nat.succ_mul, range_add]
    simp [Nat.add_comm]

variable {i j : ℕ}

theorem bit_lt {w n : ℕ} (hi : i < n) (hj : j < w) : j + i * w < w * n := by
  calc j + i * w < w + i * w := by omega
    _ = w * (i + 1) := by ring
    _ ≤ w * n := Nat.mul_le_mul_left w hi

theorem forall_bit_lt_iff {w n bound : ℕ} :
    (∀ i < n, ∀ j < w, j + i * w < bound) ↔ w * n ≤ bound := by
  constructor
  · intro h
    by_contra hlt
    have hpos : 0 < w * n := by omega
    have hw : 0 < w := Nat.pos_of_mul_pos_right hpos
    have hn : 0 < n := Nat.pos_of_mul_pos_left hpos
    have hlast := h (n - 1) (by omega) (w - 1) (by omega)
    have hsucc : w - 1 + (n - 1) * w + 1 = w * n := by
      obtain ⟨n, rfl⟩ := Nat.exists_eq_succ_of_ne_zero hn.ne'
      have : w * (n + 1) = n * w + w := by ring
      simp only [Nat.succ_eq_add_one, Nat.add_sub_cancel]
      omega
    omega
  · intro h i hi j hj
    exact (bit_lt hi hj).trans_le h

@[simp] theorem length_bitArray (words : Bytes) :
    (bitArray words).length = words.length * wordBits := by
  simp [bitArray]

variable {encoded : Bytes} {bits : List Bool} {words p nBits : ℕ}

theorem getD_bitArray_take (hwords : words ≤ encoded.length) (hp : p < words * wordBits) :
    (bitArray (encoded.take words)).getD p false = streamBit encoded p := by
  have hdiv : p / wordBits < words := Nat.div_lt_of_lt_mul (by rwa [Nat.mul_comm])
  have hlength : (encoded.take words).length = words := by simpa using hwords
  simp [bitArray, streamBit, hlength, hp, List.getElem?_take, hdiv]

theorem readAll_range_eq_some_iff {read : Bytes} :
    readAll encoded (List.range words) = some read ↔
      words ≤ encoded.length ∧ read = encoded.take words := by
  have htake : words ≤ encoded.length →
      (List.range words).map (encoded.getD · 0) = encoded.take words := by
    intro hle
    refine ext_getElem (by simpa using hle) fun i hi _ => ?_
    have hi : i < encoded.length := (by simpa using hi : i < words).trans_le hle
    simp [List.getElem?_eq_getElem hi]
  have hin : (∀ i ∈ List.range words, i < encoded.length) ↔ words ≤ encoded.length := by
    simp only [mem_range]
    exact ⟨fun h => not_lt.mp fun hlt => (h _ hlt).false, fun h i hi => hi.trans_le h⟩
  rw [readAll_eq_some_iff 0, hin]
  constructor
  · rintro ⟨hle, rfl⟩
    exact ⟨hle, htake hle⟩
  · rintro ⟨hle, rfl⟩
    exact ⟨hle, (htake hle).symm⟩

theorem isSome_decodeItem_iff :
    (decodeItem bits nBits i).isSome ↔ ∀ j < nBits, j + i * nBits < bits.length := by
  have hread : (decodeItem bits nBits i).isSome ↔
      ∃ read, readAll bits ((List.range nBits).map fun j => j + i * nBits) = some read := by
    cases hread : readAll bits ((List.range nBits).map fun j => j + i * nBits) <;>
      simp [decodeItem, hread]
  rw [hread]
  simp [readAll_eq_some_iff false]

theorem decodeItem_eq_rankAt (hwords : words ≤ encoded.length)
    (hin : ∀ j < nBits, j + i * nBits < words * wordBits) :
    decodeItem (bitArray (encoded.take words)) nBits i = some (rankAt encoded nBits i) := by
  have hlength : (encoded.take words).length = words := by simpa using hwords
  have hread : readAll (bitArray (encoded.take words))
      ((List.range nBits).map fun j => j + i * nBits) = some _ :=
    (readAll_eq_some_iff false).mpr ⟨by simpa [hlength] using hin, rfl⟩
  have hpack : packBits (fun j => (((List.range nBits).map fun j => j + i * nBits).map
      ((bitArray (encoded.take words)).getD · false)).getD j false) nBits =
      rankAt encoded nBits i := by
    refine packBits_congr fun j hj => ?_
    rw [← getD_bitArray_take hwords (hin j hj)]
    simp [hj]
  rw [decodeItem, hread]
  exact congrArg some hpack

/-- `DecodeRank` stays inside its arrays exactly if the vector has all the words it
expects and those words hold all the bits; it then returns the packed numbers. -/
theorem decodeRank_eq_some_iff {nItems : ℕ} {ranks : List ℕ} :
    decodeRank encoded nItems nBits = some ranks ↔
      nEncodedWords nBits nItems ≤ encoded.length ∧ BitsFit nBits nItems ∧
        ranks = (List.range nItems).map (rankAt encoded nBits) := by
  have hitems : nEncodedWords nBits nItems ≤ encoded.length → BitsFit nBits nItems →
      (List.range nItems).mapM
          (decodeItem (bitArray (encoded.take (nEncodedWords nBits nItems))) nBits) =
        some ((List.range nItems).map (rankAt encoded nBits)) := fun hle hfits =>
    mapM_eq_some_map fun i hi =>
      decodeItem_eq_rankAt hle (forall_bit_lt_iff.mpr hfits i (mem_range.mp hi))
  simp only [decodeRank, Option.bind_eq_bind, Option.bind_eq_some_iff,
    readAll_range_eq_some_iff]
  constructor
  · rintro ⟨words, ⟨hle, rfl⟩, hranks⟩
    have hfits : BitsFit nBits nItems := forall_bit_lt_iff.mp fun i hi => by
      have := isSome_decodeItem_iff.mp
        (isSome_of_mapM_eq_some hranks i (mem_range.mpr hi))
      simpa [Nat.min_eq_left hle] using this
    exact ⟨hle, hfits, Option.some_inj.mp (hranks.symm.trans (hitems hle hfits))⟩
  · rintro ⟨hle, hfits, rfl⟩
    exact ⟨_, ⟨hle, rfl⟩, hitems hle hfits⟩

theorem positions_bitWrites (items : List ℕ) (nBits : ℕ) :
    positions (bitWrites items nBits) = List.range (items.length * nBits) := by
  rw [positions, bitWrites, map_flatMap, ← flatMap_range]
  simp [Function.comp_def]

theorem streamBit_packWords (hp : p < words * wordBits) :
    streamBit (packWords bits words) p = bits.getD p false := by
  have hdiv : p / wordBits < words := Nat.div_lt_of_lt_mul (by rwa [Nat.mul_comm])
  have hmod : p % wordBits < wordBits := Nat.mod_lt _ (by decide)
  have hword : (packWords bits words).getD (p / wordBits) 0 =
      UInt8.ofNat (packBits (fun j => bits.getD (j + p / wordBits * wordBits) false) wordBits) := by
    simp [packWords, hdiv]
  have hbyte : ∀ bit, (UInt8.ofNat (packBits bit wordBits)).toNat = packBits bit wordBits :=
    fun bit => UInt8.toNat_ofNat_of_lt' (packBits_lt bit wordBits)
  have hp : p % wordBits + p / wordBits * wordBits = p := by
    rw [Nat.mul_comm]
    exact Nat.mod_add_div p wordBits
  rw [streamBit, hword, hbyte, testBit_packBits]
  simp [hmod, hp]

section Encode

variable {uninit : ℕ → Bool} {items : List ℕ} {nBits : ℕ} {enc : Bytes}

variable (hitems : ∀ item ∈ items, item < 2 ^ nBits)
include hitems

theorem encodeRank_eq_ok_iff :
    encodeRank uninit items nBits = .ok enc ↔ ∃ bits,
      writeAll ((List.range (nEncodedWords nBits items.length * wordBits)).map uninit)
        (bitWrites items nBits) = some bits ∧
      packWords bits (nEncodedWords nBits items.length) = enc := by
  have hassert : ¬ ∃ item ∈ items, nBits < Nat.clog 2 item := by
    rintro ⟨item, hitem, hlt⟩
    exact absurd (Nat.clog_le_of_le_pow (hitems item hitem).le) (by omega)
  simp only [encodeRank, if_neg hassert]
  refine bind_eq_ok.trans (exists_congr fun bits => and_congr bounded_eq_ok ?_)
  exact ⟨Except.ok.inj, congrArg Except.ok⟩

theorem exists_encodeRank_iff :
    (∃ enc, encodeRank uninit items nBits = .ok enc) ↔ BitsFit nBits items.length := by
  have hwrites : (∃ bits,
      writeAll ((List.range (nEncodedWords nBits items.length * wordBits)).map uninit)
        (bitWrites items nBits) = some bits) ↔ BitsFit nBits items.length := by
    rw [exists_writeAll_iff, positions_bitWrites, BitsFit, Nat.mul_comm nBits]
    simp only [mem_range, length_map, length_range]
    exact ⟨fun h => not_lt.mp fun hlt => (h _ hlt).false, fun h i hi => hi.trans_le h⟩
  simp [encodeRank_eq_ok_iff hitems, ← hwrites]

theorem decodeRank_of_encodeRank (h : encodeRank uninit items nBits = .ok enc) :
    decodeRank enc items.length nBits = some items := by
  have hfits := (exists_encodeRank_iff hitems).mp ⟨enc, h⟩
  obtain ⟨bits, hwrites, rfl⟩ := (encodeRank_eq_ok_iff hitems).mp h
  have hnodup : (positions (bitWrites items nBits)).Nodup := by
    rw [positions_bitWrites]
    exact nodup_range
  have hbit : ∀ i < items.length, ∀ j < nBits,
      streamBit (packWords bits (nEncodedWords nBits items.length)) (j + i * nBits) =
        (items.getD i 0).testBit j := by
    intro i hi j hj
    rw [streamBit_packWords ((bit_lt hi hj).trans_le hfits), List.getD,
      getElem?_writeAll_of_mem hwrites hnodup (mem_flatMap.mpr
        ⟨i, mem_range.mpr hi, mem_map.mpr ⟨j, mem_range.mpr hj, rfl⟩⟩), Option.getD_some]
  refine decodeRank_eq_some_iff.mpr ⟨by simp [packWords], hfits, ?_⟩
  refine ext_getElem (by simp) fun i hi _ => ?_
  have hlt : items[i] < 2 ^ nBits := hitems _ (getElem_mem hi)
  have hrank : rankAt (packWords bits (nEncodedWords nBits items.length)) nBits i = items[i] :=
    calc packBits (fun j => streamBit _ (j + i * nBits)) nBits
        = packBits (items.getD i 0).testBit nBits := packBits_congr (hbit i hi)
      _ = packBits items[i].testBit nBits := by simp [List.getElem?_eq_getElem hi]
      _ = items[i] := packBits_testBit hlt
  simp [hrank]

end Encode

end PyrrhaNode.RankCodec
