import PyrrhaNode.ByteCodec

/-!
# Serialization of words, blobs and vectors

Writers produce the bytes that a stream receives; readers consume a stream and
fail with the text of the exception that the stream or a size check throws. Vectors
carry their length as a compact size, which is a 64-bit number of one, three, five
or nine bytes. Compact sizes of 64-bit numbers are prefix free, hence so is every
record composed of words, blobs and length-prefixed vectors.
-/
namespace PyrrhaNode.Serialize
open List ByteCodec

abbrev Bytes := List UInt8

/-- An opaque blob of 256 bits, stored as its 32 bytes in memory order. -/
structure Uint256 where
  data : Bytes
  size_eq : data.length = 32
  deriving DecidableEq

/-- An opaque blob of 160 bits. -/
structure Uint160 where
  data : Bytes
  size_eq : data.length = 20
  deriving DecidableEq

@[ext] theorem Uint160.ext {a b : Uint160} (h : a.data = b.data) : a = b := by
  cases a; cases b; simp_all

namespace Uint256

@[ext] theorem ext {a b : Uint256} (h : a.data = b.data) : a = b := by
  cases a; cases b; simp_all

/-- The blob of zero bytes that the default constructor makes. -/
def null : Uint256 := ⟨List.replicate 32 0, by simp⟩

lemma eq_of_ofLeBytes {a b : Uint256} (h : ofLeBytes a.data = ofLeBytes b.data) : a = b := by
  apply ext
  rw [← leBytes_ofLeBytes a.data, ← leBytes_ofLeBytes b.data, a.size_eq, b.size_eq, h]

/-- The blob of this byte and zeroes. -/
def ofByte (b : UInt8) : Uint256 := ⟨b :: List.replicate 31 0, by simp⟩

def isNull (a : Uint256) : Bool := a.data.all (· == 0)

end Uint256

/-- The hash functions of the node, as functions of the hashed message: one round
of SHA256, two rounds of it, and the 20-byte script hash. -/
structure HashFns where
  sha256 : Bytes → Uint256
  hash256 : Bytes → Uint256
  hash160 : Bytes → Uint160

/-- Hash functions for runs on concrete data: one round keeps the first 28 and the last
four bytes of an outpoint message, the others separate messages by their length alone. -/
def lengthHash : HashFns where
  sha256 m := ⟨leBytes 32 (ofLeBytes (m.take 28 ++ m.drop 32)), by simp⟩
  hash256 m := ⟨leBytes 32 m.length, by simp⟩
  hash160 m := ⟨leBytes 20 m.length, by simp⟩

def ser8 (v : UInt8) : Bytes := [v]
def ser32 (v : UInt32) : Bytes := leBytes 4 v.toNat
def ser64 (v : UInt64) : Bytes := leBytes 8 v.toNat

/-- Signed 64-bit words are written as their two's complement. -/
def serInt64 (v : Int64) : Bytes := ser64 v.toUInt64

def serUint256 (v : Uint256) : Bytes := v.data

/-- A size is written in the shortest of four forms. The last form keeps the low
64 bits, as the parameter of the writer does. -/
def writeCompactSize (n : ℕ) : Bytes :=
  if n < 253 then [UInt8.ofNat n]
  else if n ≤ 0xffff then 253 :: leBytes 2 n
  else if n ≤ 0xffffffff then 254 :: leBytes 4 n
  else 255 :: leBytes 8 n

/-- A vector: its size, then its elements one after the other. -/
def serVector {α : Type*} (enc : α → Bytes) (v : List α) : Bytes :=
  writeCompactSize v.length ++ v.flatMap enc

/-- A vector of bytes is written in one piece after its size. -/
def serBytes (v : Bytes) : Bytes := writeCompactSize v.length ++ v

/-- A reader consumes the front of a stream or throws. -/
abbrev Reader := StateT Bytes (Except String)

/-- The next `n` bytes of the stream. -/
def readBytes (n : ℕ) : Reader Bytes := fun s =>
  if s.length < n then .error "CDataStream::read(): end of data"
  else .ok (s.take n, s.drop n)

def readLe (n : ℕ) : Reader ℕ := do
  return ofLeBytes (← readBytes n)

def readUInt32 : Reader UInt32 := do
  return UInt32.ofNat (← readLe 4)

/-- The next 32 bytes of the stream as a blob. -/
def readUint256 : Reader Uint256 := fun s =>
  if h : s.length < 32 then .error "CDataStream::read(): end of data"
  else .ok (⟨s.take 32, by simp; omega⟩, s.drop 32)

/-- The word of `width` bytes after a size marker, refused when a shorter form
could have held it. -/
def readSizeWord (width low : ℕ) : Reader ℕ := do
  let nSizeRet ← readLe width
  if nSizeRet < low then throw "non-canonical ReadCompactSize()" else pure nSizeRet

/-- The size that follows its marker byte, which is itself the size below 253. -/
def readSizeForm (chSize : ℕ) : Reader ℕ :=
  if chSize < 253 then pure chSize
  else if chSize = 253 then readSizeWord 2 253
  else if chSize = 254 then readSizeWord 4 0x10000
  else readSizeWord 8 0x100000000

/-- A size in one of its four forms, refused when it exceeds `limit`. -/
def readCompactSizeWithLimit (limit : ℕ) : Reader ℕ := do
  let chSize ← readLe 1
  let nSizeRet ← readSizeForm chSize
  if limit < nSizeRet then throw "ReadCompactSize(): size too large" else pure nSizeRet

def maxSize : ℕ := 0x02000000 * 8

def readCompactSize : Reader ℕ := readCompactSizeWithLimit maxSize

/-- `n` elements, one after the other. -/
def readMany {α : Type} (dec : Reader α) : ℕ → Reader (List α)
  | 0 => pure []
  | n + 1 => do
      let a ← dec
      let l ← readMany dec n
      return a :: l

def readVector {α : Type} (dec : Reader α) : Reader (List α) := do
  let n ← readCompactSize
  readMany dec n

def readByteVector : Reader Bytes := do
  let n ← readCompactSize
  readBytes n

/-- On a stream that starts with `bytes`, the reader returns `a` and consumes
exactly those bytes. -/
def Reads {α : Type} (r : Reader α) (bytes : Bytes) (a : α) : Prop :=
  ∀ rest, r (bytes ++ rest) = .ok (a, rest)

variable {α β : Type} {r dec : Reader α} {bytes : Bytes} {a : α} (v : List α)

theorem Reads.pure (a : α) : Reads (Pure.pure a : Reader α) [] a :=
  fun _ => rfl

theorem Reads.bind {k : α → Reader β} {bytes' : Bytes} {b : β}
    (hr : Reads r bytes a) (hk : Reads (k a) bytes' b) :
    Reads (r >>= k) (bytes ++ bytes') b := by
  intro rest
  show (r (bytes ++ bytes' ++ rest) >>= fun p => k p.1 p.2) = _
  rw [append_assoc, hr]
  exact hk rest

theorem Reads.bind_pure {f : α → β}
    (hr : Reads r bytes a) : Reads (r >>= fun x => Pure.pure (f x)) bytes (f a) := by
  have h := hr.bind (k := fun x => Pure.pure (f x)) (Reads.pure (f a))
  rwa [append_nil] at h

theorem Reads.eval (h : Reads r bytes a) :
    r bytes = .ok (a, []) := by
  simpa using h []

theorem reads_readBytes (bytes : Bytes) : Reads (readBytes bytes.length) bytes bytes := by
  intro rest
  simp [readBytes]

theorem reads_readLe (width v : ℕ) (hv : v < 256 ^ width) :
    Reads (readLe width) (leBytes width v) v := by
  have h := (reads_readBytes (leBytes width v)).bind_pure (f := ofLeBytes)
  rwa [length_leBytes, ofLeBytes_leBytes, Nat.mod_eq_of_lt hv] at h

theorem reads_readUInt32 (v : UInt32) : Reads readUInt32 (ser32 v) v := by
  have h := (reads_readLe 4 v.toNat v.toNat_lt).bind_pure (f := UInt32.ofNat)
  rwa [UInt32.ofNat_toNat] at h

theorem reads_readUint256 (v : Uint256) : Reads readUint256 (serUint256 v) v := by
  intro rest
  have hlen : ¬ (serUint256 v ++ rest).length < 32 := by
    rw [length_append, serUint256, v.size_eq]; omega
  simp only [readUint256, hlen, dite_false, Except.ok.injEq, Prod.mk.injEq,
    Uint256.ext_iff]
  exact ⟨take_left' v.size_eq, drop_left' v.size_eq⟩

theorem reads_readSizeWord (width low v : ℕ) (hv : v < 256 ^ width) (hlow : low ≤ v) :
    Reads (readSizeWord width low) (leBytes width v) v := by
  rw [← append_nil (leBytes width v)]
  refine (reads_readLe width v hv).bind ?_
  rw [if_neg (by omega)]
  exact Reads.pure v

lemma reads_size_of_marker (limit n m : ℕ) (bytes : Bytes) (hm : m < 256) (hlimit : n ≤ limit)
    (hform : Reads (readSizeForm m) bytes n) :
    Reads (readCompactSizeWithLimit limit) (UInt8.ofNat m :: bytes) n := by
  have hmark : Reads (readLe 1) [UInt8.ofNat m] m := by
    have h := reads_readLe 1 m (by omega)
    simpa [leBytes, Nat.mod_eq_of_lt hm] using h
  refine hmark.bind ?_
  rw [← append_nil bytes]
  refine hform.bind ?_
  rw [if_neg (by omega)]
  exact Reads.pure n

theorem reads_readCompactSizeWithLimit (limit n : ℕ) (hn : n < 2 ^ 64) (hlimit : n ≤ limit) :
    Reads (readCompactSizeWithLimit limit) (writeCompactSize n) n := by
  unfold writeCompactSize
  split_ifs with h1 h2 h3
  · apply reads_size_of_marker limit n n [] (by omega) hlimit
    rw [readSizeForm, if_pos h1]
    exact Reads.pure n
  · exact reads_size_of_marker limit n 253 _ (by omega) hlimit
      (reads_readSizeWord 2 253 n (by omega) (by omega))
  · exact reads_size_of_marker limit n 254 _ (by omega) hlimit
      (reads_readSizeWord 4 0x10000 n (by omega) (by omega))
  · exact reads_size_of_marker limit n 255 _ (by omega) hlimit
      (reads_readSizeWord 8 0x100000000 n (by omega) (by omega))

theorem reads_readCompactSize (n : ℕ) (hn : n ≤ maxSize) :
    Reads readCompactSize (writeCompactSize n) n :=
  reads_readCompactSizeWithLimit maxSize n (by unfold maxSize at hn; omega) hn

theorem reads_readByteVector (v : Bytes) (hv : v.length ≤ maxSize) :
    Reads readByteVector (serBytes v) v :=
  (reads_readCompactSize v.length hv).bind (reads_readBytes v)

theorem reads_readMany {enc : α → Bytes}
    (hdec : ∀ a ∈ v, Reads dec (enc a) a) : Reads (readMany dec v.length) (v.flatMap enc) v := by
  induction v with
  | nil => exact Reads.pure []
  | cons a v ih =>
    have hv := (ih fun x hx => hdec x (by simp [hx])).bind_pure (f := fun l => a :: l)
    exact (hdec a (by simp)).bind hv

theorem reads_readVector {enc : α → Bytes} (hv : v.length ≤ maxSize)
    (hdec : ∀ a ∈ v, Reads dec (enc a) a) :
    Reads (readVector dec) (serVector enc v) v :=
  (reads_readCompactSize v.length hv).bind (reads_readMany v hdec)

theorem ser8_prefixFree : PrefixFreeOn Set.univ ser8 :=
  prefixFreeOn_of_length 1 (fun _ _ => rfl) (fun a _ b _ h => by simpa [ser8] using h)

theorem ser32_prefixFree : PrefixFreeOn Set.univ ser32 := by
  refine prefixFreeOn_of_length 4 (fun _ _ => by simp [ser32]) ?_
  intro a _ b _ h
  exact UInt32.toNat_inj.mp (leBytes_injOn 4 a.toNat_lt b.toNat_lt h)

theorem ser64_prefixFree : PrefixFreeOn Set.univ ser64 := by
  refine prefixFreeOn_of_length 8 (fun _ _ => by simp [ser64]) ?_
  intro a _ b _ h
  exact UInt64.toNat_inj.mp (leBytes_injOn 8 a.toNat_lt b.toNat_lt h)

theorem serInt64_prefixFree : PrefixFreeOn Set.univ serInt64 := by
  intro a _ b _ xs ys h
  obtain ⟨hab, hxy⟩ := ser64_prefixFree _ trivial _ trivial xs ys h
  exact ⟨congrArg Int64.ofUInt64 hab, hxy⟩

theorem serUint256_prefixFree : PrefixFreeOn Set.univ serUint256 :=
  prefixFreeOn_of_length 32 (fun a _ => a.size_eq) (fun _ _ _ _ h => Uint256.ext h)

/-- The sizes that a 64-bit `size_t` holds. -/
def Fits {α : Type*} (v : List α) : Prop := v.length < 2 ^ 64

instance {α : Type*} (v : List α) : Decidable (Fits v) :=
  inferInstanceAs (Decidable (v.length < 2 ^ 64))

theorem writeCompactSize_prefixFree : PrefixFreeOn {n | n < 2 ^ 64} writeCompactSize := by
  refine prefixFreeOn_of_decode (fun s => (readCompactSizeWithLimit (2 ^ 64) s).toOption) ?_
  intro n hn xs
  have hlt : n < 2 ^ 64 := hn
  rw [reads_readCompactSizeWithLimit (2 ^ 64) n hlt hlt.le xs]
  rfl

theorem serVector_prefixFree {α : Type*} {s : Set α} {enc : α → Bytes} (h : PrefixFreeOn s enc) :
    PrefixFreeOn {v : List α | Fits v ∧ ∀ a ∈ v, a ∈ s} (serVector enc) := by
  intro v hv v' hv' xs ys he
  simp only [serVector, append_assoc] at he
  obtain ⟨hlen, hrest⟩ := writeCompactSize_prefixFree _ hv.1 _ hv'.1 _ _ he
  exact h.flatMap_append v v' hv.2 hv'.2 hlen xs ys hrest

theorem serBytes_prefixFree : PrefixFreeOn {v : Bytes | Fits v} serBytes := by
  intro v hv v' hv' xs ys he
  simp only [serBytes, append_assoc] at he
  obtain ⟨hlen, hrest⟩ := writeCompactSize_prefixFree _ hv _ hv' _ _ he
  exact append_inj hrest hlen

end PyrrhaNode.Serialize
