import PyrrhaNode.CashAddr
import PyrrhaNode.Loop

/-!
# Addresses of destinations

An address packs a version byte and the bytes of a destination into groups of five bits and
writes these in the cashaddr format.  The version byte holds the kind of the destination and,
except for templates and groups, the size class of its hash.  Decoding copies the hash into a
block of twenty bytes whatever its size class is, and reads a template with the reader of scripts,
which throws on malformed bytes and leaves the bytes after the script unread.
-/
namespace PyrrhaNode.CashAddrEnc

open List Serialize ShiftRegister CashAddr Loop

/-- What ends a call without a result. -/
inductive AddrFailure
  | invalidRange
  | invalidLength
  | failedAssertion
  | bufferOverflow
  | streamFailure (what : String)
  deriving DecidableEq

/-- The variables of `ConvertBits`. -/
structure Regroup where
  out : Bytes
  acc : ℕ
  bits : ℕ

/-- The inner loop: the groups that leave the accumulator, and the bits that stay.  The number of
bits bounds the rounds. -/
def pushGroups (tobits acc : ℕ) : ℕ → ℕ → Bytes × ℕ
  | 0, bits => ([], bits)
  | rounds + 1, bits =>
    if tobits ≤ bits then
      let (out, left) := pushGroups tobits acc rounds (bits - tobits)
      (UInt8.ofNat (acc >>> (bits - tobits) &&& (2 ^ tobits - 1)) :: out, left)
    else ([], bits)

def convertStep (frombits tobits : ℕ) (s : Regroup) (v : UInt8) : Regroup :=
  let acc := (s.acc <<< frombits ||| v.toNat) &&& (2 ^ (frombits + tobits - 1) - 1)
  let bits := s.bits + frombits
  let (out, left) := pushGroups tobits acc bits bits
  ⟨s.out ++ out, acc, left⟩

/-- `ConvertBits`: what is written to `out`, and the value returned. -/
def convertBits (frombits tobits : ℕ) (pad : Bool) (it : Bytes) : Bytes × Bool :=
  let s := it.foldl (convertStep frombits tobits) ⟨[], 0, 0⟩
  if pad = false ∧ s.bits ≠ 0 then (s.out, false)
  else if pad = true ∧ s.bits ≠ 0 then
    (s.out ++ [UInt8.ofNat (s.acc <<< (tobits - s.bits) &&& (2 ^ tobits - 1))], true)
  else (s.out, true)

/-- The kind of an address; decoding casts any number of five bits to it. -/
abbrev CashAddrType := UInt8

def pubkeyType : CashAddrType := 0
def scriptType : CashAddrType := 1
def groupType : CashAddrType := 11
def scriptTemplateType : CashAddrType := 19

structure CashAddrContent where
  type : CashAddrType
  hash : Bytes
  deriving DecidableEq

inductive TxDestination
  | noDestination
  | keyId (id : Uint160)
  | scriptId (id : Uint160)
  | scriptTemplate (output : Bytes)
  deriving DecidableEq

/-- The prefix of a chain's addresses, which every chain sets to letters in lower case. -/
structure ChainParams where
  cashAddrPrefix : Bytes
  ne_nil : cashAddrPrefix ≠ []
  lower : ∀ c ∈ cashAddrPrefix, 97 ≤ c ∧ c ≤ 122

/-- `pyrrha` -/
def mainParams : ChainParams := ⟨[112, 121, 114, 114, 104, 97], by simp, by simp⟩

/-- `pyrrhareg` -/
def regTestParams : ChainParams :=
  ⟨[112, 121, 114, 114, 104, 97, 114, 101, 103], by simp, by simp⟩

/-- `pyrrhatest` -/
def testNetParams : ChainParams :=
  ⟨[112, 121, 114, 114, 104, 97, 116, 101, 115, 116], by simp, by simp⟩

/-- The size class of a hash of so many bytes. -/
def encodedSize (size : ℕ) : Except AddrFailure UInt8 :=
  match size * 8 with
  | 160 => .ok 0
  | 192 => .ok 1
  | 224 => .ok 2
  | 256 => .ok 3
  | 320 => .ok 4
  | 384 => .ok 5
  | 448 => .ok 6
  | 512 => .ok 7
  | _ => .error .invalidLength

def packAddrData (id : Bytes) (type : CashAddrType) : Except AddrFailure Bytes := do
  let size ← if type ≠ scriptTemplateType ∧ type ≠ groupType then encodedSize id.length else .ok 0
  return (convertBits 8 5 true ((type <<< 3 ||| size) :: id)).1

/-- `EncodeCashAddr` of the bytes of an address of some kind. -/
def encodeContent (id : Bytes) (type : CashAddrType) (params : ChainParams) :
    Except AddrFailure Bytes := do
  match encode params.cashAddrPrefix (← packAddrData id type) with
  | some str => .ok str
  | none => .error .failedAssertion

def encodeCashAddr (dst : TxDestination) (params : ChainParams) : Except AddrFailure Bytes :=
  match dst with
  | .keyId id => encodeContent id.data pubkeyType params
  | .scriptId id => encodeContent id.data scriptType params
  | .scriptTemplate output => encodeContent (serBytes output) scriptTemplateType params
  | .noDestination => .ok []

/-- The bytes of an address, version byte first; `none` is the empty content returned for an
address of another prefix or with wrong padding. -/
def addressData (addr : Bytes) (params : ChainParams) : Except AddrFailure (Option Bytes) :=
  match decode addr params.cashAddrPrefix with
  | .error .invalidRange => .error .invalidRange
  | .ok (addrPrefix, payload) =>
    if addrPrefix ≠ params.cashAddrPrefix then .ok none
    else if payload = [] then .ok none
    else if 5 ≤ payload.length * 5 % 8 then .ok none
    else if payload.getLastD 0 &&& (1 <<< UInt8.ofNat (payload.length * 5 % 8) - 1) ≠ 0 then
      .ok none
    else .ok (some (convertBits 5 8 false payload).1)

/-- The size of the hash that a version byte announces. -/
def hashSize (version : UInt8) : ℕ :=
  let size := 20 + 4 * (version &&& 0x03).toNat
  if version &&& 0x04 ≠ 0 then size * 2 else size

def decodeCashAddrContent (addr : Bytes) (params : ChainParams) :
    Except AddrFailure CashAddrContent :=
  match addressData addr params with
  | .error e => .error e
  | .ok (some (version :: hash)) =>
    let type := version >>> 3
    if type ≠ scriptTemplateType ∧ type ≠ groupType ∧ hash.length ≠ hashSize version then
      .ok ⟨pubkeyType, []⟩
    else .ok ⟨type, hash⟩
  | .ok _ => .ok ⟨pubkeyType, []⟩

/-- The copy of a hash into a block of twenty bytes that starts out as zeroes. -/
def copyHash (hash : Bytes) : Except AddrFailure Uint160 :=
  if h : hash.length ≤ 20 then
    .ok ⟨hash ++ List.replicate (20 - hash.length) 0, by
      rw [length_append, length_replicate]; omega⟩
  else .error .bufferOverflow

def decodeCashAddrDestination (content : CashAddrContent) : Except AddrFailure TxDestination :=
  if content.type = pubkeyType then do return .keyId (← copyHash content.hash)
  else if content.type = scriptType then do return .scriptId (← copyHash content.hash)
  else if content.type = scriptTemplateType then
    match readByteVector content.hash with
    | .ok (output, _) => .ok (.scriptTemplate output)
    | .error what => .error (.streamFailure what)
  else .ok .noDestination

def decodeCashAddr (addr : Bytes) (params : ChainParams) : Except AddrFailure TxDestination := do
  let content ← decodeCashAddrContent addr params
  if content.hash.length = 0 then return .noDestination
  decodeCashAddrDestination content

section Regrouping

variable {frombits tobits : ℕ} {it : Bytes} (acc : ℕ)

lemma toNat_group (shift : ℕ) (hto : tobits ≤ 8) :
    (UInt8.ofNat (acc >>> shift &&& (2 ^ tobits - 1))).toNat = acc >>> shift % 2 ^ tobits := by
  have hlt : acc >>> shift % 2 ^ tobits < 2 ^ 8 :=
    (Nat.mod_lt _ (Nat.two_pow_pos _)).trans_le (Nat.pow_le_pow_right (by decide) hto)
  rw [Nat.and_two_pow_sub_one_eq_mod, UInt8.toNat_ofNat', Nat.mod_eq_of_lt hlt]

lemma pushGroups_eq {rounds bits : ℕ} (hpos : 0 < tobits) (hto : tobits ≤ 8)
    (hrounds : bits ≤ rounds) :
    (pushGroups tobits acc rounds bits).1.map UInt8.toNat =
        digits tobits (bits / tobits) (acc >>> (bits % tobits)) ∧
      (pushGroups tobits acc rounds bits).2 = bits % tobits := by
  induction rounds generalizing bits with
  | zero =>
    obtain rfl : bits = 0 := by omega
    rw [Nat.zero_div]
    exact ⟨rfl, rfl⟩
  | succ rounds ih =>
    rw [pushGroups]
    split_ifs with hbits
    · obtain ⟨hout, hleft⟩ := @ih (bits - tobits) (by omega)
      have hmod : (bits - tobits) % tobits = bits % tobits := (Nat.mod_eq_sub_mod hbits).symm
      have hdiv : bits / tobits = (bits - tobits) / tobits + 1 := Nat.div_eq_sub_div hpos hbits
      have hshift : bits % tobits + tobits * ((bits - tobits) / tobits) = bits - tobits := by
        rw [← hmod]
        exact Nat.mod_add_div _ _
      refine ⟨?_, by rw [hleft, hmod]⟩
      rw [map_cons, hout, toNat_group _ _ hto, hmod, hdiv, digits, ← Nat.shiftRight_add,
        hshift]
    · have hlt := Nat.lt_of_not_le hbits
      rw [Nat.div_eq_of_lt hlt, Nat.mod_eq_of_lt hlt]
      exact ⟨rfl, rfl⟩

/-- One more value: the accumulator keeps the low bits of the number that is read, and the whole
groups follow those that are out already. -/
lemma convertStep_eq {s : Regroup} {x q r : ℕ} {v : UInt8} (hpos : 0 < tobits) (hto : tobits ≤ 8)
    (hv : v.toNat < 2 ^ frombits) (hr : r < tobits)
    (hout : s.out.map UInt8.toNat = digits tobits q (x >>> r))
    (hacc : s.acc = x % 2 ^ (frombits + tobits - 1)) (hbits : s.bits = r) :
    (convertStep frombits tobits s v).out.map UInt8.toNat =
        digits tobits (q + (r + frombits) / tobits)
          ((x * 2 ^ frombits + v.toNat) >>> ((r + frombits) % tobits)) ∧
      (convertStep frombits tobits s v).acc =
        (x * 2 ^ frombits + v.toNat) % 2 ^ (frombits + tobits - 1) ∧
      (convertStep frombits tobits s v).bits = (r + frombits) % tobits := by
  have hacc' : (s.acc <<< frombits ||| v.toNat) &&& (2 ^ (frombits + tobits - 1) - 1) =
      (x * 2 ^ frombits + v.toNat) % 2 ^ (frombits + tobits - 1) := by
    rw [Nat.and_two_pow_sub_one_eq_mod, ← Nat.shiftLeft_add_eq_or_of_lt hv, Nat.shiftLeft_eq, hacc,
      Nat.add_mod, Nat.mod_mul_mod, ← Nat.add_mod]
  have hwhole := Nat.mod_add_div (r + frombits) tobits
  obtain ⟨hgroups, hleft⟩ := pushGroups_eq
    ((x * 2 ^ frombits + v.toNat) % 2 ^ (frombits + tobits - 1)) hpos hto (le_refl (r + frombits))
  have hhigh : (x * 2 ^ frombits + v.toNat) >>> (r + frombits) = x >>> r := by
    rw [Nat.add_comm r, Nat.shiftRight_add, Nat.shiftRight_eq_div_pow _ frombits, Nat.mul_comm,
      Nat.mul_add_div (Nat.two_pow_pos _), Nat.div_eq_of_lt hv, Nat.add_zero]
  simp only [convertStep, hacc', hbits]
  refine ⟨?_, trivial, hleft⟩
  rw [map_append, hout, hgroups, digits_mod (by omega), digits_append, ← Nat.shiftRight_add,
    hwhole, hhigh]

/-- After some values the output holds the whole groups of their bits. -/
lemma foldl_convertStep (hpos : 0 < tobits) (hto : tobits ≤ 8)
    (hit : ∀ d ∈ it.map UInt8.toNat, d < 2 ^ frombits) :
    (it.foldl (convertStep frombits tobits) ⟨[], 0, 0⟩).out.map UInt8.toNat =
        digits tobits (frombits * it.length / tobits)
          (pack frombits (it.map UInt8.toNat) >>> (frombits * it.length % tobits)) ∧
      (it.foldl (convertStep frombits tobits) ⟨[], 0, 0⟩).acc =
        pack frombits (it.map UInt8.toNat) % 2 ^ (frombits + tobits - 1) ∧
      (it.foldl (convertStep frombits tobits) ⟨[], 0, 0⟩).bits =
        frombits * it.length % tobits := by
  induction it using List.reverseRecOn with
  | nil => simp [digits, pack]
  | append_singleton it v ih =>
    rw [map_append] at hit
    have hv : v.toNat < 2 ^ frombits := hit _ (by simp)
    obtain ⟨hout, hacc, hbits⟩ := ih fun d hd => hit d (mem_append_left _ hd)
    have hstep := convertStep_eq hpos hto hv (Nat.mod_lt _ hpos) hout hacc hbits
    have hdiv : frombits * (it.length + 1) / tobits =
        frombits * it.length / tobits + (frombits * it.length % tobits + frombits) / tobits := by
      rw [Nat.mul_add, Nat.mul_one]
      conv_lhs => rw [← Nat.div_add_mod (frombits * it.length) tobits, Nat.add_assoc,
        Nat.mul_add_div hpos]
    have hmod : frombits * (it.length + 1) % tobits =
        (frombits * it.length % tobits + frombits) % tobits := by
      rw [Nat.mul_add, Nat.mul_one, Nat.mod_add_mod]
    rw [foldl_append, map_append, map_singleton, pack_append_singleton,
      length_append, length_singleton, hdiv, hmod]
    exact hstep

lemma convertBits_padded (hpos : 0 < tobits) (hto : tobits ≤ 8)
    (hit : ∀ d ∈ it.map UInt8.toNat, d < 2 ^ frombits) :
    (convertBits frombits tobits true it).1.map UInt8.toNat =
      if frombits * it.length % tobits = 0 then
        digits tobits (frombits * it.length / tobits) (pack frombits (it.map UInt8.toNat))
      else digits tobits (frombits * it.length / tobits + 1)
        (pack frombits (it.map UInt8.toNat) <<< (tobits - frombits * it.length % tobits)) := by
  obtain ⟨hout, hacc, hbits⟩ := foldl_convertStep hpos hto hit
  have hr := Nat.mod_lt (frombits * it.length) hpos
  rw [convertBits]
  simp only [hbits, hacc, Bool.true_eq_false, false_and, if_false, true_and, ite_not]
  split_ifs with hzero
  · rw [hout, hzero, Nat.shiftRight_zero]
  generalize pack frombits (it.map UInt8.toNat) = x at *
  generalize frombits * it.length % tobits = r at *
  have hhigh : x <<< (tobits - r) >>> tobits = x >>> r := by
    have hsplit : tobits = tobits - r + r := by omega
    conv_lhs => rw [hsplit, Nat.add_sub_cancel, Nat.shiftRight_add, Nat.shiftLeft_shiftRight]
  have hlow : (x % 2 ^ (frombits + tobits - 1)) <<< (tobits - r) % 2 ^ tobits =
      x <<< (tobits - r) % 2 ^ tobits := by
    rw [Nat.shiftLeft_eq, Nat.shiftLeft_eq, ← Nat.mul_mod_mul_right, ← Nat.pow_add,
      Nat.mod_mod_of_dvd _ (Nat.pow_dvd_pow 2 (by omega))]
  have hlast := toNat_group ((x % 2 ^ (frombits + tobits - 1)) <<< (tobits - r))
    0 hto
  rw [Nat.shiftRight_zero, hlow] at hlast
  rw [map_append, hout, digits_append, map_singleton, hlast, Nat.mul_one, hhigh]
  rfl

end Regrouping

lemma map_toNat_injective {v v' : Bytes} (h : v.map UInt8.toNat = v'.map UInt8.toNat) : v = v' :=
  map_injective_iff.mpr (fun _ _ hc => UInt8.toNat_inj.mp hc) h

lemma byte_lt (data : Bytes) : ∀ d ∈ data.map UInt8.toNat, d < 2 ^ 8 := by
  intro d hd
  obtain ⟨v, -, rfl⟩ := mem_map.mp hd
  exact v.toNat_lt

lemma map_packed (data : Bytes) :
    (convertBits 8 5 true data).1.map UInt8.toNat = digits 5 ((8 * data.length + 4) / 5)
      (pack 8 (data.map UInt8.toNat) * 2 ^ ((5 - 8 * data.length % 5) % 5)) := by
  rw [convertBits_padded (by decide) (by decide) (byte_lt data)]
  split_ifs with hzero
  · have hcount : (8 * data.length + 4) / 5 = 8 * data.length / 5 := by omega
    rw [hcount, hzero, Nat.pow_zero, Nat.mul_one]
  · have hcount : (8 * data.length + 4) / 5 = 8 * data.length / 5 + 1 := by omega
    have hpad : (5 - 8 * data.length % 5) % 5 = 5 - 8 * data.length % 5 := by omega
    rw [hcount, hpad, Nat.shiftLeft_eq]

lemma length_packed (data : Bytes) :
    (convertBits 8 5 true data).1.length = (8 * data.length + 4) / 5 := by
  rw [← length_map, map_packed, length_digits]

lemma fiveBits_packed (data : Bytes) : FiveBits (convertBits 8 5 true data).1 := by
  intro v hv
  have hmem := mem_map_of_mem (f := UInt8.toNat) hv
  rw [map_packed] at hmem
  exact UInt8.lt_iff_toNat_lt.mpr (digits_lt 5 _ _ _ hmem)

variable {payload : Bytes}

/-- The test of the last group is a test of the packed number. -/
lemma padding_eq_zero_iff {extrabits : ℕ} (hne : payload ≠ []) (hextra : extrabits < 5) :
    payload.getLastD 0 &&& (1 <<< UInt8.ofNat extrabits - 1) = 0 ↔
      pack 5 (payload.map UInt8.toNat) % 2 ^ extrabits = 0 := by
  have hmask : ∀ c : UInt8, ∀ e < 5,
      (c &&& (1 <<< UInt8.ofNat e - 1) = 0 ↔ c.toNat % 2 ^ e = 0) := by
    decide +kernel
  obtain ⟨front, last, rfl⟩ := eq_nil_or_concat' payload |>.resolve_left hne
  have hlast : (front ++ [last]).getLastD 0 = last := by simp
  have hpack : pack 5 ((front ++ [last]).map UInt8.toNat) % 2 ^ extrabits =
      last.toNat % 2 ^ extrabits := by
    rw [map_append, map_singleton, pack_append_singleton]
    obtain ⟨k, hk⟩ := Nat.pow_dvd_pow 2 (Nat.le_of_lt hextra)
    rw [hk, Nat.mul_left_comm, Nat.mul_add_mod]
  rw [hlast, hpack]
  exact hmask last extrabits hextra

lemma map_unpacked (h : FiveBits payload) :
    (convertBits 5 8 false payload).1.map UInt8.toNat = digits 8 (5 * payload.length / 8)
      (pack 5 (payload.map UInt8.toNat) >>> (5 * payload.length % 8)) := by
  rw [← (foldl_convertStep (by decide) (by decide) h.toNat).1, convertBits]
  split_ifs <;> simp_all

/-- Unpacking undoes packing, whose padding is short and zero. -/
lemma unpack_packed (data : Bytes) :
    5 * (convertBits 8 5 true data).1.length % 8 < 5 ∧
      pack 5 ((convertBits 8 5 true data).1.map UInt8.toNat) %
        2 ^ (5 * (convertBits 8 5 true data).1.length % 8) = 0 ∧
      (convertBits 5 8 false (convertBits 8 5 true data).1).1 = data := by
  have hlength := length_packed data
  have hpad : 5 * (convertBits 8 5 true data).1.length =
      8 * data.length + (5 - 8 * data.length % 5) % 5 := by omega
  have hextra : 5 * (convertBits 8 5 true data).1.length % 8 = (5 - 8 * data.length % 5) % 5 := by
    omega
  have hlt := pack_lt (byte_lt data)
  rw [length_map] at hlt
  have hpack : pack 5 ((convertBits 8 5 true data).1.map UInt8.toNat) =
      pack 8 (data.map UInt8.toNat) * 2 ^ ((5 - 8 * data.length % 5) % 5) := by
    rw [map_packed, pack_digits, ← hlength, hpad, Nat.pow_add]
    exact Nat.mod_eq_of_lt (Nat.mul_lt_mul_of_pos_right hlt (Nat.two_pow_pos _))
  refine ⟨by omega, ?_, ?_⟩
  · rw [hpack, hextra, Nat.mul_mod_left]
  · apply map_toNat_injective
    have hcount : 5 * (convertBits 8 5 true data).1.length / 8 = data.length := by omega
    have hdigits := digits_pack (byte_lt data)
    rw [length_map] at hdigits
    rw [map_unpacked (fiveBits_packed data), hpack, hextra, hcount, Nat.shiftRight_eq_div_pow,
      Nat.mul_div_cancel _ (Nat.two_pow_pos _), hdigits]

/-- Packing undoes unpacking where the padding is short and zero. -/
lemma pack_unpacked (h : FiveBits payload) (hextra : 5 * payload.length % 8 < 5)
    (hzero : pack 5 (payload.map UInt8.toNat) % 2 ^ (5 * payload.length % 8) = 0) :
    (convertBits 8 5 true (convertBits 5 8 false payload).1).1 = payload := by
  have hlength : (convertBits 5 8 false payload).1.length = 5 * payload.length / 8 := by
    rw [← length_map, map_unpacked h, length_digits]
  have hlt := pack_lt h.toNat
  rw [length_map] at hlt
  have hdigits := digits_pack h.toNat
  rw [length_map] at hdigits
  have hpack : pack 8 ((convertBits 5 8 false payload).1.map UInt8.toNat) =
      pack 5 (payload.map UInt8.toNat) / 2 ^ (5 * payload.length % 8) := by
    rw [map_unpacked h, pack_digits, Nat.shiftRight_eq_div_pow]
    apply Nat.mod_eq_of_lt
    apply Nat.div_lt_of_lt_mul
    rwa [← Nat.pow_add, Nat.mod_add_div]
  have hcount : (8 * (convertBits 5 8 false payload).1.length + 4) / 5 = payload.length := by
    omega
  have hpad : (5 - 8 * (convertBits 5 8 false payload).1.length % 5) % 5 =
      5 * payload.length % 8 := by omega
  apply map_toNat_injective
  rw [map_packed, hcount, hpad, hpack, Nat.div_mul_cancel (Nat.dvd_of_mod_eq_zero hzero), hdigits]

variable {params : ChainParams} {addr data : Bytes} {version : UInt8} {hash : Bytes}

lemma addressData_of_encode (hne : data ≠ [])
    (h : encode params.cashAddrPrefix (convertBits 8 5 true data).1 = some addr) :
    addressData addr params = .ok (some data) := by
  obtain ⟨hextra, hzero, hunpack⟩ := unpack_packed data
  have hlength := length_packed data
  have hpos := length_pos_iff.mpr hne
  have hpayload : (convertBits 8 5 true data).1 ≠ [] := by
    rw [← length_pos_iff]
    omega
  rw [encode_eq_some (fiveBits_packed data), Option.some.injEq] at h
  rw [addressData, ← h, decode_encoded params.ne_nil params.lower (fiveBits_packed data)]
  simp only [ne_eq, not_true_eq_false, if_false, hpayload]
  rw [Nat.mul_comm] at hextra hzero
  rw [if_neg (by omega), if_neg (by rw [not_not, padding_eq_zero_iff hpayload hextra, hzero]),
    hunpack]

/-- Only the string in lower case with its prefix made explicit encodes the bytes of an address. -/
lemma encode_of_addressData (h : addressData addr params = .ok (some data)) :
    encode params.cashAddrPrefix (convertBits 8 5 true data).1 =
      some (canonical addr params.cashAddrPrefix) := by
  rw [addressData] at h
  cases hdecode : decode addr params.cashAddrPrefix with
  | error e =>
    rw [hdecode] at h
    cases h
  | ok found =>
    obtain ⟨addrPrefix, payload⟩ := found
    simp only [hdecode] at h
    split_ifs at h with hprefix hempty hextra hpadding
    iterate 4 · cases h
    rw [not_not] at hprefix hpadding
    subst hprefix
    obtain ⟨hfive, hencode⟩ := encode_of_decode hdecode fun heq => hempty (Prod.mk.inj heq).2
    rw [Nat.mul_comm] at hextra hpadding
    rw [padding_eq_zero_iff hempty (by omega)] at hpadding
    obtain rfl : (convertBits 5 8 false payload).1 = data := Option.some.inj (Except.ok.inj h)
    rw [pack_unpacked hfive (by omega) hpadding, hencode]

lemma encode_eq_canonical_iff {data' : Bytes} (h : addressData addr params = .ok (some data)) :
    encode params.cashAddrPrefix (convertBits 8 5 true data').1 =
      some (canonical addr params.cashAddrPrefix) ↔ data' = data := by
  have hencode := encode_of_addressData h
  constructor
  · intro h'
    have hpacked := encode_injective (fiveBits_packed data') (fiveBits_packed data) h' hencode
    rw [← (unpack_packed data').2.2, hpacked, (unpack_packed data).2.2]
  · rintro rfl
    exact hencode

lemma decodeCashAddr_of_data (h : addressData addr params = .ok (some (version :: hash))) :
    decodeCashAddr addr params =
      if version >>> 3 ≠ scriptTemplateType ∧ version >>> 3 ≠ groupType ∧
        hash.length ≠ hashSize version then .ok .noDestination
      else if hash.length = 0 then .ok .noDestination
      else decodeCashAddrDestination ⟨version >>> 3, hash⟩ := by
  rw [decodeCashAddr, decodeCashAddrContent, h]
  dsimp only
  split_ifs <;> simp_all [bind, Except.bind, pure, Except.pure]

lemma copyHash_of_length (h : hash.length = 20) : copyHash hash = .ok ⟨hash, h⟩ := by
  rw [copyHash]
  simp [h]

lemma copyHash_of_lt (h : 20 < hash.length) :
    copyHash hash = .error .bufferOverflow := by
  rw [copyHash, dif_neg (by omega)]

lemma decodeCashAddrDestination_pubkey (hash : Bytes) :
    decodeCashAddrDestination ⟨pubkeyType, hash⟩ = do return .keyId (← copyHash hash) := if_pos rfl

lemma decodeCashAddrDestination_script (hash : Bytes) :
    decodeCashAddrDestination ⟨scriptType, hash⟩ = do return .scriptId (← copyHash hash) := by
  rw [decodeCashAddrDestination, if_neg (show scriptType ≠ pubkeyType by decide), if_pos rfl]

lemma decodeCashAddrDestination_template (hash : Bytes) :
    decodeCashAddrDestination ⟨scriptTemplateType, hash⟩ =
      match readByteVector hash with
      | .ok (output, _) => .ok (.scriptTemplate output)
      | .error what => .error (.streamFailure what) := by
  rw [decodeCashAddrDestination, if_neg (show scriptTemplateType ≠ pubkeyType by decide),
    if_neg (show scriptTemplateType ≠ scriptType by decide), if_pos rfl]

/-- An address of bytes that need no size class. -/
lemma encodeContent_eq_ok_iff {id str : Bytes} {type : CashAddrType}
    (h : type ≠ scriptTemplateType ∧ type ≠ groupType → id.length = 20) :
    encodeContent id type params = .ok str ↔
      encode params.cashAddrPrefix (convertBits 8 5 true ((type <<< 3 ||| 0) :: id)).1 =
        some str := by
  have hpack : packAddrData id type = .ok (convertBits 8 5 true ((type <<< 3 ||| 0) :: id)).1 := by
    rw [packAddrData]
    split_ifs with htype
    · rw [h htype]
      rfl
    · rfl
  rw [encodeContent, hpack]
  show (match encode params.cashAddrPrefix (convertBits 8 5 true ((type <<< 3 ||| 0) :: id)).1 with
    | some str => Except.ok str
    | none => Except.error AddrFailure.failedAssertion) = Except.ok str ↔ _
  cases encode params.cashAddrPrefix (convertBits 8 5 true ((type <<< 3 ||| 0) :: id)).1 with
  | none => simp
  | some found => simp

lemma version_of_hashSize :
    ∀ version, hashSize version = 20 → (version >>> 3) <<< 3 ||| 0 = version := by
  decide +kernel

lemma twenty_le_hashSize (version : UInt8) : 20 ≤ hashSize version := by
  rw [hashSize]
  split_ifs <;> omega

lemma version_eq_iff : ∀ version : UInt8, version >>> 3 = scriptTemplateType →
    (scriptTemplateType <<< 3 ||| 0 = version ↔ version &&& 0x07 = 0) := by
  decide +kernel

lemma length_of_readByteVector {v output rest : Bytes}
    (h : readByteVector v = .ok (output, rest)) : output.length ≤ maxSize := by
  obtain ⟨⟨n, v'⟩, hsize, hbytes⟩ := bind_eq_ok.mp h
  obtain ⟨⟨chSize, w⟩, -, hform⟩ := bind_eq_ok.mp hsize
  obtain ⟨⟨nSizeRet, w'⟩, -, hlimit⟩ := bind_eq_ok.mp hform
  have hn : n ≤ maxSize := by
    dsimp only at hlimit
    split_ifs at hlimit with hlarge
    · cases hlimit
    · cases hlimit
      omega
  dsimp only [readBytes] at hbytes
  split_ifs at hbytes with hshort
  cases hbytes
  exact (length_take_le _ _).trans hn

/-- Decoding ends, and a destination it returns has this address. -/
def DecodesExactly (params : ChainParams) (addr : Bytes) : Prop :=
  decodeCashAddr addr params = .ok .noDestination ∨
    ∃ dst, decodeCashAddr addr params = .ok dst ∧
      encodeCashAddr dst params = .ok (canonical addr params.cashAddrPrefix)

/-- A hash of a key or a script has twenty bytes, and a template is a script that is written
under the version byte without size class. -/
def WellFormed (version : UInt8) (hash : Bytes) : Prop :=
  (version >>> 3 = pubkeyType ∨ version >>> 3 = scriptType → hash.length = hashSize version →
    hash.length = 20) ∧
  (version >>> 3 = scriptTemplateType → hash ≠ [] →
    version &&& 0x07 = 0 ∧ ∃ output : Bytes, output.length ≤ maxSize ∧ hash = serBytes output)

/-- The bytes of the address are well formed if it has any. -/
def WellFormedAddress (params : ChainParams) (addr : Bytes) : Prop :=
  ∃ data, addressData addr params = .ok data ∧
    ∀ version hash, data = some (version :: hash) → WellFormed version hash

/-- A destination other than none that is decoded decides exactness. -/
lemma decodesExactly_iff_of_ok {dst : TxDestination} (hdst : dst ≠ .noDestination)
    (h : decodeCashAddr addr params = .ok dst) :
    DecodesExactly params addr ↔
      encodeCashAddr dst params = .ok (canonical addr params.cashAddrPrefix) := by
  rw [DecodesExactly, h]
  simp [hdst]

lemma not_decodesExactly_of_error {e : AddrFailure} (h : decodeCashAddr addr params = .error e) :
    ¬DecodesExactly params addr := by
  rw [DecodesExactly, h]
  simp

section

variable (h : addressData addr params = .ok (some (version :: hash)))
include h

lemma decodesExactly_hash_iff (htype : version >>> 3 = pubkeyType ∨ version >>> 3 = scriptType) :
    DecodesExactly params addr ↔ (hash.length = hashSize version → hash.length = 20) := by
  have hkind : version >>> 3 ≠ scriptTemplateType ∧ version >>> 3 ≠ groupType := by
    rcases htype with htype | htype <;> rw [htype] <;> decide
  have hdecode := decodeCashAddr_of_data h
  by_cases hsize : hash.length = hashSize version
  swap
  · rw [if_pos ⟨hkind.1, hkind.2, hsize⟩] at hdecode
    exact iff_of_true (Or.inl hdecode) fun heq => absurd heq hsize
  have hlow := twenty_le_hashSize version
  rw [if_neg (fun hc => hc.2.2 hsize), if_neg (by omega)] at hdecode
  by_cases hlength : hash.length = 20
  · refine iff_of_true ?_ fun _ => hlength
    have hversion := version_of_hashSize version (hsize ▸ hlength)
    have hencode : encodeContent hash (version >>> 3) params =
        .ok (canonical addr params.cashAddrPrefix) := by
      rw [encodeContent_eq_ok_iff fun _ => hlength, hversion, encode_eq_canonical_iff h]
    rcases htype with htype | htype
    · have hdst : decodeCashAddr addr params = .ok (.keyId ⟨hash, hlength⟩) := by
        rw [hdecode, htype, decodeCashAddrDestination_pubkey, copyHash_of_length hlength]
        rfl
      rw [decodesExactly_iff_of_ok (by simp) hdst, ← hencode, htype]
      rfl
    · have hdst : decodeCashAddr addr params = .ok (.scriptId ⟨hash, hlength⟩) := by
        rw [hdecode, htype, decodeCashAddrDestination_script, copyHash_of_length hlength]
        rfl
      rw [decodesExactly_iff_of_ok (by simp) hdst, ← hencode, htype]
      rfl
  · have herror : decodeCashAddr addr params = .error .bufferOverflow := by
      have hcopy := copyHash_of_lt (show 20 < hash.length by omega)
      rcases htype with htype | htype
      · rw [hdecode, htype, decodeCashAddrDestination_pubkey, hcopy]
        rfl
      · rw [hdecode, htype, decodeCashAddrDestination_script, hcopy]
        rfl
    exact iff_of_false (not_decodesExactly_of_error herror) fun hc => hlength (hc hsize)

omit h in
lemma serBytes_ne_nil (output : Bytes) : serBytes output ≠ [] := by
  rw [serBytes, writeCompactSize]
  split_ifs <;> simp

lemma decodesExactly_template_iff (htype : version >>> 3 = scriptTemplateType) (hne : hash ≠ []) :
    DecodesExactly params addr ↔
      version &&& 0x07 = 0 ∧
        ∃ output : Bytes, output.length ≤ maxSize ∧ hash = serBytes output := by
  have hdecode := decodeCashAddr_of_data h
  rw [if_neg (fun hc => hc.1 htype), if_neg (by rwa [length_eq_zero_iff]), htype,
    decodeCashAddrDestination_template] at hdecode
  cases hread : readByteVector hash with
  | error what =>
    rw [hread] at hdecode
    refine iff_of_false (not_decodesExactly_of_error hdecode) ?_
    rintro ⟨-, output, hlength, rfl⟩
    rw [(reads_readByteVector output hlength).eval] at hread
    cases hread
  | ok found =>
    obtain ⟨output, rest⟩ := found
    rw [hread] at hdecode
    have hencode : encodeCashAddr (.scriptTemplate output) params =
        .ok (canonical addr params.cashAddrPrefix) ↔
        (scriptTemplateType <<< 3 ||| 0) :: serBytes output = version :: hash := by
      rw [← encode_eq_canonical_iff h, ← encodeContent_eq_ok_iff (fun hc => absurd rfl hc.1)]
      rfl
    rw [decodesExactly_iff_of_ok (by simp) hdecode, hencode, List.cons.injEq,
      version_eq_iff version htype]
    refine and_congr_right fun _ => ⟨?_, ?_⟩
    · intro heq
      exact ⟨output, length_of_readByteVector hread, heq.symm⟩
    · rintro ⟨output', hlength, rfl⟩
      rw [(reads_readByteVector output' hlength).eval] at hread
      cases hread
      rfl

lemma decodesExactly_iff_wellFormed :
    DecodesExactly params addr ↔ WellFormed version hash := by
  rw [WellFormed]
  by_cases htype : version >>> 3 = pubkeyType ∨ version >>> 3 = scriptType
  · have htemplate : version >>> 3 ≠ scriptTemplateType := by
      rcases htype with htype | htype <;> rw [htype] <;> decide
    simp [decodesExactly_hash_iff h htype, htype, htemplate]
  by_cases htemplate : version >>> 3 = scriptTemplateType ∧ hash ≠ []
  · rw [decodesExactly_template_iff h htemplate.1 htemplate.2]
    refine ⟨fun hexact => ⟨fun hc => absurd hc htype, fun _ _ => hexact⟩, ?_⟩
    exact fun hwell => hwell.2 htemplate.1 htemplate.2
  rw [not_or] at htype
  have hnone : version >>> 3 = scriptTemplateType → hash = [] :=
    fun heq => by_contra fun hne => htemplate ⟨heq, hne⟩
  refine iff_of_true (Or.inl ?_) ⟨?_, ?_⟩
  · rw [decodeCashAddr_of_data h]
    split_ifs with hsize hempty
    · rfl
    · rfl
    · rw [decodeCashAddrDestination, if_neg htype.1, if_neg htype.2, if_neg]
      intro heq
      rw [hnone heq] at hempty
      exact hempty rfl
  · intro hc
    exact absurd hc (not_or.mpr htype)
  · intro heq hne
    exact absurd (hnone heq) hne

end

/-- A template's script is within the limit for sizes. -/
def Fits : TxDestination → Prop
  | .scriptTemplate output => output.length ≤ maxSize
  | _ => True

/-- Decoding the address of a destination gives it back. -/
def RoundTrips (params : ChainParams) (dst : TxDestination) : Prop :=
  ∃ addr, encodeCashAddr dst params = .ok addr ∧ decodeCashAddr addr params = .ok dst

lemma exists_address (params : ChainParams) (type : CashAddrType) (id : Bytes)
    (h : type ≠ scriptTemplateType ∧ type ≠ groupType → id.length = 20) :
    ∃ addr, encodeContent id type params = .ok addr ∧
      addressData addr params = .ok (some ((type <<< 3 ||| 0) :: id)) := by
  have hencode := @encode_eq_some _ params.cashAddrPrefix
    (fiveBits_packed ((type <<< 3 ||| 0) :: id))
  exact ⟨_, (encodeContent_eq_ok_iff h).mpr hencode, addressData_of_encode (by simp) hencode⟩

lemma roundTrips_keyId (params : ChainParams) (id : Uint160) : RoundTrips params (.keyId id) := by
  obtain ⟨addr, hencode, hdata⟩ := exists_address params pubkeyType id.data fun _ => id.size_eq
  refine ⟨addr, hencode, ?_⟩
  rw [decodeCashAddr_of_data hdata, if_neg fun hc => hc.2.2 id.size_eq,
    if_neg (by rw [id.size_eq]; decide)]
  refine (decodeCashAddrDestination_pubkey id.data).trans ?_
  rw [copyHash_of_length id.size_eq]
  rfl

lemma roundTrips_scriptId (params : ChainParams) (id : Uint160) :
    RoundTrips params (.scriptId id) := by
  obtain ⟨addr, hencode, hdata⟩ := exists_address params scriptType id.data fun _ => id.size_eq
  refine ⟨addr, hencode, ?_⟩
  rw [decodeCashAddr_of_data hdata, if_neg fun hc => hc.2.2 id.size_eq,
    if_neg (by rw [id.size_eq]; decide)]
  refine (decodeCashAddrDestination_script id.data).trans ?_
  rw [copyHash_of_length id.size_eq]
  rfl

lemma roundTrips_scriptTemplate_iff (params : ChainParams) (output : Bytes) :
    RoundTrips params (.scriptTemplate output) ↔ output.length ≤ maxSize := by
  obtain ⟨addr, hencode, hdata⟩ := exists_address params scriptTemplateType (serBytes output)
    fun hc => absurd rfl hc.1
  have hdecode : decodeCashAddr addr params =
      decodeCashAddrDestination ⟨scriptTemplateType, serBytes output⟩ := by
    rw [decodeCashAddr_of_data hdata, if_neg fun hc => hc.1 (by decide),
      if_neg (by rw [length_eq_zero_iff]; exact serBytes_ne_nil output)]
    rfl
  rw [decodeCashAddrDestination_template] at hdecode
  constructor
  · rintro ⟨addr', hencode', hdecode'⟩
    obtain rfl : addr = addr' := Except.ok.inj (hencode.symm.trans hencode')
    rw [hdecode'] at hdecode
    split at hdecode
    next output' rest hread =>
      cases hdecode
      exact length_of_readByteVector hread
    next what hread => cases hdecode
  · intro hlength
    rw [(reads_readByteVector output hlength).eval] at hdecode
    exact ⟨addr, hencode, hdecode⟩

/-- Decoding an address ends without a failure and inverts encoding iff the bytes of the address
are well formed, and destinations round trip iff their template fits. -/
theorem decodeCashAddr_exact_iff (params : ChainParams) :
    (∀ addr, DecodesExactly params addr ↔ WellFormedAddress params addr) ∧
      ∀ dst, dst ≠ .noDestination → (RoundTrips params dst ↔ Fits dst) := by
  constructor
  · intro addr
    cases hdata : addressData addr params with
    | error e =>
      have hdecode : decodeCashAddr addr params = .error e := by
        rw [decodeCashAddr, decodeCashAddrContent, hdata]
        rfl
      refine iff_of_false (not_decodesExactly_of_error hdecode) ?_
      rintro ⟨data, hok, -⟩
      rw [hdata] at hok
      cases hok
    | ok data =>
      have hwell : WellFormedAddress params addr ↔
          ∀ version hash, data = some (version :: hash) → WellFormed version hash := by
        rw [WellFormedAddress, hdata]
        simp
      rw [hwell]
      match data with
      | some (version :: hash) => simp [decodesExactly_iff_wellFormed hdata]
      | some [] | none =>
        refine iff_of_true (Or.inl ?_) (by simp)
        rw [decodeCashAddr, decodeCashAddrContent, hdata]
        rfl
  · intro dst hdst
    cases dst with
    | noDestination => exact absurd rfl hdst
    | keyId id => exact iff_of_true (roundTrips_keyId params id) trivial
    | scriptId id => exact iff_of_true (roundTrips_scriptId params id) trivial
    | scriptTemplate output => exact roundTrips_scriptTemplate_iff params output

/-- The address on the main chain of a version byte and a hash. -/
def mainAddress (data : Bytes) : Bytes :=
  (encode mainParams.cashAddrPrefix (convertBits 8 5 true data).1).getD []

/-- The output script of a template with a hash of twenty bytes. -/
def templateScript : Bytes := 0 :: 20 :: List.replicate 20 7

theorem decodeCashAddr_exact_iff_templateScript :
    DecodesExactly mainParams (mainAddress (152 :: serBytes templateScript)) ∧
      RoundTrips mainParams (.scriptTemplate templateScript) := by
  have hfits : templateScript.length ≤ maxSize := by decide
  refine ⟨((decodeCashAddr_exact_iff mainParams).1 _).mpr ?_,
    ((decodeCashAddr_exact_iff mainParams).2 _ (by simp)).mpr hfits⟩
  have hdata : addressData (mainAddress (152 :: serBytes templateScript)) mainParams =
      .ok (some (152 :: serBytes templateScript)) := by decide +kernel
  refine ⟨_, hdata, ?_⟩
  rintro version hash heq
  cases heq
  exact ⟨fun htype => absurd htype (by decide), fun _ _ => ⟨rfl, templateScript, hfits, rfl⟩⟩

/-- A template that ends within its script throws, a key hash of 24 bytes overflows the block it
is copied to, and a template with a byte after its script decodes to a destination that has
another address. -/
theorem decodeCashAddr_malformed :
    decodeCashAddr (mainAddress [152, 1]) mainParams =
        .error (.streamFailure "CDataStream::read(): end of data") ∧
      decodeCashAddr (mainAddress (1 :: List.replicate 24 7)) mainParams =
        .error .bufferOverflow ∧
      decodeCashAddr (mainAddress [152, 0, 0]) mainParams = .ok (.scriptTemplate []) ∧
      encodeCashAddr (.scriptTemplate []) mainParams ≠
        .ok (canonical (mainAddress [152, 0, 0]) mainParams.cashAddrPrefix) := by
  decide +kernel

end PyrrhaNode.CashAddrEnc
