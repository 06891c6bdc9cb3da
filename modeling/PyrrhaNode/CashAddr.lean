import PyrrhaNode.Serialize
import PyrrhaNode.ShiftRegister

/-!
# The cashaddr text format

A cashaddr string is a prefix, a colon and symbols of five bits, the last eight of which are a
checksum of the prefix and the others.  `decode` goes over the string once to check its characters
and to find the separator, and then verifies the checksum; the string may be in upper case and
may leave the prefix out.
-/
namespace PyrrhaNode.CashAddr

open List Serialize ShiftRegister

/-- `CHARSET`: `qpzry9x8gf2tvdw0s3jn54khce6mua7l`. -/
def charset : List UInt8 :=
  [113, 112, 122, 114, 121, 57, 120, 56, 103, 102, 50, 116, 118, 100, 119, 48, 115, 51, 106, 110,
    53, 52, 107, 104, 99, 101, 54, 109, 117, 97, 55, 108]

/-- `CHARSET_REV` -/
def charsetRev : List ℤ :=
  [-1, -1, -1, -1, -1, -1, -1, -1, -1, -1, -1, -1, -1, -1, -1, -1, -1, -1, -1, -1, -1, -1,
    -1, -1, -1, -1, -1, -1, -1, -1, -1, -1, -1, -1, -1, -1, -1, -1, -1, -1, -1, -1, -1, -1, -1, -1,
    -1, -1, 15, -1, 10, 17, 21, 20, 26, 30, 7, 5, -1, -1, -1, -1, -1, -1, -1, 29, -1, 24, 13, 25,
    9, 8, 23, -1, 18, 22, 31, 27, 19, -1, 1, 0, 3, 16, 11, 28, 12, 14, 6, 4, 2, -1, -1, -1, -1, -1,
    -1, 29, -1, 24, 13, 25, 9, 8, 23, -1, 18, 22, 31, 27, 19, -1, 1, 0, 3, 16, 11, 28, 12, 14, 6, 4,
    2, -1, -1, -1, -1, -1]

/-- One round of the loop of `PolyMod`. -/
def polyModRound (c : ℕ) (d : UInt8) : ℕ :=
  let c0 := c >>> 35 % 2 ^ 8
  let c := (c &&& 0x07ffffffff) <<< 5 ^^^ d.toNat
  let c := if c0 &&& 0x01 ≠ 0 then c ^^^ 0x98f2bc8e61 else c
  let c := if c0 &&& 0x02 ≠ 0 then c ^^^ 0x79b76d99e2 else c
  let c := if c0 &&& 0x04 ≠ 0 then c ^^^ 0xf33e5fb3c4 else c
  let c := if c0 &&& 0x08 ≠ 0 then c ^^^ 0xae2eabe2a8 else c
  if c0 &&& 0x10 ≠ 0 then c ^^^ 0x1e4f43e470 else c

def polyMod (v : Bytes) : ℕ := v.foldl polyModRound 1

def lowerCase (c : UInt8) : UInt8 := c ||| 0x20

def expandPrefix (addrPrefix : Bytes) : Bytes := addrPrefix.map (· &&& 0x1f) ++ [0]

def verifyChecksum (addrPrefix values : Bytes) : Bool :=
  polyMod (expandPrefix addrPrefix ++ values) = 1

def createChecksum (addrPrefix values : Bytes) : Bytes :=
  let enc := expandPrefix addrPrefix ++ values ++ List.replicate 8 0
  let checksum := polyMod enc ^^^ 1
  (List.range 8).map fun i => UInt8.ofNat (checksum >>> (5 * (7 - i)) &&& 0x1f)

def colon : UInt8 := 58

/-- `none` is the failed assertion that all values have five bits. -/
def encode (addrPrefix values : Bytes) : Option Bytes :=
  let combined := values ++ createChecksum addrPrefix values
  if combined.all (· < 32) then
    some (addrPrefix ++ [colon] ++ combined.map fun c => charset.getD c.toNat 0)
  else none

/-- What the pass over the string keeps. -/
structure Scan where
  lower : Bool
  upper : Bool
  hasNumber : Bool
  prefixSize : ℕ

/-- The pass over the string from position `i` on; `none` is a rejected character. -/
def scan : ℕ → Bytes → Scan → Option Scan
  | _, [], s => some s
  | i, c :: cs, s =>
    if 97 ≤ c ∧ c ≤ 122 then scan (i + 1) cs { s with lower := true }
    else if 65 ≤ c ∧ c ≤ 90 then scan (i + 1) cs { s with upper := true }
    else if 48 ≤ c ∧ c ≤ 57 then scan (i + 1) cs { s with hasNumber := true }
    else if c = colon then
      if s.hasNumber ∨ i = 0 ∨ s.prefixSize ≠ 0 then none
      else scan (i + 1) cs { s with prefixSize := i }
    else none

/-- The value of a symbol in either case. -/
def charValue (c : UInt8) : Option UInt8 :=
  if 127 < c ∨ charsetRev.getD c.toNat 0 = -1 then none
  else some (UInt8.ofNat (charsetRev.getD c.toNat 0).toNat)

def charValues : Bytes → Option Bytes
  | [] => some []
  | c :: cs =>
    match charValue c, charValues cs with
    | some v, some vs => some (v :: vs)
    | _, _ => none

/-- The range from the first value to eight before the end is not a range. -/
inductive DecodeFailure
  | invalidRange
  deriving DecidableEq

/-- The values without the checksum, with the prefix that is found; a pair of empty strings is a
rejection. -/
def decodeValues (addrPrefix chars : Bytes) : Except DecodeFailure (Bytes × Bytes) :=
  match charValues chars with
  | none => .ok ([], [])
  | some values =>
    if verifyChecksum addrPrefix values = false then .ok ([], [])
    else if values.length < 8 then .error .invalidRange
    else .ok (addrPrefix, values.take (values.length - 8))

def decode (str defaultPrefix : Bytes) : Except DecodeFailure (Bytes × Bytes) :=
  match scan 0 str ⟨false, false, false, 0⟩ with
  | none => .ok ([], [])
  | some s =>
    if s.upper && s.lower then .ok ([], [])
    else if s.prefixSize = 0 then decodeValues defaultPrefix str
    else decodeValues ((str.take s.prefixSize).map lowerCase) (str.drop (s.prefixSize + 1))

/-- What is fed back for the symbol that is pushed out. -/
def feedback (c0 : ℕ) : ℕ :=
  (if c0 % 2 ^ 8 &&& 0x01 ≠ 0 then 0x98f2bc8e61 else 0) ^^^
    (if c0 % 2 ^ 8 &&& 0x02 ≠ 0 then 0x79b76d99e2 else 0) ^^^
    (if c0 % 2 ^ 8 &&& 0x04 ≠ 0 then 0xf33e5fb3c4 else 0) ^^^
    (if c0 % 2 ^ 8 &&& 0x08 ≠ 0 then 0xae2eabe2a8 else 0) ^^^
    (if c0 % 2 ^ 8 &&& 0x10 ≠ 0 then 0x1e4f43e470 else 0)

lemma ite_xor (P : Prop) [Decidable P] (a g : ℕ) :
    (if P then a ^^^ g else a) = a ^^^ if P then g else 0 := by
  split_ifs
  · rfl
  · rw [Nat.xor_zero]

/-- `PolyMod` is a register of eight symbols of five bits. -/
lemma polyModRound_eq_step (c : ℕ) (d : UInt8) :
    polyModRound c d = step 5 7 feedback c d.toNat := by
  have hmask : c &&& 0x07ffffffff = c % 2 ^ (5 * 7) :=
    Nat.and_two_pow_sub_one_eq_mod c 35
  simp only [polyModRound, ite_xor, hmask, step, feedback]
  ac_rfl

lemma feedback_lt (c0 : ℕ) : feedback c0 < 2 ^ (5 * (7 + 1)) := by
  refine Nat.xor_lt_two_pow (Nat.xor_lt_two_pow (Nat.xor_lt_two_pow (Nat.xor_lt_two_pow ?_ ?_) ?_)
    ?_) ?_
  all_goals split_ifs <;> decide

lemma polyMod_eq_run (v : Bytes) : polyMod v = run 5 7 feedback 1 (v.map UInt8.toNat) := by
  rw [polyMod, run, foldl_map]
  congr
  ext c d
  exact polyModRound_eq_step c d

lemma polyMod_append (v v' : Bytes) :
    polyMod (v ++ v') = run 5 7 feedback (polyMod v) (v'.map UInt8.toNat) := by
  rw [polyMod_eq_run, polyMod_eq_run, map_append, run, run, run, foldl_append]

/-- All values have five bits. -/
def FiveBits (values : Bytes) : Prop := ∀ v ∈ values, v < 32

variable {values addrPrefix cs str defaultPrefix v : Bytes} {i : ℕ} {s s' : Scan}

lemma FiveBits.toNat (h : FiveBits values) :
    ∀ d ∈ values.map UInt8.toNat, d < 2 ^ 5 := by
  intro d hd
  obtain ⟨v, hv, rfl⟩ := mem_map.mp hd
  exact UInt8.lt_iff_toNat_lt.mp (h v hv)

lemma FiveBits.append {v' : Bytes} (h : FiveBits v) (h' : FiveBits v') : FiveBits (v ++ v') := by
  intro x hx
  rcases mem_append.mp hx with hx | hx
  · exact h x hx
  · exact h' x hx

lemma fiveBits_expandPrefix (addrPrefix : Bytes) : FiveBits (expandPrefix addrPrefix) := by
  have hmask : ∀ c : UInt8, c &&& 0x1f < 32 := by decide +kernel
  intro v hv
  rcases mem_append.mp hv with hv | hv
  · obtain ⟨c, -, rfl⟩ := mem_map.mp hv
    exact hmask c
  · rw [mem_singleton.mp hv]
    decide

lemma polyMod_lt (h : FiveBits v) : polyMod v < 2 ^ (5 * (7 + 1)) := by
  rw [polyMod_eq_run]
  exact run_lt feedback_lt (by decide) h.toNat

lemma map_createChecksum (addrPrefix values : Bytes) :
    (createChecksum addrPrefix values).map UInt8.toNat =
      digits 5 8 (run 5 7 feedback (polyMod (expandPrefix addrPrefix ++ values))
        (List.replicate 8 0) ^^^ 1) := by
  have hzeros : (List.replicate 8 (0 : UInt8)).map UInt8.toNat = List.replicate 8 0 := rfl
  rw [← hzeros, ← polyMod_append, createChecksum]
  have hsymbol : ∀ y : ℕ, (UInt8.ofNat (y &&& 0x1f)).toNat = y % 2 ^ 5 := by
    intro y
    rw [Nat.and_two_pow_sub_one_eq_mod y 5]
    exact UInt8.toNat_ofNat_of_lt' ((Nat.mod_lt y (by decide)).trans (by decide))
  have hrange : List.range 8 = [0, 1, 2, 3, 4, 5, 6, 7] := rfl
  simp only [hrange, map_cons, hsymbol]
  rfl

lemma length_createChecksum (addrPrefix values : Bytes) :
    (createChecksum addrPrefix values).length = 8 := by
  simp [createChecksum]

lemma fiveBits_createChecksum (addrPrefix values : Bytes) :
    FiveBits (createChecksum addrPrefix values) := by
  intro v hv
  have hmem := mem_map_of_mem (f := UInt8.toNat) hv
  rw [map_createChecksum] at hmem
  exact UInt8.lt_iff_toNat_lt.mpr (digits_lt 5 8 _ _ hmem)

/-- Of all sequences of eight symbols only the checksum is verified. -/
theorem verifyChecksum_append_iff {checksum : Bytes} (hvalues : FiveBits values)
    (hchecksum : FiveBits checksum) (hlength : checksum.length = 8) :
    verifyChecksum addrPrefix (values ++ checksum) = true ↔
      checksum = createChecksum addrPrefix values := by
  have hstate := polyMod_lt ((fiveBits_expandPrefix addrPrefix).append hvalues)
  have hrun := run_eq_iff 1 feedback_lt hstate (by decide) hchecksum.toNat
    (by rw [length_map, hlength])
  rw [verifyChecksum, decide_eq_true_iff, ← append_assoc, polyMod_append, hrun,
    ← map_createChecksum]
  constructor
  · intro h
    exact map_injective_iff.mpr (fun a b hab => UInt8.toNat_inj.mp hab) h
  · intro h
    rw [h]

/-- No change of symbols within eight consecutive positions passes unnoticed. -/
theorem verifyChecksum_burst (addrPrefix values values' : Bytes) (i : ℕ) (hvalues : FiveBits values)
    (hvalues' : FiveBits values') (hlength : values'.length = values.length)
    (hburst : ∀ j, j < i ∨ i + 8 ≤ j → values'[j]? = values[j]?) (hne : values' ≠ values)
    (h : verifyChecksum addrPrefix values = true) :
    verifyChecksum addrPrefix values' = false := by
  have hpre : values'.take i = values.take i := by
    refine List.ext_getElem? fun j => ?_
    by_cases hj : j < i
    · simp [hj, hburst j (.inl hj)]
    · simp [hj]
  have hrest : values'.drop (i + 8) = values.drop (i + 8) :=
    List.ext_getElem? fun j => by simpa using hburst (i + 8 + j) (.inr (by omega))
  have hsplit (v : Bytes) : v.take i ++ ((v.drop i).take 8 ++ v.drop (i + 8)) = v := by
    rw [← drop_drop, take_append_drop, take_append_drop]
  have hrun (v : Bytes) (hv : verifyChecksum addrPrefix v = true) :
      run 5 7 feedback (polyMod (expandPrefix addrPrefix ++ v.take i))
        (((v.drop i).take 8).map UInt8.toNat ++ (v.drop (i + 8)).map UInt8.toNat) = 1 := by
    rw [← map_append, ← polyMod_append, append_assoc, hsplit]
    exact of_decide_eq_true hv
  have hpart {v : Bytes} (hv : FiveBits v) (n k : ℕ) : FiveBits ((v.drop n).take k) :=
    fun x hx => hv x (mem_of_mem_drop (mem_of_mem_take hx))
  by_contra hv'
  have hrun' := hrun values' (Bool.not_eq_false _ ▸ hv')
  rw [hpre, hrest] at hrun'
  have hstate := polyMod_lt ((fiveBits_expandPrefix addrPrefix).append (hpart hvalues 0 i))
  have hmid := burst_injective feedback_lt (by decide +kernel) hstate (hpart hvalues i 8).toNat
    (hpart hvalues' i 8).toNat (FiveBits.toNat fun x hx => hvalues x (mem_of_mem_drop hx))
    (by simp [hlength]) (by simp) ((hrun values h).trans hrun'.symm)
  refine hne ?_
  rw [← hsplit values', hpre, hrest,
    ← map_injective_iff.mpr (fun a b hab => UInt8.toNat_inj.mp hab) hmid, hsplit]

theorem verifyChecksum_burst_first :
    verifyChecksum [112] (([0, 1, 2] ++ createChecksum [112] [0, 1, 2]).set 0 5) = false :=
  verifyChecksum_burst _ ([0, 1, 2] ++ createChecksum [112] [0, 1, 2]) _ 0
    (by unfold FiveBits; decide +kernel) (by unfold FiveBits; decide +kernel) (by simp)
    (fun j hj => getElem?_set_ne (by omega)) (by decide +kernel) (by decide +kernel)

def IsLetter (c : UInt8) : Prop := 97 ≤ c ∧ c ≤ 122 ∨ 65 ≤ c ∧ c ≤ 90

/-- The character in lower case. -/
def toLower (c : UInt8) : UInt8 := if 65 ≤ c ∧ c ≤ 90 then c + 32 else c

lemma lowerCase_eq_toLower : ∀ c, IsLetter c → lowerCase c = toLower c := by
  unfold IsLetter
  decide +kernel

lemma charValue_eq_some : ∀ c, ∀ v ∈ charValue c,
    v < 32 ∧ charset.getD v.toNat 0 = toLower c := by
  decide +kernel

lemma charValue_charset : ∀ {v : UInt8}, v < 32 →
    charValue (charset.getD v.toNat 0) = some v ∧
    (97 ≤ charset.getD v.toNat 0 ∧ charset.getD v.toNat 0 ≤ 122 ∨
      48 ≤ charset.getD v.toNat 0 ∧ charset.getD v.toNat 0 ≤ 57) := by
  decide +kernel

def symbols (values : Bytes) : Bytes := values.map fun v => charset.getD v.toNat 0

lemma charValues_eq_some (h : charValues cs = some values) :
    FiveBits values ∧ symbols values = cs.map toLower ∧ values.length = cs.length := by
  induction cs generalizing values with
  | nil =>
    rw [charValues, Option.some.injEq] at h
    subst h
    exact ⟨by simp [FiveBits], rfl, rfl⟩
  | cons c cs ih =>
    rw [charValues] at h
    split at h
    · rename_i v vs hv hvs
      obtain rfl := Option.some.inj h
      obtain ⟨hlt, hsymbol⟩ := charValue_eq_some c v hv
      obtain ⟨hfive, hsymbols, hlength⟩ := ih hvs
      refine ⟨?_, ?_, ?_⟩
      · intro x hx
        rcases mem_cons.mp hx with rfl | hx
        · exact hlt
        · exact hfive x hx
      · rw [symbols, map_cons, map_cons, hsymbol, ← hsymbols]
        rfl
      · rw [length_cons, length_cons, hlength]
    · contradiction

lemma charValues_symbols (h : FiveBits values) :
    charValues (symbols values) = some values := by
  induction values with
  | nil => rfl
  | cons v values ih =>
    have hv := (charValue_charset (h v mem_cons_self)).1
    have hrest := ih fun x hx => h x (mem_cons_of_mem v hx)
    rw [symbols, map_cons, charValues, hv]
    rw [symbols] at hrest
    rw [hrest]

/-- A character other than the separator is a letter or makes the pass remember a digit. -/
lemma scan_cons_of_ne {c : UInt8} (h : scan i (c :: cs) s = some s') (hc : c ≠ colon) :
    ∃ next, scan (i + 1) cs next = some s' ∧ next.prefixSize = s.prefixSize ∧
      (IsLetter c ∧ next.hasNumber = s.hasNumber ∨ next.hasNumber = true) := by
  rw [scan] at h
  split_ifs at h with hlower hupper hdigit
  · exact ⟨_, h, rfl, Or.inl ⟨Or.inl hlower, rfl⟩⟩
  · exact ⟨_, h, rfl, Or.inl ⟨Or.inr hupper, rfl⟩⟩
  · exact ⟨_, h, rfl, Or.inr rfl⟩

lemma scan_cons_colon (h : scan i (colon :: cs) s = some s') :
    s.hasNumber = false ∧ i ≠ 0 ∧ s.prefixSize = 0 ∧
      scan (i + 1) cs { s with prefixSize := i } = some s' := by
  rw [scan, if_neg (by decide), if_neg (by decide), if_neg (by decide), if_pos rfl] at h
  split_ifs at h with hbad
  simp only [not_or, Bool.not_eq_true, not_not] at hbad
  exact ⟨hbad.1, hbad.2.1, hbad.2.2, h⟩

lemma scan_of_separator (h : scan i cs s = some s')
    (hs : s.prefixSize ≠ 0) : colon ∉ cs ∧ s'.prefixSize = s.prefixSize := by
  induction cs generalizing i s with
  | nil =>
    rw [scan, Option.some.injEq] at h
    exact ⟨not_mem_nil, by rw [h]⟩
  | cons c cs ih =>
    by_cases hc : c = colon
    · rw [hc] at h
      exact absurd (scan_cons_colon h).2.2.1 hs
    · obtain ⟨next, hnext, hsize, -⟩ := scan_cons_of_ne h hc
      obtain ⟨hmem, hsize'⟩ := ih hnext (by rwa [hsize])
      rw [mem_cons, not_or]
      exact ⟨⟨Ne.symm hc, hmem⟩, hsize'.trans hsize⟩

/-- Either there is no separator, or it stands behind a prefix of letters. -/
lemma scan_cases (h : scan i cs s = some s') (hs : s.prefixSize = 0) :
    s'.prefixSize = 0 ∧ colon ∉ cs ∨
      ∃ front rest, cs = front ++ colon :: rest ∧ s'.prefixSize = i + front.length ∧
        i + front.length ≠ 0 ∧ s.hasNumber = false ∧ (∀ c ∈ front, IsLetter c) ∧
        colon ∉ front ∧ colon ∉ rest := by
  induction cs generalizing i s with
  | nil =>
    rw [scan, Option.some.injEq] at h
    exact Or.inl ⟨by rw [← h, hs], not_mem_nil⟩
  | cons c cs ih =>
    by_cases hc : c = colon
    · rw [hc] at h ⊢
      obtain ⟨hnumber, hi, -, hrest⟩ := scan_cons_colon h
      obtain ⟨hmem, hsize⟩ := scan_of_separator hrest hi
      exact Or.inr ⟨[], cs, rfl, hsize, hi, hnumber, by simp, by simp, hmem⟩
    · obtain ⟨next, hnext, hsize, hkind⟩ := scan_cons_of_ne h hc
      rcases ih hnext (hsize.trans hs) with ⟨hzero, hmem⟩ |
        ⟨front, rest, hcs, hlength, hne, hnumber, hletters, hfront, hrest⟩
      · refine Or.inl ⟨hzero, ?_⟩
        rw [mem_cons, not_or]
        exact ⟨Ne.symm hc, hmem⟩
      have hletter : IsLetter c ∧ next.hasNumber = s.hasNumber := by
        rcases hkind with hletter | hdigit
        · exact hletter
        · rw [hdigit] at hnumber
          contradiction
      refine Or.inr ⟨c :: front, rest, by rw [hcs]; rfl, ?_, ?_, hletter.2 ▸ hnumber, ?_, ?_,
        hrest⟩
      · rw [length_cons]
        omega
      · rw [length_cons]
        omega
      · intro x hx
        rcases mem_cons.mp hx with rfl | hx
        · exact hletter.1
        · exact hletters x hx
      · rw [mem_cons, not_or]
        exact ⟨Ne.symm hc, hfront⟩

/-- The symbols of a string: what stands behind the separator, or all of it. -/
def symbolPart (str : Bytes) : Bytes :=
  if colon ∈ str then (str.dropWhile (· != colon)).tail else str

/-- The string in lower case with its prefix made explicit. -/
def canonical (str defaultPrefix : Bytes) : Bytes :=
  if colon ∈ str then str.map toLower else defaultPrefix ++ [colon] ++ str.map toLower

/-- A string that passes the scan is taken apart into a prefix and symbols that make up its
canonical form. -/
lemma decode_eq_decodeValues (h : scan 0 str ⟨false, false, false, 0⟩ = some s)
    (hcase : (s.upper && s.lower) = false) (defaultPrefix : Bytes) :
    ∃ addrPrefix, decode str defaultPrefix = decodeValues addrPrefix (symbolPart str) ∧
      addrPrefix ++ [colon] ++ (symbolPart str).map toLower = canonical str defaultPrefix := by
  rw [decode, h]
  simp only [hcase, Bool.false_eq_true, if_false]
  rcases scan_cases h rfl with ⟨hzero, hmem⟩ |
    ⟨front, rest, rfl, hsize, hne, -, hletters, hfront, -⟩
  · refine ⟨defaultPrefix, ?_, ?_⟩
    · rw [if_pos hzero, symbolPart, if_neg hmem]
    · rw [symbolPart, canonical, if_neg hmem, if_neg hmem]
  rw [Nat.zero_add] at hsize hne
  have hmem : colon ∈ front ++ colon :: rest := by simp
  have hdrop : (front ++ colon :: rest).dropWhile (· != colon) = colon :: rest := by
    rw [dropWhile_append_of_pos]
    · rfl
    · intro c hc
      have : c ≠ colon := fun heq => hfront (heq ▸ hc)
      simpa using this
  have hlower : front.map lowerCase = front.map toLower :=
    map_congr_left fun c hc => lowerCase_eq_toLower c (hletters c hc)
  have hcolon : toLower colon = colon := by decide
  have hpart : symbolPart (front ++ colon :: rest) = rest := by
    rw [symbolPart, if_pos hmem, hdrop]
    rfl
  refine ⟨front.map lowerCase, ?_, ?_⟩
  · rw [hsize, if_neg hne, hpart, take_left, ← drop_drop, drop_left]
    rfl
  · rw [hpart, canonical, hlower, map_append, map_cons, hcolon]
    simp

lemma decodeValues_eq_ok {chars p : Bytes} (h : decodeValues addrPrefix chars = .ok (p, values))
    (hne : (p, values) ≠ ([], [])) :
    p = addrPrefix ∧ FiveBits values ∧ chars.length = values.length + 8 ∧
      chars.map toLower = symbols (values ++ createChecksum p values) := by
  rw [decodeValues] at h
  cases hvalues : charValues chars with
  | none =>
    simp only [hvalues, Except.ok.injEq] at h
    exact absurd h.symm hne
  | some all =>
    obtain ⟨hfive, hsymbols, hlength⟩ := charValues_eq_some hvalues
    simp only [hvalues] at h
    split_ifs at h with hverify hshort
    · exact absurd (Except.ok.inj h).symm hne
    obtain ⟨rfl, rfl⟩ := Prod.mk.inj (Except.ok.inj h)
    have hsplit : all = all.take (all.length - 8) ++ all.drop (all.length - 8) :=
      (take_append_drop _ _).symm
    have htake : FiveBits (all.take (all.length - 8)) :=
      fun v hv => hfive v (mem_of_mem_take hv)
    have hdrop : FiveBits (all.drop (all.length - 8)) :=
      fun v hv => hfive v (mem_of_mem_drop hv)
    rw [Bool.not_eq_false, hsplit,
      verifyChecksum_append_iff htake hdrop (by rw [length_drop]; omega)] at hverify
    refine ⟨rfl, htake, ?_, ?_⟩
    · rw [length_take]
      omega
    · rw [← hverify, ← hsplit, hsymbols]

lemma encode_eq_some (h : FiveBits values) :
    encode addrPrefix values = some (addrPrefix ++ [colon] ++
      symbols (values ++ createChecksum addrPrefix values)) := by
  apply if_pos
  rw [all_eq_true]
  intro v hv
  exact decide_eq_true (h.append (fiveBits_createChecksum addrPrefix values) v hv)

lemma decode_eq_ok (h : decode str defaultPrefix = .ok (addrPrefix, values))
    (hne : (addrPrefix, values) ≠ ([], [])) :
    FiveBits values ∧ (symbolPart str).length = values.length + 8 ∧
      (symbolPart str).map toLower = symbols (values ++ createChecksum addrPrefix values) ∧
      addrPrefix ++ [colon] ++ (symbolPart str).map toLower = canonical str defaultPrefix := by
  obtain ⟨s, hscan, hcase⟩ : ∃ s, scan 0 str ⟨false, false, false, 0⟩ = some s ∧
      (s.upper && s.lower) = false := by
    rw [decode] at h
    cases hscan : scan 0 str ⟨false, false, false, 0⟩ with
    | none =>
      simp only [hscan, Except.ok.injEq] at h
      exact absurd h.symm hne
    | some s =>
      refine ⟨s, rfl, ?_⟩
      by_contra hmixed
      simp only [hscan, if_pos (Bool.not_eq_false _ ▸ hmixed), Except.ok.injEq] at h
      exact absurd h.symm hne
  obtain ⟨found, hdecode, hcanonical⟩ := decode_eq_decodeValues hscan hcase defaultPrefix
  rw [hdecode] at h
  obtain ⟨rfl, hfive, hlength, hsymbols⟩ := decodeValues_eq_ok h hne
  exact ⟨hfive, hlength, hsymbols, hcanonical⟩

/-- An accepted string is what its prefix and values are encoded to, in lower case and with its
prefix made explicit. -/
lemma encode_of_decode (h : decode str defaultPrefix = .ok (addrPrefix, values))
    (hne : (addrPrefix, values) ≠ ([], [])) :
    FiveBits values ∧ encode addrPrefix values = some (canonical str defaultPrefix) := by
  obtain ⟨hfive, -, hsymbols, hcanonical⟩ := decode_eq_ok h hne
  refine ⟨hfive, ?_⟩
  rw [encode_eq_some hfive, ← hsymbols, hcanonical]

lemma encode_injective {values' : Bytes} (h : FiveBits values) (h' : FiveBits values')
    (hstr : encode addrPrefix values = some str)
    (hstr' : encode addrPrefix values' = some str) : values = values' := by
  rw [encode_eq_some h] at hstr
  rw [encode_eq_some h', ← hstr, Option.some.injEq, append_cancel_left_eq] at hstr'
  have hvalues := charValues_symbols (h.append (fiveBits_createChecksum addrPrefix values))
  rw [← hstr', charValues_symbols (h'.append (fiveBits_createChecksum addrPrefix values')),
    Option.some.injEq] at hvalues
  refine (append_inj_left' hvalues ?_).symm
  rw [length_createChecksum, length_createChecksum]

lemma scan_lower {rest : Bytes} (h : ∀ c ∈ cs, 97 ≤ c ∧ c ≤ 122) (hne : cs ≠ []) :
    scan i (cs ++ rest) s = scan (i + cs.length) rest { s with lower := true } := by
  induction cs generalizing i s with
  | nil => exact absurd rfl hne
  | cons c cs ih =>
    rw [cons_append, scan, if_pos (h c mem_cons_self)]
    by_cases hcs : cs = []
    · rw [hcs]
      rfl
    · rw [ih (fun x hx => h x (mem_cons_of_mem c hx)) hcs, length_cons]
      congr 1
      omega

/-- The pass over the symbols of values keeps the separator and finds no upper case. -/
lemma scan_symbols (h : FiveBits values) :
    ∃ s', scan i (symbols values) s = some s' ∧ s'.upper = s.upper ∧
      s'.prefixSize = s.prefixSize := by
  induction values generalizing i s with
  | nil => exact ⟨s, rfl, rfl, rfl⟩
  | cons v values ih =>
    have hv := (charValue_charset (h v mem_cons_self)).2
    have hrest : FiveBits values := fun x hx => h x (mem_cons_of_mem v hx)
    rw [symbols, map_cons, scan]
    rcases hv with hletter | hdigit
    · rw [if_pos hletter]
      obtain ⟨s', hscan, hupper, hsize⟩ := ih hrest
      exact ⟨s', hscan, hupper, hsize⟩
    have hnotLower : ¬(97 ≤ charset.getD v.toNat 0 ∧ charset.getD v.toNat 0 ≤ 122) :=
      fun hl => absurd (UInt8.le_trans hl.1 hdigit.2) (by decide)
    have hnotUpper : ¬(65 ≤ charset.getD v.toNat 0 ∧ charset.getD v.toNat 0 ≤ 90) :=
      fun hu => absurd (UInt8.le_trans hu.1 hdigit.2) (by decide)
    rw [if_neg hnotLower, if_neg hnotUpper, if_pos hdigit]
    obtain ⟨s', hscan, hupper, hsize⟩ := ih hrest
    exact ⟨s', hscan, hupper, hsize⟩

lemma lowerCase_of_lower : ∀ c, 97 ≤ c ∧ c ≤ 122 → lowerCase c = c := by decide +kernel

lemma decodeValues_symbols (hvalues : FiveBits values) :
    decodeValues addrPrefix (symbols (values ++ createChecksum addrPrefix values)) =
      .ok (addrPrefix, values) := by
  have hchecksum := fiveBits_createChecksum addrPrefix values
  have hlength := length_createChecksum addrPrefix values
  have hverify := (verifyChecksum_append_iff hvalues hchecksum hlength).mpr rfl
  rw [decodeValues, charValues_symbols (hvalues.append hchecksum)]
  simp only [hverify, Bool.true_eq_false, if_false, length_append, hlength,
    Nat.add_sub_cancel, take_left]
  rw [if_neg (by omega)]

lemma decode_encoded (hne : addrPrefix ≠ []) (hlower : ∀ c ∈ addrPrefix, 97 ≤ c ∧ c ≤ 122)
    (hvalues : FiveBits values) (defaultPrefix : Bytes) :
    decode (addrPrefix ++ [colon] ++ symbols (values ++ createChecksum addrPrefix values))
      defaultPrefix = .ok (addrPrefix, values) := by
  have hall := hvalues.append (fiveBits_createChecksum addrPrefix values)
  have hpos := length_pos_iff.mpr hne
  have hmap : addrPrefix.map lowerCase = addrPrefix := by
    rw [map_congr_left fun c hc => lowerCase_of_lower c (hlower c hc), map_id']
  obtain ⟨s, hscan, hupper, hsize⟩ := scan_symbols
    hall
  rw [append_assoc, decode, scan_lower hlower hne, Nat.zero_add, singleton_append, scan,
    if_neg (by decide), if_neg (by decide), if_neg (by decide), if_pos rfl,
    if_neg (by simp; omega), hscan]
  simp only [hupper, hsize, Bool.false_and, Bool.false_eq_true, if_false]
  rw [if_neg (by omega), take_left, ← drop_drop, drop_left, hmap]
  exact decodeValues_symbols hvalues

/-- If `decode` returns a prefix and values, the string ends in the eight symbols of their
checksum and encoding gives the string in lower case with its prefix made explicit; and every
encoded string is decoded. -/
theorem decode_exact :
    (∀ str defaultPrefix addrPrefix values,
      decode str defaultPrefix = .ok (addrPrefix, values) → (addrPrefix, values) ≠ ([], []) →
      8 ≤ (symbolPart str).length ∧
        ((symbolPart str).drop ((symbolPart str).length - 8)).map toLower =
          symbols (createChecksum addrPrefix values) ∧
        encode addrPrefix values = some (canonical str defaultPrefix)) ∧
    ∀ addrPrefix values, addrPrefix ≠ [] → (∀ c ∈ addrPrefix, 97 ≤ c ∧ c ≤ 122) →
      FiveBits values → ∃ str, encode addrPrefix values = some str ∧
        ∀ defaultPrefix, decode str defaultPrefix = .ok (addrPrefix, values) := by
  constructor
  · intro str defaultPrefix addrPrefix values h hne
    obtain ⟨-, hlength, hsymbols, -⟩ := decode_eq_ok h hne
    refine ⟨by omega, ?_, ?_⟩
    · rw [map_drop, hsymbols, hlength, Nat.add_sub_cancel, symbols, map_append,
        drop_left' (by rw [length_map])]
      rfl
    · exact (encode_of_decode h hne).2
  · intro addrPrefix values hne hlower hvalues
    refine ⟨_, encode_eq_some hvalues, ?_⟩
    intro defaultPrefix
    exact decode_encoded hne hlower hvalues defaultPrefix

def toUpper (c : UInt8) : UInt8 := if 97 ≤ c ∧ c ≤ 122 then c - 32 else c

/-- Three values under the prefix `p`, in upper case and without the prefix. -/
def upperSample : Bytes := (symbols ([0, 1, 2] ++ createChecksum [112] [0, 1, 2])).map toUpper

theorem decode_exact_sample :
    encode [112] [0, 1, 2] = some (canonical upperSample [112]) ∧
      ∃ str, encode [112] [0, 1, 2] = some str ∧
        ∀ defaultPrefix, decode str defaultPrefix = .ok ([112], [0, 1, 2]) := by
  have hupper : decode upperSample [112] = .ok ([112], [0, 1, 2]) := by decide +kernel
  have hlower : ∀ c ∈ ([112] : Bytes), 97 ≤ c ∧ c ≤ 122 := by simp
  have hfive : ∀ v ∈ ([0, 1, 2] : Bytes), v < 32 := by simp
  exact ⟨(decode_exact.1 upperSample [112] [112] [0, 1, 2] hupper (by decide)).2.2,
    decode_exact.2 [112] [0, 1, 2] (by decide) hlower hfive⟩

end PyrrhaNode.CashAddr
