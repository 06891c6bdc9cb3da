import PyrrhaNode.ByteOps

/-!
# Numbers as bytes

A number is written as its magnitude, lowest byte first, and a sign. The sign of a script integer
is the highest bit of its last byte, so that every value has one shortest form. Numbers of
arbitrary size are written by two functions that put the sign into a byte of its own.
-/
namespace PyrrhaNode.NumberBytes
open List ByteCodec Serialize Interpreter ScriptOps BigNum NumericOps StackOps ByteOps

lemma ofLeBytes_concat (bs : Bytes) (b : UInt8) :
    ofLeBytes (bs ++ [b]) = ofLeBytes bs + b.toNat * 256 ^ bs.length := by
  rw [ofLeBytes_append_singleton, Nat.shiftLeft_eq, Nat.pow_mul]

lemma deserialize_concat (bs : Bytes) (b : UInt8) :
    deserialize (bs ++ [b]) =
      if 0x80 ≤ b then -(ofLeBytes (bs ++ [b &&& 0x7f]) : ℤ)
      else ofLeBytes (bs ++ [b &&& 0x7f]) := by
  have hlow : ∀ b : UInt8, ¬ 0x80 ≤ b → b &&& 0x7f = b := by decide +kernel
  simp only [deserialize, List.getLast?_concat, dropLast_concat]
  split_ifs with hb
  · rfl
  · rw [hlow b hb]

lemma natAbs_deserialize_concat (bs : Bytes) (b : UInt8) :
    (deserialize (bs ++ [b])).natAbs =
      ofLeBytes bs + (b &&& 0x7f).toNat * 256 ^ bs.length := by
  rw [deserialize_concat, ← ofLeBytes_concat]
  split_ifs <;> simp

/-- The bytes are a shortest form. -/
def Minimal (v : Bytes) : Prop := isMinimallyEncoded v v.length = true

lemma isMinimallyEncoded_iff (v : Bytes) (n : ℕ) :
    isMinimallyEncoded v n = true ↔ v.length ≤ n ∧ Minimal v := by
  by_cases h : n < v.length
  · simp [isMinimallyEncoded, h]
  · simp [Minimal, isMinimallyEncoded, Nat.not_lt.mp h]

lemma minimal_concat (bs : Bytes) (b : UInt8) :
    Minimal (bs ++ [b]) ↔ b &&& 0x7f ≠ 0 ∨ ∃ s ∈ bs.getLast?, s &&& 0x80 ≠ 0 := by
  rw [Minimal, isMinimallyEncoded, dropLast_concat]
  cases bs.getLast? <;> simp

/-- A shortest form has as many bytes as its value asks for. -/
lemma bounds_of_minimal {bs : Bytes} {b : UInt8} (h : Minimal (bs ++ [b])) :
    256 ^ bs.length ≤ 2 * (deserialize (bs ++ [b])).natAbs ∧
      2 * (deserialize (bs ++ [b])).natAbs < 256 ^ (bs.length + 1) := by
  have hmask : ∀ b : UInt8, (b &&& 0x7f).toNat + 1 ≤ 128 := by decide +kernel
  rw [natAbs_deserialize_concat]
  constructor
  · rcases (minimal_concat bs b).mp h with hb | ⟨s, hs, hhigh⟩
    · have hpos : 0 < (b &&& 0x7f).toNat := by
        rw [Nat.pos_iff_ne_zero, ne_eq, ← UInt8.toNat_zero, UInt8.toNat_inj]
        exact hb
      have hle := Nat.mul_le_mul_right (256 ^ bs.length) (Nat.succ_le_of_lt hpos)
      omega
    · obtain ⟨cs, rfl⟩ := List.getLast?_eq_some_iff.mp hs
      have hlarge : 128 ≤ s.toNat := UInt8.le_iff_toNat_le.mp ((byte_le_iff s).mpr hhigh)
      have hle := Nat.mul_le_mul_right (256 ^ cs.length) hlarge
      rw [ofLeBytes_concat, length_append, length_singleton]
      omega
  · have hlt := ofLeBytes_lt bs
    have hle := Nat.mul_le_mul_right (256 ^ bs.length) (hmask b)
    rw [Nat.succ_mul] at hle
    omega

/-- The shortest form of a value is unique. -/
theorem eq_of_minimal {v w : Bytes} (hv : Minimal v) (hw : Minimal w)
    (h : deserialize v = deserialize w) : v = w := by
  have hnil : ∀ {bs : Bytes} {b : UInt8}, Minimal (bs ++ [b]) → deserialize (bs ++ [b]) ≠ 0 := by
    intro bs b hmin hzero
    have hle := (bounds_of_minimal hmin).1
    rw [hzero] at hle
    simp at hle
  rcases eq_nil_or_concat' v with rfl | ⟨bs, a, rfl⟩
  · rcases eq_nil_or_concat' w with rfl | ⟨cs, b, rfl⟩
    · rfl
    · exact absurd h.symm (hnil hw)
  · rcases eq_nil_or_concat' w with rfl | ⟨cs, b, rfl⟩
    · exact absurd h (hnil hv)
    · obtain ⟨hloV, hhiV⟩ := bounds_of_minimal hv
      obtain ⟨hloW, hhiW⟩ := bounds_of_minimal hw
      rw [h] at hloV hhiV
      have hlen : bs.length = cs.length := by
        have h1 := (Nat.pow_lt_pow_iff_right (by decide)).mp (hloV.trans_lt hhiW)
        have h2 := (Nat.pow_lt_pow_iff_right (by decide)).mp (hloW.trans_lt hhiV)
        omega
      have hmag := congrArg Int.natAbs h
      rw [natAbs_deserialize_concat, natAbs_deserialize_concat, ← ofLeBytes_concat,
        ← ofLeBytes_concat] at hmag
      have hbytes := congrArg (leBytes (bs.length + 1)) hmag
      have hbs := leBytes_ofLeBytes (bs ++ [a &&& 0x7f])
      have hcs := leBytes_ofLeBytes (cs ++ [b &&& 0x7f])
      rw [length_append, length_singleton] at hbs hcs
      rw [hbs, hlen, hcs] at hbytes
      obtain ⟨rfl, hlast⟩ := append_inj hbytes hlen
      have hlast := singleton_inj.mp hlast
      have hsign : 0x80 ≤ a ↔ 0x80 ≤ b := by
        have hne := hnil hw
        rw [deserialize_concat] at hne
        rw [deserialize_concat, deserialize_concat] at h
        split_ifs at h hne with ha hb hb
        · exact iff_of_true ha hb
        · omega
        · omega
        · exact iff_of_false ha hb
      have hsplit : ∀ c : UInt8, c = (c &&& 0x7f) ||| (if 0x80 ≤ c then 0x80 else 0) := by
        decide +kernel
      rw [hsplit a, hsplit b, hlast]
      simp only [hsign]

/-- The byte before the zeros that are dropped. -/
lemma ne_zero_of_trimmed {l ts : Bytes} {b : UInt8}
    (h : (l.dropWhile (· == 0)).reverse = ts ++ [b]) : b ≠ 0 := by
  have hhead := List.head?_dropWhile_not (· == (0 : UInt8)) l
  rw [reverse_eq_iff.mp h] at hhead
  simpa using hhead

/-- A byte without the sign bit, and with a sign added to it. -/
lemma byte_or_sign : ∀ b : UInt8, b &&& 0x80 = 0 →
    ((b ||| 0) &&& 0x7f = b ∧ ¬ 0x80 ≤ b ||| 0) ∧
      (b ||| 0x80) &&& 0x7f = b ∧ 0x80 ≤ b ||| 0x80 := by
  decide +kernel

/-- `MinimallyEncode` keeps the value and returns a shortest form. -/
theorem minimallyEncode_spec (v : Bytes) :
    deserialize (minimallyEncode v) = deserialize v ∧ Minimal (minimallyEncode v) := by
  have hends : ∀ b : UInt8, b &&& 0x7f = 0 → b = 0 ∨ b = 0x80 := by decide +kernel
  rcases eq_nil_or_concat' v with rfl | ⟨bs, last, rfl⟩
  · exact ⟨rfl, rfl⟩
  · have hkeep := minimal_concat bs last
    have hzero : last &&& 0x7f = 0 → ofLeBytes bs = 0 → deserialize (bs ++ [last]) = 0 := by
      intro hlast hbs
      rw [← Int.natAbs_eq_zero, natAbs_deserialize_concat, hlast, hbs]
      simp
    rw [minimallyEncode, List.getLast?_concat, dropLast_concat]
    dsimp only
    split_ifs with hlast
    · exact ⟨rfl, hkeep.mpr (.inl hlast)⟩
    · have hlast := not_not.mp hlast
      cases hnext : bs.getLast? with
      | none =>
        obtain rfl := List.getLast?_eq_none_iff.mp hnext
        exact ⟨(hzero hlast rfl).symm, rfl⟩
      | some next =>
        dsimp only
        split_ifs with hhigh
        · exact ⟨rfl, hkeep.mpr (.inr ⟨next, hnext, hhigh⟩)⟩
        · have hvalue := ofLeBytes_dropWhile bs.reverse
          rw [reverse_reverse] at hvalue
          rcases eq_nil_or_concat' (bs.reverse.dropWhile (· == 0)).reverse with
            hts | ⟨ts, b, hts⟩
          · rw [hts] at hvalue ⊢
            exact ⟨(hzero hlast hvalue.symm).symm, rfl⟩
          · have hb := ne_zero_of_trimmed hts
            rw [hts] at hvalue ⊢
            rw [List.getLast?_concat, dropLast_concat]
            dsimp only
            split_ifs with hsign
            · refine ⟨?_, (minimal_concat _ _).mpr (.inr ⟨b, by simp, hsign⟩)⟩
              rw [deserialize_concat, deserialize_concat, hlast, ofLeBytes_append_zero,
                ofLeBytes_append_zero, hvalue]
            · obtain ⟨hplus, hminus⟩ := byte_or_sign b (not_not.mp hsign)
              have hor : (b ||| last) &&& 0x7f = b ∧ (0x80 ≤ b ||| last ↔ 0x80 ≤ last) := by
                rcases hends last hlast with rfl | rfl
                · exact ⟨hplus.1, iff_of_false hplus.2 (by decide)⟩
                · exact ⟨hminus.1, iff_of_true hminus.2 (by decide)⟩
              refine ⟨?_, (minimal_concat _ _).mpr (.inl (by rwa [hor.1]))⟩
              rw [deserialize_concat, deserialize_concat, hor.1, hlast, ofLeBytes_append_zero,
                hvalue]
              simp only [hor.2]

lemma minimal_serializeNum (n : ℤ) : Minimal (serializeNum n) := by
  unfold serializeNum
  rcases eq_nil_or_concat' (magnitudeBytes n.natAbs) with hnil | ⟨bs, last, hbs⟩
  · rw [hnil]
    rfl
  · have hne := ne_zero_of_trimmed hbs
    rw [hbs, List.getLast?_concat]
    dsimp only
    split_ifs with hhigh hneg hneg
    iterate 2 exact (minimal_concat _ _).mpr (.inr ⟨last, by simp, (byte_le_iff last).mp hhigh⟩)
    · obtain ⟨-, hlast, -⟩ := byte_or_sign last (by simpa using mt (byte_le_iff last).mpr hhigh)
      exact (minimal_concat _ _).mpr (.inl (by rwa [hlast]))
    · obtain ⟨⟨hlast, -⟩, -⟩ := byte_or_sign last (by simpa using mt (byte_le_iff last).mpr hhigh)
      exact (minimal_concat _ _).mpr (.inl (by rwa [← hlast, UInt8.or_zero] at hne))

variable {n : ℤ}

/-- A number of 63 bits takes at most eight bytes. -/
lemma length_serializeNum_le_eight (h : n.natAbs < 2 ^ 63) : (serializeNum n).length ≤ 8 := by
  have hmin := minimal_serializeNum n
  have hvalue := setVch_serializeNum (x := n) (by omega)
  rcases eq_nil_or_concat' (serializeNum n) with hnil | ⟨bs, last, hbs⟩
  · simp [hnil]
  · rw [hbs] at hmin hvalue ⊢
    have hle := (bounds_of_minimal hmin).1
    rw [deserialize_eq_setVch] at hle
    have hlt : 256 ^ bs.length < 256 ^ 8 := by omega
    have := (Nat.pow_lt_pow_iff_right (by decide)).mp hlt
    rw [length_append, length_singleton]
    omega

lemma ofLeBytes_append_replicate (bs : Bytes) (k : ℕ) :
    ofLeBytes (bs ++ List.replicate k 0) = ofLeBytes bs := by
  induction k with
  | zero => simp
  | succ k ih => rw [replicate_succ', ← append_assoc, ofLeBytes_append_zero, ih]

lemma deserialize_padNum (rawnum : Bytes) (size : ℕ) :
    deserialize (padNum rawnum size) = deserialize rawnum := by
  have hbits : ∀ b : UInt8, (b &&& 0x80) &&& 0x7f = 0 ∧ (0x80 ≤ b &&& 0x80 ↔ 0x80 ≤ b) := by
    decide +kernel
  rcases eq_nil_or_concat' rawnum with rfl | ⟨bs, last, rfl⟩
  · have hzeros := ofLeBytes_append_replicate [] (size - 1)
    rw [nil_append] at hzeros
    rw [padNum, List.getLast?_nil, deserialize_concat, UInt8.zero_and, ofLeBytes_append_zero,
      hzeros]
    rfl
  · obtain ⟨hlow, hsign⟩ := hbits last
    rw [padNum, List.getLast?_concat, dropLast_concat]
    rw [deserialize_concat, deserialize_concat, hlow, ofLeBytes_append_zero,
      ofLeBytes_append_replicate]
    simp only [hsign]

lemma replaceTop_append {m : ScriptMachine} {rest out : List StackItem} (items : List StackItem)
    {f : List StackItem → Except ScriptError (List StackItem)} (hstack : m.stack = rest ++ items)
    (hf : f items = .ok out) :
    replaceTop items.length f m = .ok { m with stack := rest ++ out } := by
  rw [replaceTop, hstack, length_append, if_neg (by omega), Nat.add_sub_cancel,
    drop_left, take_left, hf]
  rfl

variable {k x : ℕ}

lemma num2Bin_spec {v : Bytes} (hlen : (minimallyEncode v).length ≤ k)
    (hk : k ≤ maxScriptElementSize) :
    ∃ w, num2Bin k (.vch v) = .ok (.vch w) ∧ deserialize w = deserialize v := by
  have hvalue := (minimallyEncode_spec v).1
  rw [num2Bin, if_neg (Nat.not_lt.mpr hk)]
  rw [if_neg (Nat.not_lt.mpr hlen)]
  split_ifs
  · exact ⟨_, rfl, hvalue⟩
  · exact ⟨_, rfl, (deserialize_padNum _ k).trans hvalue⟩

lemma itemAsUint64_numItem (memory : BitVec 64) (requireMinimal : Bool) (hk : k < 2 ^ 63) :
    itemAsUint64 memory requireMinimal (numItem k) = .ok (BitVec.ofNat 64 k) := by
  have hlen := length_serializeNum_le_eight (n := k) (by omega)
  have hmin := (isMinimallyEncoded_iff _ _).mpr ⟨hlen, minimal_serializeNum k⟩
  have hnum : scriptNum (serializeNum k) requireMinimal maximumElementSize64Bit = .ok (k : ℤ) := by
    rw [scriptNum, maximumElementSize64Bit, if_neg (Nat.not_lt.mpr hlen), hmin,
      setVch_serializeNum (by omega)]
    simp
    rfl
  simp only [itemAsUint64, numItem, hnum]
  rfl

/-- Script integers and the shortest forms of vectors are canonical, and the conversions to a
vector of a given size and back return the shortest form. -/
theorem script_integers_canonical :
    (∀ n : ℤ, n.natAbs < 2 ^ 63 → setVch (serializeNum n) = n ∧
      isMinimallyEncoded (serializeNum n) maximumElementSize64Bit = true) ∧
    (∀ v, deserialize (minimallyEncode v) = deserialize v ∧
      isMinimallyEncoded (minimallyEncode v) (minimallyEncode v).length = true ∧
      minimallyEncode (minimallyEncode v) = minimallyEncode v ∧
      (isMinimallyEncoded v v.length = true ↔ v = minimallyEncode v)) ∧
    ∀ (flags : BitVec 32) (memory : BitVec 64) (m : ScriptMachine) (rest : List StackItem)
      (v : Bytes) (k : ℕ), (minimallyEncode v).length ≤ MultiSig.maxIntegerSize flags →
      (minimallyEncode v).length ≤ k → k ≤ 520 →
      ∃ m', execNum2Bin flags memory { m with stack := rest ++ [.vch v, numItem k] } = .ok m' ∧
        execBin2Num flags m' = .ok { m with stack := rest ++ [.vch (minimallyEncode v)] } := by
  have hcanon : ∀ v w, deserialize w = deserialize v → minimallyEncode w = minimallyEncode v := by
    intro v w h
    obtain ⟨hv, hminv⟩ := minimallyEncode_spec v
    obtain ⟨hw, hminw⟩ := minimallyEncode_spec w
    exact eq_of_minimal hminw hminv (hw.trans (h.trans hv.symm))
  refine ⟨fun n hn => ⟨setVch_serializeNum (by omega), (isMinimallyEncoded_iff _ _).mpr
    ⟨length_serializeNum_le_eight hn, minimal_serializeNum n⟩⟩, fun v => ?_, ?_⟩
  · obtain ⟨hvalue, hmin⟩ := minimallyEncode_spec v
    refine ⟨hvalue, hmin, hcanon v _ hvalue, fun h => eq_of_minimal h hmin hvalue.symm, fun h => ?_⟩
    rwa [← h] at hmin
  · intro flags memory m rest v k hsize hlen hk
    obtain ⟨w, hw, hvalue⟩ := num2Bin_spec hlen hk
    refine ⟨{ m with stack := rest ++ [.vch w] }, ?_, ?_⟩
    · refine replaceTop_append [.vch v, numItem k] rfl ?_
      simp only [itemAsUint64_numItem memory _ (by omega : k < 2 ^ 63), Except.mapError, bind,
        Except.bind, BitVec.toNat_ofNat, Nat.mod_eq_of_lt (by omega : k < 2 ^ 64), hw]
      rfl
    · refine replaceTop_append [.vch w] rfl ?_
      have hmin := (isMinimallyEncoded_iff _ _).mpr ⟨hsize, (minimallyEncode_spec v).2⟩
      change (if !isMinimallyEncoded (minimallyEncode w) (MultiSig.maxIntegerSize flags) then _
        else _) = _
      rw [hcanon v w hvalue, hmin]
      rfl

/-- A conversion to `int`. -/
def toInt32 (x : ℕ) : ℤ := (BitVec.ofNat 32 x).toInt

/-- The bytes that `mpz_export` writes: those of the magnitude, and none for zero. -/
def mpzExportBytes (n : ℤ) : Bytes := if n = 0 then [] else leBytes (magSize n) n.natAbs

/-- `BigNum::serialize` into a buffer: the number that it returns and the buffer after it. A size
of zero stands for a buffer of the size that the padding asks for. -/
def serializeInto (n : ℤ) (buf : Bytes) (padTo : ℕ) (sz : ℤ) : ℤ × Bytes :=
  let sz := if sz = 0 then toInt32 (padTo + 1) else sz
  let sizeNeeded := toInt32 (magSize n + 1)
  if sz < sizeNeeded then (-sizeNeeded, buf)
  else
    let exported := mpzExportBytes n
    let buf := exported ++ buf.drop exported.length
    let buf := (List.range' exported.length (padTo - exported.length)).foldl
      (fun buf i => buf.set i 0) buf
    let count := max exported.length padTo
    (toInt32 (count + 1), buf.set count (if n < 0 then 0x80 else 0))

/-- The magnitude in `k` bytes, and the sign in one more. -/
def signMagnitude (n : ℤ) (k : ℕ) : Bytes := leBytes k n.natAbs ++ [if n < 0 then 0x80 else 0]

/-- Both functions write these bytes, and the number is read back from them. -/
structure Consistent (n : ℤ) (k : ℕ) : Prop where
  vector : serializeBigNum n k = signMagnitude n k
  buffer : ∀ buf : Bytes, buf.length = k + 1 →
    serializeInto n buf k 0 = (((k + 1 : ℕ) : ℤ), signMagnitude n k)
  read : deserialize (serializeBigNum n k) = n

lemma magSize_le_iff (hn : n ≠ 0) (k : ℕ) : magSize n ≤ k ↔ n.natAbs < 256 ^ k := by
  have hlog : Nat.log2 n.natAbs < 8 * k ↔ n.natAbs < 2 ^ (8 * k) := Nat.log2_lt (by omega)
  rw [Nat.pow_mul] at hlog
  rw [magSize, sizeInBase2, ← hlog]
  omega

lemma leBytes_of_le {m : ℕ} (hx : x < 256 ^ m) (hle : m ≤ k) :
    leBytes k x = leBytes m x ++ List.replicate (k - m) 0 := by
  have h := leBytes_ofLeBytes (leBytes m x ++ List.replicate (k - m) 0)
  rwa [ofLeBytes_append_replicate, ofLeBytes_leBytes, Nat.mod_eq_of_lt hx, length_append,
    length_leBytes, length_replicate, Nat.add_sub_cancel' hle] at h

lemma foldl_set_zero (front middle rest : Bytes) :
    (List.range' front.length middle.length).foldl (fun buf i => buf.set i 0)
      (front ++ (middle ++ rest)) = front ++ (List.replicate middle.length 0 ++ rest) := by
  induction middle generalizing front with
  | nil => rfl
  | cons b middle ih =>
    have hnext := ih (front ++ [0])
    simpa [List.range'_succ, replicate_succ] using hnext

lemma toInt32_of_lt (h : x < 2 ^ 31) : toInt32 x = x := by
  rw [toInt32, BitVec.toInt_eq_toNat_of_lt] <;> rw [BitVec.toNat_ofNat] <;> omega

lemma serializeInto_eq {buf : Bytes} (hmag : magSize n ≤ k) (hk : k + 1 < 2 ^ 31) (hn : n ≠ 0)
    (hfits : n.natAbs < 256 ^ magSize n) (hbuf : buf.length = k + 1) :
    serializeInto n buf k 0 = (((k + 1 : ℕ) : ℤ), signMagnitude n k) := by
  rcases eq_nil_or_concat' (buf.drop (magSize n)) with hnil | ⟨middle, last, hdrop⟩
  · have := congrArg List.length hnil
    rw [length_drop, length_nil] at this
    omega
  · have hlen := congrArg List.length hdrop
    rw [length_drop, length_append, length_singleton] at hlen
    have hmiddle : k - magSize n = middle.length := by omega
    have hfront : (leBytes (magSize n) n.natAbs).length = magSize n := length_leBytes _ _
    have hloop := foldl_set_zero (leBytes (magSize n) n.natAbs) middle [last]
    simp only [serializeInto, mpzExportBytes, if_neg hn, if_pos, toInt32_of_lt hk,
      toInt32_of_lt (by omega : magSize n + 1 < 2 ^ 31), hfront, hdrop, max_eq_right hmag]
    rw [hmiddle]
    rw [hfront] at hloop
    rw [hloop, signMagnitude, leBytes_of_le hfits hmag]
    simp [set_append, Nat.not_lt.mpr hmag, hmiddle]

/-- The number zero has no bytes to export but room for one, and sizes are of type `int`. -/
theorem serialize_consistent_iff (n : ℤ) (k : ℕ) (hpos : 1 ≤ k) (hfits : n.natAbs < 256 ^ k) :
    Consistent n k ↔ n ≠ 0 ∧ k + 1 < 2 ^ 31 := by
  constructor
  · intro h
    refine ⟨?_, ?_⟩
    · rintro rfl
      have hlen := congrArg List.length h.vector
      simp [serializeBigNum, signMagnitude, magSize, sizeInBase2] at hlen
    · have hbuf := congrArg Prod.fst (h.buffer (List.replicate (k + 1) 0) (by simp))
      have hlower := fun x => BitVec.le_toInt (BitVec.ofNat 32 x)
      have hupper := fun x => BitVec.toInt_lt (x := BitVec.ofNat 32 x)
      simp only [serializeInto, if_pos, toInt32] at hbuf
      by_cases hsz : (BitVec.ofNat 32 (k + 1)).toInt < (BitVec.ofNat 32 (magSize n + 1)).toInt
      · rw [if_pos hsz] at hbuf
        have h1 := hlower (k + 1)
        omega
      · rw [if_neg hsz] at hbuf
        have h1 := hupper (max (mpzExportBytes n).length k + 1)
        omega
  · rintro ⟨hn, hk⟩
    have hmag := (magSize_le_iff hn k).mpr hfits
    have hexact := (magSize_le_iff hn (magSize n)).mp le_rfl
    have hvector : serializeBigNum n k = signMagnitude n k := by
      rw [serializeBigNum, signMagnitude, if_neg hn, leBytes_of_le hexact hmag]
    refine ⟨hvector, fun buf hbuf => serializeInto_eq hmag hk hn hexact hbuf, ?_⟩
    have hvalue := ofLeBytes_leBytes k n.natAbs
    rw [Nat.mod_eq_of_lt hfits] at hvalue
    rw [hvector, signMagnitude, deserialize_concat]
    rcases lt_or_ge n 0 with hneg | hneg
    · rw [if_pos hneg, if_pos (by decide), show (0x80 : UInt8) &&& 0x7f = 0 from rfl,
        ofLeBytes_append_zero]
      omega
    · rw [if_neg (not_lt.mpr hneg), if_neg (by decide), UInt8.zero_and, ofLeBytes_append_zero]
      omega

/-- The number −255 in one byte and its sign. -/
theorem serialize_consistent_minus255 : (-255 : ℤ).natAbs < 256 ^ 1 ∧ Consistent (-255) 1 :=
  ⟨by decide, (serialize_consistent_iff (-255) 1 le_rfl (by decide)).mpr (by decide)⟩

/-- Zero in one byte: the vector has one more. -/
theorem serialize_zero_differs : serializeBigNum 0 1 = [0, 0, 0] ∧
    serializeInto 0 [7, 7] 1 0 = (2, [0, 0]) ∧ ¬ Consistent 0 1 :=
  ⟨by decide, by decide, fun h => absurd h.vector (by decide)⟩

end PyrrhaNode.NumberBytes
