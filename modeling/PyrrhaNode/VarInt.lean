import PyrrhaNode.Serialize

/-!
# Variable-length integers

The digits of a number to the base 128, most significant first, with the high bit set on all but
the last. One is subtracted from all but the last digit, so that every number has one encoding.
-/
namespace PyrrhaNode.VarInt
open List Serialize

def getSizeOfVarInt (n : ℕ) : ℕ :=
  if n ≤ 0x7f then 1 else getSizeOfVarInt (n >>> 7 - 1) + 1

/-- The buffer of `WriteVarInt` from the place `len` on. -/
def tmpFrom (len n : ℕ) : Bytes :=
  UInt8.ofNat (n &&& 0x7f ||| if len ≠ 0 then 0x80 else 0) ::
    if n ≤ 0x7f then [] else tmpFrom (len + 1) (n >>> 7 - 1)

def writeVarInt (n : ℕ) : Bytes := (tmpFrom 0 n).reverse

/-- The loop of `ReadVarInt` on a 64-bit number. -/
def readVarIntFrom (n : ℕ) : Bytes → Except String (ℕ × Bytes)
  | [] => .error "CDataStream::read(): end of data"
  | chData :: is =>
    if (2 ^ 64 - 1) >>> 7 < n then .error "ReadVarInt(): size too large"
    else
      let n := (n <<< 7 ||| (chData &&& 0x7f).toNat) % 2 ^ 64
      if chData &&& 0x80 ≠ 0 then
        if n = 2 ^ 64 - 1 then .error "ReadVarInt(): size too large" else readVarIntFrom (n + 1) is
      else .ok (n, is)

def readVarInt : Reader ℕ := readVarIntFrom 0

/-- The bytes after which the reader holds `n`. -/
def digits : ℕ → Bytes
  | 0 => []
  | n + 1 => digits (n / 128) ++ [UInt8.ofNat (n % 128 ||| 0x80)]

lemma and_shift (n : ℕ) : n &&& 0x7f = n % 128 ∧ n >>> 7 = n / 128 :=
  ⟨Nat.and_two_pow_sub_one_eq_mod n 7, Nat.shiftRight_eq_div_pow n 7⟩

lemma reverse_tmpFrom (len n : ℕ) : (tmpFrom (len + 1) n).reverse = digits (n + 1) := by
  induction n using Nat.strong_induction_on generalizing len with
  | h n ih =>
    rw [tmpFrom, digits, (and_shift n).1, (and_shift n).2, if_pos len.succ_ne_zero, reverse_cons]
    split_ifs with hn
    · rw [Nat.div_eq_of_lt (by omega), digits, reverse_nil]
    · rw [ih _ (by omega), Nat.sub_add_cancel (by omega)]

lemma writeVarInt_eq (n : ℕ) :
    writeVarInt n = digits (n / 128) ++ [UInt8.ofNat (n % 128)] := by
  rw [writeVarInt, tmpFrom, (and_shift n).1, (and_shift n).2, if_neg (by simp), Nat.or_zero,
    reverse_cons]
  split_ifs with hn
  · rw [Nat.div_eq_of_lt (by omega), digits, reverse_nil]
  · rw [reverse_tmpFrom, Nat.sub_add_cancel (by omega)]

lemma digit_spec : ∀ d < 128, (UInt8.ofNat d &&& 0x7f).toNat = d ∧ UInt8.ofNat d &&& 0x80 = 0 ∧
    (UInt8.ofNat (d ||| 0x80) &&& 0x7f).toNat = d ∧ UInt8.ofNat (d ||| 0x80) &&& 0x80 ≠ 0 := by
  decide +kernel

lemma byte_eq : ∀ b : UInt8, (b &&& 0x7f).toNat < 128 ∧
    b = UInt8.ofNat ((b &&& 0x7f).toNat ||| if b &&& 0x80 ≠ 0 then 0x80 else 0) := by
  decide +kernel

/-- The guards refuse exactly the numbers that do not fit. -/
lemma readVarIntFrom_cons {s n : ℕ} {b : UInt8} (hn : 128 * s + (b &&& 0x7f).toNat = n)
    (bs : Bytes) : readVarIntFrom s (b :: bs) =
      if b &&& 0x80 ≠ 0 then
        if n + 1 < 2 ^ 64 then readVarIntFrom (n + 1) bs else .error "ReadVarInt(): size too large"
      else if n < 2 ^ 64 then .ok (n, bs) else .error "ReadVarInt(): size too large" := by
  have hmax : (2 ^ 64 - 1) >>> 7 = 2 ^ 57 - 1 := rfl
  have hdigit := (byte_eq b).1
  rw [readVarIntFrom]
  by_cases hguard : (2 ^ 64 - 1) >>> 7 < s
  · rw [if_pos hguard]
    split_ifs <;> first | rfl | omega
  · have hshift : (s <<< 7 ||| (b &&& 0x7f).toNat) % 2 ^ 64 = n := by
      rw [← Nat.shiftLeft_add_eq_or_of_lt hdigit, Nat.shiftLeft_eq]
      omega
    have hfit : n < 2 ^ 64 := by omega
    simp only [if_neg hguard, hshift, if_pos hfit]
    congr 1
    split_ifs <;> first | rfl | omega

lemma readVarIntFrom_digits (s : ℕ) (bs : Bytes) : readVarIntFrom 0 (digits s ++ bs) =
    if s < 2 ^ 64 then readVarIntFrom s bs else .error "ReadVarInt(): size too large" := by
  induction s using Nat.strong_induction_on generalizing bs with
  | h s ih =>
    cases s with
    | zero => rw [digits, nil_append, if_pos (by decide)]
    | succ n =>
      obtain ⟨-, -, hdigit, hflag⟩ := digit_spec (n % 128) (Nat.mod_lt n (by decide))
      rw [digits, append_assoc, ih _ (by omega), singleton_append,
        readVarIntFrom_cons (by rw [hdigit, Nat.div_add_mod]), if_pos hflag]
      split_ifs <;> first | rfl | omega

lemma readVarInt_writeVarInt (n : ℕ) (rest : Bytes) : readVarInt (writeVarInt n ++ rest) =
    if n < 2 ^ 64 then .ok (n, rest) else .error "ReadVarInt(): size too large" := by
  obtain ⟨hdigit, hflag, -⟩ := digit_spec (n % 128) (Nat.mod_lt n (by decide))
  rw [writeVarInt_eq, append_assoc, readVarInt, readVarIntFrom_digits, singleton_append,
    readVarIntFrom_cons (by rw [hdigit, Nat.div_add_mod]), if_neg (not_not.mpr hflag)]
  split_ifs <;> first | rfl | omega

/-- Whatever is accepted is the encoding of the number that is returned. -/
lemma eq_of_readVarIntFrom {s n : ℕ} {bytes rest : Bytes}
    (h : readVarIntFrom s bytes = .ok (n, rest)) :
    n < 2 ^ 64 ∧ digits s ++ bytes = writeVarInt n ++ rest := by
  induction bytes generalizing s with
  | nil => cases h
  | cons b bs ih =>
    obtain ⟨hlt, hb⟩ := byte_eq b
    rw [readVarIntFrom_cons rfl] at h
    generalize (b &&& 0x7f).toNat = d at *
    have hdiv : (128 * s + d) / 128 = s ∧ (128 * s + d) % 128 = d := by omega
    split_ifs at h with hflag hfit hfit
    · rw [if_pos hflag] at hb
      have hread := ih h
      rwa [digits, hdiv.1, hdiv.2, ← hb, append_assoc, singleton_append] at hread
    · rw [if_neg hflag, Nat.or_zero] at hb
      cases h
      rw [writeVarInt_eq, hdiv.1, hdiv.2, ← hb, append_assoc, singleton_append]
      exact ⟨hfit, rfl⟩

lemma length_tmpFrom (len n : ℕ) : (tmpFrom len n).length = getSizeOfVarInt n := by
  induction n using Nat.strong_induction_on generalizing len with
  | h n ih =>
    rw [tmpFrom, getSizeOfVarInt, length_cons]
    split_ifs with hn
    · rfl
    · rw [ih _ (by rw [(and_shift n).2]; omega)]

lemma getSizeOfVarInt_le {n : ℕ} (k : ℕ) (h : n < 128 ^ (k + 1)) : getSizeOfVarInt n ≤ k + 1 := by
  induction k generalizing n with
  | zero => rw [getSizeOfVarInt, if_pos (by omega)]
  | succ k ih =>
    rw [getSizeOfVarInt]
    split_ifs with hn
    · omega
    · refine Nat.succ_le_succ (ih ?_)
      rw [(and_shift n).2]
      rw [pow_succ] at h
      omega

/-- The encodings are in bijection with the numbers of 64 bits, and the buffer of ten bytes
holds each of them. -/
theorem varInt_bijective (n : ℕ) (bytes rest : Bytes) :
    (readVarInt bytes = .ok (n, rest) ↔ n < 2 ^ 64 ∧ bytes = writeVarInt n ++ rest) ∧
      (2 ^ 64 ≤ n → readVarInt (writeVarInt n ++ rest) = .error "ReadVarInt(): size too large") ∧
      getSizeOfVarInt n = (writeVarInt n).length ∧ (n < 2 ^ 64 → getSizeOfVarInt n ≤ 10) := by
  refine ⟨⟨fun h => ?_, ?_⟩, fun hn => ?_, ?_, fun hn => getSizeOfVarInt_le 9 (by omega)⟩
  · simpa [digits] using eq_of_readVarIntFrom h
  · rintro ⟨hn, rfl⟩
    rw [readVarInt_writeVarInt, if_pos hn]
  · rw [readVarInt_writeVarInt, if_neg (by omega)]
  · rw [writeVarInt, length_reverse, length_tmpFrom]

end PyrrhaNode.VarInt
