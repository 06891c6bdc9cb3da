import Mathlib.Data.List.Basic
import Mathlib.Data.Set.Function
import Mathlib.Tactic

/-!
# Prefix-free codes and little-endian words

A code is prefix free on a set of values when a code word followed by anything
determines both the value and what follows. Concatenations of such codes are
decodable from the left, which is how every hashed or transmitted record of the
node is read back. Words are little-endian byte strings of a fixed width; a value
that needs more bytes than the width is cut to its low bytes, as a store of a
machine word does.
-/
namespace PyrrhaNode.ByteCodec

open List

/-- A code word of a value in `s`, followed by anything, determines the value
and the continuation. -/
def PrefixFreeOn {α β : Type*} (s : Set α) (enc : α → List β) : Prop :=
  ∀ a ∈ s, ∀ b ∈ s, ∀ xs ys, enc a ++ xs = enc b ++ ys → a = b ∧ xs = ys

theorem PrefixFreeOn.injOn {α β : Type*} {s : Set α} {enc : α → List β}
    (h : PrefixFreeOn s enc) : Set.InjOn enc s := by
  intro a ha b hb he
  exact (h a ha b hb [] [] (by simpa using he)).1

/-- Code words of one fixed length are prefix free as soon as they are distinct. -/
theorem prefixFreeOn_of_length {α β : Type*} {s : Set α} {enc : α → List β} (n : ℕ)
    (hlen : ∀ a ∈ s, (enc a).length = n) (hinj : Set.InjOn enc s) : PrefixFreeOn s enc := by
  intro a ha b hb xs ys he
  obtain ⟨h1, h2⟩ := append_inj he (by rw [hlen a ha, hlen b hb])
  exact ⟨hinj ha hb h1, h2⟩

/-- A code that can be read back from the front of any continuation is prefix free. -/
theorem prefixFreeOn_of_decode {α β : Type*} {s : Set α} {enc : α → List β}
    (dec : List β → Option (α × List β))
    (hdec : ∀ a ∈ s, ∀ xs, dec (enc a ++ xs) = some (a, xs)) : PrefixFreeOn s enc := by
  intro a ha b hb xs ys he
  have h := hdec a ha xs
  rw [he, hdec b hb ys] at h
  simpa [eq_comm] using h

/-- Equally long lists of prefix-free code words are prefix free. -/
theorem PrefixFreeOn.flatMap_append {α β : Type*} {s : Set α} {enc : α → List β}
    (h : PrefixFreeOn s enc) (l l' : List α) (hl : ∀ a ∈ l, a ∈ s) (hl' : ∀ a ∈ l', a ∈ s)
    (hlen : l.length = l'.length) (xs ys : List β)
    (he : l.flatMap enc ++ xs = l'.flatMap enc ++ ys) : l = l' ∧ xs = ys := by
  induction l generalizing l' with
  | nil =>
    have hnil : l' = [] := length_eq_zero_iff.mp hlen.symm
    subst hnil
    simpa using he
  | cons a l ih =>
    match l' with
    | [] => simp at hlen
    | b :: l' =>
      simp only [flatMap_cons, append_assoc] at he
      obtain ⟨hab, hrest⟩ := h a (hl a (by simp)) b (hl' b (by simp)) _ _ he
      obtain ⟨hll, hxy⟩ := ih l' (fun x hx => hl x (by simp [hx]))
        (fun x hx => hl' x (by simp [hx])) (by simpa using hlen) hrest
      exact ⟨by rw [hab, hll], hxy⟩

/-- A list of nonempty prefix-free code words is decodable without knowing its length. -/
theorem PrefixFreeOn.flatMap_injective {α β : Type*} {s : Set α} {enc : α → List β}
    (h : PrefixFreeOn s enc) (hne : ∀ a ∈ s, enc a ≠ []) (l l' : List α) (hl : ∀ a ∈ l, a ∈ s)
    (hl' : ∀ a ∈ l', a ∈ s) (he : l.flatMap enc = l'.flatMap enc) : l = l' := by
  induction l generalizing l' with
  | nil =>
    match l' with
    | [] => rfl
    | b :: l' =>
      have hb := hne b (hl' b (by simp))
      exact absurd (append_eq_nil_iff.mp he.symm).1 hb
  | cons a l ih =>
    match l' with
    | [] =>
      have ha := hne a (hl a (by simp))
      exact absurd (append_eq_nil_iff.mp he).1 ha
    | b :: l' =>
      obtain ⟨hab, hrest⟩ := h a (hl a (by simp)) b (hl' b (by simp)) _ _ he
      rw [hab, ih l' (fun x hx => hl x (by simp [hx])) (fun x hx => hl' x (by simp [hx])) hrest]

/-- The `width` low bytes of `value`, least significant byte first. -/
def leBytes : ℕ → ℕ → List UInt8
  | 0, _ => []
  | width + 1, value => UInt8.ofNat (value % 256) :: leBytes width (value / 256)

/-- The number a little-endian byte string stands for. -/
def ofLeBytes : List UInt8 → ℕ
  | [] => 0
  | b :: bs => b.toNat + 256 * ofLeBytes bs

@[simp] theorem length_leBytes (width value : ℕ) : (leBytes width value).length = width := by
  induction width generalizing value with
  | zero => rfl
  | succ width ih => simp [leBytes, ih]

theorem ofLeBytes_leBytes (width value : ℕ) :
    ofLeBytes (leBytes width value) = value % 256 ^ width := by
  induction width generalizing value with
  | zero => simp [leBytes, ofLeBytes, Nat.mod_one]
  | succ width ih =>
    have hb : (UInt8.ofNat (value % 256)).toNat = value % 256 := by
      simp [UInt8.toNat_ofNat']
    simp only [leBytes, ofLeBytes, ih, hb]
    rw [pow_succ, mul_comm (256 ^ width) 256, Nat.mod_mul]

variable (bs : List UInt8)

theorem ofLeBytes_lt : ofLeBytes bs < 256 ^ bs.length := by
  induction bs with
  | nil => simp [ofLeBytes]
  | cons b bs ih =>
    have hb := b.toNat_lt
    simp only [ofLeBytes, length_cons]
    omega

theorem leBytes_ofLeBytes : leBytes bs.length (ofLeBytes bs) = bs := by
  induction bs with
  | nil => rfl
  | cons b bs ih =>
    have hb := b.toNat_lt
    have hmod : (b.toNat + 256 * ofLeBytes bs) % 256 = b.toNat := by omega
    have hdiv : (b.toNat + 256 * ofLeBytes bs) / 256 = ofLeBytes bs := by omega
    simp only [length_cons, ofLeBytes, leBytes, hmod, hdiv, ih, UInt8.ofNat_toNat]

theorem leBytes_injOn (width : ℕ) : Set.InjOn (leBytes width) {v | v < 256 ^ width} := by
  intro a ha b hb he
  have h := congrArg ofLeBytes he
  rw [ofLeBytes_leBytes, ofLeBytes_leBytes, Nat.mod_eq_of_lt ha, Nat.mod_eq_of_lt hb] at h
  exact h

theorem ofLeBytes_append_singleton (b : UInt8) :
    ofLeBytes (bs ++ [b]) = ofLeBytes bs + b.toNat <<< (8 * bs.length) := by
  rw [Nat.shiftLeft_eq, Nat.pow_mul]
  induction bs with
  | nil => simp [ofLeBytes]
  | cons c bs ih =>
    rw [cons_append, ofLeBytes, ih, ofLeBytes, length_cons]
    ring

/-- A property of bytes is checked on the 256 numbers. -/
theorem forall_byte {P : UInt8 → Prop} (h : ∀ n < 256, P (UInt8.ofNat n)) (b : UInt8) : P b := by
  have hb := h b.toNat b.toNat_lt
  rwa [UInt8.ofNat_toNat] at hb

instance (priority := low) decidableForallByte {P : UInt8 → Prop} [DecidablePred P] :
    Decidable (∀ b, P b) :=
  decidable_of_iff (∀ n < 256, P (UInt8.ofNat n)) ⟨forall_byte, fun h n _ => h (UInt8.ofNat n)⟩

end PyrrhaNode.ByteCodec
