import PyrrhaNode.FastFilter

/-!
# The rolling fast filter

`CRollingFastFilter` clears some bytes of the table before each `insert`, one after the other
and round the end of the table, so that what is set was set by the last few calls. It
inherits `checkAndSet`, which adds a hash and clears nothing. The table has `2 ^ k` bytes;
with less than one byte the constructor divides by zero.
-/
namespace PyrrhaNode.RollingFilter
open FastFilter Serialize Finset

def filterBytes (k : Fin 29) : ℕ := 2 ^ (k : ℕ)

/-- The filter; `eraseAmt` is set by the constructor and never changed. -/
structure CRollingFastFilter (k : Fin 29) (eraseAmt : ℕ) where
  base : CFastFilter (8 * filterBytes k) 16
  erase : ℕ

inductive Call
  | insert (hash : Uint256)
  | checkAndSet (hash : Uint256)
  deriving DecidableEq

def Call.hash : Call → Uint256
  | .insert hash | .checkAndSet hash => hash

def Call.rolls : Call → Bool
  | .insert _ => true
  | .checkAndSet _ => false

/-- The places of the loop of `roll`, from `loc` on. -/
def locs (k : Fin 29) : ℕ → ℕ → List ℕ
  | 0, _ => []
  | n + 1, loc => loc :: locs k n ((loc + 1) &&& (filterBytes k - 1))

namespace CRollingFastFilter
variable {k : Fin 29} {eraseAmt bit : ℕ} {f : CRollingFastFilter k eraseAmt} {calls : List Call}

/-- The constructor, with the random number that it draws. -/
def init (k : Fin 29) (rand32 : UInt32) (eraseAmt : ℕ) : CRollingFastFilter k eraseAmt :=
  ⟨⟨∅⟩, rand32.toNat % filterBytes k⟩

def nextErase (f : CRollingFastFilter k eraseAmt) : ℕ :=
  (f.erase + eraseAmt) % 2 ^ 32 &&& (filterBytes k - 1)

/-- The bytes that a call clears. -/
def erased (f : CRollingFastFilter k eraseAmt) : Call → List ℕ
  | .insert _ => locs k eraseAmt (f.nextErase &&& (filterBytes k - 1))
  | .checkAndSet _ => []

def roll (f : CRollingFastFilter k eraseAmt) (hash : Uint256) : CRollingFastFilter k eraseAmt :=
  ⟨⟨f.base.vData.filter fun bit => bit / 8 ∉ f.erased (.insert hash)⟩, f.nextErase⟩

def step (f : CRollingFastFilter k eraseAmt) : Call → CRollingFastFilter k eraseAmt
  | .insert hash => { f.roll hash with base := (f.roll hash).base.insert hash }
  | .checkAndSet hash => { f with base := (f.base.checkAndSet hash).2 }

def run (f : CRollingFastFilter k eraseAmt) (calls : List Call) : CRollingFastFilter k eraseAmt :=
  calls.foldl step f

/-- The bytes that a run clears. -/
def erasedIn : CRollingFastFilter k eraseAmt → List Call → List ℕ
  | _, [] => []
  | f, c :: calls => f.erased c ++ erasedIn (f.step c) calls

/-- The bits that a call sets. -/
def bits (k : Fin 29) (c : Call) : Finset ℕ :=
  CFastFilter.bitsOf (8 * filterBytes k) c.hash (List.range 8)

lemma card_bits (c : Call) : (bits k c).card ≤ 16 :=
  (List.toFinset_card_le _).trans (by simp [List.length_flatMap])

lemma lt_of_mem_bits {c : Call} (h : bit ∈ bits k c) : bit / 8 < filterBytes k := by
  have hpos : 0 < filterBytes k := Nat.two_pow_pos _
  simp only [bits, CFastFilter.bitsOf, List.mem_toFinset, List.mem_flatMap, List.mem_cons,
    List.not_mem_nil, or_false] at h
  obtain ⟨i, -, rfl | rfl⟩ := h
  · have hle := @Nat.and_le_right (ByteCodec.ofLeBytes (wordBytes c.hash i)) (8 * filterBytes k - 1)
    rw [CFastFilter.idx]
    omega
  · have hle := @Nat.and_le_right (ByteCodec.ofLeBytes (wordBytes c.hash i).reverse)
      (8 * filterBytes k - 1)
    rw [CFastFilter.idx2]
    omega

lemma vData_step (f : CRollingFastFilter k eraseAmt) (c : Call) :
    (f.step c).base.vData = (f.base.vData.filter fun bit => bit / 8 ∉ f.erased c) ∪ bits k c := by
  cases c with
  | insert hash => exact CFastFilter.vData_insert _ hash
  | checkAndSet hash =>
    rw [erased, filter_true_of_mem (by simp)]
    exact CFastFilter.vData_checkAndSet f.base hash

/-- What is set after a run was set by one of its calls, or before it and never cleared. -/
lemma mem_run (h : bit ∈ (f.run calls).base.vData) :
    (bit ∈ f.base.vData ∧ bit / 8 ∉ f.erasedIn calls) ∨ ∃ c ∈ calls, bit ∈ bits k c := by
  induction calls generalizing f with
  | nil => exact .inl ⟨h, by simp [erasedIn]⟩
  | cons c calls ih =>
    rcases ih h with ⟨hstep, hkept⟩ | ⟨c', hc', hbit⟩
    · rw [vData_step, mem_union, mem_filter] at hstep
      rcases hstep with ⟨hold, hroll⟩ | hnew
      · exact .inl ⟨hold, by simp [erasedIn, hroll, hkept]⟩
      · exact .inr ⟨c, List.mem_cons_self, hnew⟩
    · exact .inr ⟨c', List.mem_cons_of_mem c hc', hbit⟩

lemma and_filterBytes (n : ℕ) : n &&& (filterBytes k - 1) = n % filterBytes k :=
  Nat.and_two_pow_sub_one_eq_mod n k

lemma nextErase_eq : f.nextErase = (f.erase + eraseAmt) % filterBytes k := by
  rw [nextErase, and_filterBytes]
  exact Nat.mod_mod_of_dvd _ (pow_dvd_pow 2 (by omega))

lemma mem_locs {n loc j : ℕ} (hj : j < n) :
    (loc + j) % filterBytes k ∈ locs k n (loc % filterBytes k) := by
  induction n generalizing loc j with
  | zero => omega
  | succ n ih =>
    rw [locs, and_filterBytes, Nat.mod_add_mod]
    cases j with
    | zero => exact List.mem_cons_self
    | succ j =>
      have h := @ih (loc + 1) j (by omega)
      rw [show loc + 1 + j = loc + (j + 1) by omega] at h
      exact List.mem_cons_of_mem _ h

/-- The bytes that a run of inserts clears follow one another round the table. -/
lemma mem_erasedIn {t : ℕ} (hrolls : ∀ c ∈ calls, c.rolls = true)
    (ht : t < calls.length * eraseAmt) :
    (f.erase + eraseAmt + t) % filterBytes k ∈ f.erasedIn calls := by
  induction calls generalizing f t with
  | nil => simp at ht
  | cons c calls ih =>
    cases c with
    | checkAndSet hash => simp [Call.rolls] at hrolls
    | insert hash =>
      by_cases hfirst : t < eraseAmt
      · refine List.mem_append_left _ ?_
        rw [erased, and_filterBytes, nextErase_eq, Nat.mod_mod]
        exact mem_locs hfirst
      have hrest : t - eraseAmt < calls.length * eraseAmt := by
        rw [List.length_cons, Nat.succ_mul] at ht
        exact Nat.sub_lt_left_of_lt_add (by omega) (by rw [Nat.add_comm]; exact ht)
      have h := ih (f := f.step (.insert hash)) (fun c hc => hrolls c (List.mem_cons_of_mem _ hc))
        hrest
      refine List.mem_append_right _ ?_
      have hplace : (f.step (.insert hash)).erase + eraseAmt + (t - eraseAmt) =
          f.nextErase + t := by
        show f.nextErase + eraseAmt + (t - eraseAmt) = _
        omega
      rwa [hplace, nextErase_eq, Nat.mod_add_mod] at h

/-- A full turn of the cursor clears every byte. -/
lemma mem_erasedIn_of_turn {byte : ℕ} (hamt : 0 < eraseAmt) (hrolls : ∀ c ∈ calls, c.rolls = true)
    (hturn : filterBytes k ⌈/⌉ eraseAmt ≤ calls.length)
    (hbyte : byte < filterBytes k) : byte ∈ f.erasedIn calls := by
  have hcover : filterBytes k ≤ eraseAmt * calls.length := (ceilDiv_le_iff_le_mul hamt).mp hturn
  set start := (f.erase + eraseAmt) % filterBytes k with hstart
  have hlt : start < filterBytes k := Nat.mod_lt _ (Nat.two_pow_pos _)
  have h := mem_erasedIn (f := f) (t := (byte + filterBytes k - start) % filterBytes k) hrolls
    ((Nat.mod_lt _ (Nat.two_pow_pos _)).trans_le (by rwa [Nat.mul_comm] at hcover))
  rw [← Nat.mod_add_mod, ← hstart, Nat.add_mod_mod,
    show start + (byte + filterBytes k - start) = byte + filterBytes k by omega,
    Nat.add_mod_right, Nat.mod_eq_of_lt hbyte] at h
  exact h

/-- The filter rolls in every run of inserts on a filter that clears something: a window of
as many calls as it takes to go round the table clears each byte, what is set comes from such
a window, and the element just added is found. -/
theorem rolls_of_inserts {rand32 : UInt32} {calls : List Call} (hamt : 0 < eraseAmt)
    (hrolls : ∀ c ∈ calls, c.rolls = true) :
    (∀ before window after, calls = before ++ window ++ after →
      window.length = filterBytes k ⌈/⌉ eraseAmt →
      ∀ byte < filterBytes k, byte ∈ ((init k rand32 eraseAmt).run before).erasedIn window) ∧
    ((init k rand32 eraseAmt).run calls).base.vData.card ≤
      16 * (filterBytes k ⌈/⌉ eraseAmt) ∧
    ∀ before c after, calls = before ++ c :: after →
      ((init k rand32 eraseAmt).run (before ++ [c])).base.contains c.hash = true := by
  refine ⟨?_, ?_, ?_⟩
  · rintro before window after rfl hlength byte hbyte
    exact mem_erasedIn_of_turn hamt (fun c hc => hrolls c (by simp [hc])) hlength.ge hbyte
  · set window := calls.drop (calls.length - filterBytes k ⌈/⌉ eraseAmt) with hwindow
    have hsub : ((init k rand32 eraseAmt).run calls).base.vData ⊆
        window.toFinset.biUnion (bits k) := by
      intro bit hbit
      set rest := calls.length - filterBytes k ⌈/⌉ eraseAmt with hrest
      rw [← List.take_append_drop rest calls, run, List.foldl_append] at hbit
      rcases mem_run hbit with ⟨hold, hkept⟩ | ⟨c, hc, hset⟩
      · rcases mem_run hold with ⟨hstart, -⟩ | ⟨c, hc, hset⟩
        · cases hstart
        have hcalls := List.length_pos_of_mem hc
        rw [List.length_take] at hcalls
        refine absurd (mem_erasedIn_of_turn hamt (fun c hc => hrolls c (List.mem_of_mem_drop hc)) ?_
          (lt_of_mem_bits hset)) hkept
        rw [List.length_drop]
        omega
      · exact mem_biUnion.mpr ⟨c, List.mem_toFinset.mpr hc, hset⟩
    have hwide : window.length ≤ filterBytes k ⌈/⌉ eraseAmt := by
      rw [hwindow, List.length_drop]
      omega
    calc _ ≤ (window.toFinset.biUnion (bits k)).card := card_le_card hsub
      _ ≤ window.toFinset.card * 16 := card_biUnion_le_card_mul _ _ 16 fun c _ => card_bits c
      _ ≤ _ := by have := window.toFinset_card_le; omega
  · rintro before c after -
    rw [run, List.foldl_append, List.foldl_cons, List.foldl_nil, CFastFilter.contains_iff,
      vData_step]
    exact subset_union_right

/-- The hash whose words stand for the bits `b`, `b + 1`, … of a table of 16 bytes. -/
def spread (b : UInt8) : Uint256 :=
  ⟨(List.range 8).flatMap fun i => [b + UInt8.ofNat i, 0, 0, b + UInt8.ofNat (i + 8)], by simp⟩

theorem rolls_of_two_inserts :
    ((init 4 0 16).run [.insert (spread 0), .insert (spread 16)]).base.vData.card ≤ 16 := by
  refine (rolls_of_inserts ?_ ?_).2.1
  · decide
  · decide

/-- Calls of `checkAndSet` clear nothing, and the table fills up. -/
theorem checkAndSet_does_not_roll :
    (init 4 0 16).erasedIn [.checkAndSet (spread 0), .checkAndSet (spread 16)] = [] ∧
    16 * (filterBytes 4 ⌈/⌉ 16) <
      ((init 4 0 16).run [.checkAndSet (spread 0), .checkAndSet (spread 16)]).base.vData.card := by
  decide +kernel

end CRollingFastFilter
end PyrrhaNode.RollingFilter
