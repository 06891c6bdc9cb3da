import Mathlib
import PyrrhaNode.RankCodec

/-!
# Reconciling a Graphene set and restoring the sender's order

The receiver recovers the set of cheap hashes of a block from a filter and an invertible
Bloom lookup table, sorts it, and moves the `i`-th smallest hash to the position that the
`i`-th number of the sender's rank vector gives.
-/
namespace PyrrhaNode.GrapheneReconcile

open List Serialize
open ListWrites
open Loop
open RankCodec

/-- A set of cheap hashes, which are 64-bit numbers, in the order of its iteration. -/
structure CheapHashes where
  items : List ℕ
  sorted : items.Pairwise (· < ·)

namespace CheapHashes

def insertItem (item : ℕ) : List ℕ → List ℕ
  | [] => [item]
  | a :: items =>
    if item < a then item :: a :: items
    else if item = a then a :: items
    else a :: insertItem item items

variable {items : List ℕ}

theorem mem_insertItem {item b : ℕ} (h : b ∈ insertItem item items) :
    b = item ∨ b ∈ items := by
  induction items with
  | nil => exact .inl (mem_singleton.mp h)
  | cons a items ih =>
    rw [insertItem] at h
    split_ifs at h
    · exact mem_cons.mp h
    · exact .inr h
    · rcases mem_cons.mp h with rfl | h
      · exact .inr mem_cons_self
      · exact (ih h).imp_right (mem_cons_of_mem a)

theorem pairwise_insertItem (item : ℕ) (h : items.Pairwise (· < ·)) :
    (insertItem item items).Pairwise (· < ·) := by
  induction items with
  | nil => simp [insertItem]
  | cons a items ih =>
    obtain ⟨ha, hitems⟩ := pairwise_cons.mp h
    rw [insertItem]
    split_ifs with hlt heq
    · refine pairwise_cons.mpr ⟨fun b hb => ?_, h⟩
      rcases mem_cons.mp hb with rfl | hb
      · exact hlt
      · exact hlt.trans (ha b hb)
    · exact h
    · refine pairwise_cons.mpr ⟨fun b hb => ?_, ih hitems⟩
      rcases mem_insertItem hb with rfl | hb
      · omega
      · exact ha b hb

def empty : CheapHashes := ⟨[], List.Pairwise.nil⟩

def insert (s : CheapHashes) (item : ℕ) : CheapHashes :=
  ⟨insertItem item s.items, pairwise_insertItem item s.sorted⟩

def erase (s : CheapHashes) (item : ℕ) : CheapHashes :=
  ⟨s.items.erase item, s.sorted.sublist erase_sublist⟩

theorem nodup (s : CheapHashes) : s.items.Nodup := s.sorted.imp ne_of_lt

end CheapHashes

/-- What a receiver knows besides its own hashes: the short ids, the filter in use, and
the entries of the sender's table after the receiver's entries are subtracted, as
`(senderHas, receiverHas)`, if the difference decodes. -/
structure SenderData where
  getShortID : Uint256 → ℕ
  contains : Uint256 → Bool
  listEntries : CheapHashes → Option (List (ℕ × Bytes) × List (ℕ × Bytes))

/-- `uint8_t(ceil(log2(n)))`. -/
def rankBits (n : ℕ) : ℕ := Nat.clog 2 n

/-- `Reconcile` on the set that passed the sender's filter. -/
def reconcileSet (sender : SenderData) (positives : CheapHashes) (encodedRank : Bytes)
    (ordered : Bool) : Outcome (List ℕ) :=
  match sender.listEntries positives with
  | none => throw (.runtimeError "Graphene set IBLT did not decode")
  | some (senderHas, receiverHas) => do
    let receiverSet := receiverHas.foldl (fun s kv => s.erase kv.1) positives
    let receiverSet := senderHas.foldl (fun s kv => s.insert kv.1) receiverSet
    let receiverSetItems := receiverSet.items
    if !ordered then return receiverSetItems
    let nBits := rankBits receiverSetItems.length
    let itemRank ← bounded (decodeRank encodedRank receiverSetItems.length nBits)
    bounded (writeAll (List.replicate itemRank.length 0) (itemRank.zip receiverSetItems))

/-- One iteration of the loop over the receiver's hashes: the cheap hashes seen so far and
those that pass the filter. -/
def addReceiverItem (sender : SenderData) (state : List ℕ × CheapHashes) (itemHash : Uint256) :
    Outcome (List ℕ × CheapHashes) :=
  let cheapHash := sender.getShortID itemHash
  if cheapHash ∈ state.1 then
    throw (.runtimeError "Cheap hash collision while decoding graphene set")
  else if sender.contains itemHash then
    return (cheapHash :: state.1, state.2.insert cheapHash)
  else
    return (cheapHash :: state.1, state.2)

/-- `Reconcile` on the receiver's transaction hashes. -/
def reconcile (sender : SenderData) (receiverItemHashes : List Uint256) (encodedRank : Bytes)
    (ordered : Bool) : Outcome (List ℕ) := do
  let state ← receiverItemHashes.foldlM (addReceiverItem sender) ([], CheapHashes.empty)
  reconcileSet sender state.2 encodedRank ordered

/-- `Reconcile` on a map from cheap hashes to transaction hashes. -/
def reconcileMap (sender : SenderData) (mapCheapHashes : List (ℕ × Uint256)) (encodedRank : Bytes)
    (ordered : Bool) : Outcome (List ℕ) :=
  let receiverSet := mapCheapHashes.foldl
    (fun s entry => if sender.contains entry.2 then s.insert entry.1 else s) CheapHashes.empty
  reconcileSet sender receiverSet encodedRank ordered

/-- The positions of the items in the order of their values; the items are distinct. -/
def argSort (items : List ℕ) : List ℕ :=
  (List.range items.length).insertionSort fun i j => items.getD i 0 ≤ items.getD j 0

/-- The rank vector a sender makes for its cheap hashes. -/
def senderRank (uninit : ℕ → Bool) (cheapHashes : List ℕ) : Outcome Bytes :=
  encodeRank uninit (argSort cheapHashes) (rankBits cheapHashes.length)

/-- The call threw, or returned the reconciled items in some order. -/
def Trustworthy (items : List ℕ) (outcome : Outcome (List ℕ)) : Prop :=
  (∃ what, outcome = .error (.runtimeError what)) ∨
    ∃ orderedItems, outcome = .ok orderedItems ∧ orderedItems.Perm items

/-- A rank vector that `Reconcile` can use for these items: it has all the words, the
words hold all the bits, each rank is a position, and no two nonzero items have the same
rank. A zero item is the first to be placed and looks like an empty place, so its rank may
repeat. -/
structure RankUsable (encodedRank : Bytes) (items : List ℕ) : Prop where
  words : nEncodedWords (rankBits items.length) items.length ≤ encodedRank.length
  bits : BitsFit (rankBits items.length) items.length
  inRange : ∀ i < items.length, rankAt encodedRank (rankBits items.length) i < items.length
  distinct : ∀ i j, i < j → j < items.length → items.getD i 0 ≠ 0 →
    rankAt encodedRank (rankBits items.length) i ≠ rankAt encodedRank (rankBits items.length) j

variable {sender : SenderData} {positives : CheapHashes} {encodedRank : Bytes} {items : List ℕ}
  {hashes : List Uint256}

theorem sorted_of_reconcileSet (h : reconcileSet sender positives encodedRank false = .ok items) :
    items.Pairwise (· < ·) := by
  rw [reconcileSet] at h
  split at h
  · cases h
  · obtain rfl := Except.ok.inj h
    exact CheapHashes.sorted _

theorem reconcileSet_ordered (h : reconcileSet sender positives encodedRank false = .ok items) :
    reconcileSet sender positives encodedRank true = (do
      let itemRank ← bounded (decodeRank encodedRank items.length (rankBits items.length))
      bounded (writeAll (List.replicate itemRank.length 0) (itemRank.zip items))) := by
  rw [reconcileSet] at h ⊢
  split at h
  · cases h
  · obtain rfl := Except.ok.inj h
    rfl

/-- Placing increasing items into zeroes keeps all of them exactly if no item other than
zero is overwritten. -/
theorem place_perm_iff {writes : List (ℕ × ℕ)} {out : List ℕ}
    (hsorted : (writes.map Prod.snd).Pairwise (· < ·))
    (h : writeAll (List.replicate writes.length 0) writes = some out) :
    out.Perm (writes.map Prod.snd) ↔ writes.Pairwise fun w w' => w.2 ≠ 0 → w.1 ≠ w'.1 := by
  constructor
  · intro hperm
    refine pairwise_iff_getElem.mpr fun i j hi hj hij hne heq => ?_
    have hsplit : writes = writes.take i ++ writes[i] :: writes.drop (i + 1) := by simp
    have hlater : writes[i].1 ∈ positions (writes.drop (i + 1)) := by
      rw [heq]
      refine mem_map_of_mem (mem_iff_getElem.mpr ⟨j - (i + 1), by simp; omega, ?_⟩)
      simp only [getElem_drop]
      congr 1
      omega
    have hdropped : writeAll (List.replicate writes.length 0)
        (writes.take i ++ writes.drop (i + 1)) = some out :=
      writeAll_drop_overwritten (by rwa [← hsplit]) hlater
    have hmem : writes[i].2 ∈ out :=
      hperm.mem_iff.mpr (mem_map_of_mem (getElem_mem hi))
    rcases mem_of_writeAll hdropped hmem with hzero | hrest
    · exact hne (eq_of_mem_replicate hzero)
    · have hnodup : (writes.map Prod.snd).Nodup := hsorted.imp ne_of_lt
      rw [hsplit, map_append, map_cons, nodup_middle] at hnodup
      exact (nodup_cons.mp hnodup).1 (by rwa [← map_append])
  · intro hdistinct
    cases writes with
    | nil => cases h; rfl
    | cons w writes =>
      obtain ⟨hfirst, hrest⟩ := pairwise_cons.mp hdistinct
      obtain ⟨hless, -⟩ := pairwise_cons.mp hsorted
      have hnodup : (positions writes).Nodup := by
        refine pairwise_map.mpr (hrest.imp_of_mem fun {a b} ha _ hab => hab ?_)
        have : w.2 < a.2 := hless a.2 (mem_map_of_mem ha)
        omega
      by_cases hzero : w.2 = 0
      · -- a zero leaves the array as it was
        obtain ⟨hin, hafter⟩ := writeAll_cons_eq_some.mp h
        have hsame : (List.replicate (w :: writes).length 0).set w.1 w.2 =
            List.replicate (w :: writes).length 0 := by
          rw [hzero, set_replicate_self]
        rw [hsame] at hafter
        have hperm := writeAll_replicate_perm hafter hnodup (by simp)
        simpa [hzero] using hperm
      · have hnew : w.1 ∉ positions writes := by
          intro hmem
          obtain ⟨w', hw', heq⟩ := mem_map.mp hmem
          exact hfirst w' hw' hzero heq.symm
        have hperm := writeAll_replicate_perm h (nodup_cons.mpr ⟨hnew, hnodup⟩) le_rfl
        simpa using hperm

section ArgSort

variable {order : List ℕ}

theorem argSort_perm (order : List ℕ) : (argSort order).Perm (List.range order.length) :=
  perm_insertionSort _ _

@[simp] theorem length_argSort (order : List ℕ) : (argSort order).length = order.length := by
  simpa using (argSort_perm order).length_eq

theorem lt_of_mem_argSort {i : ℕ} (h : i ∈ argSort order) : i < order.length :=
  mem_range.mp ((argSort_perm order).mem_iff.mp h)

theorem map_range_getD (order : List ℕ) :
    (List.range order.length).map (order.getD · 0) = order := by
  refine ext_getElem (by simp) fun i hi _ => ?_
  have : i < order.length := by simpa using hi
  simp [List.getElem?_eq_getElem this]

theorem map_argSort {items : List ℕ} (hsorted : items.Pairwise (· < ·))
    (hperm : order.Perm items) : (argSort order).map (order.getD · 0) = items := by
  have hle : ((argSort order).map (order.getD · 0)).Pairwise (· ≤ ·) := by
    exact pairwise_map.mpr (pairwise_insertionSort _ _)
  refine List.Perm.eq_of_pairwise (fun a b _ _ => le_antisymm) hle (hsorted.imp le_of_lt) ?_
  exact (((argSort_perm order).map _).trans (.of_eq (map_range_getD order))).trans hperm

/-- Placing the sorted items at the positions of `argSort` gives the list back. -/
theorem writeAll_argSort {items : List ℕ} (hsorted : items.Pairwise (· < ·))
    (hperm : order.Perm items) :
    writeAll (List.replicate (argSort order).length 0) ((argSort order).zip items) =
      some order := by
  have hitems := map_argSort hsorted hperm
  have hpositions : positions ((argSort order).zip items) = argSort order :=
    map_fst_zip (by simp [← hitems])
  obtain ⟨out, hout⟩ : ∃ out, writeAll (List.replicate (argSort order).length 0)
      ((argSort order).zip items) = some out := by
    refine exists_writeAll_iff.mpr fun i hi => ?_
    rw [hpositions] at hi
    simpa using lt_of_mem_argSort hi
  have hnodup : (positions ((argSort order).zip items)).Nodup := by
    rw [hpositions]
    exact (argSort_perm order).nodup_iff.mpr nodup_range
  have hlength : out.length = order.length := by simpa using length_writeAll hout
  rw [hout]
  congr 1
  refine ext_getElem hlength fun p hp hp' => ?_
  have hmem : (p, order[p]) ∈ (argSort order).zip items := by
    have hsorted : p ∈ argSort order :=
      (argSort_perm order).mem_iff.mpr (mem_range.mpr hp')
    have hvalue : order[p] = order.getD p 0 := by simp [List.getElem?_eq_getElem hp']
    have hzip : (argSort order).zip items = (argSort order).map fun i => (i, order.getD i 0) := by
      rw [← hitems]
      simpa using zip_map' (f := id)
    rw [hvalue, hzip]
    exact mem_map_of_mem hsorted
  have := getElem?_writeAll_of_mem hout hnodup hmem
  rwa [List.getElem?_eq_getElem hp, Option.some_inj] at this

end ArgSort

section Ranks

variable {encodedRank : Bytes} {items : List ℕ}

/-- The ranks that `DecodeRank` gives for these items. -/
def ranksOf (encodedRank : Bytes) (items : List ℕ) : List ℕ :=
  (List.range items.length).map (rankAt encodedRank (rankBits items.length))

@[simp] theorem length_ranksOf : (ranksOf encodedRank items).length = items.length := by
  simp [ranksOf]

theorem map_snd_zip_ranksOf :
    ((ranksOf encodedRank items).zip items).map Prod.snd = items :=
  map_snd_zip (by simp)

theorem exists_place_iff :
    (∃ out, writeAll (List.replicate items.length 0) ((ranksOf encodedRank items).zip items) =
      some out) ↔
      ∀ i < items.length, rankAt encodedRank (rankBits items.length) i < items.length := by
  rw [exists_writeAll_iff, positions, map_fst_zip (by simp)]
  simp [ranksOf]

/-- No item but zero is overwritten, in terms of the ranks. -/
theorem pairwise_zip_ranksOf_iff :
    ((ranksOf encodedRank items).zip items).Pairwise (fun w w' => w.2 ≠ 0 → w.1 ≠ w'.1) ↔
      ∀ i j, i < j → j < items.length → items.getD i 0 ≠ 0 →
        rankAt encodedRank (rankBits items.length) i ≠
          rankAt encodedRank (rankBits items.length) j := by
  rw [pairwise_iff_getElem]
  constructor
  · intro h i j hij hj hne
    have hi : i < items.length := hij.trans hj
    have := h i j (by simpa using hi) (by simpa using hj) hij
    simp only [getElem_zip, ranksOf, getElem_map, getElem_range] at this
    exact this (by simpa [List.getElem?_eq_getElem hi] using hne)
  · intro h i j hi hj hij hne
    have hj : j < items.length := by simpa using hj
    have hi : i < items.length := hij.trans hj
    simp only [getElem_zip, ranksOf, getElem_map, getElem_range] at hne ⊢
    exact h i j hij hj (by simpa [List.getElem?_eq_getElem hi] using hne)

/-- What the ordered call does with the reconciled items. -/
def restoreOrder (encodedRank : Bytes) (items : List ℕ) : Outcome (List ℕ) := do
  let itemRank ← bounded (decodeRank encodedRank items.length (rankBits items.length))
  bounded (writeAll (List.replicate itemRank.length 0) (itemRank.zip items))

theorem restoreOrder_eq_ok_iff {out : List ℕ} :
    restoreOrder encodedRank items = .ok out ↔
      nEncodedWords (rankBits items.length) items.length ≤ encodedRank.length ∧
      BitsFit (rankBits items.length) items.length ∧
      writeAll (List.replicate items.length 0) ((ranksOf encodedRank items).zip items) =
        some out := by
  rw [restoreOrder, bind_eq_ok]
  simp only [bounded_eq_ok, decodeRank_eq_some_iff]
  constructor
  · rintro ⟨ranks, ⟨hwords, hbits, rfl⟩, hplace⟩
    exact ⟨hwords, hbits, by simpa [ranksOf] using hplace⟩
  · rintro ⟨hwords, hbits, hplace⟩
    exact ⟨_, ⟨hwords, hbits, rfl⟩, by simpa [ranksOf] using hplace⟩

theorem restoreOrder_ne_runtimeError (what : String) :
    restoreOrder encodedRank items ≠ .error (.runtimeError what) := by
  intro h
  rw [restoreOrder] at h
  cases hdecode : decodeRank encodedRank items.length (rankBits items.length) with
  | none =>
    rw [hdecode] at h
    cases h
  | some ranks =>
    cases hplace : writeAll (List.replicate ranks.length 0) (ranks.zip items) with
    | none | some => simp [hdecode, bounded, hplace, Bind.bind, Except.bind] at h

/-- The order is restored to a permutation exactly if the rank vector is usable. -/
theorem restoreOrder_trustworthy_iff (hsorted : items.Pairwise (· < ·)) :
    Trustworthy items (restoreOrder encodedRank items) ↔ RankUsable encodedRank items := by
  have hlength : ((ranksOf encodedRank items).zip items).length = items.length := by simp
  have hperm : ∀ {out}, writeAll (List.replicate items.length 0)
      ((ranksOf encodedRank items).zip items) = some out → (out.Perm items ↔
        ∀ i j, i < j → j < items.length → items.getD i 0 ≠ 0 →
          rankAt encodedRank (rankBits items.length) i ≠
            rankAt encodedRank (rankBits items.length) j) := by
    intro out hout
    have hsnd : (((ranksOf encodedRank items).zip items).map Prod.snd).Pairwise (· < ·) := by
      rwa [map_snd_zip_ranksOf]
    have hiff := place_perm_iff hsnd (by rwa [hlength])
    rwa [map_snd_zip_ranksOf, pairwise_zip_ranksOf_iff] at hiff
  constructor
  · rintro (⟨what, hthrow⟩ | ⟨out, hok, hout⟩)
    · exact absurd hthrow (restoreOrder_ne_runtimeError what)
    · obtain ⟨hwords, hbits, hplace⟩ := restoreOrder_eq_ok_iff.mp hok
      exact ⟨hwords, hbits, exists_place_iff.mp ⟨out, hplace⟩, (hperm hplace).mp hout⟩
  · intro husable
    obtain ⟨out, hplace⟩ := exists_place_iff.mpr husable.inRange
    exact .inr ⟨out, restoreOrder_eq_ok_iff.mpr ⟨husable.words, husable.bits, hplace⟩,
      (hperm hplace).mpr husable.distinct⟩

end Ranks

section Sender

variable {uninit : ℕ → Bool} {order items : List ℕ} {encodedRank : Bytes}

theorem argSort_lt_pow : ∀ i ∈ argSort order, i < 2 ^ rankBits order.length :=
  fun _ hi => (lt_of_mem_argSort hi).trans_le (Nat.le_pow_clog (by decide) _)

theorem exists_senderRank_iff :
    (∃ enc, senderRank uninit order = .ok enc) ↔
      BitsFit (rankBits order.length) order.length := by
  have hencode : (∃ enc, encodeRank uninit (argSort order) (rankBits order.length) = .ok enc) ↔
      BitsFit (rankBits order.length) (argSort order).length :=
    exists_encodeRank_iff argSort_lt_pow
  rwa [length_argSort] at hencode

end Sender

/-- Where reconciliation succeeds, the ordered call throws or returns a permutation of the
reconciled items exactly if the received rank vector is usable for them. A sender with the
same items makes a rank vector exactly if the bits fit into the words, and that vector
restores the sender's order. -/
theorem reconcile_trustworthy_iff (sender : SenderData) (hashes : List Uint256)
    (encodedRank : Bytes) (items : List ℕ)
    (hreconciled : reconcile sender hashes encodedRank false = .ok items) :
    (Trustworthy items (reconcile sender hashes encodedRank true) ↔
      RankUsable encodedRank items) ∧
    ∀ (uninit : ℕ → Bool) (order : List ℕ), order.Perm items →
      ((∃ enc, senderRank uninit order = .ok enc) ↔
        BitsFit (rankBits items.length) items.length) ∧
      (senderRank uninit order = .ok encodedRank →
        reconcile sender hashes encodedRank true = .ok order) := by
  obtain ⟨state, hstate, hitems⟩ := bind_eq_ok.mp hreconciled
  have hsorted := sorted_of_reconcileSet hitems
  have hordered : reconcile sender hashes encodedRank true = restoreOrder encodedRank items := by
    rw [reconcile, hstate]
    exact reconcileSet_ordered hitems
  rw [hordered]
  refine ⟨restoreOrder_trustworthy_iff hsorted, fun uninit order hperm => ⟨?_, fun h => ?_⟩⟩
  · rw [exists_senderRank_iff, hperm.length_eq]
  · have hdecode := decodeRank_of_encodeRank argSort_lt_pow h
    rw [length_argSort, hperm.length_eq] at hdecode
    rw [restoreOrder, hdecode]
    exact bounded_eq_ok.mpr (writeAll_argSort hsorted hperm)

theorem reconcileMap_trustworthy_iff {mapCheapHashes : List (ℕ × Uint256)}
    (h : reconcileMap sender mapCheapHashes encodedRank false = .ok items) :
    Trustworthy items (reconcileMap sender mapCheapHashes encodedRank true) ↔
      RankUsable encodedRank items := by
  rw [reconcileMap, reconcileSet_ordered h]
  exact restoreOrder_trustworthy_iff (sorted_of_reconcileSet h)

/-- The short id is the first byte, every item passes the filter, and the tables agree. -/
def firstByteSender : SenderData where
  getShortID h := (h.data.headD 0).toNat
  contains _ := true
  listEntries _ := some ([], [])

def threeHashes : List Uint256 := [9, 5, 7].map Uint256.ofByte

theorem reconcile_trustworthy_iff_threeItems :
    reconcile firstByteSender threeHashes [18] false = .ok [5, 7, 9] ∧
      senderRank (fun _ => false) [7, 9, 5] = .ok [18] ∧
      reconcile firstByteSender threeHashes [18] true = .ok [7, 9, 5] :=
  have hreconciled : reconcile firstByteSender threeHashes [18] false = .ok [5, 7, 9] := by decide
  have hsender : senderRank (fun _ => false) [7, 9, 5] = .ok [18] := by decide
  ⟨hreconciled, hsender, ((reconcile_trustworthy_iff _ _ _ _ hreconciled).2 _ [7, 9, 5]
    (by decide)).2 hsender⟩

/-- The same items with rank vectors from the network: equal ranks lose two items and
return zeroes for them, a rank of three is written outside the three places, and an empty
vector is read outside its end. -/
theorem reconcile_trusts_encodedRank :
    reconcile firstByteSender threeHashes [0] true = .ok [9, 0, 0] ∧
      reconcile firstByteSender threeHashes [3] true = .error .outOfBounds ∧
      reconcile firstByteSender threeHashes [] true = .error .outOfBounds ∧
      ∀ encodedRank ∈ [[0], [3], []], ¬ Trustworthy [5, 7, 9]
        (reconcile firstByteSender threeHashes encodedRank true) := by
  have hzero : reconcile firstByteSender threeHashes [0] true = .ok [9, 0, 0] := by decide
  have houtside : reconcile firstByteSender threeHashes [3] true = .error .outOfBounds := by decide
  have hempty : reconcile firstByteSender threeHashes [] true = .error .outOfBounds := by decide
  refine ⟨hzero, houtside, hempty, ?_⟩
  simp only [mem_cons, not_mem_nil, or_false, forall_eq_or_imp, forall_eq]
  refine ⟨?_, ?_, ?_⟩
  · rintro (⟨what, h⟩ | ⟨out, h, hperm⟩)
    · cases h
    · obtain rfl := Except.ok.inj h
      exact absurd hperm (by decide)
  all_goals rintro (⟨what, h⟩ | ⟨out, h, -⟩) <;> cases h

end PyrrhaNode.GrapheneReconcile
