import PyrrhaNode.BlockSizeMedian

/-!
# Windows of a chain

The median computation is called with a block and the size of that block, for blocks of any chains
in any order.  The window then always holds the sizes of the last blocks of the chain, but it is
not always sorted: the flag that asks for the first sort is gone once a window was full, so a window
that is rebuilt on a short chain and then filled up stays in the order in which sizes came.
-/
namespace PyrrhaNode.MedianCalls

open List Serialize SortedVector AdaptiveBlockSize BlockSizeHistory BlockSizeMedian

/-- The window with the size of the block, before the oldest size is dropped. -/
def filledWindow (nWindow : ℕ) (w : SizeWindow) (pindexNew : CBlockIndex) : SizeWindow :=
  let w' :=
    if pindexNew.pprev.map CBlockIndex.hash ≠ w.pindexTip then
      rebuildWindow pindexNew pindexNew.getBlockSize nWindow w
    else extendWindow pindexNew.getBlockSize nWindow w
  { w' with pindexTip := some pindexNew.hash }

/-- The cached window after calls for some blocks. -/
def afterCalls (nWindow : ℕ) (calls : List CBlockIndex) : SizeWindow :=
  calls.foldl (fun w idx => (calculateMedianSize idx idx.getBlockSize nWindow w).1) .empty

/-- The sizes of the blocks of a chain, the oldest first. -/
def chainSizes (idx : CBlockIndex) : List ℕ := idx.chain.map CBlockHeader.size

/-- The sizes of the last `nWindow + 1` blocks, or of all of them while there are fewer. -/
def windowSizes (nWindow : ℕ) (idx : CBlockIndex) : List ℕ :=
  lastSizes (nWindow + 1) (chainSizes idx)

/-- Entries of the block index have one hash each. -/
def DistinctHashes (calls : List CBlockIndex) : Prop :=
  ∀ a ∈ calls, ∀ b ∈ calls, b.pprev.map CBlockIndex.hash = some a.hash → b.pprev = some a

/-- What a call should find and return. -/
structure Correct (nWindow : ℕ) (w : SizeWindow) (idx : CBlockIndex) : Prop where
  returns : ∃ m, (calculateMedianSize idx idx.getBlockSize nWindow w).2 = some m ∧
    IsMedian m (windowSizes nWindow idx)
  sorted : (filledWindow nWindow w idx).vSizes.SortedLE
  holds : (filledWindow nWindow w idx).vSizes.Perm (windowSizes nWindow idx)

/-- The window holds the given sizes, in the order of the chain and in some other order. -/
structure Follows (sizes : List ℕ) (w : SizeWindow) : Prop where
  unsorted : w.vSizesUnsorted = sizes
  perm : w.vSizes.Perm sizes

variable {nWindow : ℕ} {w : SizeWindow} {idx : CBlockIndex} {calls : List CBlockIndex} {v : List ℕ}

/-- The sizes of the blocks below an entry. -/
def sizesBelow (idx : CBlockIndex) : List ℕ := (idx.pprev.map chainSizes).getD []

lemma chainSizes_eq (idx : CBlockIndex) :
    chainSizes idx = sizesBelow idx ++ [idx.getBlockSize] := by
  cases idx with
  | root h n => rfl
  | child h n p =>
    simp [chainSizes, sizesBelow, CBlockIndex.chain, CBlockIndex.pprev, CBlockIndex.getBlockSize,
      CBlockIndex.header]

lemma windowSizes_eq (nWindow : ℕ) (idx : CBlockIndex) :
    windowSizes nWindow idx = lastSizes nWindow (sizesBelow idx) ++ [idx.getBlockSize] := by
  rw [windowSizes, chainSizes_eq, lastSizes_append]

lemma ancestorSizes_eq_lastSizes (nWindow : ℕ) (idx : CBlockIndex) :
    ancestorSizes nWindow (some idx) = lastSizes nWindow (idx.chain.map CBlockHeader.size) := by
  induction idx generalizing nWindow with
  | root h n =>
    cases nWindow with
    | zero => simp [ancestorSizes, lastSizes]
    | succ nWindow =>
      have hnil : ancestorSizes nWindow none = [] := by cases nWindow <;> rfl
      simp [ancestorSizes, CBlockIndex.pprev, hnil, lastSizes, CBlockIndex.chain,
        CBlockIndex.getBlockSize, CBlockIndex.header]
  | child h n p ih =>
    cases nWindow with
    | zero => simp [ancestorSizes, lastSizes]
    | succ nWindow =>
      have hsizes : (CBlockIndex.child h n p).chain.map CBlockHeader.size =
          p.chain.map CBlockHeader.size ++ [h.size] := by
        simp [CBlockIndex.chain]
      rw [hsizes, lastSizes_append, ← ih]
      rfl

lemma ancestorSizes_pprev (nWindow : ℕ) (idx : CBlockIndex) :
    ancestorSizes nWindow idx.pprev = lastSizes nWindow (sizesBelow idx) := by
  rw [sizesBelow]
  cases idx.pprev with
  | none => cases nWindow <;> simp [ancestorSizes, lastSizes]
  | some p => exact ancestorSizes_eq_lastSizes nWindow p

lemma follows_rebuild (htip : idx.pprev.map CBlockIndex.hash ≠ w.pindexTip) :
    Follows (windowSizes nWindow idx) (filledWindow nWindow w idx) ∧
      (filledWindow nWindow w idx).vSizes.SortedLE := by
  rw [filledWindow, if_pos htip]
  simp only [rebuildWindow, ancestorSizes_pprev, ← windowSizes_eq]
  exact ⟨⟨rfl, perm_insertionSort _ _⟩, sortedLE_insertionSort⟩

/-- The sizes that a new one is inserted into: they are sorted where the flag asks for it. -/
def sortedOnce (w : SizeWindow) : List ℕ := if w.fRunOnce then sortSizes w.vSizes else w.vSizes

lemma sortedLE_sortedOnce_iff :
    (sortedOnce w).SortedLE ↔ w.fRunOnce = true ∨ w.vSizes.SortedLE := by
  unfold sortedOnce
  by_cases hrun : w.fRunOnce = true
  · rw [if_pos hrun]
    exact iff_of_true sortedLE_insertionSort (Or.inl hrun)
  · rw [if_neg hrun, or_iff_right hrun]

lemma follows_extend (htip : idx.pprev.map CBlockIndex.hash = w.pindexTip)
    (h : Follows (lastSizes nWindow (sizesBelow idx)) w) :
    Follows (windowSizes nWindow idx) (filledWindow nWindow w idx) := by
  rw [windowSizes_eq, filledWindow, if_neg (not_not.mpr htip)]
  obtain ⟨hunsorted, hperm⟩ := extendWindow_holds nWindow idx.getBlockSize h.unsorted h.perm
  exact ⟨hunsorted, hperm⟩

lemma afterCalls_append (nWindow : ℕ) (calls : List CBlockIndex) (idx : CBlockIndex) :
    afterCalls nWindow (calls ++ [idx]) =
      (takeMedian nWindow (filledWindow nWindow (afterCalls nWindow calls) idx)).1 := by
  rw [afterCalls, foldl_append]
  rfl

lemma pindexTip_afterCalls (nWindow : ℕ) (calls : List CBlockIndex) :
    (afterCalls nWindow calls).pindexTip = calls.getLast?.map CBlockIndex.hash := by
  rcases eq_nil_or_concat' calls with rfl | ⟨before, idx, rfl⟩
  · rfl
  · rw [afterCalls_append, takeMedian_pindexTip, List.getLast?_concat]
    rfl

/-- A window that is extended follows the chain below the new block. -/
def FollowsBelow (nWindow : ℕ) (w : SizeWindow) (idx : CBlockIndex) : Prop :=
  idx.pprev.map CBlockIndex.hash = w.pindexTip → Follows (lastSizes nWindow (sizesBelow idx)) w

lemma follows_filledWindow (h : FollowsBelow nWindow w idx) :
    Follows (windowSizes nWindow idx) (filledWindow nWindow w idx) := by
  by_cases htip : idx.pprev.map CBlockIndex.hash = w.pindexTip
  · exact follows_extend htip (h htip)
  · exact (follows_rebuild htip).1

lemma followsBelow_empty (nWindow : ℕ) (idx : CBlockIndex) : FollowsBelow nWindow .empty idx := by
  intro htip
  have hnone : idx.pprev = none := Option.map_eq_none_iff.mp htip
  have hnil : lastSizes nWindow (sizesBelow idx) = [] := by
    rw [sizesBelow, hnone]
    simp [lastSizes]
  rw [hnil]
  exact ⟨rfl, List.Perm.refl _⟩

theorem followsBelow_afterCalls (hcalls : DistinctHashes (calls ++ [idx])) :
    FollowsBelow nWindow (afterCalls nWindow calls) idx := by
  induction calls using List.reverseRecOn generalizing idx with
  | nil => exact followsBelow_empty nWindow idx
  | append_singleton calls t ih =>
    intro htip
    rw [pindexTip_afterCalls, List.getLast?_concat] at htip
    have hparent : idx.pprev = some t := hcalls t (by simp) idx (by simp) htip
    have hbefore : DistinctHashes (calls ++ [t]) := fun a ha b hb =>
      hcalls a (mem_append_left _ ha) b (mem_append_left _ hb)
    rw [sizesBelow, hparent, afterCalls_append]
    have hfilled := follows_filledWindow (ih hbefore)
    obtain ⟨hunsorted, hperm, -⟩ := takeMedian_holds hfilled.unsorted hfilled.perm
    exact ⟨hunsorted, hperm⟩

/-- A call that finds the cached sizes in order, or makes them so. -/
def InOrder (w : SizeWindow) (idx : CBlockIndex) : Prop :=
  idx.pprev.map CBlockIndex.hash ≠ w.pindexTip ∨ w.fRunOnce = true ∨ w.vSizes.SortedLE

/-- In a window that is full, the sizes are sorted exactly if they were in order. -/
lemma sortedLE_filledWindow_iff (h : FollowsBelow nWindow w idx)
    (hlong : nWindow < idx.chain.length) :
    (filledWindow nWindow w idx).vSizes.SortedLE ↔ InOrder w idx := by
  by_cases htip : idx.pprev.map CBlockIndex.hash = w.pindexTip
  · have hfull : ¬w.vSizes.length < nWindow := by
      have hchain : idx.chain.length = (sizesBelow idx).length + 1 := by
        rw [← length_map, ← chainSizes, chainSizes_eq,
          length_append, length_singleton]
      rw [(h htip).perm.length_eq, length_lastSizes]
      omega
    rw [filledWindow, if_neg (not_not.mpr htip), extendWindow, if_neg hfull, InOrder,
      ← sortedLE_sortedOnce_iff, or_iff_right (not_not.mpr htip)]
    exact ⟨sortedLE_of_insertSorted, insertSorted_sortedLE _ _⟩
  · exact iff_of_true (follows_rebuild htip).2 (Or.inl htip)

/-- What a call returns. -/
lemma median_filledWindow (h : FollowsBelow nWindow w idx) :
    (calculateMedianSize idx idx.getBlockSize nWindow w).2 =
      if idx.chain.length ≤ nWindow then none
      else some ((calculateMedian (filledWindow nWindow w idx).vSizes).getD 0) := by
  have hfollows := follows_filledWindow h
  refine (takeMedian_holds hfollows.unsorted hfollows.perm).2.2.trans ?_
  rw [chainSizes, length_map]

lemma calculateMedian_even (h : v.length % 2 = 0) : (calculateMedian v).getD 0 = 0 := by
  rw [calculateMedian, if_pos h]
  rfl

lemma calculateMedian_odd (h : v.length % 2 = 1) :
    ∃ m, (calculateMedian v).getD 0 = m ∧ v[(v.length - 1) / 2]? = some m := by
  have hlt : (v.length - 1) / 2 < v.length := by omega
  rw [calculateMedian, if_neg (by omega), List.getElem?_eq_getElem hlt]
  exact ⟨_, rfl, rfl⟩

/-- For every window length and history of calls, a call returns the median of the last
`nWindow + 1` sizes of its chain, from a sorted window that holds them, iff the chain has so many
blocks, their number is odd (or zero, which is left in place of a median, is one), and the window
was rebuilt, is about to be sorted or was in order. -/
theorem medianCall_correct_iff (nWindow : ℕ) (calls : List CBlockIndex) (idx : CBlockIndex)
    (hcalls : DistinctHashes (calls ++ [idx])) :
    Correct nWindow (afterCalls nWindow calls) idx ↔
      nWindow < idx.chain.length ∧
      (nWindow % 2 = 0 ∨ IsMedian 0 (windowSizes nWindow idx)) ∧
      InOrder (afterCalls nWindow calls) idx := by
  have hbelow : FollowsBelow nWindow (afterCalls nWindow calls) idx :=
    followsBelow_afterCalls hcalls
  have hfollows := follows_filledWindow hbelow
  have hmedian := median_filledWindow hbelow
  by_cases hshort : idx.chain.length ≤ nWindow
  · refine iff_of_false (fun h => ?_) fun h => by omega
    obtain ⟨m, hm, -⟩ := h.returns
    rw [hmedian, if_pos hshort] at hm
    cases hm
  · rw [if_neg hshort] at hmedian
    have hsorted := sortedLE_filledWindow_iff hbelow (not_le.mp hshort)
    have hlength : (filledWindow nWindow (afterCalls nWindow calls) idx).vSizes.length =
        nWindow + 1 := by
      rw [hfollows.perm.length_eq, windowSizes, length_lastSizes, chainSizes, length_map]
      omega
    constructor
    · rintro ⟨⟨m, hm, hmed⟩, hsort, -⟩
      refine ⟨not_le.mp hshort, ?_, hsorted.mp hsort⟩
      rcases Nat.mod_two_eq_zero_or_one nWindow with heven | hodd
      · exact Or.inl heven
      · rw [hmedian, calculateMedian_even (by omega)] at hm
        cases hm
        exact Or.inr hmed
    · rintro ⟨-, hparity, horder⟩
      have hsort := hsorted.mpr horder
      refine ⟨⟨_, hmedian, ?_⟩, hsort, hfollows.perm⟩
      rcases Nat.mod_two_eq_zero_or_one nWindow with heven | hodd
      · obtain ⟨m, hm, hmiddle⟩ := calculateMedian_odd
          (v := (filledWindow nWindow (afterCalls nWindow calls) idx).vSizes) (by omega)
        rw [hm]
        exact (isMedian_middle hsort hmiddle).perm hfollows.perm
      · rw [calculateMedian_even (by omega)]
        exact hparity.resolve_left (by omega)

/-- As long as there are only calls for blocks with a full window below them, the sizes stay in
order. -/
theorem sortedLE_afterCalls (hcalls : DistinctHashes calls)
    (hlong : ∀ a ∈ calls, nWindow < a.chain.length) :
    (afterCalls nWindow calls).vSizes.SortedLE := by
  induction calls using List.reverseRecOn with
  | nil => exact List.Pairwise.nil.sortedLE
  | append_singleton calls idx ih =>
    have hbefore : (afterCalls nWindow calls).vSizes.SortedLE :=
      ih (fun a ha b hb => hcalls a (mem_append_left _ ha) b (mem_append_left _ hb))
        fun a ha => hlong a (mem_append_left _ ha)
    have hbelow : FollowsBelow nWindow (afterCalls nWindow calls) idx :=
      followsBelow_afterCalls hcalls
    have hfilled := (sortedLE_filledWindow_iff hbelow (hlong idx (by simp))).mpr
      (Or.inr (Or.inr hbefore))
    rw [afterCalls_append]
    exact takeMedian_sortedLE hfilled

deriving instance DecidableEq for CBlockHeader
deriving instance DecidableEq for CBlockIndex

instance (calls : List CBlockIndex) : Decidable (DistinctHashes calls) :=
  inferInstanceAs (Decidable (∀ a ∈ calls, ∀ b ∈ calls, _ → _))

def ownHeader (n size : ℕ) : CBlockHeader := ⟨hashOf n, Uint256.null, size, 0, 0⟩

/-- Blocks on top of an entry, with the given numbers and sizes. -/
def grow (idx : CBlockIndex) (blocks : List (ℕ × ℕ)) : CBlockIndex :=
  blocks.foldl (fun p b => .child (ownHeader b.1 b.2) 0 p) idx

def genesisEntry : CBlockIndex := .root (ownHeader 0 5) 0

/-- A chain of five blocks, which fills a window of four and is long enough for a median. -/
def firstChain : List CBlockIndex :=
  (List.range 5).map fun k => grow genesisEntry ([(1, 5), (2, 5), (3, 5), (4, 5)].take k)

/-- Another chain of five blocks from the same root, with sizes that fall. -/
def secondChain (k : ℕ) : CBlockIndex :=
  grow genesisEntry ([(11, 4), (12, 3), (13, 2), (14, 1)].take k)

theorem sortedLE_afterCalls_secondChain :
    (afterCalls 2 [secondChain 2, secondChain 4, secondChain 3]).vSizes.SortedLE :=
  sortedLE_afterCalls (by decide +kernel) (by decide)

/-- A node that follows one chain and then another, which leaves the first at its root, gets the
largest of the last five sizes for their median. -/
theorem medianCall_wrong :
    DistinctHashes (firstChain ++ [secondChain 1, secondChain 2, secondChain 3, secondChain 4]) ∧
    windowSizes 4 (secondChain 4) = [5, 4, 3, 2, 1] ∧
    (calculateMedianSize (secondChain 4) (secondChain 4).getBlockSize 4
      (afterCalls 4 (firstChain ++ [secondChain 1, secondChain 2, secondChain 3]))).2 = some 5 ∧
    ¬Correct 4 (afterCalls 4 (firstChain ++ [secondChain 1, secondChain 2, secondChain 3]))
      (secondChain 4) := by
  have hreturns : (calculateMedianSize (secondChain 4) (secondChain 4).getBlockSize 4
      (afterCalls 4 (firstChain ++ [secondChain 1, secondChain 2, secondChain 3]))).2 = some 5 := by
    decide +kernel
  have hsizes : windowSizes 4 (secondChain 4) = [5, 4, 3, 2, 1] := by decide +kernel
  refine ⟨by decide +kernel, hsizes, hreturns, fun h => ?_⟩
  obtain ⟨m, hm, hmedian⟩ := h.returns
  cases hm
  exact absurd hmedian (by decide)

theorem medianCall_correct_firstChain :
    Correct 4 (afterCalls 4 (firstChain.take 4))
      (grow genesisEntry [(1, 5), (2, 5), (3, 5), (4, 5)]) :=
  (medianCall_correct_iff 4 (firstChain.take 4) _ (by decide +kernel)).mpr
    ⟨by decide, Or.inl (by decide), Or.inr (Or.inl (by decide +kernel))⟩

end PyrrhaNode.MedianCalls
