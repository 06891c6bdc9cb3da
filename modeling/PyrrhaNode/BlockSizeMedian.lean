import PyrrhaNode.BlockSizeHistory

/-!
# The limit as a function of the committed sizes

On a chain that is fed block by block, the incremental windows compute the medians
of the most recent block sizes above the root block. In a clean history the limit of
a block is therefore an explicit function of the sizes committed in its chain.
-/
namespace PyrrhaNode.BlockSizeMedian
open List Serialize SortedVector AdaptiveBlockSize
open BlockSizeHistory

/-- The last `n` sizes, or all of them when there are fewer. -/
def lastSizes (n : ℕ) (sizes : List ℕ) : List ℕ := sizes.drop (sizes.length - n)

/-- The median of the last `nWindow + 1` sizes, once there are so many. -/
def windowMedian (nWindow : ℕ) (sizes : List ℕ) : Option ℕ :=
  if sizes.length ≤ nWindow then none
  else some ((calculateMedian (sortSizes (lastSizes (nWindow + 1) sizes))).getD 0)

/-- The limit that a chain with the given sizes above its root block leads to. -/
def nextMaxOfSizes (params : SizeParams) (sizes : List ℕ) : ℕ :=
  nextMaxOfMedians params (windowMedian params.nShortBlockWindow sizes)
    (windowMedian params.nLongBlockWindow sizes)

/-- The sizes of the blocks above the root block, the oldest first. -/
def sizesAboveRoot : CBlockIndex → List ℕ
  | .root _ _ => []
  | .child h _ p => sizesAboveRoot p ++ [h.size]

lemma sizesAboveRoot_eq (idx : CBlockIndex) :
    sizesAboveRoot idx = idx.chain.tail.map CBlockHeader.size := by
  induction idx with
  | root h n => rfl
  | child h n p ih =>
    have hne : p.chain ≠ [] := by cases p <;> simp [CBlockIndex.chain]
    simp [sizesAboveRoot, CBlockIndex.chain, ih, tail_append_of_ne_nil hne]

/-- The window holds the most recent of the given sizes, sorted once it was full. -/
structure Tracks (nWindow : ℕ) (sizes : List ℕ) (w : SizeWindow) : Prop where
  unsorted : w.vSizesUnsorted = lastSizes nWindow sizes
  perm : w.vSizes.Perm w.vSizesUnsorted
  runOnce : w.fRunOnce = decide (sizes.length ≤ nWindow)
  sorted : w.fRunOnce = false → w.vSizes.SortedLE

variable {sizes : List ℕ} {nWindow : ℕ} {w : SizeWindow} {params : SizeParams} {s : History}

lemma lastSizes_of_le {n : ℕ} (h : sizes.length ≤ n) :
    lastSizes n sizes = sizes := by
  simp [lastSizes, Nat.sub_eq_zero_of_le h]

lemma lastSizes_append (n size : ℕ) (sizes : List ℕ) :
    lastSizes (n + 1) (sizes ++ [size]) = lastSizes n sizes ++ [size] := by
  have hle : sizes.length - n ≤ sizes.length := Nat.sub_le _ _
  simp [lastSizes, drop_append_of_le_length hle]

lemma length_lastSizes (n : ℕ) (sizes : List ℕ) :
    (lastSizes n sizes).length = min n sizes.length := by
  simp only [lastSizes, length_drop]
  omega

lemma Tracks.length_vSizes
    (h : Tracks nWindow sizes w) : w.vSizes.length = min nWindow sizes.length := by
  rw [h.perm.length_eq, h.unsorted, length_lastSizes]

/-- A new size joins those that a window holds, in the order of the chain and in another order. -/
lemma extendWindow_holds {l : List ℕ} (nWindow size : ℕ) (hunsorted : w.vSizesUnsorted = l)
    (hperm : w.vSizes.Perm l) :
    (extendWindow size nWindow w).vSizesUnsorted = l ++ [size] ∧
      (extendWindow size nWindow w).vSizes.Perm (l ++ [size]) := by
  by_cases hshort : w.vSizes.length < nWindow
  · rw [extendWindow, if_pos hshort]
    exact ⟨congrArg (· ++ _) hunsorted, hperm.append_right _⟩
  have hsorted : (if w.fRunOnce then sortSizes w.vSizes else w.vSizes).Perm l := by
    split_ifs
    · exact (perm_insertionSort _ _).trans hperm
    · exact hperm
  rw [extendWindow, if_neg hshort]
  refine ⟨congrArg (· ++ _) hunsorted, (insertSorted_perm _ _).trans ?_⟩
  exact (hsorted.cons _).trans (perm_append_singleton _ _).symm

/-- A full window yields the median of what it holds and drops the oldest size. -/
lemma takeMedian_holds (hunsorted : w.vSizesUnsorted = lastSizes (nWindow + 1) sizes)
    (hperm : w.vSizes.Perm (lastSizes (nWindow + 1) sizes)) :
    (takeMedian nWindow w).1.vSizesUnsorted = lastSizes nWindow sizes ∧
      (takeMedian nWindow w).1.vSizes.Perm (lastSizes nWindow sizes) ∧
      (takeMedian nWindow w).2 =
        if sizes.length ≤ nWindow then none else some ((calculateMedian w.vSizes).getD 0) := by
  have hlength := hperm.length_eq
  rw [length_lastSizes] at hlength
  by_cases hshort : sizes.length ≤ nWindow
  · rw [lastSizes_of_le (by omega)] at hunsorted hperm
    rw [takeMedian, if_neg (by omega), if_pos hshort, lastSizes_of_le hshort]
    exact ⟨hunsorted, hperm, rfl⟩
  have hdrop : lastSizes nWindow sizes = (lastSizes (nWindow + 1) sizes).drop 1 := by
    rw [lastSizes, lastSizes, drop_drop]
    congr 1
    omega
  obtain ⟨oldest, rest, hcons⟩ := exists_cons_of_length_eq_add_one
    (show (lastSizes (nWindow + 1) sizes).length = nWindow + 1 by rw [length_lastSizes]; omega)
  rw [hcons] at hunsorted hperm hdrop
  have herase := hperm.erase oldest
  rw [erase_cons_head] at herase
  rw [takeMedian, if_pos (by omega), if_neg hshort, hunsorted, hdrop]
  exact ⟨rfl, herase, rfl⟩

lemma takeMedian_sortedLE (h : w.vSizes.SortedLE) : (takeMedian nWindow w).1.vSizes.SortedLE := by
  unfold takeMedian
  split_ifs
  · cases w.vSizesUnsorted with
    | nil => exact h
    | cons oldest rest => exact (h.pairwise.sublist erase_sublist).sortedLE
  · exact h

lemma takeMedian_fRunOnce (nWindow : ℕ) (w : SizeWindow) :
    (takeMedian nWindow w).1.fRunOnce = w.fRunOnce := by
  unfold takeMedian
  split_ifs
  · cases w.vSizesUnsorted <;> rfl
  · rfl

/-- A window that is full is sorted, when it is full for the first time by the new size. -/
lemma Tracks.extendWindow_sortedLE (h : Tracks nWindow sizes w) (size : ℕ)
    (hle : nWindow ≤ sizes.length) : (extendWindow size nWindow w).vSizes.SortedLE := by
  have hlength := h.length_vSizes
  rw [extendWindow, if_neg (by omega)]
  refine insertSorted_sortedLE _ _ ?_
  split_ifs with hrun
  · exact sortedLE_insertionSort
  · exact h.sorted (by simpa using hrun)

lemma Tracks.extendWindow_fRunOnce (h : Tracks nWindow sizes w) (size : ℕ) :
    (extendWindow size nWindow w).fRunOnce = decide (sizes.length + 1 ≤ nWindow) := by
  have hlength := h.length_vSizes
  by_cases hshort : sizes.length + 1 ≤ nWindow
  · rw [extendWindow, if_pos (by omega), decide_eq_true hshort]
    exact h.runOnce.trans (decide_eq_true (by omega))
  · rw [extendWindow, if_neg (by omega), decide_eq_false hshort]

/-- The median is that of the most recent sizes, once there are enough of them. -/
lemma Tracks.extend (h : Tracks nWindow sizes w) (size : ℕ) :
    Tracks nWindow (sizes ++ [size]) (takeMedian nWindow (extendWindow size nWindow w)).1 ∧
      (takeMedian nWindow (extendWindow size nWindow w)).2 =
        windowMedian nWindow (sizes ++ [size]) := by
  have hlength : (sizes ++ [size]).length = sizes.length + 1 := length_append
  obtain ⟨hunsorted, hperm⟩ :=
    extendWindow_holds nWindow size h.unsorted (h.perm.trans (.of_eq h.unsorted))
  rw [← lastSizes_append] at hunsorted hperm
  obtain ⟨hunsorted', hperm', hmedian⟩ := takeMedian_holds hunsorted hperm
  refine ⟨⟨hunsorted', hperm'.trans (.of_eq hunsorted'.symm), ?_, fun hrun => ?_⟩, ?_⟩
  · rw [takeMedian_fRunOnce, h.extendWindow_fRunOnce, hlength]
  · rw [takeMedian_fRunOnce, h.extendWindow_fRunOnce, decide_eq_false_iff_not] at hrun
    exact takeMedian_sortedLE (h.extendWindow_sortedLE size (by omega))
  · rw [hmedian, windowMedian]
    split_ifs with hshort
    · rfl
    · rw [eq_insertionSort_of_perm (h.extendWindow_sortedLE size (by omega)) hperm]
      rfl

/-- On top of the entry whose chain it tracks, a window yields the median of the
chain extended by the new size, and tracks that chain. -/
theorem Tracks.next (p : CBlockIndex) (size : ℕ) (h : Tracks nWindow (sizesAboveRoot p) w)
    (htip : w.pindexTip = p.pprev.map CBlockIndex.hash) :
    Tracks nWindow (sizesAboveRoot p ++ [size]) (calculateMedianSize p size nWindow w).1 ∧
      (calculateMedianSize p size nWindow w).2 =
        windowMedian nWindow (sizesAboveRoot p ++ [size]) := by
  have hstep : calculateMedianSize p size nWindow w =
      takeMedian nWindow (extendWindow size nWindow { w with pindexTip := some p.hash }) := by
    rw [calculateMedianSize, if_neg (by simp [htip])]
    simp only [extendWindow]
    split <;> rfl
  have h' : Tracks nWindow (sizesAboveRoot p) { w with pindexTip := some p.hash } :=
    ⟨h.unsorted, h.perm, h.runOnce, h.sorted⟩
  rw [hstep]
  exact h'.extend size

/-- The limit of an entry is that of the sizes of its chain, and the windows of its
chain track these sizes. -/
structure Measured (params : SizeParams) (idx : CBlockIndex) : Prop where
  limit : idx.nNextMaxBlockSize = nextMaxOfSizes params (sizesAboveRoot idx)
  short : Tracks params.nShortBlockWindow (sizesAboveRoot idx) (chainNode params idx).windows.short
  long : Tracks params.nLongBlockWindow (sizesAboveRoot idx) (chainNode params idx).windows.long
  shortTip : (chainNode params idx).windows.short.pindexTip = idx.pprev.map CBlockIndex.hash
  longTip : (chainNode params idx).windows.long.pindexTip = idx.pprev.map CBlockIndex.hash

lemma tracks_empty (nWindow : ℕ) : Tracks nWindow [] .empty :=
  ⟨by simp [SizeWindow.empty, lastSizes], .refl _, by simp [SizeWindow.empty], by
    simp [SizeWindow.empty]⟩

lemma nextMaxOfSizes_nil (params : SizeParams) :
    nextMaxOfSizes params [] = defaultNextMaxBlockSize := by
  simp [nextMaxOfSizes, windowMedian, nextMaxOfMedians, defaultNextMaxBlockSize,
    defaultLargestBlockSizePossible]

lemma measured_root (params : SizeParams) (h : CBlockHeader) :
    Measured params (.root h defaultNextMaxBlockSize) := by
  have hw : (chainNode params (.root h defaultNextMaxBlockSize)).windows = .empty := by
    show (addToBlockIndex params freshNode h).windows = .empty
    rw [windows_add rfl]
    rfl
  refine ⟨(nextMaxOfSizes_nil params).symm, ?_, ?_, ?_, ?_⟩
  all_goals rw [hw]
  · exact tracks_empty _
  · exact tracks_empty _
  · rfl
  · rfl

/-- A new entry on a measured parent is measured when its own chain leads to its limit. -/
lemma measured_newEntry {h : CBlockHeader} {p : CBlockIndex} (hs : Coherent params s)
    (hnew : s.node.mapBlockIndex h.hash = none) (hp : s.node.mapBlockIndex h.hashPrevBlock = some p)
    (hmp : Measured params p) (hagree : nextFrom params s.node h s.node.windows =
      nextFrom params s.node h (ancestorsNode params s.node h).windows) :
    Measured params (newEntry params s.node h) := by
  obtain ⟨hnew', hprev, -⟩ := hs.ancestorsNode_agrees hnew
  have hanc : ancestorsNode params s.node h = chainNode params p := by simp [ancestorsNode, hp]
  have hshort := hmp.short.next p h.size hmp.shortTip
  have hlong := hmp.long.next p h.size hmp.longTip
  have hwin : (chainNode params (newEntry params s.node h)).windows =
      ⟨(calculateMedianSize p h.size params.nShortBlockWindow
          (chainNode params p).windows.short).1,
        (calculateMedianSize p h.size params.nLongBlockWindow
          (chainNode params p).windows.long).1⟩ := by
    rw [chainNode_newEntry, windows_add hnew', nextFrom, hprev, hp, hanc]
    rfl
  have hentry : newEntry params s.node h =
      .child h (nextMaxOfSizes params (sizesAboveRoot p ++ [h.size])) p := by
    rw [newEntry, hagree, nextFrom, hp, hanc]
    simp only [calculateNextMaxBlockSize, hshort.2, hlong.2, nextMaxOfSizes, makeIndex]
  rw [hentry] at hwin ⊢
  refine ⟨rfl, ?_, ?_, ?_, ?_⟩
  all_goals rw [hwin]
  · exact hshort.1
  · exact hlong.1
  all_goals exact calculateMedianSize_pindexTip p _ _ _

/-- Every entry of the index is measured. -/
def AllMeasured (params : SizeParams) (node : Node) : Prop :=
  ∀ k idx, node.mapBlockIndex k = some idx → Measured params idx

/-- Every step that meets the condition adds only measured entries. -/
lemma allMeasured_step (hs : Coherent params s) (hall : AllMeasured params s.node) (e : Event)
    (hmeet : StepMeets s e) :
    AllMeasured params (step params s e).node := by
  cases e with
  | restart => exact hall
  | header h =>
    show AllMeasured params (addToBlockIndex params s.node h)
    by_cases hnew : s.node.mapBlockIndex h.hash = none
    case neg => rwa [addToBlockIndex_known params s.node h hnew]
    by_cases hwork : HasExpectedWork s.node h
    case neg => rwa [addToBlockIndex_rejected params s.node h hnew hwork]
    have hentry : Measured params (newEntry params s.node h) := by
      cases hp : s.node.mapBlockIndex h.hashPrevBlock with
      | none =>
        simp only [newEntry, nextFrom, hp]
        exact measured_root params h
      | some p =>
        have henters : EntersWindows s.node h := ⟨hnew, by simp [hp]⟩
        exact measured_newEntry hs hnew hp (hall _ p hp)
          (hs.nextFrom_eq p hp (hmeet henters hwork))
    intro k idx hk
    rw [mapBlockIndex_add hnew hwork, Function.update_apply] at hk
    split_ifs at hk
    · cases hk
      exact hentry
    · exact hall k idx hk

lemma allMeasured_run (hs : Coherent params s) (hall : AllMeasured params s.node)
    (events : List Event)
    (hmeet : EveryStepMeets params s events) : AllMeasured params (run params s events).node := by
  induction events generalizing s with
  | nil => exact hall
  | cons e events ih =>
    exact ih (hs.step e hmeet.1) (allMeasured_step hs hall e hmeet.1) hmeet.2

/-- In every history whose steps meet the condition, the limit of a block is the
clamped multiple of the larger median of the sizes in its own chain. -/
theorem storedNextMax_eq_nextMaxOfSizes (params : SizeParams) (events : List Event)
    (hmeet : EveryStepMeets params .start events) (k : Uint256) (idx : CBlockIndex)
    (hk : (run params .start events).node.mapBlockIndex k = some idx) :
    idx.nNextMaxBlockSize =
      nextMaxOfSizes params (idx.chain.tail.map CBlockHeader.size) := by
  have hstart : AllMeasured params History.start.node := by
    intro k idx hk
    simp [History.start, freshNode] at hk
  have h := allMeasured_run (coherent_start params) hstart events hmeet k idx hk
  rw [h.limit, sizesAboveRoot_eq]

theorem storedNextMax_eq_nextMaxOfSizes_smallEvents :
    ∃ idx, (run smallParams .start smallEvents).node.mapBlockIndex (hashOf 7) = some idx ∧
      idx.nNextMaxBlockSize = nextMaxOfSizes smallParams (idx.chain.tail.map CBlockHeader.size) ∧
      windowMedian 2 (idx.chain.tail.map CBlockHeader.size) = some 20000 := by
  have hmedian : ((run smallParams .start smallEvents).node.mapBlockIndex (hashOf 7)).map
      (fun idx => windowMedian 2 (idx.chain.tail.map CBlockHeader.size)) = some (some 20000) := by
    decide +kernel
  obtain ⟨idx, hidx, hmedian⟩ := Option.map_eq_some_iff.mp hmedian
  exact ⟨idx, hidx, storedNextMax_eq_nextMaxOfSizes smallParams smallEvents
    everyStepMeets_smallEvents (hashOf 7) idx hidx, hmedian⟩

end PyrrhaNode.BlockSizeMedian
