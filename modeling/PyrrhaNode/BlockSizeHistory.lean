import PyrrhaNode.AdaptiveBlockSize

/-!
# Block size limits over whole histories of a node

A history is any sequence of headers given to the block index and of restarts. The
limit stored in a block should be the one a fresh node computes when it is given
only the block's own chain. It is, as long as every new header that enters the
windows extends the header that entered them last, or sits on a root block while
neither window has been full since the start.
-/
namespace PyrrhaNode.BlockSizeHistory
open Function ByteCodec Serialize AdaptiveBlockSize

inductive Event where
  | header (header : CBlockHeader)
  | restart

/-- A node with the hash of the header whose size entered the windows last since the
start of the process, if that header was accepted. -/
structure History where
  node : Node
  lastEntered : Option Uint256

def History.start : History := ⟨freshNode, none⟩

/-- The header passes the work check that precedes its insertion. -/
def HasExpectedWork (node : Node) (header : CBlockHeader) : Prop :=
  header.chainWork = expectedWork (node.mapBlockIndex header.hashPrevBlock) header

instance (node : Node) (header : CBlockHeader) : Decidable (HasExpectedWork node header) :=
  inferInstanceAs (Decidable (_ = _))

/-- Only new headers with a known parent enter the windows. -/
def EntersWindows (node : Node) (header : CBlockHeader) : Prop :=
  node.mapBlockIndex header.hash = none ∧ node.mapBlockIndex header.hashPrevBlock ≠ none

def nextLastEntered (s : History) (header : CBlockHeader) : Option Uint256 :=
  match s.node.mapBlockIndex header.hash, s.node.mapBlockIndex header.hashPrevBlock with
  | none, some _ => if HasExpectedWork s.node header then some header.hash else none
  | _, _ => s.lastEntered

def step (params : SizeParams) (s : History) : Event → History
  | .header h => ⟨addToBlockIndex params s.node h, nextLastEntered s h⟩
  | .restart => ⟨AdaptiveBlockSize.restart s.node, none⟩

def run (params : SizeParams) (s : History) (events : List Event) : History :=
  events.foldl (step params) s

/-- The parent of the header is a block without a parent, and neither window has
been full since the start. -/
def OnRootWithUnsortedWindows (node : Node) (header : CBlockHeader) : Prop :=
  (∃ h n, node.mapBlockIndex header.hashPrevBlock = some (.root h n)) ∧
    node.windows.short.fRunOnce = true ∧ node.windows.long.fRunOnce = true

/-- What a step must meet: an accepted header that enters the windows extends the
header that entered them last, or sits on a root block below unsorted windows. -/
def StepMeets (s : History) : Event → Prop
  | .header h =>
    EntersWindows s.node h → HasExpectedWork s.node h →
      s.lastEntered = some h.hashPrevBlock ∨ OnRootWithUnsortedWindows s.node h
  | .restart => True

def EveryStepMeets (params : SizeParams) : History → List Event → Prop
  | _, [] => True
  | s, e :: events => StepMeets s e ∧ EveryStepMeets params (step params s e) events

/-- The state of a fresh node after it was given the entry's own chain. -/
def chainNode (params : SizeParams) (idx : CBlockIndex) : Node :=
  addHeaders params freshNode idx.chain

lemma takeMedian_pindexTip (nWindow : ℕ) (w : SizeWindow) :
    (takeMedian nWindow w).1.pindexTip = w.pindexTip := by
  unfold takeMedian
  split
  · cases w.vSizesUnsorted <;> rfl
  · rfl

lemma calculateMedianSize_pindexTip (pindexNew : CBlockIndex) (nBlockSize nWindow : ℕ)
    (w : SizeWindow) :
    (calculateMedianSize pindexNew nBlockSize nWindow w).1.pindexTip = some pindexNew.hash := by
  rw [calculateMedianSize, takeMedian_pindexTip]

/-- On a root block a rebuilt window is the window that an empty cache would hold. -/
lemma calculateMedianSize_root (h : CBlockHeader) (n nBlockSize nWindow : ℕ) (w : SizeWindow)
    (hpos : 0 < nWindow) (hrun : w.fRunOnce = true) (htip : w.pindexTip = none → w = .empty) :
    calculateMedianSize (.root h n) nBlockSize nWindow w =
      calculateMedianSize (.root h n) nBlockSize nWindow .empty := by
  by_cases hw : w.pindexTip = none
  · rw [htip hw]
  · have hne : (none : Option Uint256) ≠ w.pindexTip := Ne.symm hw
    have hanc : ancestorSizes nWindow none = [] := by cases nWindow <;> rfl
    simp [calculateMedianSize, CBlockIndex.pprev, hne, rebuildWindow, extendWindow,
      SizeWindow.empty, hanc, hpos, hrun, sortSizes]

/-- The caches are empty until the first header enters them. -/
def EmptyUntilEntered (ws : SizeWindows) : Prop :=
  (ws.short.pindexTip = none → ws.short = .empty) ∧ (ws.long.pindexTip = none → ws.long = .empty)

lemma emptyUntilEntered_next (params : SizeParams) (pprev : Option CBlockIndex) (size : ℕ)
    (ws : SizeWindows) (h : EmptyUntilEntered ws) :
    EmptyUntilEntered (calculateNextMaxBlockSize params pprev size ws).2 := by
  cases pprev with
  | none => exact h
  | some p =>
    simp [calculateNextMaxBlockSize, EmptyUntilEntered, calculateMedianSize_pindexTip]

lemma addToBlockIndex_known (params : SizeParams) (node : Node) (header : CBlockHeader)
    (hk : node.mapBlockIndex header.hash ≠ none) : addToBlockIndex params node header = node := by
  obtain ⟨idx, hidx⟩ := Option.ne_none_iff_exists'.mp hk
  simp [addToBlockIndex, hidx]

lemma addToBlockIndex_rejected (params : SizeParams) (node : Node) (header : CBlockHeader)
    (hnew : node.mapBlockIndex header.hash = none) (hwork : ¬ HasExpectedWork node header) :
    addToBlockIndex params node header =
      { node with windows := (calculateNextMaxBlockSize params
          (node.mapBlockIndex header.hashPrevBlock) header.size node.windows).2 } := by
  have hne : header.chainWork ≠ expectedWork (node.mapBlockIndex header.hashPrevBlock) header :=
    hwork
  simp [addToBlockIndex, hnew, hne]

lemma addToBlockIndex_accepted (params : SizeParams) (node : Node) (header : CBlockHeader)
    (hnew : node.mapBlockIndex header.hash = none) (hwork : HasExpectedWork node header) :
    addToBlockIndex params node header =
      ⟨update node.mapBlockIndex header.hash
        (some (makeIndex header (calculateNextMaxBlockSize params
          (node.mapBlockIndex header.hashPrevBlock) header.size node.windows).1
          (node.mapBlockIndex header.hashPrevBlock))),
        (calculateNextMaxBlockSize params
          (node.mapBlockIndex header.hashPrevBlock) header.size node.windows).2⟩ := by
  have he : header.chainWork = expectedWork (node.mapBlockIndex header.hashPrevBlock) header :=
    hwork
  simp [addToBlockIndex, hnew, ← he]

/-- An entry is what a fresh node computes from the entry's own chain, and that
chain is in the given index. -/
structure Canonical (params : SizeParams) (node : Node) (idx : CBlockIndex) : Prop where
  entry : (chainNode params idx).mapBlockIndex idx.hash = some idx
  known : ∀ k, (chainNode params idx).mapBlockIndex k ≠ none → node.mapBlockIndex k ≠ none

/-- Every entry is canonical and stored under its hash, and the windows are those of
the chain of the header that entered them last. -/
structure Coherent (params : SizeParams) (s : History) : Prop where
  keyed : ∀ k idx, s.node.mapBlockIndex k = some idx → idx.hash = k
  canonical : ∀ k idx, s.node.mapBlockIndex k = some idx → Canonical params s.node idx
  windows : ∀ k, s.lastEntered = some k → ∃ idx, s.node.mapBlockIndex k = some idx ∧
    s.node.windows = (chainNode params idx).windows
  empty : EmptyUntilEntered s.node.windows

variable {params : SizeParams} {s : History}

lemma Canonical.mono {node node' : Node} {idx : CBlockIndex} (h : Canonical params node idx)
    (hsub : ∀ k, node.mapBlockIndex k ≠ none → node'.mapBlockIndex k ≠ none) :
    Canonical params node' idx :=
  ⟨h.entry, fun k hk => hsub k (h.known k hk)⟩

/-- The limit and the new windows that a header gets from the given windows. -/
def nextFrom (params : SizeParams) (node : Node) (h : CBlockHeader) (ws : SizeWindows) :
    ℕ × SizeWindows :=
  calculateNextMaxBlockSize params (node.mapBlockIndex h.hashPrevBlock) h.size ws

/-- The node that has seen exactly the ancestors of a header of the given node. -/
def ancestorsNode (params : SizeParams) (node : Node) (h : CBlockHeader) : Node :=
  match node.mapBlockIndex h.hashPrevBlock with
  | none => freshNode
  | some p => chainNode params p

/-- The entry that an accepted header adds. -/
def newEntry (params : SizeParams) (node : Node) (h : CBlockHeader) : CBlockIndex :=
  makeIndex h (nextFrom params node h node.windows).1 (node.mapBlockIndex h.hashPrevBlock)

lemma hash_newEntry (params : SizeParams) (node : Node) (h : CBlockHeader) :
    (newEntry params node h).hash = h.hash := by
  unfold newEntry
  cases node.mapBlockIndex h.hashPrevBlock <;> rfl

section NewHeader
variable {params : SizeParams} {s : History} {h : CBlockHeader} {node : Node}

lemma mapBlockIndex_add (hnew : node.mapBlockIndex h.hash = none) (hwork : HasExpectedWork node h) :
    (addToBlockIndex params node h).mapBlockIndex =
      update node.mapBlockIndex h.hash (some (newEntry params node h)) := by
  rw [addToBlockIndex_accepted params node h hnew hwork]
  rfl

lemma windows_add (hnew : node.mapBlockIndex h.hash = none) :
    (addToBlockIndex params node h).windows = (nextFrom params node h node.windows).2 := by
  by_cases hwork : HasExpectedWork node h
  · rw [addToBlockIndex_accepted params node h hnew hwork]
    rfl
  · rw [addToBlockIndex_rejected params node h hnew hwork]
    rfl

lemma ne_none_add (hnew : node.mapBlockIndex h.hash = none) (hwork : HasExpectedWork node h)
    (k : Uint256) (hk : node.mapBlockIndex k ≠ none) :
    (addToBlockIndex params node h).mapBlockIndex k ≠ none := by
  have hne : k ≠ h.hash := by
    rintro rfl
    exact hk hnew
  rwa [mapBlockIndex_add hnew hwork, update_of_ne hne]

/-- The chain of an accepted header, given to a fresh node, ends with adding the
header to the node that has seen its ancestors. -/
lemma chainNode_newEntry :
    chainNode params (newEntry params s.node h) =
      addToBlockIndex params (ancestorsNode params s.node h) h := by
  unfold newEntry ancestorsNode
  cases s.node.mapBlockIndex h.hashPrevBlock with
  | none => rfl
  | some p => simp [makeIndex, chainNode, addHeaders, CBlockIndex.chain]

variable (hs : Coherent params s)
include hs

/-- A step that meets the condition finds windows that lead to the same limit and the
same new windows as those of the node that has seen only the header's ancestors. -/
lemma Coherent.nextFrom_eq (p : CBlockIndex) (hp : s.node.mapBlockIndex h.hashPrevBlock = some p)
    (hmeet : s.lastEntered = some h.hashPrevBlock ∨ OnRootWithUnsortedWindows s.node h) :
    nextFrom params s.node h s.node.windows =
      nextFrom params s.node h (ancestorsNode params s.node h).windows := by
  have hanc : ancestorsNode params s.node h = chainNode params p := by
    simp [ancestorsNode, hp]
  rcases hmeet with hlast | ⟨⟨hdr, n, hroot⟩, hrun⟩
  · obtain ⟨idx, hidx, hw⟩ := hs.windows _ hlast
    rw [hp, Option.some.injEq] at hidx
    rw [hanc, hw, hidx]
  · rw [hp, Option.some.injEq] at hroot
    have hempty : (chainNode params p).windows = .empty := by
      rw [hroot]
      show (addToBlockIndex params freshNode hdr).windows = .empty
      rw [windows_add rfl]
      rfl
    rw [hanc, hempty, nextFrom, nextFrom, hp, hroot]
    simp only [calculateNextMaxBlockSize, SizeWindows.empty]
    rw [calculateMedianSize_root hdr n h.size _ _ params.short_pos hrun.1 hs.empty.1,
      calculateMedianSize_root hdr n h.size _ _ params.long_pos hrun.2 hs.empty.2]

variable (hnew : s.node.mapBlockIndex h.hash = none)
include hnew

/-- For a new header, the node that has seen only its ancestors agrees with the index
on the header's parent and does not know the header either. -/
lemma Coherent.ancestorsNode_agrees :
    (ancestorsNode params s.node h).mapBlockIndex h.hash = none ∧
    (ancestorsNode params s.node h).mapBlockIndex h.hashPrevBlock =
      s.node.mapBlockIndex h.hashPrevBlock ∧
    ∀ k, (ancestorsNode params s.node h).mapBlockIndex k ≠ none →
      s.node.mapBlockIndex k ≠ none := by
  unfold ancestorsNode
  cases hp : s.node.mapBlockIndex h.hashPrevBlock with
  | none => exact ⟨rfl, rfl, fun k hk => absurd rfl hk⟩
  | some p =>
    have hc := hs.canonical _ p hp
    have hkey := hs.keyed _ p hp
    refine ⟨?_, ?_, hc.known⟩
    · by_contra hk
      exact hc.known _ hk hnew
    · rw [← hkey]
      exact hc.entry

/-- An accepted header whose limit agrees with that of its own chain is canonical. -/
lemma Coherent.canonical_newEntry (hwork : HasExpectedWork s.node h)
    (hagree : (nextFrom params s.node h s.node.windows).1 =
      (nextFrom params s.node h (ancestorsNode params s.node h).windows).1) :
    Canonical params (addToBlockIndex params s.node h) (newEntry params s.node h) := by
  obtain ⟨hnew', hprev, hsub⟩ := hs.ancestorsNode_agrees hnew
  have hwork' : HasExpectedWork (ancestorsNode params s.node h) h := by
    rwa [HasExpectedWork, hprev]
  have hentry : newEntry params (ancestorsNode params s.node h) h = newEntry params s.node h := by
    rw [newEntry, newEntry, hagree, nextFrom, nextFrom, hprev]
  have hmap : (chainNode params (newEntry params s.node h)).mapBlockIndex =
      update (ancestorsNode params s.node h).mapBlockIndex h.hash
        (some (newEntry params s.node h)) := by
    rw [chainNode_newEntry, mapBlockIndex_add hnew' hwork', hentry]
  constructor
  · rw [hmap, hash_newEntry, update_self]
  · intro k hk
    by_cases hkh : k = h.hash
    · rw [mapBlockIndex_add hnew hwork, hkh, update_self]
      exact Option.some_ne_none _
    · rw [hmap, update_of_ne hkh] at hk
      exact ne_none_add hnew hwork k (hsub k hk)

lemma Coherent.canonical_add (hwork : HasExpectedWork s.node h)
    (hcanon : Canonical params (addToBlockIndex params s.node h) (newEntry params s.node h))
    (k : Uint256) (idx : CBlockIndex)
    (hk : (addToBlockIndex params s.node h).mapBlockIndex k = some idx) :
    idx.hash = k ∧ Canonical params (addToBlockIndex params s.node h) idx := by
  by_cases hkh : k = h.hash
  · rw [mapBlockIndex_add hnew hwork, hkh, update_self, Option.some.injEq] at hk
    rw [← hk]
    exact ⟨by rw [hash_newEntry, hkh], hcanon⟩
  · rw [mapBlockIndex_add hnew hwork, update_of_ne hkh] at hk
    exact ⟨hs.keyed k idx hk, (hs.canonical k idx hk).mono (ne_none_add hnew hwork)⟩

lemma Coherent.empty_add : EmptyUntilEntered (addToBlockIndex params s.node h).windows := by
  rw [windows_add hnew]
  exact emptyUntilEntered_next params _ _ _ hs.empty

lemma Coherent.add_rejected (hwork : ¬ HasExpectedWork s.node h) :
    Coherent params (step params s (.header h)) := by
  have hmap : (addToBlockIndex params s.node h).mapBlockIndex = s.node.mapBlockIndex := by
    rw [addToBlockIndex_rejected params s.node h hnew hwork]
  have hcanon : ∀ k idx, s.node.mapBlockIndex k = some idx →
      Canonical params (addToBlockIndex params s.node h) idx :=
    fun k idx hk => (hs.canonical k idx hk).mono (by simp [hmap])
  refine ⟨by simpa [step, hmap] using hs.keyed, by simpa [step, hmap] using hcanon, ?_,
    hs.empty_add hnew⟩
  intro k hk
  cases hp : s.node.mapBlockIndex h.hashPrevBlock with
  | none =>
    have hlast : s.lastEntered = some k := by simpa [step, nextLastEntered, hp] using hk
    have hw : (addToBlockIndex params s.node h).windows = s.node.windows := by
      rw [windows_add hnew, nextFrom, hp]
      rfl
    simpa [step, hmap, hw] using hs.windows k hlast
  | some p => simp [step, nextLastEntered, hnew, hp, hwork] at hk

variable (hwork : HasExpectedWork s.node h)
include hwork

lemma Coherent.add_root (hp : s.node.mapBlockIndex h.hashPrevBlock = none) :
    Coherent params (step params s (.header h)) := by
  have hagree : (nextFrom params s.node h s.node.windows).1 =
      (nextFrom params s.node h (ancestorsNode params s.node h).windows).1 := by
    rw [nextFrom, nextFrom, hp]
    rfl
  have hcanon := hs.canonical_newEntry hnew hwork hagree
  have hall := hs.canonical_add hnew hwork hcanon
  have hw : (addToBlockIndex params s.node h).windows = s.node.windows := by
    rw [windows_add hnew, nextFrom, hp]
    rfl
  refine ⟨fun k idx hk => (hall k idx hk).1, fun k idx hk => (hall k idx hk).2, ?_,
    hs.empty_add hnew⟩
  intro k hk
  have hlast : s.lastEntered = some k := by simpa [step, nextLastEntered, hp] using hk
  obtain ⟨idx, hidx, hwin⟩ := hs.windows k hlast
  have hne : k ≠ h.hash := by
    rintro rfl
    simp [hnew] at hidx
  refine ⟨idx, ?_, by simpa [step, hw] using hwin⟩
  show (addToBlockIndex params s.node h).mapBlockIndex k = some idx
  rwa [mapBlockIndex_add hnew hwork, update_of_ne hne]

/-- A header on a known parent that meets the condition leaves the windows of its own
chain behind. -/
lemma Coherent.add_child (p : CBlockIndex) (hp : s.node.mapBlockIndex h.hashPrevBlock = some p)
    (hmeet : s.lastEntered = some h.hashPrevBlock ∨ OnRootWithUnsortedWindows s.node h) :
    Coherent params (step params s (.header h)) := by
  have hagree := hs.nextFrom_eq p hp hmeet
  have hcanon := hs.canonical_newEntry hnew hwork (by rw [hagree])
  have hall := hs.canonical_add hnew hwork hcanon
  obtain ⟨hnew', hprev, -⟩ := hs.ancestorsNode_agrees hnew
  refine ⟨fun k idx hk => (hall k idx hk).1, fun k idx hk => (hall k idx hk).2, ?_,
    hs.empty_add hnew⟩
  intro k hk
  have hkh : h.hash = k := by simpa [step, nextLastEntered, hnew, hp, hwork] using hk
  refine ⟨newEntry params s.node h, ?_, ?_⟩
  · show (addToBlockIndex params s.node h).mapBlockIndex k = _
    rw [mapBlockIndex_add hnew hwork, ← hkh, update_self]
  · show (addToBlockIndex params s.node h).windows = _
    rw [windows_add hnew, hagree, chainNode_newEntry, windows_add hnew', nextFrom, nextFrom,
      hprev]

end NewHeader

theorem coherent_start (params : SizeParams) : Coherent params .start := by
  refine ⟨?_, ?_, ?_, ?_⟩
  iterate 2
    intro k idx hk
    simp [History.start, freshNode] at hk
  · intro k hk
    simp [History.start] at hk
  · exact ⟨fun _ => rfl, fun _ => rfl⟩

theorem Coherent.step (hs : Coherent params s) (e : Event)
    (hmeet : StepMeets s e) : Coherent params (step params s e) := by
  cases e with
  | restart =>
    refine ⟨hs.keyed,
      fun k idx hk => ⟨(hs.canonical k idx hk).entry, (hs.canonical k idx hk).known⟩,
      ?_, ⟨fun _ => rfl, fun _ => rfl⟩⟩
    intro k hk
    simp [BlockSizeHistory.step] at hk
  | header h =>
    by_cases hnew : s.node.mapBlockIndex h.hash = none
    · by_cases hwork : HasExpectedWork s.node h
      · cases hp : s.node.mapBlockIndex h.hashPrevBlock with
        | none => exact hs.add_root hnew hwork hp
        | some p =>
          have henters : EntersWindows s.node h := ⟨hnew, by simp [hp]⟩
          exact hs.add_child hnew hwork p hp (hmeet henters hwork)
      · exact hs.add_rejected hnew hwork
    · obtain ⟨idx, hidx⟩ := Option.ne_none_iff_exists'.mp hnew
      have hsame : BlockSizeHistory.step params s (.header h) = s := by
        simp [BlockSizeHistory.step, nextLastEntered, hidx,
          addToBlockIndex_known params s.node h hnew]
      rwa [hsame]

theorem Coherent.run (hs : Coherent params s) (events : List Event)
    (hmeet : EveryStepMeets params s events) :
    Coherent params (run params s events) := by
  induction events generalizing s with
  | nil => exact hs
  | cons e events ih => exact ih (hs.step e hmeet.1) hmeet.2

/-- In every history whose steps meet the condition, the limit stored in a block is
the one that a fresh node stores when it is given only the block's own chain. -/
theorem storedNextMax_eq_fresh (params : SizeParams) (events : List Event)
    (hmeet : EveryStepMeets params .start events) (k : Uint256) (idx : CBlockIndex)
    (hk : (run params .start events).node.mapBlockIndex k = some idx) :
    storedNextMax (run params .start events).node k =
      storedNextMax (addHeaders params freshNode idx.chain) k := by
  have hs := (coherent_start params).run events hmeet
  have hentry := (hs.canonical k idx hk).entry
  rw [hs.keyed k idx hk] at hentry
  rw [storedNextMax, storedNextMax, hk, ← chainNode, hentry]

/-- Block hashes of the example chain. -/
def hashOf (n : ℕ) : Uint256 := ⟨leBytes 32 n, by simp⟩

/-- The header at the given height, at the lowest difficulty: up to height `small` the blocks are
small ones, and larger ones from there on. -/
def headerAt (small height : ℕ) : CBlockHeader where
  hash := hashOf (height + 1)
  hashPrevBlock := hashOf height
  size := if height ≤ small then 1000 else 20000
  nBits := 0x207fffff
  chainWork := 2 * (height + 1)

/-- The headers of the heights from `first` on. -/
def headersFrom (small first count : ℕ) : List Event :=
  (List.range' first count).map fun height => .header (headerAt small height)

/-- Windows that are full after a few blocks. -/
def smallParams : SizeParams := ⟨2, 4, 10, by decide, by decide⟩

/-- A restart above the root block and six blocks after it. -/
def smallEvents : List Event := .header (headerAt 0 0) :: .restart :: headersFrom 0 1 6

lemma everyStepMeets_smallEvents : EveryStepMeets smallParams .start smallEvents := by
  refine ⟨fun henters => absurd rfl henters.2, trivial, ?_, ?_, ?_, ?_, ?_, ?_, trivial⟩
  · exact fun _ _ => .inr ⟨⟨headerAt 0 0, 100000, rfl⟩, rfl, rfl⟩
  all_goals exact fun _ _ => .inl (by decide +kernel)

/-- Both windows have been full when the last limit is computed. -/
theorem storedNextMax_eq_fresh_smallEvents :
    ∃ idx, (run smallParams .start smallEvents).node.mapBlockIndex (hashOf 7) = some idx ∧
      idx.nNextMaxBlockSize = 200000 ∧
      storedNextMax (run smallParams .start smallEvents).node (hashOf 7) =
        storedNextMax (addHeaders smallParams freshNode idx.chain) (hashOf 7) := by
  have hlimit : ((run smallParams .start smallEvents).node.mapBlockIndex (hashOf 7)).map
      CBlockIndex.nNextMaxBlockSize = some 200000 := by
    decide +kernel
  obtain ⟨idx, hidx, hlimit⟩ := Option.map_eq_some_iff.mp hlimit
  exact ⟨idx, hidx, hlimit, storedNextMax_eq_fresh smallParams smallEvents
    everyStepMeets_smallEvents (hashOf 7) idx hidx⟩

/-- The small blocks up to height 75, larger ones up to height 150, and one more after a restart. -/
def restartEvents : List Event := headersFrom 75 0 151 ++ .restart :: headersFrom 75 151 1

/-- With the windows of the regression test network, a node that restarts after
height 150 stores half the limit for block 151 that a node stores when it is given
that block's chain alone. -/
theorem restart_changes_limit :
    ∃ idx, (run regtestParams .start restartEvents).node.mapBlockIndex (hashOf 152) =
        some idx ∧
      storedNextMax (run regtestParams .start restartEvents).node (hashOf 152) =
        some 100000 ∧
      storedNextMax (addHeaders regtestParams freshNode idx.chain) (hashOf 152) =
        some 200000 := by
  have hlimits : ((run regtestParams .start restartEvents).node.mapBlockIndex
      (hashOf 152)).map (fun idx => (idx.nNextMaxBlockSize,
        storedNextMax (addHeaders regtestParams freshNode idx.chain) (hashOf 152))) =
      some (100000, some 200000) := by
    decide +kernel
  obtain ⟨idx, hidx, hboth⟩ := Option.map_eq_some_iff.mp hlimits
  obtain ⟨hstored, hfresh⟩ := Prod.mk.inj hboth
  refine ⟨idx, hidx, ?_, hfresh⟩
  rw [storedNextMax, hidx, Option.map_some, hstored]

end PyrrhaNode.BlockSizeHistory
