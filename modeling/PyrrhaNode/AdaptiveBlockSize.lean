import PyrrhaNode.CompactTarget
import PyrrhaNode.Serialize
import PyrrhaNode.SortedVector

/-!
# The adaptive block size windows

The size limit of the next block comes from the medians of the block sizes in a
short and a long window. Both windows are process-wide caches: a call either
appends the new size to the cached window or rebuilds the window from the block
index, depending on a cached tip pointer. A block index entry is modelled together
with its ancestors, since its header and its parent never change; pointers to
entries are compared by block hash, of which the index holds one entry each.
-/
namespace PyrrhaNode.AdaptiveBlockSize
open Serialize SortedVector

/-- The header fields that the block index reads, with the header's hash. -/
structure CBlockHeader where
  hash : Uint256
  hashPrevBlock : Uint256
  size : ℕ
  nBits : UInt32
  chainWork : ℕ

/-- The window lengths and the multiplier of a network. -/
structure SizeParams where
  nShortBlockWindow : ℕ
  nLongBlockWindow : ℕ
  nBlockSizeMultiplier : ℕ
  short_pos : 0 < nShortBlockWindow
  long_pos : 0 < nLongBlockWindow

def mainParams : SizeParams := ⟨720 * 90, 720 * 365, 10, by omega, by omega⟩
def testnetParams : SizeParams := ⟨720 * 7, 720 * 14, 10, by omega, by omega⟩
def regtestParams : SizeParams := ⟨150, 300, 10, by omega, by omega⟩

def defaultNextMaxBlockSize : ℕ := 100000
def defaultLargestBlockSizePossible : ℕ := 1000 * 1000000

/-- A block index entry with the chain of its ancestors. -/
inductive CBlockIndex where
  | root (header : CBlockHeader) (nNextMaxBlockSize : ℕ)
  | child (header : CBlockHeader) (nNextMaxBlockSize : ℕ) (pprev : CBlockIndex)

namespace CBlockIndex

def header : CBlockIndex → CBlockHeader
  | root h _ => h
  | child h _ _ => h

def nNextMaxBlockSize : CBlockIndex → ℕ
  | root _ n => n
  | child _ n _ => n

def pprev : CBlockIndex → Option CBlockIndex
  | root _ _ => none
  | child _ _ p => some p

def hash (idx : CBlockIndex) : Uint256 := idx.header.hash

def getBlockSize (idx : CBlockIndex) : ℕ := idx.header.size

/-- The headers of the entry's own chain, genesis first. -/
def chain : CBlockIndex → List CBlockHeader
  | root h _ => [h]
  | child h _ p => p.chain ++ [h]

end CBlockIndex

/-- The cached state of one window. -/
structure SizeWindow where
  vSizes : List ℕ
  vSizesUnsorted : List ℕ
  pindexTip : Option Uint256
  fRunOnce : Bool
  deriving DecidableEq

/-- The caches as the process starts with them. -/
def SizeWindow.empty : SizeWindow := ⟨[], [], none, true⟩

/-- The middle element, or `none` where the code throws. -/
def calculateMedian (vData : List ℕ) : Option ℕ :=
  if vData.length % 2 = 0 then none else vData[(vData.length - 1) / 2]?

def insertInSortedOrder (nBlockSize : ℕ) (vData : List ℕ) : List ℕ :=
  vData.insertIdx (lowerBound vData nBlockSize) nBlockSize

def sortSizes (vData : List ℕ) : List ℕ := vData.insertionSort (· ≤ ·)

/-- The sizes of up to `nWindow` entries from the given one towards genesis, the
oldest first. -/
def ancestorSizes : ℕ → Option CBlockIndex → List ℕ
  | 0, _ => []
  | _ + 1, none => []
  | nWindow + 1, some pindex => ancestorSizes nWindow pindex.pprev ++ [pindex.getBlockSize]

/-- The window built anew: the given size and the sizes of the ancestors of
`pindexNew`, from its parent on. -/
def rebuildWindow (pindexNew : CBlockIndex) (nBlockSize nWindow : ℕ) (w : SizeWindow) :
    SizeWindow :=
  let sizes := ancestorSizes nWindow pindexNew.pprev ++ [nBlockSize]
  { w with vSizes := sortSizes sizes, vSizesUnsorted := sizes }

/-- The window with one more size. It is kept unsorted until it is full. -/
def extendWindow (nBlockSize nWindow : ℕ) (w : SizeWindow) : SizeWindow :=
  if w.vSizes.length < nWindow then
    { w with
      vSizes := w.vSizes ++ [nBlockSize], vSizesUnsorted := w.vSizesUnsorted ++ [nBlockSize] }
  else
    let sorted := if w.fRunOnce then sortSizes w.vSizes else w.vSizes
    { w with
      vSizes := insertInSortedOrder nBlockSize sorted
      vSizesUnsorted := w.vSizesUnsorted ++ [nBlockSize]
      fRunOnce := false }

/-- When the window is full, its median; the oldest size is then dropped. The median
stays zero where the computation throws. -/
def takeMedian (nWindow : ℕ) (w : SizeWindow) : SizeWindow × Option ℕ :=
  if w.vSizes.length = nWindow + 1 then
    let nMedianSize := (calculateMedian w.vSizes).getD 0
    match w.vSizesUnsorted with
    | [] => (w, some nMedianSize)
    | nSizeToRemove :: rest =>
      ({ w with vSizes := w.vSizes.erase nSizeToRemove, vSizesUnsorted := rest },
        some nMedianSize)
  else (w, none)

/-- One step of a window: the new state, and the median when there is one. -/
def calculateMedianSize (pindexNew : CBlockIndex) (nBlockSize nWindow : ℕ) (w : SizeWindow) :
    SizeWindow × Option ℕ :=
  let w' :=
    if pindexNew.pprev.map CBlockIndex.hash ≠ w.pindexTip then
      rebuildWindow pindexNew nBlockSize nWindow w
    else extendWindow nBlockSize nWindow w
  takeMedian nWindow { w' with pindexTip := some pindexNew.hash }

structure SizeWindows where
  short : SizeWindow
  long : SizeWindow
  deriving DecidableEq

def SizeWindows.empty : SizeWindows := ⟨.empty, .empty⟩

/-- The limit that follows from the two medians, with 64-bit multiplication. -/
def nextMaxOfMedians (params : SizeParams) (medianShort medianLong : Option ℕ) : ℕ :=
  let candidate :=
    match medianShort, medianLong with
    | some s, some l => max s l * params.nBlockSizeMultiplier % 2 ^ 64
    | some s, none => s * params.nBlockSizeMultiplier % 2 ^ 64
    | none, _ => defaultNextMaxBlockSize
  min (max candidate defaultNextMaxBlockSize) defaultLargestBlockSizePossible

/-- The caller passes the parent's entry together with the size of the new block. -/
def calculateNextMaxBlockSize (params : SizeParams) (pindexPrev : Option CBlockIndex)
    (nBlockSize : ℕ) (ws : SizeWindows) : ℕ × SizeWindows :=
  match pindexPrev with
  | none => (defaultNextMaxBlockSize, ws)
  | some pindexPrev =>
    let short := calculateMedianSize pindexPrev nBlockSize params.nShortBlockWindow ws.short
    let long := calculateMedianSize pindexPrev nBlockSize params.nLongBlockWindow ws.long
    (nextMaxOfMedians params short.2 long.2, ⟨short.1, long.1⟩)

/-- The work that a header on this block has to state. The work of the header itself is a quotient
that always exists. -/
def expectedWork (pprev : Option CBlockIndex) (header : CBlockHeader) : ℕ :=
  ((pprev.map fun p => p.header.chainWork).getD 0 +
    (CompactTarget.getWorkForDifficultyBits header.nBits).toOption.getD 0) % 2 ^ 256

/-- The block index and the window caches of a running node. -/
structure Node where
  mapBlockIndex : Uint256 → Option CBlockIndex
  windows : SizeWindows

def freshNode : Node := ⟨fun _ => none, .empty⟩

/-- After a restart the index is read back with the stored limits; the caches are empty. -/
def restart (node : Node) : Node := { node with windows := .empty }

def makeIndex (header : CBlockHeader) (nNextMaxBlockSize : ℕ) : Option CBlockIndex → CBlockIndex
  | none => .root header nNextMaxBlockSize
  | some pprev => .child header nNextMaxBlockSize pprev

/-- A known header is ignored. For a new one the limit is computed, and the entry
enters the index when the header states the expected work; the caches keep the size
in either case. -/
def addToBlockIndex (params : SizeParams) (node : Node) (header : CBlockHeader) : Node :=
  match node.mapBlockIndex header.hash with
  | some _ => node
  | none =>
    let pprev := node.mapBlockIndex header.hashPrevBlock
    let next := calculateNextMaxBlockSize params pprev header.size node.windows
    if header.chainWork ≠ expectedWork pprev header then { node with windows := next.2 }
    else
      { mapBlockIndex := Function.update node.mapBlockIndex header.hash
          (some (makeIndex header next.1 pprev))
        windows := next.2 }

/-- Headers given one after the other to a node. -/
def addHeaders (params : SizeParams) (node : Node) (headers : List CBlockHeader) : Node :=
  headers.foldl (addToBlockIndex params) node

/-- The limit stored in the block with the given hash. -/
def storedNextMax (node : Node) (hash : Uint256) : Option ℕ :=
  (node.mapBlockIndex hash).map CBlockIndex.nNextMaxBlockSize

end PyrrhaNode.AdaptiveBlockSize
