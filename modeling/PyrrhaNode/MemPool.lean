import PyrrhaNode.Ancestry

/-!
# The mempool and its ancestor state

Every entry of the mempool carries four totals over itself and its ancestors in the pool:
their number, their size, their modified fees and their signature operations. The totals
are kept up to date incrementally along the links between parents and children; an entry
whose totals are not known is marked dirty until a block is processed.

Ids and idems are of one ordered type and outpoints of another. Sets of entries are sets
of ids, in whose order the loops go through them. Amounts and counts are unbounded.
-/
namespace PyrrhaNode.MemPool
open Function Ancestry

/-- The totals that are kept. -/
inductive Stat
  | count
  | size
  | fee
  | sigOps
  deriving DecidableEq

abbrev AncestorState := Stat → ℤ

/-- The state with the given numbers. -/
def AncestorState.of (count size fee sigOps : ℤ) : AncestorState
  | .count => count
  | .size => size
  | .fee => fee
  | .sigOps => sigOps

/-- What the mempool reads of a transaction; `vout` are the outpoints of its outputs. -/
structure Tx (Id Out : Type) where
  id : Id
  idem : Id
  vin : List Out
  vout : List Out
  txSize : ℤ

structure CTxMemPoolEntry (Id Out : Type) where
  tx : Tx Id Out
  nFee : ℤ
  sigOpCount : ℤ
  feeDelta : ℤ
  withAncestors : AncestorState
  fDirty : Bool

namespace CTxMemPoolEntry
variable {Id Out : Type}

/-- The constructor: the totals are those of the transaction alone. -/
def new (tx : Tx Id Out) (nFee sigOpCount : ℤ) : CTxMemPoolEntry Id Out where
  tx := tx
  nFee := nFee
  sigOpCount := sigOpCount
  feeDelta := 0
  withAncestors := .of 1 tx.txSize nFee sigOpCount
  fDirty := false

def getModifiedFee (e : CTxMemPoolEntry Id Out) : ℤ := e.nFee + e.feeDelta

/-- What the entry adds to the totals. -/
def own (e : CTxMemPoolEntry Id Out) : AncestorState :=
  .of 1 e.tx.txSize e.getModifiedFee e.sigOpCount

/-- The same with the fee that `GetFee` returns, without the delta. -/
def ownUnmodified (e : CTxMemPoolEntry Id Out) : AncestorState :=
  .of 1 e.tx.txSize e.nFee e.sigOpCount

def updateFeeDelta (newFeeDelta : ℤ) (e : CTxMemPoolEntry Id Out) : CTxMemPoolEntry Id Out :=
  { e with
    withAncestors := e.withAncestors + .of 0 0 (newFeeDelta - e.feeDelta) 0
    feeDelta := newFeeDelta }

def updateAncestorState (modify : AncestorState) (dirty : Bool) (e : CTxMemPoolEntry Id Out) :
    CTxMemPoolEntry Id Out :=
  { e with withAncestors := e.withAncestors + modify, fDirty := dirty }

def replaceAncestorState (state : AncestorState) (dirty : Bool) (e : CTxMemPoolEntry Id Out) :
    CTxMemPoolEntry Id Out :=
  { e with withAncestors := state, fDirty := dirty }

end CTxMemPoolEntry

/-- The mempool. `mapTx` has the ids `ids`; `byIdem` is its second index; `parents` and
`children` are `mapLinks`; of `mapNextTx` and `outpointMap` the ids are kept. -/
@[ext]
structure CTxMemPool (Id Out : Type) where
  ids : Finset Id
  mapTx : Id → Option (CTxMemPoolEntry Id Out)
  byIdem : Id → Option Id
  parents : Id → Finset Id
  children : Id → Finset Id
  mapNextTx : Out → Option Id
  outpointMap : Out → Option Id
  mapDeltas : Id → Option ℤ
  setDirtyTxnChainTips : Finset Id

def maxUpdatedChainState : ℕ := 500

namespace CTxMemPool
variable {Id Out : Type} [LinearOrder Id] [DecidableEq Out]

def empty : CTxMemPool Id Out where
  ids := ∅
  mapTx := fun _ => none
  byIdem := fun _ => none
  parents := fun _ => ∅
  children := fun _ => ∅
  mapNextTx := fun _ => none
  outpointMap := fun _ => none
  mapDeltas := fun _ => none
  setDirtyTxnChainTips := ∅

variable (p : CTxMemPool Id Out)

def vin (a : Id) : List Out := (p.mapTx a).elim [] (·.tx.vin)
def vout (a : Id) : List Out := (p.mapTx a).elim [] (·.tx.vout)
def own (a : Id) : AncestorState := (p.mapTx a).elim 0 (·.own)
def ownUnmodified (a : Id) : AncestorState := (p.mapTx a).elim 0 (·.ownUnmodified)
def withAncestors (a : Id) : AncestorState := (p.mapTx a).elim 0 (·.withAncestors)
def isDirty (a : Id) : Bool := (p.mapTx a).elim false (·.fDirty)
def feeDelta (a : Id) : ℤ := (p.mapTx a).elim 0 (·.feeDelta)

/-- `mapTx.modify`. -/
def modify (a : Id) (f : CTxMemPoolEntry Id Out → CTxMemPoolEntry Id Out) : CTxMemPool Id Out :=
  { p with mapTx := update p.mapTx a ((p.mapTx a).map f) }

/-- The same change of several entries. -/
def modifyAll (s : Finset Id) (f : CTxMemPoolEntry Id Out → CTxMemPoolEntry Id Out) :
    CTxMemPool Id Out :=
  (ascending s).foldl (fun p a => p.modify a f) p

def updateParent (a parent : Id) (add : Bool) : CTxMemPool Id Out :=
  let linked := if add then insert parent (p.parents a) else (p.parents a).erase parent
  { p with parents := update p.parents a linked }

def updateChild (a child : Id) (add : Bool) : CTxMemPool Id Out :=
  let linked := if add then insert child (p.children a) else (p.children a).erase child
  { p with children := update p.children a linked }

/-- Adds or removes the entry as a child of each of its parents. -/
def updateAncestorsOf (add : Bool) (it : Id) : CTxMemPool Id Out :=
  (ascending (p.parents it)).foldl (fun p parent => p.updateChild parent it add) p

def updateChildrenForRemoval (it : Id) : CTxMemPool Id Out :=
  (ascending (p.children it)).foldl (fun p child => p.updateParent child it false) p

/-- The number of rounds the searches may take. A round of the search for ancestors that
does not visit a new entry takes one away that is in the block. -/
def searchFuel : ℕ := (p.ids.card + 1) ^ 2

/-- The inner loop of `_CalculateMemPoolAncestors` over the parents of the staged entry. The
error is the set that is returned when there are too many. -/
def stageParents (limitAncestorCount : WithTop ℕ) (setAncestors : Finset Id) :
    List Id → Finset Id → Except (Finset Id) (Finset Id)
  | [], parentHashes => .ok parentHashes
  | phash :: rest, parentHashes =>
    let parentHashes := if phash ∈ setAncestors then parentHashes else insert phash parentHashes
    if limitAncestorCount < ((parentHashes.card + setAncestors.card : ℕ) : WithTop ℕ) then
      .error (setAncestors ∪ parentHashes)
    else stageParents limitAncestorCount setAncestors rest parentHashes

def ancestorLoop (limitAncestorCount : WithTop ℕ) (inBlock : Finset Id) :
    ℕ → Finset Id → Finset Id → Finset Id
  | 0, _, setAncestors => setAncestors
  | fuel + 1, parentHashes, setAncestors =>
    if h : parentHashes.Nonempty then
      let stageit := parentHashes.min' h
      if stageit ∈ inBlock then
        ancestorLoop limitAncestorCount inBlock fuel (parentHashes.erase stageit) setAncestors
      else
        let setAncestors := insert stageit setAncestors
        match stageParents limitAncestorCount setAncestors
            (ascending (p.parents stageit)) parentHashes with
        | .error found => found
        | .ok parentHashes =>
          ancestorLoop limitAncestorCount inBlock fuel (parentHashes.erase stageit) setAncestors
    else setAncestors

/-- The parents of a transaction by its inputs, or nothing if there are too many. -/
def searchParents (limitAncestorCount : WithTop ℕ) : List Out → Finset Id → Option (Finset Id)
  | [], parentHashes => some parentHashes
  | prevout :: rest, parentHashes =>
    match p.outpointMap prevout with
    | none => searchParents limitAncestorCount rest parentHashes
    | some phash =>
      if phash ∈ p.ids then
        let parentHashes := insert phash parentHashes
        if limitAncestorCount < ((parentHashes.card + 1 : ℕ) : WithTop ℕ) then none
        else searchParents limitAncestorCount rest parentHashes
      else searchParents limitAncestorCount rest parentHashes

/-- `_CalculateMemPoolAncestors` with `fSearchForParents`. -/
def calculateMemPoolAncestors (it : Id) (setAncestors : Finset Id)
    (limitAncestorCount : WithTop ℕ) : Finset Id :=
  match p.searchParents limitAncestorCount (p.vin it) ∅ with
  | none => setAncestors
  | some parentHashes =>
    p.ancestorLoop limitAncestorCount ∅ p.searchFuel parentHashes setAncestors

/-- `_CalculateMemPoolAncestors` along the links, up to the entries in `inBlock`. -/
def calculateLinkedAncestors (it : Id) (inBlock : Finset Id) : Finset Id :=
  p.ancestorLoop ⊤ inBlock p.searchFuel (p.parents it) ∅

/-- `_CalculateDescendants`, which does not go on at the given chain tips. -/
def calculateDescendants (it : Id) (setDescendants tips : Finset Id) : Finset Id :=
  explore (fun a => (p.children a).filter (· ∉ tips)) p.searchFuel
    (if it ∈ setDescendants then ∅ else {it}) setDescendants

/-- Chain tips with the ancestor state that they had. -/
structure History (Id : Type) where
  keys : Finset Id
  state : Id → AncestorState

/-- `emplace` of the current state. -/
def emplaceState (h : History Id) (a : Id) : History Id :=
  if a ∈ h.keys then h
  else ⟨insert a h.keys, update h.state a (p.withAncestors a)⟩

def updateEntryForAncestors (it : Id) : CTxMemPool Id Out :=
  let setParents := p.parents it
  let update := ∑ a ∈ setParents, p.withAncestors a
  let fParentIsDirty := decide (∃ a ∈ setParents, p.isDirty a = true)
  if 1 < setParents.card ∨ fParentIsDirty then
    if update .count ≤ maxUpdatedChainState ∧ ¬ fParentIsDirty then
      let setAncestors := (p.calculateMemPoolAncestors it ∅ maxUpdatedChainState).erase it
      p.modify it (·.updateAncestorState (∑ a ∈ setAncestors, p.ownUnmodified a) false)
    else
      let p := if fParentIsDirty then p
        else { p with setDirtyTxnChainTips := insert it p.setDirtyTxnChainTips }
      p.modify it (·.updateAncestorState update true)
  else p.modify it (·.updateAncestorState update false)

/-- The loop of `CalculateTxnChainTips`: the ancestors without parents. -/
def chainTipLoop : ℕ → Finset Id → History Id → History Id
  | 0, _, tips => tips
  | fuel + 1, parents, tips =>
    if h : parents.Nonempty then
      let parentIter := parents.min' h
      let parents := parents.erase parentIter
      if p.parents parentIter = ∅ then chainTipLoop fuel parents (p.emplaceState tips parentIter)
      else chainTipLoop fuel (parents ∪ p.parents parentIter) tips
    else tips

def calculateTxnChainTips (it : Id) : History Id :=
  p.chainTipLoop (2 ^ p.ids.card) (p.parents it) ⟨∅, fun _ => 0⟩

/-- The first loop of `UpdateTxnChainState`: the totals of a chain tip are summed up anew. -/
def replaceTip (tip : Id) : CTxMemPool Id Out :=
  p.modify tip (·.replaceAncestorState
    (∑ a ∈ p.calculateMemPoolAncestors tip {tip} ⊤, p.own a) false)

/-- The second loop of `UpdateTxnChainState`: the difference is added to the descendants. -/
def applyTip (tips : History Id) (tip : Id) : CTxMemPool Id Out :=
  p.modifyAll ((p.calculateDescendants tip ∅ tips.keys).erase tip)
    (·.updateAncestorState (p.withAncestors tip - tips.state tip) false)

/-- `UpdateTxnChainState` for a set of chain tips. -/
def updateTxnChainStates (tips : History Id) : CTxMemPool Id Out :=
  let p := (ascending tips.keys).foldl replaceTip p
  (ascending tips.keys).foldl (fun p tip => p.applyTip tips tip) p

/-- `UpdateTxnChainState` for one entry. -/
def updateTxnChainState (it : Id) : CTxMemPool Id Out :=
  if p.isDirty it then
    let tips := p.calculateTxnChainTips it
    if tips.keys = ∅ then p else p.updateTxnChainStates tips
  else p

/-- `mapTx.insert` with the new links: nothing happens if the idem is there, and the entry
that is returned is the one with this idem. -/
def insertEntry (e : CTxMemPoolEntry Id Out) : CTxMemPool Id Out × Id :=
  match p.byIdem e.tx.idem with
  | some a => (p, a)
  | none =>
    ({ p with
      ids := insert e.tx.id p.ids
      mapTx := update p.mapTx e.tx.id (some e)
      byIdem := update p.byIdem e.tx.idem (some e.tx.id)
      parents := update p.parents e.tx.id ∅
      children := update p.children e.tx.id ∅ }, e.tx.id)

/-- The fee delta set by `PrioritiseTransaction` for the id or else for the idem. -/
def applyDelta (tx : Tx Id Out) (newit : Id) : CTxMemPool Id Out :=
  match (p.mapDeltas tx.id).orElse fun _ => p.mapDeltas tx.idem with
  | some delta => if delta = 0 then p else p.modify newit (·.updateFeeDelta delta)
  | none => p

def emplaceOut (map : Out → Option Id) (a : Id) (o : Out) : Out → Option Id :=
  if (map o).isSome then map else update map o (some a)

def emplaceOutpoints (newit : Id) : CTxMemPool Id Out :=
  { p with
    mapNextTx := (p.vin newit).foldl (fun map o => emplaceOut map newit o) p.mapNextTx
    outpointMap := (p.vout newit).foldl (fun map o => emplaceOut map newit o) p.outpointMap }

def linkParents (newit : Id) : CTxMemPool Id Out :=
  (p.vin newit).foldl (fun q prev =>
    match p.outpointMap prev with
    | none => q
    | some phash => if phash ∈ p.ids then q.updateParent newit phash true else q) p

def addUnchecked (e : CTxMemPoolEntry Id Out) : CTxMemPool Id Out :=
  if e.tx.id ∈ p.ids then p
  else
    let (p, newit) := p.insertEntry e
    let p := p.applyDelta e.tx newit
    let p := p.emplaceOutpoints newit
    let p := p.linkParents newit
    let p := p.updateAncestorsOf true newit
    p.updateEntryForAncestors newit

def eraseOuts (map : Out → Option Id) (outs : List Out) : Out → Option Id :=
  fun o => if o ∈ outs then none else map o

def removeUnchecked (it : Id) : CTxMemPool Id Out :=
  { p with
    mapNextTx := eraseOuts p.mapNextTx (p.vin it)
    outpointMap := eraseOuts p.outpointMap (p.vout it)
    parents := update p.parents it ∅
    children := update p.children it ∅
    byIdem := match p.mapTx it with
      | some e => update p.byIdem e.tx.idem none
      | none => p.byIdem
    mapTx := update p.mapTx it none
    ids := p.ids.erase it }

def removeStaged (stage : Finset Id) : CTxMemPool Id Out :=
  let p := (ascending stage).foldl (fun p it => p.updateAncestorsOf false it) p
  let p := (ascending stage).foldl updateChildrenForRemoval p
  (ascending stage).foldl removeUnchecked p

/-- The entry of the transaction, or else the entries that spend its outputs. -/
def removalRoots (tx : Tx Id Out) : Finset Id :=
  if tx.id ∈ p.ids then {tx.id} else (tx.vout.filterMap p.mapNextTx).toFinset

def removeRecursive (tx : Tx Id Out) : CTxMemPool Id Out :=
  p.removeStaged ((ascending (p.removalRoots tx)).foldl
    (fun setAllRemoves it => p.calculateDescendants it setAllRemoves ∅) ∅)

def removeConflicts (tx : Tx Id Out) : CTxMemPool Id Out :=
  tx.vin.foldl (fun p prevout =>
    match (p.mapNextTx prevout).bind p.mapTx with
    | some conflict => if conflict.tx.id = tx.id then p else p.removeRecursive conflict.tx
    | none => p) p

/-- What the first loop of `removeForBlock` gathers. -/
structure BlockScan (Id Out : Type) where
  pool : CTxMemPool Id Out
  tips : History Id
  setAncestorsFromBlock : Finset Id
  setTxnsInBlock : Finset Id

/-- The children of a transaction in the block become chain tips without this parent. -/
def detachChildren (p : CTxMemPool Id Out) (tips : History Id) (it : Id) :
    CTxMemPool Id Out × History Id :=
  (ascending (p.children it)).foldl
    (fun acc child => (acc.1.updateParent child it false, acc.1.emplaceState acc.2 child))
    (p, tips)

def scanTx (s : BlockScan Id Out) (tx : Tx Id Out) : BlockScan Id Out :=
  if tx.id ∈ s.pool.ids then
    let setAncestors := s.pool.calculateLinkedAncestors tx.id s.setAncestorsFromBlock
    let (pool, tips) := detachChildren s.pool s.tips tx.id
    ⟨pool, tips, s.setAncestorsFromBlock ∪ setAncestors, insert tx.id s.setTxnsInBlock⟩
  else s

/-- The dirty chain tips that are still in the pool. -/
def addDirtyTips (tips : History Id) : History Id :=
  (ascending (p.setDirtyTxnChainTips ∩ p.ids)).foldl p.emplaceState tips

/-- The descendants of the chain tips with more than one parent. -/
def additionalChainTips (tips : History Id) : Finset Id :=
  tips.keys.biUnion fun tip =>
    (p.calculateDescendants tip ∅ tips.keys).filter fun a => 1 < (p.parents a).card

def removeForBlock (vtx : List (Tx Id Out)) : CTxMemPool Id Out :=
  let s := vtx.foldl scanTx ⟨p, ⟨∅, fun _ => 0⟩, ∅, ∅⟩
  let tips := s.pool.addDirtyTips s.tips
  let p := { s.pool with setDirtyTxnChainTips := ∅ }
  let p := (ascending s.setTxnsInBlock).foldl removeUnchecked p
  let tips : History Id := ⟨tips.keys \ s.setTxnsInBlock, tips.state⟩
  let p := (ascending (s.setAncestorsFromBlock \ s.setTxnsInBlock)).foldl removeUnchecked p
  let tips := (ascending (p.additionalChainTips tips)).foldl p.emplaceState tips
  let p := p.updateTxnChainStates tips
  vtx.foldl removeConflicts p

/-- The entry with the id, or else the one with the idem. -/
def find (h : Id) : Option Id := if h ∈ p.ids then some h else p.byIdem h

/-- `PrioritiseTransaction`; of the deltas only the one of the fee is kept. -/
def prioritiseTransaction (h : Id) (nFeeDelta : ℤ) : CTxMemPool Id Out :=
  let delta := (p.mapDeltas h).getD 0 + nFeeDelta
  let p := { p with mapDeltas := update p.mapDeltas h (some delta) }
  match p.find h with
  | none => p
  | some it =>
    let p := p.updateTxnChainState it
    let p := p.modify it (·.updateFeeDelta delta)
    p.modifyAll ((p.calculateDescendants it ∅ ∅).erase it)
      (·.updateAncestorState (.of 0 0 nFeeDelta 0) false)

end CTxMemPool
end PyrrhaNode.MemPool
