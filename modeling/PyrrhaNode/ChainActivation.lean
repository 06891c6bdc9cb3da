import Mathlib.Logic.Function.Basic
import PyrrhaNode.BlockTree

/-!
# Block index, chain activation and finalisation

The part of the node that decides which chain is active: headers and blocks enter the index,
`findMostWorkChain` picks the best candidate, `activateBestChain` disconnects and connects blocks
until it is the tip, and `connectTip` moves the finalised block behind it.

A block index entry is the list of headers from the block back to the genesis block, so `[]` is
the null pointer and the tail is `pprev`.  What the node cannot decide itself (the outcome of
validating or reading a block, shutdown requests, the clock) is answered by an `Env`; the node
counts the questions it has asked, so that two questions may have different answers.  The node
also keeps a record of what it did to the active chain and to the finalised block.
-/
namespace PyrrhaNode.ChainActivation

open BlockTree

/-- A header: its hash and `GetBlockProof` of its target. -/
structure Header where
  hash : ℕ
  proof : ℕ
  deriving DecidableEq

abbrev BlockIndex := List Header

instance lawfulBEqBlockIndex : LawfulBEq BlockIndex := inferInstance

/-- `AddToBlockIndex` only keeps headers whose `chainWork` is their parent's plus their own
proof, so the work of an entry is the sum along its chain. -/
def chainWork : BlockIndex → ℕ
  | [] => 0
  | b :: pprev => chainWork pprev + b.proof

/-- The height, `-1` for the null pointer. -/
def height (p : BlockIndex) : ℤ := p.length - 1

def getAncestor (p : BlockIndex) (h : ℤ) : BlockIndex :=
  if h < 0 ∨ height p < h then [] else p.drop (height p - h).toNat

/-- The bits of `nStatus` and the other mutable fields of an index entry. -/
structure Status where
  validity : ℕ := 0
  failedValid : Bool := false
  failedChild : Bool := false
  haveData : Bool := false
  processed : Bool := false
  linked : Bool := false
  nSequenceId : ℕ := 0
  nTimeReceived : ℤ := 0

def validTree : ℕ := 2
def validTransactions : ℕ := 3
def validChain : ℕ := 4
def validScripts : ℕ := 5

namespace Status

/-- `BLOCK_FAILED_MASK` -/
def failed (s : Status) : Bool := s.failedValid || s.failedChild

def isValid (s : Status) (upTo : ℕ) : Bool := !s.failed && decide (upTo ≤ s.validity)

def raiseValidity (s : Status) (upTo : ℕ) : Status :=
  if s.failed then s else if s.validity < upTo then { s with validity := upTo } else s

end Status

/-- Who calls `DisconnectTip`. -/
inductive Caller
  | activateBestChainStep
  | invalidateBlock
  deriving DecidableEq

/-- What happened to the active chain and to the finalised block. -/
inductive ChainEvent
  /-- `DisconnectTip` removed `block` while `pindexFinalized` was `finalized`. -/
  | disconnected (caller : Caller) (block finalized : BlockIndex)
  /-- `pindexFinalized` was assigned. -/
  | finalized (old new : BlockIndex)
  /-- `ActivateBestChainStep` returned. -/
  | stepDone (tip finalized : BlockIndex)
  deriving DecidableEq

/-- What a node knows of the block tree, with a log of its moves. -/
structure Node where
  /-- `mapBlockIndex` -/
  index : List BlockIndex
  status : BlockIndex → Status
  /-- `setBlockIndexCandidates` -/
  candidates : List BlockIndex
  /-- `mapBlocksUnlinked` -/
  unlinked : List (BlockIndex × BlockIndex)
  /-- `chainActive.Tip()` -/
  tip : BlockIndex
  /-- `pindexFinalized` -/
  finalized : BlockIndex
  nBlockSequenceId : ℕ
  /-- How many questions the environment has answered. -/
  clock : ℕ
  log : List ChainEvent

/-- A node before `InitBlockIndex`. -/
def Node.fresh : Node :=
  ⟨[], fun _ => {}, [], [], [], [], 0, 0, []⟩

/-- `-maxreorgdepth`, `-finalizationdelay`, the start-up time, the download window and the
genesis header. -/
structure Config where
  maxReorgDepth : ℤ
  finalizationDelay : ℤ
  startupTime : ℤ
  downloadWindow : ℕ
  genesis : Header

/-- How an attempt to connect a block ends outside of the chain logic. -/
inductive ConnectOutcome
  | shutdown
  | unreadable
  | invalid (corruptionPossible : Bool)
  | failed
  | connected (flushed : Bool)
  deriving DecidableEq

/-- How an attempt to disconnect a block ends: before anything is changed, or with the flush. -/
inductive DisconnectOutcome
  | failed
  | disconnected (flushed : Bool)
  deriving DecidableEq

/-- The environment's answers during one call. -/
structure Env where
  now : ℤ
  connect : ℕ → ConnectOutcome
  disconnect : ℕ → DisconnectOutcome
  quit : ℕ → Bool
  shutdown : ℕ → Bool
  /-- A bound on the rounds of the loops that run until there is nothing left to do. -/
  rounds : ℕ

/-- How a function that reports through a `CValidationState` returns. -/
inductive Verdict
  | ok
  | invalid
  | error
  deriving DecidableEq

namespace Node

/-- `chainActive.Contains` -/
def contains (n : Node) (p : BlockIndex) : Bool := decide (p ≠ []) && decide (p <:+ n.tip)

/-- `chainActive.Genesis()` -/
def genesis (n : Node) : BlockIndex := n.tip.drop (n.tip.length - 1)

def mark (n : Node) (p : BlockIndex) (f : Status → Status) : Node :=
  { n with status := Function.update n.status p (f (n.status p)) }

def insertCandidate (n : Node) (p : BlockIndex) : Node :=
  if p ∈ n.candidates then n else { n with candidates := p :: n.candidates }

def eraseCandidate (n : Node) (p : BlockIndex) : Node :=
  { n with candidates := n.candidates.filter (· ≠ p) }

def tick (n : Node) : Node := { n with clock := n.clock + 1 }

def record (n : Node) (e : ChainEvent) : Node := { n with log := e :: n.log }

/-- Assigns `pindexFinalized`. -/
def setFinalized (n : Node) (p : BlockIndex) : Node :=
  { n with finalized := p, log := .finalized n.finalized p :: n.log }

/-- `CBlockIndexWorkComparator`: less work, or the same work and a later arrival. -/
def worse (n : Node) (p q : BlockIndex) : Bool :=
  if chainWork q < chainWork p then false
  else if chainWork p < chainWork q then true
  else if (n.status p).nSequenceId < (n.status q).nSequenceId then false
  else if (n.status q).nSequenceId < (n.status p).nSequenceId then true
  else false

/-- The last element of `setBlockIndexCandidates`. -/
def bestOf (n : Node) : List BlockIndex → Option BlockIndex
  | [] => none
  | p :: ps =>
    match bestOf n ps with
    | none => some p
    | some q => if n.worse q p then some p else some q

/-- Follows the chain back to the active chain and stops at a failed block or one without data;
returns where it stopped, whether a failed block was found and whether data was missing. -/
def walkToActive (n : Node) : BlockIndex → BlockIndex × Bool × Bool
  | [] => ([], false, false)
  | b :: p =>
    if n.contains (b :: p) then (b :: p, false, false)
    else if (n.status (b :: p)).failed || !(n.status (b :: p)).haveData then
      (b :: p, (n.status (b :: p)).failed, !(n.status (b :: p)).haveData)
    else walkToActive n p

/-- Takes the blocks from the candidate down to `test` out of the candidates. -/
def rejectChain (failedChain : Bool) (test : BlockIndex) : BlockIndex → Node → Node
  | [], n => n.eraseCandidate test
  | b :: p, n =>
    if test = b :: p then n.eraseCandidate test
    else
      rejectChain failedChain test p
        ((n.mark (b :: p) fun s =>
          if failedChain then { s with failedChild := true }
          else { s with linked := false, processed := false }).eraseCandidate (b :: p))

/-- A candidate that forks before the finalised block is marked invalid. -/
def rejectUnfinalized (n : Node) (p : BlockIndex) : Node :=
  if n.finalized ≠ [] ∧ areOnTheSameFork p n.finalized = false then
    n.mark p fun s => { s with failedValid := true }
  else n

def findMostWorkLoop : ℕ → Node → Node × Option BlockIndex
  | 0, n => (n, none)
  | fuel + 1, n =>
    match n.bestOf n.candidates with
    | none => (n, none)
    | some p =>
      let n := n.rejectUnfinalized p
      let walk := n.walkToActive p
      if walk.2.1 || walk.2.2 then findMostWorkLoop fuel (rejectChain walk.2.1 walk.1 p n)
      else (n, some p)

/-- Every round that does not return takes its candidate out of the set. -/
def findMostWorkChain (n : Node) : Node × Option BlockIndex :=
  findMostWorkLoop (n.candidates.length + 1) n

/-- The active tip and the ends of all other branches. -/
def chainTips (n : Node) : List BlockIndex :=
  let orphans := n.index.filter fun p => !n.contains p
  n.tip :: orphans.filter fun p => p ∉ orphans.map List.tail

/-- Marks the blocks from a tip down to, but without, the invalid block. -/
def markDown (invalid : BlockIndex) : BlockIndex → Node → Node
  | [], n => n
  | b :: p, n =>
    if b :: p = invalid then n
    else markDown invalid p
      (n.mark (b :: p) fun s => { s with failedValid := true, failedChild := true })

def markAllContainingChainsInvalid (n : Node) (invalid : BlockIndex) : Node :=
  if (n.status invalid).failed then
    n.chainTips.foldl
      (fun n tip =>
        if getAncestor tip (height invalid) = invalid then markDown invalid tip n else n)
      n
  else n

def invalidBlockFound (n : Node) (p : BlockIndex) (corruptionPossible : Bool) : Node :=
  if corruptionPossible then n
  else
    let n := (n.mark p fun s => { s with failedValid := true }).eraseCandidate p
    (findMostWorkChain (n.markAllContainingChainsInvalid p)).1

def isBlockFinalized (n : Node) (p : BlockIndex) : Bool :=
  decide (n.finalized ≠ []) && decide (getAncestor n.finalized (height p) = p)

def finalizeBlockInternal (n : Node) (p : BlockIndex) : Node × Bool :=
  if p ≠ n.genesis ∧ (n.status p).isValid validChain = false then (n, false)
  else if n.finalized ≠ [] ∧ areOnTheSameFork p n.finalized = false then (n, false)
  else if n.isBlockFinalized p then (n, true)
  else (n.setFinalized p, true)

/-- Steps back from the candidate to a block whose header is known for long enough. -/
def findOldEnough (cfg : Config) (now : ℤ) (n : Node) : BlockIndex → BlockIndex
  | [] => []
  | b :: p =>
    if b :: p = n.finalized then []
    else if (n.status (b :: p)).nTimeReceived + cfg.finalizationDelay ≤ now then b :: p
    else findOldEnough cfg now n p

def findBlockToFinalize (cfg : Config) (now : ℤ) (n : Node) (new : BlockIndex) : BlockIndex :=
  if now < cfg.startupTime + cfg.finalizationDelay then []
  else findOldEnough cfg now n (getAncestor new (height new - cfg.maxReorgDepth))

def updateTip (n : Node) (p : BlockIndex) : Node := { n with tip := p }

/-- If the tip is finalised, then undo it. -/
def undoFinalized (n : Node) : Node :=
  if n.finalized = n.tip then n.setFinalized n.tip.tail else n

def disconnectTip (caller : Caller) (env : Env) (n : Node) : Node × Bool :=
  match env.disconnect n.clock with
  | .failed => (n.tick, false)
  | .disconnected flushed =>
    ((n.tick.record (.disconnected caller n.tip n.finalized)).undoFinalized.updateTip n.tip.tail,
      flushed)

/-- The finalised block moves after the block is connected and before it is the tip. -/
def finalizeBehind (cfg : Config) (now : ℤ) (n : Node) (new : BlockIndex) : Node × Bool :=
  if 0 ≤ cfg.maxReorgDepth then
    if findBlockToFinalize cfg now n new = [] then (n, true)
    else n.finalizeBlockInternal (findBlockToFinalize cfg now n new)
  else (n.setFinalized [], true)

/-- `ConnectBlock` raises the validity of every block but the genesis block. -/
def connectBlock (n : Node) (p : BlockIndex) : Node :=
  if p.tail = [] then n else n.mark p fun s => s.raiseValidity validScripts

def connectTip (cfg : Config) (env : Env) (n : Node) (p : BlockIndex) : Node × Verdict :=
  let outcome := env.connect n.clock
  let n := n.tick
  if outcome = .shutdown ∨ p.tail ≠ n.tip then (n, .error)
  else match outcome with
  | .invalid corruptionPossible => (n.invalidBlockFound p corruptionPossible, .invalid)
  | .connected flushed =>
    match (n.connectBlock p).finalizeBehind cfg env.now p with
    | (n, true) => (n.updateTip p, if flushed then .ok else .error)
    | (n, false) => (n, .invalid)
  | _ => (n, .error)

/-- Erases the candidates that are worse than the tip. -/
def pruneBlockIndexCandidates (n : Node) : Node :=
  { n with candidates := n.candidates.filter fun p => !n.worse p n.tip }

/-- Disconnects blocks until the fork is the tip. -/
def disconnectTo (env : Env) (fork : BlockIndex) : ℕ → Node → Node × Bool
  | 0, n => (n, true)
  | fuel + 1, n =>
    if n.tip = [] ∨ n.tip = fork then (n, true)
    else if env.quit n.clock then (n.tick, false)
    else
      match n.disconnectTip .activateBestChainStep env with
      | (n, true) => disconnectTo env fork fuel n
      | (n, false) => (n, false)

/-- `vpindexToConnect`: the blocks of `p` above the first `count`, newest first. -/
def toConnect (count : ℕ) : BlockIndex → List BlockIndex
  | [] => []
  | b :: p => if (b :: p).length = count then [] else (b :: p) :: toConnect count p

/-- How the loop over the blocks to connect ends. -/
inductive Progress
  | connected
  | invalidFound
  | returned (result : Bool)
  deriving DecidableEq

def connectBlocks (cfg : Config) (env : Env) (mostWork : BlockIndex) :
    List BlockIndex → Node → Node × Progress
  | [], n => (n, .connected)
  | p :: ps, n =>
    match n.findMostWorkChain with
    | (n, none) => (n, .returned false)
    | (n, some newMostWork) =>
      if chainWork mostWork < chainWork newMostWork then (n, .returned true)
      else
        match n.connectTip cfg env p with
        | (n, .invalid) => (n, .invalidFound)
        | (n, .error) => (n, .returned false)
        | (n, .ok) =>
          if env.shutdown n.clock then (n.pruneBlockIndexCandidates.tick, .returned false)
          else connectBlocks cfg env mostWork ps n.pruneBlockIndexCandidates.tick

/-- The rounds of `vpindexToConnect`; `count` is `nHeight + 1`. -/
def connectRounds (cfg : Config) (env : Env) : ℕ → ℕ → BlockIndex → Node → Node × Verdict
  | 0, _, _, n => (n, .error)
  | fuel + 1, count, mostWork, n =>
    if mostWork.length ≤ count then (n, .ok)
    else
      let target := min (count + cfg.downloadWindow) mostWork.length
      let blocks := toConnect count (mostWork.drop (mostWork.length - target))
      match connectBlocks cfg env mostWork blocks.reverse n with
      | (n, .returned result) => (n, if result then .ok else .error)
      | (n, .invalidFound) => (n, .invalid)
      | (n, .connected) =>
        match n.findMostWorkChain with
        | (n, none) => (n, .error)
        | (n, some mostWork) => connectRounds cfg env fuel target mostWork n

def switchTo (cfg : Config) (env : Env) (n : Node) (mostWork : BlockIndex) : Node × Verdict :=
  let fork := findFork n.tip mostWork
  match disconnectTo env fork n.tip.length n with
  | (n, false) => (n, .error)
  | (n, true) => connectRounds cfg env env.rounds fork.length mostWork n

def activateBestChainStep (cfg : Config) (env : Env) (n : Node) (mostWork : BlockIndex) :
    Node × Verdict :=
  let result := n.switchTo cfg env mostWork
  (result.1.record (.stepDone result.1.tip result.1.finalized), result.2)

/-- With parallel validation the candidate of the same work that arrived first is preferred. -/
def lowestSequence (n : Node) (mostWork : BlockIndex) : BlockIndex :=
  n.candidates.foldl
    (fun best p =>
      if chainWork p = chainWork best ∧ (n.status p).nSequenceId < (n.status best).nSequenceId
      then p else best)
    mostWork

/-- With parallel validation a block that extends the tip is tried itself; `none` is an early
return. -/
def preferBlock (n : Node) (parallel : Bool) (mostWork : BlockIndex) :
    Option BlockIndex → Option BlockIndex
  | none => some mostWork
  | some block =>
    if n.tip ≠ [] ∧ n.tip ≠ n.genesis ∧ parallel ∧ block.tail = n.tip then
      if block ∉ n.index ∨ chainWork block ≤ chainWork n.tip then none else some block
    else some mostWork

/-- The chain to switch to, or `none` when there is nothing to do. -/
def chooseChain (n : Node) (parallel : Bool) (block : Option BlockIndex) (mostWork : BlockIndex) :
    Option BlockIndex :=
  let mostWork := if parallel && block.isSome then n.lowestSequence mostWork else mostWork
  if n.tip ≠ [] ∧ chainWork mostWork ≤ chainWork n.tip then none
  else n.preferBlock parallel mostWork block

def activateBestChain (cfg : Config) (env : Env) (parallel : Bool) :
    ℕ → Option BlockIndex → Node → Node
  | 0, _, n => n
  | fuel + 1, block, n =>
    if env.shutdown n.clock then n.tick
    else
      match n.tick.findMostWorkChain with
      | (n, none) => n
      | (n, some mostWork) =>
        match n.chooseChain parallel block mostWork with
        | none => n
        | some chosen =>
          match n.activateBestChainStep cfg env chosen with
          | (n, .error) => n
          | (n, _) =>
            match n.findMostWorkChain with
            | (n, none) => n
            | (n, some mostWork) =>
              if chainWork n.tip < chainWork mostWork then
                activateBestChain cfg env parallel fuel none n
              else n

/-- A header or block message, its parent already looked up, and how its checks come out. -/
structure Arrival where
  header : Header
  prev : BlockIndex
  /-- The work the header commits to. -/
  claimedWork : ℕ
  now : ℤ
  /-- `CheckBlockHeader` and `ContextualCheckBlockHeader` -/
  headerChecks : Bool
  /-- `CheckAgainstCheckpoint` -/
  checkpoint : Bool
  /-- `CheckBlock` and `ContextualCheckBlock`; `some corruptionPossible` is a failure. -/
  blockChecks : Option Bool
  /-- The header commits to the number of transactions of the block. -/
  txCount : Bool
  requested : Bool

def Arrival.block (a : Arrival) : BlockIndex := a.header :: a.prev

def addToBlockIndex (n : Node) (a : Arrival) : Node :=
  if a.claimedWork ≠ chainWork a.block then n
  else
    { n with
      index := a.block :: n.index
      status := Function.update n.status a.block
        { validity := validTree
          failedChild := (n.status a.prev).failed
          failedValid := !a.checkpoint
          nTimeReceived := a.now } }

/-- Returns whether the header is in the index and may be built on. -/
def acceptBlockHeader (cfg : Config) (n : Node) (a : Arrival) : Node × Bool :=
  if a.block ∈ n.index then (n, a.block = [cfg.genesis] || !(n.status a.block).failed)
  else if a.block = [cfg.genesis] then (n.addToBlockIndex a, true)
  else if a.headerChecks = false ∨ a.prev ∉ n.index ∨ (n.status a.prev).failed then (n, false)
  else (n.addToBlockIndex a, true)

/-- The next sequence id. -/
def assignSequence (n : Node) (p : BlockIndex) : Node :=
  { (n.mark p fun s => { s with nSequenceId := n.nBlockSequenceId + 1 }) with
    nBlockSequenceId := n.nBlockSequenceId + 1 }

/-- A block that is not worse than the tip becomes a candidate. -/
def offerCandidate (n : Node) (p : BlockIndex) : Node :=
  if n.tip = [] ∨ n.worse p n.tip = false then n.insertCandidate p else n

/-- Makes a block and the waiting blocks on top of it candidates. -/
def linkDescendants : ℕ → List BlockIndex → Node → Node
  | 0, _, n => n
  | _, [], n => n
  | fuel + 1, p :: queue, n =>
    let n := if (n.status p).nSequenceId = 0 then n.assignSequence p else n
    let n := n.offerCandidate p
    let waiting := (n.unlinked.filter (·.1 = p)).map Prod.snd
    linkDescendants fuel (queue ++ waiting)
      ({ n with unlinked := n.unlinked.filter (·.1 ≠ p) }.mark p fun s => { s with linked := true })

/-- At most the waiting blocks are queued after the first. -/
def receivedBlockTransactions (n : Node) (p : BlockIndex) (txCount : Bool) : Node :=
  let n := (n.mark p fun s => { s with processed := true, haveData := true }).assignSequence p
  let n := n.mark p fun s =>
    if txCount then s.raiseValidity validTransactions else { s with failedValid := true }
  if p.tail = [] ∨ (n.status p.tail).linked then linkDescendants (n.unlinked.length + 1) [p] n
  else if (n.status p.tail).isValid validTree then
    { (n.mark p fun s => { s with linked := false }) with
      unlinked := (p.tail, p) :: n.unlinked }
  else n

/-- `MIN_BLOCKS_TO_KEEP` -/
def minBlocksToKeep : ℤ := 288

def acceptBlock (cfg : Config) (n : Node) (a : Arrival) : Node :=
  let (n, accepted) := n.acceptBlockHeader cfg a
  let p := a.block
  if accepted = false ∨ p ∉ n.index then n
  else if (n.status p).haveData then n
  else if a.requested = false ∧
      ((n.status p).processed ∨ (n.tip ≠ [] ∧ chainWork p ≤ chainWork n.tip) ∨
        height n.tip + minBlocksToKeep < height p) then n
  else
    match a.blockChecks with
    | some true => n
    | some false =>
      (n.mark p fun s => { s with failedValid := true }).markAllContainingChainsInvalid p
    | none => n.receivedBlockTransactions p a.txCount

/-- Disconnects blocks while the block is on the active chain. -/
def disconnectWhile (env : Env) (p : BlockIndex) : ℕ → Node → Node × Bool
  | 0, n => (n, true)
  | fuel + 1, n =>
    if n.contains p then
      let n := (n.mark n.tip fun s => { s with failedChild := true }).eraseCandidate n.tip
      match n.disconnectTip .invalidateBlock env with
      | (n, true) => disconnectWhile env p fuel n
      | (n, false) => (n, false)
    else (n, true)

/-- Valid and linked blocks that are not worse than the tip become candidates again. -/
def restoreCandidates (n : Node) : Node :=
  n.index.foldl
    (fun n p =>
      if (n.status p).isValid validTransactions && (n.status p).linked && !n.worse p n.tip then
        n.insertCandidate p
      else n)
    n

def invalidateBlock (env : Env) (n : Node) (p : BlockIndex) : Node :=
  let marked := (n.mark p fun s => { s with failedValid := true }).eraseCandidate p
  match disconnectWhile env p n.tip.length marked with
  | (n, false) => n
  | (n, true) => (n.restoreCandidates.markAllContainingChainsInvalid p).findMostWorkChain.1

def finalizeBlockAndInvalidate (env : Env) (n : Node) (p : BlockIndex) : Node :=
  match n.finalizeBlockInternal p with
  | (n, false) => n
  | (n, true) =>
    if areOnTheSameFork p n.tip then n
    else n.invalidateBlock env (getAncestor n.tip (height (findFork n.tip p) + 1))

/-- The `finalizeblock` request is refused when finalisation is disabled. -/
def finalizeBlock (cfg : Config) (env : Env) (n : Node) (p : BlockIndex) : Node :=
  if cfg.maxReorgDepth < 0 ∨ p ∉ n.index then n else n.finalizeBlockAndInvalidate env p

end Node

open Node

/-- What can happen to a node. -/
inductive Action
  | headerArrives (a : Arrival)
  | blockArrives (a : Arrival)
  | activate (env : Env) (parallel : Bool) (block : Option BlockIndex)
  | invalidFound (p : BlockIndex) (corruptionPossible : Bool)
  | invalidate (env : Env) (p : BlockIndex)
  | finalize (env : Env) (p : BlockIndex)

def Node.step (cfg : Config) (n : Node) : Action → Node
  | .headerArrives a => (n.acceptBlockHeader cfg a).1
  | .blockArrives a => n.acceptBlock cfg a
  | .activate env parallel block => activateBestChain cfg env parallel env.rounds block n
  | .invalidFound p corruptionPossible => n.invalidBlockFound p corruptionPossible
  | .invalidate env p => n.invalidateBlock env p
  | .finalize env p => n.finalizeBlock cfg env p

/-- The nodes of the runs from a fresh node in which every action is `allowed` where it is
taken. -/
inductive Reachable (cfg : Config) (allowed : Node → Action → Prop) : Node → Prop
  | fresh : Reachable cfg allowed Node.fresh
  | step {n : Node} {a : Action} (reached : Reachable cfg allowed n) (ok : allowed n a) :
      Reachable cfg allowed (n.step cfg a)

end PyrrhaNode.ChainActivation
