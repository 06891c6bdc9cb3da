import PyrrhaNode.FastFilter
import PyrrhaNode.Transaction

/-!
# The queues of transaction admission

Transactions wait in `txInQ` or `txDeferQ`, are validated by the admission threads one by
one, wait again in `txCommitQ` and are moved into the mempool by `CommitTxToMempool`.
Validation compares a transaction with the mempool only. That two transactions on their
way do not spend the same outpoint is left to the filter `incomingConflicts`, which
`CommitTxToMempool` resets, and to the corral, which keeps the admission threads out of
their section while a commit runs.

The machine takes one step for each section of code that runs under one lock or ends
with the corral; the threads are numbered and each has a program counter. Validation
beyond the test for a double spend is left open: it may reject any transaction at any
time.
-/
namespace PyrrhaNode.TxAdmission
open ByteCodec Serialize Transaction FastFilter

/-- What the queues read of a transaction. -/
structure Tx where
  id : Uint256
  vin : List COutPoint
  deriving DecidableEq

/-- The order of `std::map<uint256, ...>`: blobs are compared as little-endian numbers. -/
def idValue (id : Uint256) : ℕ := ofLeBytes id.data

/-- `emplace` of a map by id, which is kept as the list of its values in the order of the
keys: an entry that is there already stays. -/
def emplace (tx : Tx) : List Tx → List Tx
  | [] => [tx]
  | t :: rest =>
    if t.id = tx.id then t :: rest
    else if idValue tx.id < idValue t.id then tx :: t :: rest
    else t :: emplace tx rest

structure Queues where
  txInQ : List Tx
  txDeferQ : List Tx
  incomingConflicts : CFastFilter (4 * 1024 * 1024) 16
  deriving DecidableEq

def incomingConflictHash (prevout : COutPoint) : Uint256 := prevout.hash

/-- The loop of `TestConflictEnqueueTx` over the inputs: it ends at the first conflict,
with the bits of that input set and those of the later inputs untouched. -/
def testInputs (f : CFastFilter (4 * 1024 * 1024) 16) :
    List COutPoint → Bool × CFastFilter (4 * 1024 * 1024) 16
  | [] => (false, f)
  | prevout :: rest =>
    let checked := f.checkAndSet (incomingConflictHash prevout)
    if checked.1 then testInputs checked.2 rest else (true, checked.2)

def testConflictEnqueueTx (q : Queues) (tx : Tx) : Queues :=
  let tested := testInputs q.incomingConflicts tx.vin
  if tested.1 then { q with txDeferQ := q.txDeferQ ++ [tx], incomingConflicts := tested.2 }
  else { q with txInQ := q.txInQ ++ [tx], incomingConflicts := tested.2 }

def enqueueTxForAdmission (q : Queues) (tx : Tx) : Queues :=
  if 1000 < q.txDeferQ.length then { q with txDeferQ := q.txDeferQ ++ [tx] }
  else testConflictEnqueueTx q tx

def minCommitBatchSize : ℕ := 10000

/-- How many deferred transactions a commit takes up again. -/
def maxmove (avgCommitBatchSize : ℕ) : ℕ := max (avgCommitBatchSize * 2) minCommitBatchSize

/-- The filter is reset, what is left in `txInQ` goes behind the deferred transactions, and
the first of these goes to `txInQ` without a test. -/
def resetConflicts (q : Queues) : Queues :=
  match q.txDeferQ ++ q.txInQ with
  | [] => ⟨[], [], q.incomingConflicts.reset⟩
  | first :: rest =>
    ⟨[first], rest,
      first.vin.foldl (fun f prevout => f.insert (incomingConflictHash prevout))
        q.incomingConflicts.reset⟩

/-- The first section of the requeueing: the result is `mapWasDeferred` and the queues. -/
def takeDeferred (avgCommitBatchSize : ℕ) (q : Queues) : List Tx × Queues :=
  let q := resetConflicts q
  ((q.txDeferQ.take (maxmove avgCommitBatchSize)).foldl (fun map tx => emplace tx map) [],
    { q with txDeferQ := q.txDeferQ.drop (maxmove avgCommitBatchSize) })

/-- The second section of the requeueing. -/
def enqueueDeferred (q : Queues) (mapWasDeferred : List Tx) : Queues :=
  mapWasDeferred.foldl testConflictEnqueueTx q

structure Pool where
  mapTx : List Tx
  /-- The keys of `mapNextTx`. -/
  mapNextTx : List COutPoint
  deriving DecidableEq

def Pool.addUnchecked (p : Pool) (tx : Tx) : Pool :=
  if p.mapTx.any (·.id = tx.id) then p
  else ⟨p.mapTx ++ [tx], p.mapNextTx ++ tx.vin⟩

/-- Removes the transactions that are not kept, by `removeUnchecked`. -/
def Pool.retain (p : Pool) (keep : Tx → Bool) : Pool :=
  ⟨p.mapTx.filter keep,
    p.mapNextTx.filter fun o => !p.mapTx.any fun tx => !keep tx && decide (o ∈ tx.vin)⟩

/-- The answer of `RespendDetector::IsRespend`. -/
def Pool.isRespend (p : Pool) (tx : Tx) : Bool := tx.vin.any fun o => decide (o ∈ p.mapNextTx)

structure CThreadCorral where
  curRegion : ℕ
  curCount : ℕ
  maxRequestedRegion : ℕ
  deriving DecidableEq

def corralTxProcessing : ℕ := 1
def corralTxCommitment : ℕ := 2
def corralTxPause : ℕ := 3

/-- One round of the loop of `Enter` that returns. -/
def CThreadCorral.enter (c : CThreadCorral) (region : ℕ) : Option CThreadCorral :=
  if c.curCount = 0 ∧ c.maxRequestedRegion ≤ region then some ⟨region, 1, 0⟩
  else if c.curRegion = region ∧ c.maxRequestedRegion ≤ region then
    some { c with curCount := c.curCount + 1 }
  else none

/-- One round of the loop of `Enter` that has to wait. -/
def CThreadCorral.wait (c : CThreadCorral) (region : ℕ) : CThreadCorral :=
  { c with maxRequestedRegion := max c.maxRequestedRegion region }

def CThreadCorral.exit (c : CThreadCorral) : CThreadCorral :=
  { c with curCount := c.curCount - 1 }

/-- Who called `CommitTxToMempool`. `AcceptToMemoryPool` does it on entry and, holding
`cs_accept`, after a successful validation. -/
inductive Caller
  | commitThread
  | acceptFirst (tx : Tx)
  | acceptLast (tx : Tx)
  | wallet
  deriving DecidableEq

/-- How far a call of `CommitTxToMempool` is. -/
inductive Stage
  | start
  | adding (txCommitQFinal : List Tx)
  | added
  | requeueing (mapWasDeferred : List Tx)
  deriving DecidableEq

/-- What a thread does next. -/
inductive Pc
  | outside
  | processing
  | checking (tx : Tx)
  | validating (tx : Tx)
  | committing (caller : Caller) (stage : Stage)
  | commitDone
  | acceptWaiting (tx : Tx)
  | acceptChecking (tx : Tx)
  | acceptValidating (tx : Tx)
  | acceptDone
  deriving DecidableEq

/-- Where a call of `CommitTxToMempool` returns to. -/
def Caller.resume : Caller → Pc
  | commitThread => .commitDone
  | acceptFirst tx => .acceptWaiting tx
  | acceptLast _ => .acceptDone
  | wallet => .outside

/-- Whether the call is made under `cs_accept`. -/
def Caller.underAccept : Caller → Bool
  | acceptLast _ => true
  | _ => false

/-- The shared state, and how far every thread is. -/
structure Node where
  corral : CThreadCorral
  queues : Queues
  txCommitQ : List Tx
  avgCommitBatchSize : ℕ
  pool : Pool
  /-- The thread that holds `cs_txmempool` for writing. -/
  csTxmempool : Option ℕ
  /-- The thread that holds `cs_accept`. -/
  csAccept : Option ℕ
  threads : ℕ → Pc

def Node.init : Node where
  corral := ⟨0, 0, 0⟩
  queues := ⟨[], [], ⟨∅⟩⟩
  txCommitQ := []
  avgCommitBatchSize := 0
  pool := ⟨[], []⟩
  csTxmempool := none
  csAccept := none
  threads := fun _ => .outside

def Node.setPc (n : Node) (i : ℕ) (pc : Pc) : Node :=
  { n with threads := Function.update n.threads i pc }

/-- The sections of one thread. -/
inductive Act
  | enterProcessing
  | popTx
  | checkRespend
  | reject
  | pushCommitQ
  | exitCorral
  | enterCommitment
  | enterPause (tx : Tx)
  | lockAccept
  | walletCommit
  | swapCommitQ
  | addToMempool
  | takeDeferred
  | enqueueDeferred
  deriving DecidableEq

def Node.enterCorral (n : Node) (i region : ℕ) (pc : Pc) : Option Node :=
  (n.corral.enter region).map fun c => { n with corral := c }.setPc i pc

/-- The thread has the answer of the `RespendDetector`. A double spend is rejected: an
interesting one is still validated, but it does not get into `txCommitQ`. -/
def Node.checkRespend (n : Node) (i : ℕ) : Option Node :=
  match n.csTxmempool, n.threads i with
  | none, .checking tx =>
    some (n.setPc i (if n.pool.isRespend tx then .processing else .validating tx))
  | none, .acceptChecking tx =>
    some (if n.pool.isRespend tx then { n with csAccept := none }.setPc i .acceptDone
      else n.setPc i (.acceptValidating tx))
  | _, _ => none

/-- The transaction of the thread is there already, or fails some other test. -/
def Node.reject (n : Node) (i : ℕ) : Option Node :=
  match n.threads i with
  | .checking _ => some (n.setPc i .processing)
  | .validating _ => some (n.setPc i .processing)
  | .acceptChecking _ => some ({ n with csAccept := none }.setPc i .acceptDone)
  | .acceptValidating _ => some ({ n with csAccept := none }.setPc i .acceptDone)
  | _ => none

/-- The end of `ParallelAcceptToMemoryPool`, under `csCommitQ`. -/
def Node.pushCommitQ (n : Node) (i : ℕ) : Option Node :=
  match n.threads i with
  | .validating tx => some ({ n with txCommitQ := emplace tx n.txCommitQ }.setPc i .processing)
  | .acceptValidating tx =>
    some ({ n with txCommitQ := emplace tx n.txCommitQ }.setPc i
      (.committing (.acceptLast tx) .start))
  | _ => none

/-- A section of `CommitTxToMempool`. The lock on the mempool is taken before `txCommitQ`
is swapped and held until its transactions have been added. -/
def Node.commit (n : Node) (i : ℕ) (act : Act) : Option Node :=
  match n.threads i with
  | .committing caller stage =>
    match act, stage with
    | .swapCommitQ, .start =>
      if n.csTxmempool = none then
        some ({ n with
          csTxmempool := some i
          avgCommitBatchSize := (n.avgCommitBatchSize * 24 + n.txCommitQ.length) / 25
          txCommitQ := [] }.setPc i (.committing caller (.adding n.txCommitQ)))
      else none
    | .addToMempool, .adding txCommitQFinal =>
      some ({ n with
        csTxmempool := none
        pool := txCommitQFinal.foldl Pool.addUnchecked n.pool }.setPc i
          (.committing caller .added))
    | .takeDeferred, .added =>
      some ({ n with queues := (takeDeferred n.avgCommitBatchSize n.queues).2 }.setPc i
        (.committing caller (.requeueing (takeDeferred n.avgCommitBatchSize n.queues).1)))
    | .enqueueDeferred, .requeueing mapWasDeferred =>
      some ({ n with
        queues := enqueueDeferred n.queues mapWasDeferred
        csAccept := if caller.underAccept then none else n.csAccept }.setPc i
          caller.resume)
    | _, _ => none
  | _ => none

def Node.act (n : Node) (i : ℕ) : Act → Option Node
  | .enterProcessing =>
    if n.threads i = .outside then n.enterCorral i corralTxProcessing .processing else none
  | .popTx =>
    match n.threads i, n.queues.txInQ with
    | .processing, tx :: rest =>
      some ({ n with queues := { n.queues with txInQ := rest } }.setPc i (.checking tx))
    | _, _ => none
  | .checkRespend => n.checkRespend i
  | .reject => n.reject i
  | .pushCommitQ => n.pushCommitQ i
  | .exitCorral =>
    if n.threads i ∈ [.processing, .commitDone, .acceptDone] then
      some ({ n with corral := n.corral.exit }.setPc i .outside)
    else none
  | .enterCommitment =>
    if n.threads i = .outside then
      n.enterCorral i corralTxCommitment (.committing .commitThread .start)
    else none
  | .enterPause tx =>
    if n.threads i = .outside then
      n.enterCorral i corralTxPause (.committing (.acceptFirst tx) .start)
    else none
  | .lockAccept =>
    match n.csAccept, n.threads i with
    | none, .acceptWaiting tx =>
      some ({ n with csAccept := some i }.setPc i (.acceptChecking tx))
    | _, _ => none
  | .walletCommit =>
    if n.threads i = .outside then some (n.setPc i (.committing .wallet .start)) else none
  | act => n.commit i act

inductive Event
  | enqueue (tx : Tx)
  | limitMempoolSize (keep : Tx → Bool)
  | waitCorral (region : ℕ)
  | thread (i : ℕ) (act : Act)

def Node.step (n : Node) : Event → Option Node
  | .enqueue tx => some { n with queues := enqueueTxForAdmission n.queues tx }
  | .limitMempoolSize keep =>
    if n.csTxmempool = none then some { n with pool := n.pool.retain keep } else none
  | .waitCorral region =>
    if n.corral.enter region = none then some { n with corral := n.corral.wait region }
    else none
  | .thread i act => n.act i act

def Node.run (n : Node) (events : List Event) : Option Node := events.foldlM Node.step n

end PyrrhaNode.TxAdmission
