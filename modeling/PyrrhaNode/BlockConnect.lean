import PyrrhaNode.TxVerify

/-!
# Connecting and disconnecting blocks

A block is connected in two passes over its transactions: the first adds all outputs,
the second checks and spends the inputs, keeps the spent coins for undoing and adds up
the fees. Disconnecting restores the spent coins and removes the outputs. Checks that
do not look at amounts are parameters: they can only reject.
-/
namespace PyrrhaNode.BlockConnect
open ByteCodec Serialize Transaction Script
open Coins GroupTokens Money TxVerify
open SignedWord

/-- A block with the hash of its header. -/
structure CBlock where
  hash : Uint256
  hashPrevBlock : Uint256
  vtx : List CTransaction

structure ConsensusParams where
  hashGenesisBlock : Uint256
  nSubsidyHalvingInterval : ℕ
  initialSubsidy : CAmount
  coinbaseMaturity : ℤ

/-- The checks of a block that look at its header and its scripts. -/
structure BlockChecks where
  enforceMinTxSize : Bool
  checkBlockHeader : CBlock → Bool
  sequenceLocks : CTransaction → List ℕ → Bool
  checkScripts : CTransaction → List CTxOut → Bool
  checkSigChecks : CBlock → Bool

/-- The subsidy is halved at fixed intervals. -/
def getBlockSubsidy (nHeight : ℕ) (params : ConsensusParams) : CAmount :=
  if 64 ≤ nHeight / params.nSubsidyHalvingInterval then 0
  else params.initialSubsidy >>> Int64.ofNat (nHeight / params.nSubsidyHalvingInterval)

/-- The comparison of hashes as numbers. -/
def hashLt (a b : Uint256) : Bool := decide (ofLeBytes a.data < ofLeBytes b.data)

/-- The first transaction is the only coinbase. -/
def checkBlockTx (A : Arithmetic) (checks : BlockChecks) (tx : CTransaction × ℕ) :
    Except String Unit :=
  if tx.2 = 0 ∧ ¬ tx.1.isCoinBase then throw "bad-cb-missing"
  else if tx.2 ≠ 0 ∧ tx.1.isCoinBase then throw "bad-cb-multiple"
  else checkTransaction A checks.enforceMinTxSize tx.1

def checkBlock (A : Arithmetic) (checks : BlockChecks) (block : CBlock) : Except String Unit :=
  if !checks.checkBlockHeader block then throw "CheckBlock failed"
  else if block.vtx.isEmpty then throw "bad-blk-length"
  else block.vtx.zipIdx.forM (checkBlockTx A checks)

/-- Adds the outputs of a transaction; all but the first are ordered by their ids. -/
def addBlockTx (H : HashFns) (nHeight : ℕ) (state : CCoinsViewCache × Uint256)
    (tx : CTransaction × ℕ) : Except String (CCoinsViewCache × Uint256) :=
  match addCoins H state.1 tx.1 nHeight with
  | .error _ => throw "repeated-txn"
  | .ok view =>
    if tx.2 = 0 then return (view, state.2)
    else if tx.2 ≠ 1 ∧ hashLt (getTxId H tx.1) state.2 then throw "bad-txn-order"
    else return (view, getTxId H tx.1)

/-- Adds the value of an input to the fees. -/
def addInputFee (A : Arithmetic) (view : CCoinsViewCache) (nFees : CAmount) (inp : CTxIn) :
    Except String CAmount :=
  if (view.accessCoin inp.prevout).isSpent then throw "bad-txns-inputs-missingorspent"
  else do
    let nFees ← A.add nFees (view.accessCoin inp.prevout).out.nValue
    if (view.accessCoin inp.prevout).out.nValue ≠ inp.amount then
      throw "bad-txns-input-amount-mismatch"
    else return nFees

def checkInputs (A : Arithmetic) (H : HashFns) (params : ConsensusParams) (checks : BlockChecks)
    (nHeight : ℕ) (view : CCoinsViewCache) (tx : CTransaction) : Except String Unit := do
  let _ ← checkTxInputs A params.coinbaseMaturity nHeight tx view
  match checkGroupTokens H tx view.getCoin with
  | .error _ => throw "group-token-imbalance"
  | .ok _ =>
    if checks.checkScripts tx (tx.vin.map fun inp => (view.accessCoin inp.prevout).out) then
      return ()
    else throw "mandatory-script-verify-flag-failed"

/-- Checks a transaction that is not the coinbase and adds its fee. -/
def connectInputs (A : Arithmetic) (H : HashFns) (params : ConsensusParams) (checks : BlockChecks)
    (nHeight : ℕ) (view : CCoinsViewCache) (nFees : CAmount)
    (tx : CTransaction) : Except String CAmount := do
  let nFeesIn ← tx.vin.foldlM (addInputFee A view) nFees
  let valueOut ← getValueOut A tx
  let nFeesOut ← A.sub nFeesIn valueOut
  if !checks.sequenceLocks tx
      (tx.vin.map fun inp => (view.accessCoin inp.prevout).nHeight.toNat) then
    throw "bad-txns-nonfinal"
  else do
    checkInputs A H params checks nHeight view tx
    return nFeesOut

/-- The view, the fees and the spent coins of each transaction but the first. -/
structure ConnectState where
  view : CCoinsViewCache
  nFees : CAmount
  vtxundo : List (List Coin)

/-- The fees after a transaction. A coinbase has none. -/
def connectFees (A : Arithmetic) (H : HashFns) (params : ConsensusParams) (checks : BlockChecks)
    (nHeight : ℕ) (state : ConnectState) (tx : CTransaction) : Except String CAmount :=
  if tx.isCoinBase then return state.nFees
  else connectInputs A H params checks nHeight state.view state.nFees tx

def connectTx (A : Arithmetic) (H : HashFns) (params : ConsensusParams) (checks : BlockChecks)
    (nHeight : ℕ) (state : ConnectState) (tx : CTransaction × ℕ) :
    Except String ConnectState := do
  let nFees ← connectFees A H params checks nHeight state tx.1
  return ⟨(spendCoins tx.1 state.view).1, nFees,
    if tx.2 = 0 then state.vtxundo else state.vtxundo ++ [(spendCoins tx.1 state.view).2]⟩

def connectBlockCanonicalOrdering (A : Arithmetic) (H : HashFns) (params : ConsensusParams)
    (checks : BlockChecks) (block : CBlock) (nHeight : ℕ) (view : CCoinsViewCache) :
    Except String ConnectState := do
  let added ← block.vtx.zipIdx.foldlM (addBlockTx H nHeight) (view, Uint256.null)
  let state ← block.vtx.zipIdx.foldlM (connectTx A H params checks nHeight) ⟨added.1, 0, []⟩
  if !checks.checkSigChecks block then throw "bad-blk-sigchecks" else return state

/-- The coinbase pays no more than the fees and the subsidy. -/
def checkReward (A : Arithmetic) (params : ConsensusParams) (nHeight : ℕ) (nFees : CAmount)
    (block : CBlock) : Except String Unit := do
  let blockReward ← A.add nFees (getBlockSubsidy nHeight params)
  match block.vtx with
  | [] => throw "bad-blk-length"
  | coinbase :: _ =>
    let valueOut ← getValueOut A coinbase
    if blockReward < valueOut then throw "bad-cb-amount" else return ()

/-- Connects a block to a view and returns its undo data. The transactions of the genesis
block are skipped. -/
def connectBlock (A : Arithmetic) (H : HashFns) (params : ConsensusParams) (checks : BlockChecks)
    (block : CBlock) (nHeight : ℕ) (view : CCoinsViewCache) :
    Except String (CCoinsViewCache × List (List Coin)) :=
  if block.hash = params.hashGenesisBlock then return (view.setBestBlock block.hash, [])
  else do
    checkBlock A checks block
    if block.hashPrevBlock ≠ view.getBestBlock then
      throw "assert(hashPrevBlock == view.GetBestBlock())"
    else do
      let state ← connectBlockCanonicalOrdering A H params checks block nHeight view
      checkReward A params nHeight state.nFees block
      return (state.view.setBestBlock block.hash, state.vtxundo)

/-- The subsidy of the regression test network; coinbases can be spent at once. -/
def testParams : ConsensusParams := ⟨lengthHash.hash256 [0], 150, 10 * 1000000 * oneCoin, 0⟩

def noChecks : BlockChecks :=
  ⟨false, fun _ => true, fun _ _ => true, fun _ _ => true, fun _ => true⟩

/-- A coinbase that pays the subsidy and a fee of 300. -/
def coinbaseTx : CTransaction :=
  ⟨0, [], [⟨0, 1000000300, [Script.op1]⟩, ⟨0, 0, [Script.opReturn]⟩], 0⟩

/-- Spends the coinbase of its own block and pays the fee. -/
def spendTx : CTransaction where
  nVersion := 0
  vin := [⟨0, outpointAt lengthHash coinbaseTx 0, [], 0xffffffff, 1000000300⟩]
  vout := [⟨0, 1000000000, [Script.op1]⟩]
  nLockTime := 0

def testBlock : CBlock :=
  ⟨lengthHash.hash256 [0, 0], lengthHash.hash256 [0], [coinbaseTx, spendTx]⟩

end PyrrhaNode.BlockConnect
