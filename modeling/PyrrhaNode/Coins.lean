import PyrrhaNode.CacheContents
import PyrrhaNode.Script

/-!
# Coins and their cache

A coin is an unspent output with the height and the kind of the transaction that
created it. A view caches coins over another view. Coins enter the cache when they are
read, when a transaction creates them and, as spent coins, when one spends them.
-/
namespace PyrrhaNode.Coins
open Serialize Transaction Script WriteBackCache

/-- An unspent output. The height has 31 bits. -/
structure Coin where
  out : CTxOut
  fCoinBase : Bool
  nHeight : BitVec 31
  deriving DecidableEq

/-- A spent coin has the null output, whose value is minus one. -/
def Coin.isSpent (coin : Coin) : Bool := coin.out.nValue == -1

/-- The coin after it has been cleared. -/
def coinEmpty : Coin := ⟨⟨0, -1, []⟩, false, 0⟩

/-- A cache of coins. The best block is that of the view below until it is set. -/
structure CCoinsViewCache where
  cache : Cache COutPoint Coin
  baseBlock : Uint256
  hashBlock : Uint256

namespace CCoinsViewCache

def getBestBlock (view : CCoinsViewCache) : Uint256 :=
  if view.hashBlock.isNull then view.baseBlock else view.hashBlock

def setBestBlock (view : CCoinsViewCache) (hashBlockIn : Uint256) : CCoinsViewCache :=
  { view with hashBlock := hashBlockIn }

def fetchCoin (view : CCoinsViewCache) (outpoint : COutPoint) : CCoinsViewCache :=
  { view with cache := view.cache.fetch Coin.isSpent outpoint }

def getCoin (view : CCoinsViewCache) (outpoint : COutPoint) : Option Coin :=
  view.cache.get outpoint

def accessCoin (view : CCoinsViewCache) (outpoint : COutPoint) : Coin :=
  (view.getCoin outpoint).getD coinEmpty

def haveCoin (view : CCoinsViewCache) (outpoint : COutPoint) : Bool :=
  (view.getCoin outpoint).any fun coin => !coin.isSpent

def haveInputs (view : CCoinsViewCache) (tx : CTransaction) : Bool :=
  tx.isCoinBase || tx.vin.all fun inp => view.haveCoin inp.prevout

/-- Adds a coin. Only the cached entry is compared with it, not the view below. -/
def addCoin (view : CCoinsViewCache) (outpoint : COutPoint) (coin : Coin)
    (possibleOverwrite : Bool) : Except String CCoinsViewCache :=
  if coin.isSpent then throw "assert(!coin.IsSpent())"
  else if isUnspendable coin.out.scriptPubKey then return view
  else if !possibleOverwrite &&
      (view.cache.entries.get outpoint).any fun entry => !entry.value.isSpent then
    throw "Adding new coin that replaces non-pruned entry"
  else return { view with cache := view.cache.put outpoint coin possibleOverwrite }

/-- Spends a coin, which is moved to the caller. -/
def spendCoin (view : CCoinsViewCache) (outpoint : COutPoint) : CCoinsViewCache × Coin :=
  match (view.fetchCoin outpoint).cache.entries.get outpoint with
  | none => (view.fetchCoin outpoint, coinEmpty)
  | some entry =>
    ({ view with cache := (view.fetchCoin outpoint).cache.remove coinEmpty outpoint },
      entry.value)

/-- A view without cached coins over another one. -/
def ofBase (base : CCoinsViewCache) : CCoinsViewCache :=
  ⟨Cache.above base.getCoin, base.getBestBlock, Uint256.null⟩

/-- Pushes the changes of a view to the view below. -/
def flush (view base : CCoinsViewCache) : Except String CCoinsViewCache := do
  let cache ← Cache.batchWrite Coin.isSpent view.cache base.cache
  return { base with cache := cache, hashBlock := view.hashBlock }

def uncache (view : CCoinsViewCache) (outpoint : COutPoint) : CCoinsViewCache :=
  { view with cache := view.cache.uncache outpoint }

/-- Writes a coin of the cache to the database below, which keeps no spent coins. -/
def writeCoin (view : CCoinsViewCache) (keep : Bool) (outpoint : COutPoint) : CCoinsViewCache :=
  { view with cache := view.cache.store Coin.isSpent keep outpoint }

end CCoinsViewCache

/-- The coin of an output. -/
def coinOf (tx : CTransaction) (nHeight : ℕ) (out : CTxOut) : Coin :=
  ⟨out, tx.isCoinBase, BitVec.ofNat 31 nHeight⟩

/-- Adds the coin of an output with its index. The coin of a coinbase may overwrite. -/
def addOutputCoin (H : HashFns) (tx : CTransaction) (nHeight : ℕ) (cache : CCoinsViewCache)
    (out : CTxOut × ℕ) : Except String CCoinsViewCache :=
  cache.addCoin (outpointAt H tx (UInt32.ofNat out.2)) (coinOf tx nHeight out.1) tx.isCoinBase

/-- Adds the outputs of a transaction. -/
def addCoins (H : HashFns) (cache : CCoinsViewCache) (tx : CTransaction) (nHeight : ℕ) :
    Except String CCoinsViewCache :=
  tx.vout.zipIdx.foldlM (addOutputCoin H tx nHeight) cache

/-- Spends the inputs of a transaction one after the other and keeps the spent coins. -/
def spendInputs (view : CCoinsViewCache) : List CTxIn → CCoinsViewCache × List Coin
  | [] => (view, [])
  | inp :: vin =>
    let spent := view.spendCoin inp.prevout
    let rest := spendInputs spent.1 vin
    (rest.1, spent.2 :: rest.2)

def spendCoins (tx : CTransaction) (inputs : CCoinsViewCache) : CCoinsViewCache × List Coin :=
  if tx.isCoinBase then (inputs, []) else spendInputs inputs tx.vin

/-- Spends the inputs of a transaction, then adds its outputs. -/
def updateCoins (H : HashFns) (tx : CTransaction) (inputs : CCoinsViewCache) (nHeight : ℕ) :
    Except String (CCoinsViewCache × List Coin) := do
  let spent := spendCoins tx inputs
  let view ← addCoins H spent.1 tx nHeight
  return (view, spent.2)

namespace CCoinsViewCache

/-- Cached coins that are not dirty agree with the view below. -/
def Coherent (view : CCoinsViewCache) : Prop := Cache.Coherent Coin.isSpent view.cache

/-- The coin is unspent and the view has it for the outpoint, visible or hidden. -/
def Holds (view : CCoinsViewCache) (outpoint : COutPoint) (coin : Coin) : Prop :=
  coin.isSpent = false ∧ view.cache.Holds outpoint coin

/-- The outpoint has an unspent coin. -/
def Unspent (view : CCoinsViewCache) (outpoint : COutPoint) (coin : Coin) : Prop :=
  coin.isSpent = false ∧ view.getCoin outpoint = some coin

/-- The unspent coin of an outpoint. -/
def coinAt (view : CCoinsViewCache) : COutPoint → Option Coin := view.cache.live Coin.isSpent

/-- The class invariant of a view: clean entries agree with the view below, and fresh
entries hide no coin of it. -/
def Valid (view : CCoinsViewCache) : Prop := Cache.Faithful Coin.isSpent view.cache

variable {view : CCoinsViewCache} {outpoint : COutPoint} {coin c : Coin} {o : COutPoint}
  {overwrite : Bool} {view' : CCoinsViewCache}

lemma coinAt_eq_some :
    view.coinAt outpoint = some coin ↔ view.Unspent outpoint coin := Cache.live_eq_some

lemma Unspent.holds (h : view.Unspent outpoint coin) : view.Holds outpoint coin :=
  ⟨h.1, Cache.holds_of_get h.2⟩

lemma valid_above (base : COutPoint → Option Coin) (b₁ b₂ : Uint256) :
    Valid ⟨Cache.above base, b₁, b₂⟩ := Cache.faithful_above Coin.isSpent base

lemma Valid.unspent_of_holds (hv : view.Valid) (h : view.Holds o coin) : view.Unspent o coin :=
  ⟨h.1, hv.sound.get_of_holds h.2 h.1⟩

lemma coherent_ofBase (base : CCoinsViewCache) : (ofBase base).Coherent :=
  Cache.coherent_above Coin.isSpent base.getCoin

lemma addCoin_cases (h : view.addCoin outpoint coin overwrite = .ok view') :
    coin.isSpent = false ∧
      (isUnspendable coin.out.scriptPubKey = true ∧ view' = view ∨
        isUnspendable coin.out.scriptPubKey = false ∧
        (overwrite = false → ∀ entry, view.cache.entries.get outpoint = some entry →
          entry.value.isSpent = true) ∧
        view' = { view with cache := view.cache.put outpoint coin overwrite }) := by
  obtain ⟨hspent, h⟩ := Loop.ite_throw_eq_ok.mp h
  refine ⟨Bool.eq_false_iff.mpr hspent, ?_⟩
  by_cases hun : isUnspendable coin.out.scriptPubKey = true
  · rw [if_pos hun] at h
    cases h
    exact .inl ⟨hun, rfl⟩
  · rw [if_neg hun] at h
    obtain ⟨hold, h⟩ := Loop.ite_throw_eq_ok.mp h
    cases h
    refine .inr ⟨Bool.eq_false_iff.mpr hun, fun hover entry hentry => ?_, rfl⟩
    simpa [hover, hentry] using hold

lemma spendCoin_fst (view : CCoinsViewCache) (outpoint : COutPoint) :
    (view.spendCoin outpoint).1 =
      { view with
        cache := (view.cache.fetch Coin.isSpent outpoint).remove coinEmpty outpoint } := by
  unfold spendCoin
  cases hentry : (view.fetchCoin outpoint).cache.entries.get outpoint with
  | none =>
    have hremove : (view.cache.fetch Coin.isSpent outpoint).remove coinEmpty outpoint =
        view.cache.fetch Coin.isSpent outpoint := by
      rw [Cache.remove, show (view.cache.fetch Coin.isSpent outpoint).entries.get outpoint = none
        from hentry]
    rw [hremove]
    rfl
  | some entry => rfl

lemma Coherent.addCoin (hc : view.Coherent)
    (h : view.addCoin outpoint coin overwrite = .ok view') : view'.Coherent := by
  obtain ⟨-, ⟨-, rfl⟩ | ⟨-, -, rfl⟩⟩ := addCoin_cases h
  · exact hc
  · exact Cache.Coherent.put hc outpoint coin overwrite

lemma Coherent.spendCoin (hc : view.Coherent) (outpoint : COutPoint) :
    (view.spendCoin outpoint).1.Coherent := by
  rw [spendCoin_fst]
  exact (Cache.Coherent.fetch hc outpoint).remove coinEmpty outpoint

lemma addCoin_spec (hv : view.Valid) (hnew : overwrite = false → view.coinAt outpoint = none)
    (hspendable : isUnspendable coin.out.scriptPubKey = false)
    (h : view.addCoin outpoint coin overwrite = .ok view') :
    view'.Valid ∧ view'.coinAt = Function.update view.coinAt outpoint (some coin) ∧
      Cache.ChangesAt view.cache outpoint view'.cache ∧
      ∃ entry, view'.cache.entries.get outpoint = some entry ∧ entry.value = coin := by
  obtain ⟨hlive, ⟨hun, -⟩ | ⟨-, -, rfl⟩⟩ := addCoin_cases h
  · rw [hspendable] at hun
    cases hun
  · exact ⟨Cache.Faithful.put hv hnew coin, Cache.live_put hlive overwrite,
      view.cache.put_changesAt outpoint coin overwrite,
      view.cache.get_entries_put outpoint coin overwrite⟩

lemma spendCoin_spec (hv : view.Valid) (outpoint : COutPoint) :
    (view.spendCoin outpoint).1.Valid ∧
      (view.spendCoin outpoint).1.coinAt = Function.update view.coinAt outpoint none ∧
      ∀ coin, view.coinAt outpoint = some coin → (view.spendCoin outpoint).2 = coin := by
  have hfetch : (view.fetchCoin outpoint).cache.get outpoint = view.cache.get outpoint :=
    Cache.get_fetch outpoint
  rw [spendCoin_fst]
  refine ⟨(Cache.Faithful.fetch hv outpoint).remove coinEmpty outpoint,
    Cache.live_fetch_remove hv rfl, fun coin hcoin => ?_⟩
  obtain ⟨-, hget⟩ := Cache.live_eq_some.mp hcoin
  rw [← hfetch] at hget
  unfold spendCoin
  cases hentry : (view.fetchCoin outpoint).cache.entries.get outpoint with
  | none =>
    have hnone := Cache.get_eq_none_of_fetch hentry
    rw [hfetch, hnone] at hget
    cases hget
  | some entry =>
    rw [Cache.get, hentry] at hget
    exact Option.some.inj hget

lemma holds_of_addCoin (hc : view.Coherent) (h : view.addCoin outpoint coin overwrite = .ok view')
    (hholds : view'.Holds o c) :
    view.Holds o c ∨ isUnspendable coin.out.scriptPubKey = false ∧ c = coin := by
  obtain ⟨-, ⟨-, rfl⟩ | ⟨hspendable, -, rfl⟩⟩ := addCoin_cases h
  · exact .inl hholds
  · rcases Cache.holds_of_put hc hholds.2 with hold | hnew
    · exact .inl ⟨hholds.1, hold⟩
    · exact .inr ⟨hspendable, hnew⟩

lemma holds_of_spendCoin (hholds : (view.spendCoin outpoint).1.Holds o c) : view.Holds o c := by
  rw [spendCoin_fst] at hholds
  rcases Cache.holds_of_remove hholds.2 with hold | hnil
  · exact ⟨hholds.1, Cache.holds_of_fetch hold⟩
  · rw [hnil] at hholds
    cases hholds.1

end CCoinsViewCache

variable {tx : CTransaction} {nHeight : ℕ} {H : HashFns} {view view' : CCoinsViewCache}

theorem addCoins_holds (hc : view.Coherent) (h : addCoins H view tx nHeight = .ok view') :
    view'.Coherent ∧ ∀ o c, view'.Holds o c → view.Holds o c ∨
      ∃ out ∈ tx.vout, isUnspendable out.scriptPubKey = false ∧ c = coinOf tx nHeight out := by
  have hinv := Loop.foldlM_invariant
    (fun done v => v.Coherent ∧ ∀ o c, v.Holds o c → view.Holds o c ∨
      ∃ out ∈ done.map Prod.fst,
        isUnspendable out.scriptPubKey = false ∧ c = coinOf tx nHeight out)
    ?_ h ⟨hc, fun o c hholds => .inl hholds⟩
  · simpa using hinv
  · rintro done out v v' - ⟨hv, hheld⟩ hstep
    refine ⟨hv.addCoin hstep, fun o c hholds => ?_⟩
    rcases CCoinsViewCache.holds_of_addCoin hv hstep hholds with hold | hnew
    · rcases hheld o c hold with hview | ⟨out', hmem, hout'⟩
      · exact .inl hview
      · exact .inr ⟨out', by simp only [List.map_append, List.mem_append]; exact .inl hmem, hout'⟩
    · exact .inr ⟨out.1, by simp, hnew⟩

theorem spendInputs_holds (vin : List CTxIn) (hc : view.Coherent) :
    (spendInputs view vin).1.Coherent ∧
      ∀ o c, (spendInputs view vin).1.Holds o c → view.Holds o c := by
  induction vin generalizing view with
  | nil => exact ⟨hc, fun _ _ h => h⟩
  | cons inp vin ih =>
    obtain ⟨hrest, hheld⟩ := ih (hc.spendCoin inp.prevout)
    exact ⟨hrest, fun o c h => CCoinsViewCache.holds_of_spendCoin (hheld o c h)⟩

theorem updateCoins_holds {undo : List Coin} (hc : view.Coherent)
    (h : updateCoins H tx view nHeight = .ok (view', undo)) :
    view'.Coherent ∧ ∀ o c, view'.Holds o c →
      view.Holds o c ∨ ∃ out ∈ tx.vout, c = coinOf tx nHeight out := by
  obtain ⟨added, hadd, h⟩ := Loop.bind_eq_ok.mp h
  cases h
  have hspent : (spendCoins tx view).1.Coherent ∧
      ∀ o c, (spendCoins tx view).1.Holds o c → view.Holds o c := by
    unfold spendCoins
    split_ifs
    · exact ⟨hc, fun _ _ h => h⟩
    · exact spendInputs_holds tx.vin hc
  obtain ⟨hcoh, hheld⟩ := addCoins_holds hspent.1 hadd
  refine ⟨hcoh, fun o c h => (hheld o c h).imp (hspent.2 o c) ?_⟩
  rintro ⟨out, hout, -, hcoin⟩
  exact ⟨out, hout, hcoin⟩

end PyrrhaNode.Coins
