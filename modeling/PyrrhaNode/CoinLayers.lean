import PyrrhaNode.CacheStack
import PyrrhaNode.Coins

/-!
# Layers of coin caches over the coin database

Caches of coins lie on top of each other over a database. Coins are looked up, added and
spent in a layer, layers are flushed one into the other, and entries that were not changed
are dropped at any time. However the calls are mixed, the layers behave as one map from
outpoints to coins.
-/
namespace PyrrhaNode.CoinLayers
open List Serialize Transaction Script Loop
open WriteBackCache CacheStack Coins

/-- Layers from the top down, each with its best block, over a database. -/
structure CoinStack where
  layers : List (Entries COutPoint Coin)
  hashBlocks : List Uint256
  db : COutPoint → Option Coin
  dbBestBlock : Uint256

/-- New layers over a database. -/
def CoinStack.over (n : ℕ) (db : COutPoint → Option Coin) (dbBestBlock : Uint256) : CoinStack :=
  ⟨List.replicate n .empty, List.replicate n Uint256.null, db, dbBestBlock⟩

/-- A layer as a view of coins. Best blocks play no part in what coins it shows. -/
def layerView (db : COutPoint → Option Coin) (es : Entries COutPoint Coin)
    (below : List (Entries COutPoint Coin)) : CCoinsViewCache :=
  ⟨topCache db es below, Uint256.null, Uint256.null⟩

/-- The calls on a layer. The order in which a trim visits the entries and the memory that
entries take are not known, and neither is which coins a database write keeps cached. -/
inductive CoinCall where
  | getCoin (outpoint : COutPoint)
  | haveCoin (outpoint : COutPoint)
  | addCoin (outpoint : COutPoint) (coin : Coin) (possibleOverwrite : Bool)
  | spendCoin (outpoint : COutPoint)
  | uncache (outpoint : COutPoint)
  | trim (order : List COutPoint) (usage : Entries COutPoint Coin → ℕ) (nTrimSize : ℕ)
  | setBestBlock (hashBlock : Uint256)
  | flush (keep : COutPoint → Bool)

inductive CoinResult where
  | coin (coin : Option Coin)
  | found (found : Bool)
  | done
  deriving DecidableEq

/-- Drops unmodified entries until the cache is small enough. -/
def trimEntries (usage : Entries COutPoint Coin → ℕ) (nTrimSize : ℕ) (db : COutPoint → Option Coin)
    (below : List (Entries COutPoint Coin)) :
    List COutPoint → Entries COutPoint Coin → Entries COutPoint Coin
  | [], es => es
  | outpoint :: order, es =>
    if usage es ≤ nTrimSize then es
    else trimEntries usage nTrimSize db below order
      ((layerView db es below).uncache outpoint).cache.entries

/-- A call on the top of the given layers. -/
def CoinCall.run (db : COutPoint → Option Coin) (call : CoinCall) :
    List (Entries COutPoint Coin) →
      Except String (List (Entries COutPoint Coin) × (COutPoint → Option Coin) × CoinResult)
  | [] => throw "no such layer"
  | es :: below =>
    match call with
    | .getCoin outpoint =>
      return (fetch Coin.isSpent db outpoint (es :: below), db,
        .coin ((layerView db es below).getCoin outpoint))
    | .haveCoin outpoint =>
      return (fetch Coin.isSpent db outpoint (es :: below), db,
        .found ((layerView db es below).haveCoin outpoint))
    | .addCoin outpoint coin possibleOverwrite => do
        let view ← (layerView db es below).addCoin outpoint coin possibleOverwrite
        return (view.cache.entries :: below, db, .done)
    | .spendCoin outpoint =>
      let spent := (layerView db es below).spendCoin outpoint
      return (spent.1.cache.entries :: (fetch Coin.isSpent db outpoint (es :: below)).tail, db,
        .coin (some spent.2))
    | .uncache outpoint =>
      return (((layerView db es below).uncache outpoint).cache.entries :: below, db, .done)
    | .trim order usage nTrimSize =>
      return (trimEntries usage nTrimSize db below order es :: below, db, .done)
    | .setBestBlock _ => return (es :: below, db, .done)
    | .flush keep => do
        let flushed ← CacheStack.flush Coin.isSpent keep db (es :: below)
        return (flushed.1, flushed.2, .done)

/-- The best blocks after a call on layer `i`: a flush passes the best block of the layer on. -/
def CoinCall.hashBlocks (call : CoinCall) (i : ℕ) (hashBlocks : List Uint256) : List Uint256 :=
  match call with
  | .setBestBlock hashBlock => hashBlocks.set i hashBlock
  | .flush _ => hashBlocks.set (i + 1) (hashBlocks.getD i Uint256.null)
  | _ => hashBlocks

/-- The best block of the database after a call on layer `i`. A null hash is not written. -/
def CoinCall.dbBestBlock (call : CoinCall) (i : ℕ) (s : CoinStack) : Uint256 :=
  match call with
  | .flush _ =>
    let hashBlock := s.hashBlocks.getD i Uint256.null
    if i + 1 = s.layers.length ∧ !hashBlock.isNull then hashBlock else s.dbBestBlock
  | _ => s.dbBestBlock

/-- A call on layer `i`. The layers above it are not touched. -/
def CoinStack.step (s : CoinStack) (i : ℕ) (call : CoinCall) :
    Except String (CoinStack × CoinResult) := do
  let result ← call.run s.db (s.layers.drop i)
  return (⟨s.layers.take i ++ result.1, call.hashBlocks i s.hashBlocks, result.2.1,
    call.dbBestBlock i s⟩, result.2.2)

def CoinStack.run (s : CoinStack) (calls : List (ℕ × CoinCall)) : Except String CoinStack :=
  calls.foldlM (fun s c => (s.step c.1 c.2).map Prod.fst) s

/-- Flushes every layer, from the top down. -/
def CoinStack.flushAll (s : CoinStack) (keep : COutPoint → Bool) : Except String CoinStack :=
  s.run ((List.range s.layers.length).map fun i => (i, .flush keep))

/-- What a call does to a map of coins. Unspendable coins are not kept. -/
def CoinCall.apply (m : COutPoint → Option Coin) : CoinCall → COutPoint → Option Coin
  | .addCoin outpoint coin _ =>
    if isUnspendable coin.out.scriptPubKey then m else Function.update m outpoint (some coin)
  | .spendCoin outpoint => Function.update m outpoint none
  | _ => m

def applyAll (m : COutPoint → Option Coin) (calls : List (ℕ × CoinCall)) :
    COutPoint → Option Coin :=
  calls.foldl (fun m c => c.2.apply m) m

/-- What a lookup in a map of coins returns. -/
def CoinCall.answer (m : COutPoint → Option Coin) : CoinCall → CoinResult
  | .getCoin outpoint => .coin (m outpoint)
  | .haveCoin outpoint => .found (m outpoint).isSome
  | .spendCoin outpoint => .coin (m outpoint)
  | _ => .done

/-- The outpoint that a call is about. -/
def CoinCall.outpoint? : CoinCall → Option COutPoint
  | .getCoin outpoint => some outpoint
  | .haveCoin outpoint => some outpoint
  | .addCoin outpoint _ _ => some outpoint
  | .spendCoin outpoint => some outpoint
  | _ => none

/-- A spent coin stands for no coin. -/
def CoinResult.seen : CoinResult → CoinResult
  | .coin c => .coin (c.filter fun c => !c.isSpent)
  | r => r

/-- The layers above `i` have no entry for the outpoint of the call, so that the call is one
on the whole stack. On the top layer every call is. -/
def Reaches (s : CoinStack) (i : ℕ) (call : CoinCall) : Prop :=
  ∀ outpoint, call.outpoint? = some outpoint → Exposed (s.layers.take i) outpoint

/-- Calls that are allowed on a stack that stands for a map: coins are added unspent, and
only for new outpoints unless the caller says that they may overwrite. -/
def Allowed (s : CoinStack) (m : COutPoint → Option Coin) (i : ℕ) (call : CoinCall) : Prop :=
  i < s.layers.length ∧
    match call with
    | .addCoin outpoint coin possibleOverwrite =>
      Reaches s i call ∧ coin.isSpent = false ∧ (possibleOverwrite = false → m outpoint = none)
    | .spendCoin _ => Reaches s i call
    | _ => True

/-- Every call of a run is allowed when it is made. -/
def AllowedRun : CoinStack → (COutPoint → Option Coin) → List (ℕ × CoinCall) → Prop
  | _, _, [] => True
  | s, m, (i, call) :: calls => Allowed s m i call ∧
      ∀ s' r, s.step i call = .ok (s', r) → AllowedRun s' (call.apply m) calls

/-- The stack stands for the map. -/
structure Refines (s : CoinStack) (m : COutPoint → Option Coin) : Prop where
  valid : CacheStack.Valid Coin.isSpent s.db s.layers
  contents : contents Coin.isSpent s.db s.layers = m

section Steps
variable {s : CoinStack} {m : COutPoint → Option Coin} {i : ℕ}

lemma valid_of_append {store : COutPoint → Option Coin} {above rest : List (Entries COutPoint Coin)}
    (h : CacheStack.Valid Coin.isSpent store (above ++ rest)) :
    CacheStack.Valid Coin.isSpent store rest := by
  induction above with
  | nil => exact h
  | cons es above ih => exact ih h.2

lemma valid_trimEntries {db : COutPoint → Option Coin} {below : List (Entries COutPoint Coin)}
    (usage : Entries COutPoint Coin → ℕ) (nTrimSize : ℕ) (order : List COutPoint)
    {es : Entries COutPoint Coin} (h : CacheStack.Valid Coin.isSpent db (es :: below)) :
    CacheStack.Valid Coin.isSpent db (trimEntries usage nTrimSize db below order es :: below) ∧
      contents Coin.isSpent db (trimEntries usage nTrimSize db below order es :: below) =
        contents Coin.isSpent db (es :: below) := by
  induction order generalizing es with
  | nil => exact ⟨h, rfl⟩
  | cons outpoint order ih =>
    rw [trimEntries]
    split_ifs with husage
    · exact ⟨h, rfl⟩
    · obtain ⟨hvalid, hsame⟩ := h.uncache outpoint
      obtain ⟨hvalid', hsame'⟩ := ih hvalid
      exact ⟨hvalid', hsame'.trans hsame⟩

section Layer
variable {db : COutPoint → Option Coin} {es : Entries COutPoint Coin}
  {below : List (Entries COutPoint Coin)} {outpoint : COutPoint}

variable (h : CacheStack.Valid Coin.isSpent db (es :: below))
include h

lemma filter_getCoin (outpoint : COutPoint) :
    ((layerView db es below).getCoin outpoint).filter (fun coin => !coin.isSpent) =
      contents Coin.isSpent db (es :: below) outpoint :=
  filter_read h outpoint

omit h in
lemma addCoin_eq_ok {coin : Coin} {possibleOverwrite : Bool} (hcoin : coin.isSpent = false)
    (hspendable : isUnspendable coin.out.scriptPubKey = false)
    (hnew : possibleOverwrite = false → contents Coin.isSpent db (es :: below) outpoint = none) :
    (layerView db es below).addCoin outpoint coin possibleOverwrite =
      .ok { layerView db es below with
        cache := (topCache db es below).put outpoint coin possibleOverwrite } := by
  have hentry : ¬ ((!possibleOverwrite && (es.get outpoint).any fun entry =>
      !entry.value.isSpent) = true) := by
    intro hbad
    simp only [Bool.and_eq_true, Bool.not_eq_true', Option.any_eq_true] at hbad
    obtain ⟨hover, entry, hentry, hunspent⟩ := hbad
    have hnone := hnew hover
    rw [contents, overlay_of_some hentry, liveValue_of_live hunspent] at hnone
    cases hnone
  rw [CCoinsViewCache.addCoin, if_neg (by simp [hcoin]), if_neg (by simp [hspendable])]
  exact if_neg hentry

/-- Spending a coin of the layer: the coin is gone, and it was the one that was seen. -/
lemma spendCoin_layer (outpoint : COutPoint) :
    CacheStack.Valid Coin.isSpent db
      (((layerView db es below).spendCoin outpoint).1.cache.entries ::
        (fetch Coin.isSpent db outpoint (es :: below)).tail) ∧
      contents Coin.isSpent db (((layerView db es below).spendCoin outpoint).1.cache.entries ::
          (fetch Coin.isSpent db outpoint (es :: below)).tail) =
        Function.update (contents Coin.isSpent db (es :: below)) outpoint none ∧
      (some ((layerView db es below).spendCoin outpoint).2).filter (fun coin => !coin.isSpent) =
        contents Coin.isSpent db (es :: below) outpoint := by
  obtain ⟨hvalid, hsame⟩ := h.fetch outpoint
  have hcons := fetch_cons Coin.isSpent db outpoint es below
  generalize (fetch Coin.isSpent db outpoint (es :: below)).tail = below' at hcons ⊢
  rw [hcons] at hvalid hsame
  have hnone : ((topCache db es below).fetch Coin.isSpent outpoint).entries.get outpoint = none →
      contents Coin.isSpent db (es :: below) outpoint = none := contents_of_fetch_none h
  obtain ⟨hvalid', hremoved⟩ := hvalid.remove (show coinEmpty.isSpent = true from rfl)
    (fun hentry => by rw [hsame]; exact hnone hentry)
  have hentries : ((layerView db es below).spendCoin outpoint).1.cache.entries =
      ((topCache db ((topCache db es below).fetch Coin.isSpent outpoint).entries below').remove
        coinEmpty outpoint).entries := by
    have hsame : ((topCache db es below).fetch Coin.isSpent outpoint).entries =
        (topCache db ((topCache db es below).fetch Coin.isSpent outpoint).entries below').entries :=
      rfl
    rw [CCoinsViewCache.spendCoin_fst]
    exact Cache.entries_remove_congr hsame
  refine ⟨by rwa [hentries], by rw [hentries, hremoved, hsame], ?_⟩
  unfold CCoinsViewCache.spendCoin
  cases hentry : ((layerView db es below).fetchCoin outpoint).cache.entries.get outpoint with
  | none => exact (hnone hentry).symm
  | some entry =>
    have hfetched : ((topCache db es below).fetch Coin.isSpent outpoint).entries.get outpoint =
      some entry := hentry
    rw [← hsame, contents, overlay_of_some hfetched]
    rfl

/-- A call on a layer, seen from the layer: it succeeds, and keeps or changes the coins that
the layer shows as it would those of a map. -/
lemma run_spec (call : CoinCall)
    (hcall : ∀ outpoint coin possibleOverwrite, call = .addCoin outpoint coin possibleOverwrite →
      coin.isSpent = false ∧ (possibleOverwrite = false →
        contents Coin.isSpent db (es :: below) outpoint = none)) :
    ∃ layers db' r, call.run db (es :: below) = .ok (layers, db', r) ∧
      layers.length = below.length + 1 ∧ CacheStack.Valid Coin.isSpent db' layers ∧
      contents Coin.isSpent db' layers = call.apply (contents Coin.isSpent db (es :: below)) ∧
      r.seen = call.answer (contents Coin.isSpent db (es :: below)) := by
  have hfetch : ∀ outpoint, (fetch Coin.isSpent db outpoint (es :: below)).length =
      below.length + 1 := fun outpoint => length_fetch outpoint (es :: below)
  cases call with
  | getCoin outpoint =>
    obtain ⟨hvalid, hsame⟩ := h.fetch outpoint
    refine ⟨_, _, _, rfl, hfetch outpoint, hvalid, hsame, ?_⟩
    exact congrArg CoinResult.coin (filter_getCoin h outpoint)
  | haveCoin outpoint =>
    obtain ⟨hvalid, hsame⟩ := h.fetch outpoint
    refine ⟨_, _, _, rfl, hfetch outpoint, hvalid, hsame, ?_⟩
    refine congrArg CoinResult.found ?_
    rw [← filter_getCoin h outpoint, Option.isSome_filter]
    rfl
  | addCoin outpoint coin possibleOverwrite =>
    obtain ⟨hcoin, hnew⟩ := hcall outpoint coin possibleOverwrite rfl
    by_cases hspendable : isUnspendable coin.out.scriptPubKey = true
    · have hadd : (layerView db es below).addCoin outpoint coin possibleOverwrite =
          .ok (layerView db es below) := by
        rw [CCoinsViewCache.addCoin, if_neg (by simp [hcoin]), if_pos hspendable]
        rfl
      refine ⟨_, _, _, bind_eq_ok.mpr ⟨_, hadd, rfl⟩, rfl, h, ?_, rfl⟩
      rw [CoinCall.apply, if_pos hspendable]
      rfl
    · obtain ⟨hvalid, hupdate⟩ := h.put hnew hcoin
      refine ⟨_, _, _, bind_eq_ok.mpr ⟨_, addCoin_eq_ok hcoin (by simpa using hspendable) hnew,
        rfl⟩, rfl, hvalid, ?_, rfl⟩
      rw [CoinCall.apply, if_neg hspendable]
      exact hupdate
  | spendCoin outpoint =>
    obtain ⟨hvalid, hsame, hseen⟩ := spendCoin_layer h outpoint
    refine ⟨_, _, _, rfl, ?_, hvalid, hsame, congrArg CoinResult.coin hseen⟩
    rw [length_cons, length_tail, hfetch]
    rfl
  | uncache outpoint =>
    obtain ⟨hvalid, hsame⟩ := h.uncache outpoint
    exact ⟨_, _, _, rfl, rfl, hvalid, hsame, rfl⟩
  | trim order usage nTrimSize =>
    obtain ⟨hvalid, hsame⟩ := valid_trimEntries usage nTrimSize order h
    exact ⟨_, _, _, rfl, rfl, hvalid, hsame, rfl⟩
  | setBestBlock hashBlock => exact ⟨_, _, _, rfl, rfl, h, rfl, rfl⟩
  | flush keep =>
    obtain ⟨layers, db', hflush, hlength, hvalid, hsame, -⟩ := h.flush keep
    exact ⟨layers, db', _, bind_eq_ok.mpr ⟨_, hflush, rfl⟩, hlength, hvalid, hsame, rfl⟩

end Layer

/-- An allowed call succeeds. The stack stands for the map that the call leaves, and a call on
the whole stack returns what it would return for the map. -/
theorem step_refines (h : Refines s m) {call : CoinCall} (hcall : Allowed s m i call) :
    ∃ s' r, s.step i call = .ok (s', r) ∧ Refines s' (call.apply m) ∧
      s'.layers.length = s.layers.length ∧ (Reaches s i call → r.seen = call.answer m) := by
  obtain ⟨hi, hallowed⟩ := hcall
  have hsplit := take_append_drop i s.layers
  have hlength : (s.layers.take i).length = i := length_take_of_le hi.le
  obtain ⟨es, below, hdrop⟩ : ∃ es below, s.layers.drop i = es :: below :=
    ⟨_, _, drop_eq_getElem_cons hi⟩
  have hvalid := h.valid
  have hcontents := h.contents
  rw [← hsplit, hdrop] at hvalid hcontents
  have hbelow := valid_of_append hvalid
  -- For an outpoint that the layers above do not hide, the layer shows the coin of the map.
  have hshown : ∀ outpoint, Exposed (s.layers.take i) outpoint →
      contents Coin.isSpent s.db (es :: below) outpoint = m outpoint := by
    intro outpoint hexposed
    rw [← hcontents, contents_of_exposed hexposed]
  obtain ⟨layers, db', r, hrun, hlayers, hvalid', happly, hseen⟩ := run_spec hbelow call (by
    rintro outpoint coin possibleOverwrite rfl
    obtain ⟨hreaches, hcoin, hnew⟩ := hallowed
    exact ⟨hcoin, fun hover => (hshown outpoint (hreaches outpoint rfl)).trans (hnew hover)⟩)
  have hstep : s.step i call = .ok (⟨s.layers.take i ++ layers, call.hashBlocks i s.hashBlocks, db',
      call.dbBestBlock i s⟩, r) := by
    rw [CoinStack.step, hdrop, hrun]
    rfl
  have hrefines : CacheStack.Valid Coin.isSpent db' (s.layers.take i ++ layers) ∧
      contents Coin.isSpent db' (s.layers.take i ++ layers) = call.apply m := by
    rw [← hcontents]
    cases call with
    | addCoin outpoint coin possibleOverwrite =>
      rw [CoinCall.apply] at happly ⊢
      split_ifs at happly ⊢
      · exact hvalid.splice_same hvalid' happly
      · exact hvalid.splice_update hvalid' (hallowed.1 outpoint rfl) happly
    | spendCoin outpoint => exact hvalid.splice_update hvalid' (hallowed outpoint rfl) happly
    | _ => exact hvalid.splice_same hvalid' happly
  refine ⟨_, r, hstep, ⟨hrefines.1, hrefines.2⟩, ?_, fun hreaches => ?_⟩
  · have htotal := congrArg List.length hdrop
    rw [length_drop, length_cons] at htotal
    rw [length_append]
    omega
  · rw [hseen]
    cases call with
    | getCoin outpoint | haveCoin outpoint | spendCoin outpoint =>
      rw [CoinCall.answer, hshown outpoint (hreaches outpoint rfl)]
      rfl
    | _ => rfl

/-- A run of allowed calls succeeds, and the stack stands for the map that they leave. -/
theorem run_refines (calls : List (ℕ × CoinCall)) (h : Refines s m)
    (hcalls : AllowedRun s m calls) :
    ∃ s', s.run calls = .ok s' ∧ Refines s' (applyAll m calls) ∧
      s'.layers.length = s.layers.length := by
  induction calls generalizing s m with
  | nil => exact ⟨s, rfl, h, rfl⟩
  | cons c calls ih =>
    obtain ⟨hallowed, hrest⟩ := hcalls
    obtain ⟨s₁, r, hstep, hrefines, hlength, -⟩ := step_refines h hallowed
    obtain ⟨s₂, hrun, hrefines', hlength'⟩ := ih hrefines (hrest s₁ r hstep)
    refine ⟨s₂, foldlM_cons_eq_ok.mpr ⟨s₁, ?_, hrun⟩, hrefines', hlength'.trans hlength⟩
    rw [hstep]
    rfl

end Steps

variable {m : COutPoint → Option Coin}

/-- Flushing the layers from the `i`th one on, when that one shows all coins. -/
lemma run_flush (keep : COutPoint → Bool) (k : ℕ) :
    ∀ (i : ℕ) (s : CoinStack), i + k = s.layers.length →
      CacheStack.Valid Coin.isSpent s.db s.layers →
      contents Coin.isSpent s.db (s.layers.drop i) = m →
      ∃ s', s.run ((List.range' i k).map fun i => (i, .flush keep)) = .ok s' ∧ s'.db = m := by
  induction k with
  | zero =>
    intro i s hi _ hcontents
    rw [drop_of_length_le (by omega)] at hcontents
    exact ⟨s, rfl, hcontents⟩
  | succ k ih =>
    intro i s hi hvalid hcontents
    have hsplit := take_append_drop i s.layers
    have hlength : (s.layers.take i).length = i := length_take_of_le (by omega)
    have hvalid' := hvalid
    rw [← hsplit] at hvalid'
    obtain ⟨layers, db', hflush, hlayers, hflushed, hsame, htail⟩ :=
      (valid_of_append hvalid').flush keep
    have hdrop : ∃ es below, s.layers.drop i = es :: below :=
      ⟨_, _, drop_eq_getElem_cons (by omega)⟩
    obtain ⟨es, below, hdrop⟩ := hdrop
    let s₁ : CoinStack := ⟨s.layers.take i ++ layers,
      (CoinCall.flush keep).hashBlocks i s.hashBlocks,
      db', (CoinCall.flush keep).dbBestBlock i s⟩
    have hstep : s.step i (.flush keep) = .ok (s₁, .done) := by
      rw [hdrop] at hflush
      rw [CoinStack.step, hdrop, CoinCall.run, hflush]
      rfl
    have hnext : s₁.layers.drop (i + 1) = layers.tail := by
      rw [drop_append, hlength]
      simp
    obtain ⟨s', hrun, hdb⟩ := ih (i + 1) s₁ (by
      rw [length_append, hlayers, length_drop]
      omega) (hvalid'.splice_same hflushed hsame).1 (by rw [hnext]; exact htail.trans hcontents)
    refine ⟨s', foldlM_cons_eq_ok.mpr ⟨s₁, ?_, hrun⟩, hdb⟩
    rw [hstep]
    rfl

lemma refines_over (n : ℕ) {db : COutPoint → Option Coin} (dbBestBlock : Uint256)
    (hdb : ∀ outpoint coin, db outpoint = some coin → coin.isSpent = false) :
    Refines (CoinStack.over n db dbBestBlock) db := by
  have hover : ∀ n, CacheStack.Valid Coin.isSpent db (List.replicate n .empty) ∧
      contents Coin.isSpent db (List.replicate n .empty) = db := by
    intro n
    induction n with
    | zero => exact ⟨hdb, rfl⟩
    | succ n ih => exact ⟨⟨nofun, ih.1⟩, ih.2⟩
  exact ⟨(hover n).1, (hover n).2⟩

/-- Any number of layers over a database behaves as one map of coins: the calls of every
allowed run succeed, every lookup then returns what the map returns, and after all layers
have been flushed the database is the map. -/
theorem coinStack_refines_map (n : ℕ) (db : COutPoint → Option Coin) (dbBestBlock : Uint256)
    (calls : List (ℕ × CoinCall)) (keep : COutPoint → Bool)
    (hdb : ∀ outpoint coin, db outpoint = some coin → coin.isSpent = false)
    (hcalls : AllowedRun (CoinStack.over n db dbBestBlock) db calls) :
    ∃ s, (CoinStack.over n db dbBestBlock).run calls = .ok s ∧
      (∀ i call, Allowed s (applyAll db calls) i call → Reaches s i call →
        ∃ s' r, s.step i call = .ok (s', r) ∧ r.seen = call.answer (applyAll db calls)) ∧
      ∃ s', s.flushAll keep = .ok s' ∧ s'.db = applyAll db calls := by
  obtain ⟨s, hrun, hrefines, -⟩ := run_refines calls (refines_over n dbBestBlock hdb) hcalls
  refine ⟨s, hrun, fun i call hallowed hreaches => ?_, ?_⟩
  · obtain ⟨s', r, hstep, -, -, hseen⟩ := step_refines hrefines hallowed
    exact ⟨s', r, hstep, hseen hreaches⟩
  · rw [CoinStack.flushAll, range_eq_range']
    exact run_flush keep _ 0 s (by omega) hrefines.valid hrefines.contents

/-- The conditions on calls that are all made on the top layer, which are about the map alone. -/
def AllowedCalls : (COutPoint → Option Coin) → List CoinCall → Prop
  | _, [] => True
  | m, call :: calls =>
    (∀ outpoint coin possibleOverwrite, call = .addCoin outpoint coin possibleOverwrite →
      coin.isSpent = false ∧ (possibleOverwrite = false → m outpoint = none)) ∧
    AllowedCalls (call.apply m) calls

lemma allowedRun_top {s : CoinStack} (h : Refines s m) (hlayers : 0 < s.layers.length)
    {calls : List CoinCall} (hcalls : AllowedCalls m calls) :
    AllowedRun s m (calls.map fun call => (0, call)) := by
  induction calls generalizing s m with
  | nil => trivial
  | cons call calls ih =>
    have hreaches : Reaches s 0 call := fun outpoint _ es hes => by simp at hes
    have hallowed : Allowed s m 0 call := by
      refine ⟨hlayers, ?_⟩
      cases call with
      | addCoin outpoint coin possibleOverwrite =>
        obtain ⟨hcoin, hnew⟩ := hcalls.1 outpoint coin possibleOverwrite rfl
        exact ⟨hreaches, hcoin, hnew⟩
      | spendCoin outpoint => exact hreaches
      | _ => trivial
    obtain ⟨s₁, r₁, hstep, hrefines, hlength, -⟩ := step_refines h hallowed
    refine ⟨hallowed, fun s' r hstep' => ?_⟩
    cases hstep.symm.trans hstep'
    exact ih hrefines (by omega) hcalls.2

def someCoin : Coin := ⟨⟨0, 1000, [0x51]⟩, false, 7⟩
def someOutpoint : COutPoint := ⟨Uint256.null⟩

theorem coinStack_refines_map_twoLayers :
    ∃ s, (CoinStack.over 2 (fun _ => none) Uint256.null).run
        ([.addCoin someOutpoint someCoin false, .flush fun _ => true, .getCoin someOutpoint,
          .spendCoin someOutpoint].map fun call => (0, call)) = .ok s ∧
      ∃ s', s.flushAll (fun _ => true) = .ok s' ∧ s'.db someOutpoint = none := by
  have hallowed : AllowedCalls (fun _ => none) [.addCoin someOutpoint someCoin false,
      .flush fun _ => true, .getCoin someOutpoint, .spendCoin someOutpoint] := by
    refine ⟨?_, nofun, nofun, nofun, trivial⟩
    rintro outpoint coin possibleOverwrite ⟨⟩
    exact ⟨rfl, fun _ => rfl⟩
  have hempty : ∀ (outpoint : COutPoint) (coin : Coin), none = some coin →
      coin.isSpent = false := by
    intro outpoint coin hcoin
    cases hcoin
  obtain ⟨s, hrun, -, s', hflush, hdb⟩ := coinStack_refines_map 2 (fun _ => none) Uint256.null _
    (fun _ => true) hempty
    (allowedRun_top (refines_over 2 Uint256.null hempty) (by decide) hallowed)
  exact ⟨s, hrun, s', hflush, by rw [hdb]; rfl⟩

end PyrrhaNode.CoinLayers
