import PyrrhaNode.Asert

/-!
# The required work of the next block

`GetNextWorkRequired` computes the compact target of the next block from the chain of block
indexes below it: the anchor of the ASERT schedule is the genesis block, which is found by
walking back and is cached between calls.
-/
namespace PyrrhaNode.Difficulty

open Asert
open CompactTarget
open Loop

/-- The header fields that the calculation uses. -/
structure BlockIndex where
  nTime : UInt32
  height : UInt32
  nBits : UInt32
  deriving DecidableEq, Repr

/-- A block index with all its ancestors, the newest first; the empty chain stands for the
null pointer, and the tail for `pprev`. -/
abbrev Chain := List BlockIndex

structure Params where
  powLimit : ℕ
  fPowAllowMinDifficultyBlocks : Bool
  fPowNoRetargeting : Bool
  nPowTargetSpacing : Int64
  nASERTHalfLife : Int64

/-- The `pskip` pointers: where one is set, it leads to a proper ancestor. -/
structure SkipPointers where
  pskip : Chain → Option Chain
  isAncestor : ∀ pindex ancestor, pskip pindex = some ancestor →
    ancestor ≠ [] ∧ ancestor <:+ pindex.tail

/-- The conversion of a height to `int`. -/
def heightInt (height : UInt32) : ℤ :=
  if height.toNat < 2 ^ 31 then height.toNat else height.toNat - 2 ^ 32

/-- `GetAncestor`, whose loop counts the heights down in an `int`. -/
def getAncestor (pindex : Chain) (ansHeight : ℤ) : Option Chain :=
  match pindex with
  | [] => none
  | tip :: _ =>
    if (tip.height.toNat : ℤ) < ansHeight ∨ ansHeight < 0 then none
    else some (pindex.drop (heightInt tip.height - ansHeight).toNat)

/-- The slow path of `GetASERTAnchorBlock`; each step goes to an ancestor. -/
def walkToGenesis (skips : SkipPointers) : ℕ → Chain → Chain
  | 0, anchor => anchor
  | fuel + 1, anchor =>
    match anchor.tail with
    | [] => anchor
    | pprev => match skips.pskip anchor with
      | some ancestor => walkToGenesis skips fuel ancestor
      | none => walkToGenesis skips fuel pprev

/-- `GetASERTAnchorBlock`: the anchor and the new content of the cache. -/
def getASERTAnchorBlock (skips : SkipPointers) (cachedAnchor : Option Chain) (pindex : Chain) :
    Chain × Option Chain :=
  let cached := cachedAnchor.filter fun lastCached => match lastCached with
    | [] => false
    | tip :: _ => getAncestor pindex (heightInt tip.height) == some lastCached
  match cached with
  | some lastCached => (lastCached, cachedAnchor)
  | none =>
    let anchor := walkToGenesis skips pindex.length pindex
    (anchor, some anchor)

/-- The special rule for test networks: a block more than two spacings after the last one
may have the lowest difficulty. -/
def allowsMinDifficulty (params : Params) (prev : BlockIndex) (nTime : UInt32) :
    Except Failure Bool :=
  if params.fPowAllowMinDifficultyBlocks then do
    let spacings ← int64 (2 * params.nPowTargetSpacing.toInt)
    let late ← int64 (prev.nTime.toNat + spacings)
    return decide (late < nTime.toNat)
  else return false

/-- `GetNextASERTWorkRequired`. -/
def getNextASERTWorkRequired (params : Params) (pindexPrev : Chain) (nTime : UInt32)
    (pindexAnchorBlock : Chain) : Except Failure UInt32 :=
  match pindexPrev, pindexAnchorBlock with
  | [], _ => throw (.assertion "pindexPrev != nullptr")
  | _, [] => throw (.assertion "pindexAnchorBlock != nullptr")
  | prev :: pprev, anchor :: anchorParents => do
    require (anchor.height.toNat ≤ prev.height.toNat)
      "pindexPrev->height() >= pindexAnchorBlock->height()"
    if ← allowsMinDifficulty params prev nTime then return getCompact params.powLimit
    else if pprev.isEmpty then return getCompact params.powLimit
    else
      let anchorTime := match anchorParents with
        | [] => anchor.nTime
        | parent :: _ => parent.nTime
      let nTimeDiff := Int64.ofInt ((prev.nTime.toNat : ℤ) - anchorTime.toNat)
      let nHeightDiff := Int64.ofInt ((prev.height.toNat : ℤ) - anchor.height.toNat)
      let refBlockTarget := (setCompact anchor.nBits).1
      let nextTarget ← calculateASERT refBlockTarget params.nPowTargetSpacing nTimeDiff
        nHeightDiff params.powLimit params.nASERTHalfLife
      return getCompact nextTarget

/-- `GetNextWorkRequired` with the new content of the anchor cache. -/
def getNextWorkRequired (params : Params) (skips : SkipPointers) (cachedAnchor : Option Chain)
    (pindexPrev : Chain) (nTime : UInt32) : Except Failure (UInt32 × Option Chain) :=
  match pindexPrev with
  | [] => return (getCompact params.powLimit, cachedAnchor)
  | prev :: _ =>
    if params.fPowNoRetargeting then return (prev.nBits, cachedAnchor)
    else do
      let (panchorBlock, cachedAnchor) := getASERTAnchorBlock skips cachedAnchor pindexPrev
      let nBits ← getNextASERTWorkRequired params pindexPrev nTime panchorBlock
      return (nBits, cachedAnchor)

/-- `CheckProofOfWork` for the hash that the proof-of-work algorithm gives, if it gives
one. -/
def checkProofOfWork (hash : Option ℕ) (nBits : UInt32) (powLimit : ℕ) : Bool :=
  match hash with
  | none => false
  | some hash =>
    let (bnTarget, fNegative, fOverflow) := setCompact nBits
    if fNegative ∨ bnTarget = 0 ∨ fOverflow ∨ powLimit < bnTarget then false
    else !decide (bnTarget < hash)

/-- The cache is empty or holds a block without a parent. -/
def CacheValid (cachedAnchor : Option Chain) : Prop :=
  ∀ chain, cachedAnchor = some chain → ∃ genesis, chain = [genesis]

section Anchor

variable {skips : SkipPointers} {pindex : Chain} {cachedAnchor : Option Chain}
  {genesis : BlockIndex}

theorem isSuffix_of_getAncestor {ancestor : Chain} {ansHeight : ℤ}
    (h : getAncestor pindex ansHeight = some ancestor) : ancestor <:+ pindex := by
  cases pindex with
  | nil => cases h
  | cons tip parents =>
    rw [getAncestor] at h
    split at h
    · cases h
    · obtain rfl := Option.some.inj h
      exact List.drop_suffix _ _

theorem walkToGenesis_eq {fuel : ℕ} (hfuel : pindex.length ≤ fuel)
    (hlast : pindex.getLast? = some genesis) : walkToGenesis skips fuel pindex = [genesis] := by
  induction fuel generalizing pindex with
  | zero =>
    rw [List.length_eq_zero_iff.mp (Nat.le_zero.mp hfuel)] at hlast
    cases hlast
  | succ fuel ih =>
    cases pindex with
    | nil => cases hlast
    | cons tip parents =>
      have hstep : ∀ {ancestor : Chain}, ancestor ≠ [] → ancestor <:+ parents →
          walkToGenesis skips fuel ancestor = [genesis] := by
        rintro ancestor hne ⟨between, rfl⟩
        refine ih ?_ ?_
        · simp only [List.length_cons, List.length_append] at hfuel
          omega
        · rw [← hlast, ← List.cons_append, List.getLast?_append_of_ne_nil _ hne]
      rw [walkToGenesis]
      split
      case h_1 htail =>
        obtain rfl : parents = [] := htail
        simpa using hlast
      case h_2 hne =>
        split
        case h_1 ancestor hskip =>
          obtain ⟨hne, hancestor⟩ := skips.isAncestor _ _ hskip
          exact hstep hne hancestor
        case h_2 => exact hstep hne (List.suffix_refl _)

/-- The anchor is the genesis block, and the cache stays valid. -/
theorem getASERTAnchorBlock_eq (skips : SkipPointers) (hcache : CacheValid cachedAnchor)
    (hlast : pindex.getLast? = some genesis) :
    (getASERTAnchorBlock skips cachedAnchor pindex).1 = [genesis] ∧
      CacheValid (getASERTAnchorBlock skips cachedAnchor pindex).2 := by
  rw [getASERTAnchorBlock]
  split
  case h_1 lastCached hcached =>
    obtain ⟨hcached, hancestor⟩ := Option.filter_eq_some_iff.mp hcached
    obtain ⟨cachedGenesis, rfl⟩ := hcache _ hcached
    obtain ⟨later, rfl⟩ := isSuffix_of_getAncestor (beq_iff_eq.mp hancestor)
    obtain rfl : cachedGenesis = genesis := by simpa using hlast
    exact ⟨rfl, hcache⟩
  case h_2 =>
    rw [walkToGenesis_eq le_rfl hlast]
    refine ⟨rfl, fun chain hchain => ⟨genesis, (Option.some.inj hchain).symm⟩⟩

end Anchor

/-- A chain over a genesis block with these bits: heights are consecutive, and every other
header carries the bits that `GetNextWorkRequired` asked for, whatever the cache held. -/
inductive Follows (params : Params) (skips : SkipPointers) (genesisBits : UInt32) : Chain → Prop
  | genesis (g : BlockIndex) (h : g.nBits = genesisBits) : Follows params skips genesisBits [g]
  | next {prev b : BlockIndex} {parents : Chain} {cachedAnchor cachedAnchor' : Option Chain}
      (h : Follows params skips genesisBits (prev :: parents))
      (hheight : b.height.toNat = prev.height.toNat + 1) (hcache : CacheValid cachedAnchor)
      (hbits : getNextWorkRequired params skips cachedAnchor (prev :: parents) b.nTime =
        .ok (b.nBits, cachedAnchor')) :
      Follows params skips genesisBits (b :: prev :: parents)

/-- Time and height differences of the tip to the genesis block, as the calculation forms
them. -/
def timeDiff (tip genesis : BlockIndex) : Int64 :=
  Int64.ofInt ((tip.nTime.toNat : ℤ) - genesis.nTime.toNat)

def heightDiff (tip genesis : BlockIndex) : Int64 :=
  Int64.ofInt ((tip.height.toNat : ℤ) - genesis.height.toNat)

/-- The exponent of `CalculateASERT` for this tip and genesis block is computed without
overflow and stays below `2 ^ 47` in magnitude. -/
structure ExponentSmall (params : Params) (tip genesis : BlockIndex) : Prop where
  halfLife : params.nASERTHalfLife.toInt ≠ 0
  fits : -2 ^ 63 ≤ scaledDelay params.nPowTargetSpacing (timeDiff tip genesis)
      (heightDiff tip genesis) ∧
    scaledDelay params.nPowTargetSpacing (timeDiff tip genesis) (heightDiff tip genesis) < 2 ^ 63
  small : |(scaledDelay params.nPowTargetSpacing (timeDiff tip genesis)
    (heightDiff tip genesis)).tdiv params.nASERTHalfLife.toInt| < 2 ^ 47

section Required

variable {params : Params} {skips : SkipPointers} {genesisBits : UInt32} {tip genesis : BlockIndex}
  {parents chain : Chain}

theorem toInt_timeDiff : (timeDiff tip genesis).toInt = tip.nTime.toNat - genesis.nTime.toNat := by
  have htip := tip.nTime.toNat_lt
  have hgenesis := genesis.nTime.toNat_lt
  exact Int64.toInt_ofInt_of_le (by omega) (by omega)

theorem toInt_heightDiff :
    (heightDiff tip genesis).toInt = tip.height.toNat - genesis.height.toNat := by
  have htip := tip.height.toNat_lt
  have hgenesis := genesis.height.toNat_lt
  exact Int64.toInt_ofInt_of_le (by omega) (by omega)

/-- Every chain ends in a genesis block with the given bits, below all other heights. -/
theorem Follows.genesis_of_chain (h : Follows params skips genesisBits (tip :: parents)) :
    ∃ genesis, (tip :: parents).getLast? = some genesis ∧ genesis.nBits = genesisBits ∧
      genesis.height.toNat ≤ tip.height.toNat := by
  generalize hchain : tip :: parents = chain at h
  induction h generalizing tip parents with
  | genesis g hbits =>
    obtain ⟨rfl, rfl⟩ := List.cons.inj hchain
    exact ⟨tip, rfl, hbits, le_rfl⟩
  | @next prev b grandparents _ _ h hheight _ _ ih =>
    obtain ⟨rfl, rfl⟩ := List.cons.inj hchain
    obtain ⟨genesis, hlast, hbits, hle⟩ := ih rfl
    exact ⟨genesis, by rwa [List.getLast?_cons_cons], hbits, by omega⟩

theorem Follows.nBits_of_noRetargeting (h : Follows params skips genesisBits (tip :: parents))
    (hno : params.fPowNoRetargeting = true) : tip.nBits = genesisBits := by
  generalize hchain : tip :: parents = chain at h
  induction h generalizing tip parents with
  | genesis g hbits =>
    obtain ⟨rfl, rfl⟩ := List.cons.inj hchain
    exact hbits
  | @next prev b grandparents _ _ h hheight _ hrequired ih =>
    obtain ⟨rfl, rfl⟩ := List.cons.inj hchain
    rw [getNextWorkRequired, if_pos hno] at hrequired
    have heq : prev.nBits = tip.nBits := congrArg Prod.fst (Except.ok.inj hrequired)
    exact heq ▸ ih rfl

theorem exists_allowsMinDifficulty (h : ExponentSmall params tip genesis)
    (hle : genesis.height.toNat ≤ tip.height.toNat) (nTime : UInt32) :
    ∃ allowed, allowsMinDifficulty params tip nTime = .ok allowed := by
  have htime := tip.nTime.toNat_lt
  have hgenesis := genesis.nTime.toNat_lt
  have hspacing : |params.nPowTargetSpacing.toInt| < 2 ^ 48 := by
    have hfits := h.fits
    rw [scaledDelay, toInt_timeDiff, toInt_heightDiff] at hfits
    have hblocks : (1 : ℤ) ≤ |(tip.height.toNat : ℤ) - genesis.height.toNat + 1| :=
      le_abs.mpr (.inl (by omega))
    calc |params.nPowTargetSpacing.toInt|
        ≤ |params.nPowTargetSpacing.toInt| *
            |(tip.height.toNat : ℤ) - genesis.height.toNat + 1| :=
          le_mul_of_one_le_right (abs_nonneg _) hblocks
      _ = |params.nPowTargetSpacing.toInt *
            ((tip.height.toNat : ℤ) - genesis.height.toNat + 1)| := (abs_mul _ _).symm
      _ < 2 ^ 48 := abs_lt.mpr ⟨by omega, by omega⟩
  obtain ⟨hlo, hhi⟩ := abs_lt.mp hspacing
  rw [allowsMinDifficulty]
  split
  · refine ⟨decide (tip.nTime.toNat + 2 * params.nPowTargetSpacing.toInt < nTime.toNat), ?_⟩
    refine bind_eq_ok.mpr ⟨_, int64_of_bounds (by omega) (by omega), ?_⟩
    exact bind_eq_ok.mpr ⟨_, int64_of_bounds (by omega) (by omega), rfl⟩
  · exact ⟨false, rfl⟩

theorem getNextASERTWorkRequired_eq (parents : Chain) (hlimit : params.powLimit < 2 ^ 236)
    (hgenesis : WellFormed params.powLimit genesis.nBits)
    (hle : genesis.height.toNat ≤ tip.height.toNat) (h : ExponentSmall params tip genesis)
    (nTime : UInt32) :
    ∃ target, getNextASERTWorkRequired params (tip :: parents) nTime [genesis] =
        .ok (getCompact target) ∧ 0 < target ∧ target ≤ params.powLimit := by
  have hpos : 0 < params.powLimit := hgenesis.pos.trans_le hgenesis.le_powLimit
  obtain ⟨allowed, hallowed⟩ := exists_allowsMinDifficulty h hle nTime
  have hheight : 0 ≤ (heightDiff tip genesis).toInt := by
    rw [toInt_heightDiff]
    omega
  have htime := tip.nTime.toNat_lt
  have hstart := genesis.nTime.toNat_lt
  have hlast := tip.height.toNat_lt
  have htimes : |(timeDiff tip genesis).toInt| < 2 ^ 32 := by
    rw [toInt_timeDiff]
    exact abs_lt.mpr ⟨by omega, by omega⟩
  have hheights : (heightDiff tip genesis).toInt < 2 ^ 32 := by
    rw [toInt_heightDiff]
    omega
  obtain ⟨target, hcalc, htarget⟩ := calculateASERT_bounds hlimit hgenesis.pos
    hgenesis.le_powLimit hheight
    (asertExponent_of_lt h.fits h.small htimes hheight hheights h.halfLife)
  rw [getNextASERTWorkRequired, require_of hle, hallowed]
  cases allowed with
  | true => exact ⟨params.powLimit, rfl, hpos, le_rfl⟩
  | false =>
    cases parents with
    | nil => exact ⟨params.powLimit, rfl, hpos, le_rfl⟩
    | cons prev grandparents =>
      refine ⟨target, bind_eq_ok.mpr ⟨(), rfl, bind_eq_ok.mpr ⟨false, rfl, ?_⟩⟩, htarget⟩
      exact bind_eq_ok.mpr ⟨target, hcalc, rfl⟩

theorem checkProofOfWork_of_wellFormed {nBits : UInt32} {powLimit : ℕ}
    (h : WellFormed powLimit nBits) (hash : ℕ) :
    checkProofOfWork (some hash) nBits powLimit = decide (hash ≤ (setCompact nBits).1) := by
  have hrange : ¬ ((setCompact nBits).2.1 = true ∨ (setCompact nBits).1 = 0 ∨
      (setCompact nBits).2.2 = true ∨ powLimit < (setCompact nBits).1) := by
    rw [h.notNegative, h.noOverflow]
    have := h.pos
    have := h.le_powLimit
    simp only [Bool.false_eq_true, false_or]
    omega
  simp only [checkProofOfWork, if_neg hrange]
  rw [← decide_not, decide_eq_decide, not_lt]

/-- The required bits of the next block are well formed, so the range tests of
`CheckProofOfWork` do not reject a header that carries them: whatever the rules in force,
the skip pointers, the cache and the time of the next block, for every chain that follows
the rule from a genesis block with well-formed bits and whose exponent stays small. -/
theorem getNextWorkRequired_wellFormed (params : Params) (skips : SkipPointers)
    (genesisBits : UInt32) (cachedAnchor : Option Chain) (chain : Chain) (nTime : UInt32)
    (hlimit : params.powLimit < 2 ^ 236) (hbits : WellFormed params.powLimit genesisBits)
    (hcache : CacheValid cachedAnchor)
    (hchain : chain = [] ∨ Follows params skips genesisBits chain)
    (hexponent : ∀ tip genesis, chain.head? = some tip → chain.getLast? = some genesis →
      ExponentSmall params tip genesis) :
    ∃ nBits cachedAnchor', getNextWorkRequired params skips cachedAnchor chain nTime =
        .ok (nBits, cachedAnchor') ∧ CacheValid cachedAnchor' ∧
      WellFormed params.powLimit nBits ∧
      ∀ hash, checkProofOfWork (some hash) nBits params.powLimit =
        decide (hash ≤ (setCompact nBits).1) := by
  have hlimit' : params.powLimit < 2 ^ 256 := hlimit.trans (by decide)
  have hpos : 0 < params.powLimit := hbits.pos.trans_le hbits.le_powLimit
  suffices ∃ nBits cachedAnchor', getNextWorkRequired params skips cachedAnchor chain nTime =
      .ok (nBits, cachedAnchor') ∧ CacheValid cachedAnchor' ∧
      WellFormed params.powLimit nBits by
    obtain ⟨nBits, cachedAnchor', hrun, hcache', hwell⟩ := this
    exact ⟨nBits, cachedAnchor', hrun, hcache', hwell, checkProofOfWork_of_wellFormed hwell⟩
  cases chain with
  | nil => exact ⟨_, _, rfl, hcache, wellFormed_getCompact hpos le_rfl hlimit'⟩
  | cons tip parents =>
    have hfollows := hchain.resolve_left (List.cons_ne_nil _ _)
    rw [getNextWorkRequired]
    by_cases hno : params.fPowNoRetargeting = true
    · rw [if_pos hno]
      exact ⟨_, _, rfl, hcache, hfollows.nBits_of_noRetargeting hno ▸ hbits⟩
    obtain ⟨genesis, hlast, rfl, hle⟩ := hfollows.genesis_of_chain
    obtain ⟨hanchor, hcache'⟩ := getASERTAnchorBlock_eq skips hcache hlast
    obtain ⟨target, hrun, htarget, htarget'⟩ := getNextASERTWorkRequired_eq parents
      hlimit hbits hle (hexponent tip genesis rfl hlast) nTime
    rw [if_neg hno]
    refine ⟨_, _, ?_, hcache', wellFormed_getCompact htarget htarget' hlimit'⟩
    simp only [hanchor, hrun]
    rfl

end Required

/-- A test network with a limit of `2 ^ 235` and a block every ten minutes. -/
def testParams : Params := ⟨2 ^ 235, true, false, 600, 172800⟩

def noSkips : SkipPointers := ⟨fun _ => none, nofun⟩

def testGenesis : BlockIndex := ⟨1000000, 0, 0x1d00ffff⟩

/-- The block after the genesis block has the lowest difficulty. -/
def firstBlock : BlockIndex := ⟨1000600, 1, getCompact (2 ^ 235)⟩

theorem getNextWorkRequired_wellFormed_firstBlock :
    getNextWorkRequired testParams noSkips none [firstBlock, testGenesis] 1001200 =
        .ok (0x1d00ff62, some [testGenesis]) ∧
      WellFormed testParams.powLimit 0x1d00ff62 := by
  have hbits : WellFormed testParams.powLimit testGenesis.nBits :=
    ⟨by decide +kernel, by decide +kernel, by decide +kernel, by decide +kernel, by decide +kernel⟩
  have hnone : CacheValid none := fun _ h => nomatch h
  have hfirst : getNextWorkRequired testParams noSkips none [testGenesis] firstBlock.nTime =
      .ok (firstBlock.nBits, some [testGenesis]) := by decide +kernel
  have hfollows : Follows testParams noSkips testGenesis.nBits [firstBlock, testGenesis] :=
    .next (.genesis testGenesis rfl) (by decide) hnone hfirst
  have hrun : getNextWorkRequired testParams noSkips none [firstBlock, testGenesis] 1001200 =
      .ok (0x1d00ff62, some [testGenesis]) := by decide +kernel
  obtain ⟨nBits, cachedAnchor, hrun', -, hwell, -⟩ := getNextWorkRequired_wellFormed testParams
    noSkips testGenesis.nBits none [firstBlock, testGenesis] 1001200 (by decide +kernel) hbits
    hnone (.inr hfollows) (fun tip genesis htip hlast => by
      obtain rfl := Option.some.inj htip
      obtain rfl := Option.some.inj hlast
      exact ⟨by decide, by decide, by decide⟩)
  obtain ⟨rfl, -⟩ := Prod.mk.inj (Except.ok.inj (hrun.symm.trans hrun'))
  exact ⟨hrun, hwell⟩

end PyrrhaNode.Difficulty
