import PyrrhaNode.Merkle

/-!
# Partial merkle trees

A partial merkle tree stores, in depth-first order, one bit for each visited node and one hash
for each node that is not descended into.  `traverseAndBuild` writes the two lists,
`traverseAndExtract` reads them with a cursor in each.  A node is given by its height and its
position on the level of that height, the widths of the levels follow from the number of
transactions.
-/
namespace PyrrhaNode.PartialMerkle

open List Merkle MerkleLevels Serialize

variable {α : Type} [DecidableEq α] (bits : List Bool)

structure CPartialMerkleTree (α : Type) where
  nTransactions : ℕ
  vBits : List Bool
  vHash : List α
  fBad : Bool
  deriving DecidableEq

/-- The number of nodes at a height, in 32 bits. -/
def calcTreeWidth (nTransactions height : ℕ) : ℕ :=
  (nTransactions + 2 ^ height - 1) % 2 ^ 32 / 2 ^ height

/-- `while (CalcTreeWidth(nHeight) > 1) nHeight++` -/
def heightFrom (nTransactions : ℕ) : ℕ → ℕ → ℕ
  | 0, nHeight => nHeight
  | fuel + 1, nHeight =>
    if 1 < calcTreeWidth nTransactions nHeight then heightFrom nTransactions fuel (nHeight + 1)
    else nHeight

/-- A width of 32 bits is zero at the height 32. -/
def treeHeight (nTransactions : ℕ) : ℕ := heightFrom nTransactions 32 0

section Build

variable (null : α) (pairHash : α → α → α) (vTxid : List α) (vMatch : List Bool)

def calcHash : ℕ → ℕ → α
  | 0, pos => vTxid.getD pos null
  | height + 1, pos =>
    let left := calcHash height (pos * 2)
    let right :=
      if pos * 2 + 1 < calcTreeWidth vTxid.length height then calcHash height (pos * 2 + 1)
      else left
    pairHash left right

/-- The positions of the transactions below a node. -/
def below (nTransactions height pos : ℕ) : List ℕ :=
  (List.range' (pos * 2 ^ height) (2 ^ height)).filter (· < nTransactions)

/-- Whether the node is the parent of a matched txid. -/
def parentOfMatch (height pos : ℕ) : Bool :=
  (below vTxid.length height pos).any fun p => vMatch.getD p false

/-- The bits and the hashes that are pushed for a node and what is below it. -/
def traverseAndBuild : ℕ → ℕ → List Bool × List α
  | 0, pos => ([parentOfMatch vTxid vMatch 0 pos], [calcHash null pairHash vTxid 0 pos])
  | height + 1, pos =>
    if parentOfMatch vTxid vMatch (height + 1) pos then
      let left := traverseAndBuild height (pos * 2)
      if pos * 2 + 1 < calcTreeWidth vTxid.length height then
        let right := traverseAndBuild height (pos * 2 + 1)
        (true :: left.1 ++ right.1, left.2 ++ right.2)
      else (true :: left.1, left.2)
    else ([false], [calcHash null pairHash vTxid (height + 1) pos])

/-- The constructor from a list of txids and a mask. -/
def partialMerkleTree : CPartialMerkleTree α :=
  let built := traverseAndBuild null pairHash vTxid vMatch (treeHeight vTxid.length) 0
  ⟨vTxid.length, built.1, built.2, false⟩

/-- The matched txids with their positions, in order. -/
def matched : List (ℕ × α) :=
  ((List.range vTxid.length).filter fun p => vMatch.getD p false).map
    fun p => (p, vTxid.getD p null)

/-- No node above a matched txid has two equal children. -/
def NoTwins : Prop :=
  ∀ height < treeHeight vTxid.length, ∀ pos, parentOfMatch vTxid vMatch (height + 1) pos = true →
    pos * 2 + 1 < calcTreeWidth vTxid.length height →
    calcHash null pairHash vTxid height (pos * 2 + 1) ≠
      calcHash null pairHash vTxid height (pos * 2)

end Build

/-- The cursors, the flag and the matches (`vnIndex` and `vMatch` side by side) during an
extraction. -/
structure Extraction (α : Type) where
  nBitsUsed : ℕ
  nHashUsed : ℕ
  fBad : Bool
  vMatched : List (ℕ × α)

section Extract

variable (null : α) (pairHash : α → α → α) (tree : CPartialMerkleTree α)

/-- Uses the next stored hash; at height 0 it may be a match. -/
def takeHash (isMatch : Bool) (pos : ℕ) (s : Extraction α) : α × Extraction α :=
  match tree.vHash[s.nHashUsed]? with
  | none => (null, { s with fBad := true })
  | some hash =>
    (hash, { s with
      nHashUsed := s.nHashUsed + 1
      vMatched := if isMatch then s.vMatched ++ [(pos, hash)] else s.vMatched })

def traverseAndExtract : ℕ → ℕ → Extraction α → α × Extraction α
  | 0, pos, s =>
    match tree.vBits[s.nBitsUsed]? with
    | none => (null, { s with fBad := true })
    | some fParentOfMatch =>
      takeHash null tree fParentOfMatch pos { s with nBitsUsed := s.nBitsUsed + 1 }
  | height + 1, pos, s =>
    match tree.vBits[s.nBitsUsed]? with
    | none => (null, { s with fBad := true })
    | some false => takeHash null tree false pos { s with nBitsUsed := s.nBitsUsed + 1 }
    | some true =>
      let left := traverseAndExtract height (pos * 2) { s with nBitsUsed := s.nBitsUsed + 1 }
      if pos * 2 + 1 < calcTreeWidth tree.nTransactions height then
        let right := traverseAndExtract height (pos * 2 + 1) left.2
        -- the left and right branches should never be identical
        (pairHash left.1 right.1,
          { right.2 with fBad := right.2.fBad || decide (right.1 = left.1) })
      else (pairHash left.1 left.1, left.2)

/-- The pairs that are hashed on the way. -/
def extractedPairs : ℕ → ℕ → Extraction α → List (α × α)
  | 0, _, _ => []
  | height + 1, pos, s =>
    match tree.vBits[s.nBitsUsed]? with
    | some true =>
      let s := { s with nBitsUsed := s.nBitsUsed + 1 }
      let left := traverseAndExtract null pairHash tree height (pos * 2) s
      if pos * 2 + 1 < calcTreeWidth tree.nTransactions height then
        let right := traverseAndExtract null pairHash tree height (pos * 2 + 1) left.2
        (left.1, right.1) :: extractedPairs height (pos * 2) s ++
          extractedPairs height (pos * 2 + 1) left.2
      else (left.1, left.1) :: extractedPairs height (pos * 2) s
    | _ => []

/-- The state at the root. -/
def start : Extraction α := ⟨0, 0, tree.fBad, []⟩

/-- The merkle root, or null in case of failure, and the matches. The source clears `vMatch` but not
`vnIndex`, to which it appends; the model is for an empty one, as its caller passes it. -/
def extractMatches : α × List (ℕ × α) :=
  if tree.nTransactions = 0 then (null, [])
  else if tree.nTransactions < tree.vHash.length then (null, [])
  else if tree.vBits.length < tree.vHash.length then (null, [])
  else
    let result :=
      traverseAndExtract null pairHash tree (treeHeight tree.nTransactions) 0 (start tree)
    if result.2.fBad then (null, result.2.vMatched)
    else if (result.2.nBitsUsed + 7) / 8 ≠ (tree.vBits.length + 7) / 8 then
      (null, result.2.vMatched)
    else if result.2.nHashUsed ≠ tree.vHash.length then (null, result.2.vMatched)
    else (result.1, result.2.vMatched)

end Extract

section Shape

variable {n height pos : ℕ}

lemma lt_calcTreeWidth (hn : n ≤ 2 ^ 31) (hheight : height ≤ 31) :
    pos < calcTreeWidth n height ↔ pos * 2 ^ height < n := by
  have hpow : 2 ^ height ≤ 2 ^ 31 := Nat.pow_le_pow_right (by decide) hheight
  have hpos : 0 < 2 ^ height := Nat.two_pow_pos height
  rw [calcTreeWidth, ← Nat.succ_le_iff, Nat.le_div_iff_mul_le hpos,
    Nat.succ_mul]
  omega

lemma heightFrom_spec (fuel : ℕ) (hbelow : ∀ h < height, 1 < calcTreeWidth n h)
    (htop : calcTreeWidth n (height + fuel) ≤ 1) :
    calcTreeWidth n (heightFrom n fuel height) ≤ 1 ∧
      ∀ h < heightFrom n fuel height, 1 < calcTreeWidth n h := by
  induction fuel generalizing height with
  | zero => exact ⟨htop, hbelow⟩
  | succ fuel ih =>
    rw [heightFrom]
    split_ifs with hwide
    · apply ih
      · intro h hh
        rcases Nat.lt_succ_iff_lt_or_eq.mp hh with hh | rfl
        · exact hbelow h hh
        · exact hwide
      · rwa [show height + 1 + fuel = height + (fuel + 1) by omega]
    · exact ⟨not_lt.mp hwide, hbelow⟩

/-- The root is alone on its level, and no level below it has one node. -/
lemma treeHeight_spec (hpos : 0 < n) (hn : n ≤ 2 ^ 31) :
    treeHeight n ≤ 31 ∧ n ≤ 2 ^ treeHeight n ∧ ∀ h < treeHeight n, 2 ^ h < n := by
  have hlast : calcTreeWidth n (0 + 32) ≤ 1 := by
    rw [calcTreeWidth]
    omega
  obtain ⟨htop, hbelow⟩ := heightFrom_spec 32 (fun h hh => absurd hh (by omega)) hlast
  have hle : treeHeight n ≤ 31 := by
    by_contra hgt
    have := (lt_calcTreeWidth hn (le_refl 31)).mp (hbelow 31 (by rw [treeHeight] at hgt; omega))
    omega
  refine ⟨hle, ?_, ?_⟩
  · have := mt (lt_calcTreeWidth hn hle).mpr (not_lt.mpr htop)
    omega
  · intro h hh
    have := (lt_calcTreeWidth hn (by omega)).mp (hbelow h hh)
    omega

/-- The transactions below a node are those below its children. -/
lemma below_succ (n height pos : ℕ) :
    below n (height + 1) pos = below n height (pos * 2) ++ below n height (pos * 2 + 1) := by
  rw [below, below, below, ← filter_append, pow_succ',
    show pos * (2 * 2 ^ height) = pos * 2 * 2 ^ height by ring,
    show (pos * 2 + 1) * 2 ^ height = pos * 2 * 2 ^ height + 2 ^ height by ring, two_mul,
    ← List.range'_append_1]

lemma length_below_pos (h : pos * 2 ^ height < n) : 0 < (below n height pos).length := by
  apply length_pos_of_mem
  rw [below, mem_filter, List.mem_range'_1, decide_eq_true_iff]
  exact ⟨⟨le_refl _, Nat.lt_add_of_pos_right (Nat.two_pow_pos height)⟩, h⟩

lemma below_eq_nil (h : n ≤ pos * 2 ^ height) : below n height pos = [] := by
  rw [below, filter_eq_nil_iff]
  intro p hp
  have := (List.mem_range'_1.mp hp).1
  simp only [decide_eq_true_iff]
  omega

lemma below_root (h : n ≤ 2 ^ height) : below n height 0 = List.range n := by
  have hsplit : 2 ^ height = n + (2 ^ height - n) := by omega
  rw [below, Nat.zero_mul, hsplit, ← List.range'_append_1, filter_append]
  rw [filter_eq_self.mpr, filter_eq_nil_iff.mpr, append_nil, range_eq_range']
  · intro p hp
    have := (List.mem_range'_1.mp hp).1
    simp only [decide_eq_true_iff]
    omega
  · intro p hp
    have := (List.mem_range'_1.mp hp).2
    simp only [decide_eq_true_iff]
    omega

lemma lt_left (h : pos * 2 ^ (height + 1) < n) : pos * 2 * 2 ^ height < n := by
  rwa [mul_assoc, ← pow_succ']

end Shape

section Nodes

variable (null : α) (pairHash : α → α → α) {vTxid : List α} {height pos : ℕ}

omit [DecidableEq α] in
/-- The children of a node, the left one twice where the right one is missing, are paired on their
level. -/
lemma getElem?_pairs_level (hn : vTxid.length ≤ 2 ^ 31) (hheight : height + 1 ≤ 31)
    (hlevel : ∀ {pos}, pos * 2 ^ height < vTxid.length →
      (level pairHash height vTxid)[pos]? = some (calcHash null pairHash vTxid height pos))
    (hpos : pos * 2 ^ (height + 1) < vTxid.length) :
    (pairs (level pairHash height vTxid))[pos]? =
      some (calcHash null pairHash vTxid height (pos * 2),
        if pos * 2 + 1 < calcTreeWidth vTxid.length height then
          calcHash null pairHash vTxid height (pos * 2 + 1)
        else calcHash null pairHash vTxid height (pos * 2)) := by
  rw [getElem?_pairs, Nat.mul_comm 2 pos, hlevel (lt_left hpos)]
  simp only [lt_calcTreeWidth hn (show height ≤ 31 by omega)]
  split_ifs with hright
  · rw [hlevel hright]
    rfl
  · have hnone : (level pairHash height vTxid)[pos * 2 + 1]? = none := by
      rw [List.getElem?_eq_none_iff, ← not_lt, lt_length_level]
      exact hright
    rw [hnone]
    rfl

omit [DecidableEq α] in
lemma getElem?_level (hn : vTxid.length ≤ 2 ^ 31) (hheight : height ≤ 31)
    (hpos : pos * 2 ^ height < vTxid.length) :
    (level pairHash height vTxid)[pos]? = some (calcHash null pairHash vTxid height pos) := by
  induction height generalizing pos with
  | zero =>
    rw [pow_zero, mul_one] at hpos
    simp [level, calcHash, hpos]
  | succ height ih =>
    rw [level_succ, nextLevel, List.getElem?_map,
      getElem?_pairs_level null pairHash hn hheight (ih (by omega)) hpos]
    rfl

/-- The merkle root is the hash of the top node, and the pairs of all nodes are hashed. -/
lemma computeMerkleRoot_eq_calcHash (hne : vTxid ≠ []) (hn : vTxid.length ≤ 2 ^ 31) :
    (computeMerkleRoot null pairHash vTxid).1 =
        calcHash null pairHash vTxid (treeHeight vTxid.length) 0 ∧
      ∀ h < treeHeight vTxid.length, ∀ p ∈ pairs (level pairHash h vTxid),
        p ∈ merklePairs pairHash vTxid := by
  have hlength := length_pos_iff.mpr hne
  obtain ⟨hle, htop, hbelow⟩ := treeHeight_spec hlength hn
  have hwide : ∀ h < treeHeight vTxid.length, 1 < (level pairHash h vTxid).length := by
    intro h hh
    rw [lt_length_level, one_mul]
    exact hbelow h hh
  have hsingle : (level pairHash (treeHeight vTxid.length) vTxid).length ≤ 1 := by
    rw [← not_lt, lt_length_level]
    omega
  obtain ⟨hloop, hpairs⟩ := merkleLoop_eq_level pairHash le_rfl hwide hsingle false
  refine ⟨?_, hpairs⟩
  have hroot := getElem?_level null pairHash hn hle (show 0 * _ < _ by omega)
  have hfirst : (computeMerkleRoot null pairHash vTxid).1 =
      (merkleLoop pairHash vTxid.length vTxid false).1.headD null := rfl
  rw [hfirst, hloop, List.headD_eq_head?_getD, List.head?_eq_getElem?, hroot]
  rfl

/-- With different txids and a hash that is injective on the pairs of the tree, no node has two
equal children. -/
lemma noTwins_of_nodup (hne : vTxid ≠ []) (hn : vTxid.length ≤ 2 ^ 31) (hnodup : vTxid.Nodup)
    (hinj : InjectiveOn pairHash {p | p ∈ merklePairs pairHash vTxid}) (vMatch : List Bool) :
    NoTwins null pairHash vTxid vMatch := by
  obtain ⟨hle, -, -⟩ := treeHeight_spec (length_pos_iff.mpr hne) hn
  have hpairs := (computeMerkleRoot_eq_calcHash null pairHash hne hn).2
  have hlevels : ∀ h ≤ treeHeight vTxid.length, (level pairHash h vTxid).Nodup := by
    intro h hh
    induction h with
    | zero => exact hnodup
    | succ h ih =>
      rw [level_succ]
      exact (nodup_pairs (ih (by omega))).map_on fun p hp q hq heq =>
        hinj (hpairs h hh p hp) (hpairs h hh q hq) heq
  intro height hh pos _ hright heq
  have hright := (lt_calcTreeWidth hn (by omega)).mp hright
  have hleft : pos * 2 * 2 ^ height < vTxid.length :=
    (Nat.mul_le_mul_right _ (Nat.le_succ _)).trans_lt hright
  have hr := getElem?_level null pairHash hn (by omega) hright
  rw [heq, ← getElem?_level null pairHash hn (by omega) hleft] at hr
  have hwithin := (lt_length_level pairHash height (pos * 2 + 1) vTxid).mpr hright
  exact absurd ((getElem?_inj hwithin (hlevels height hh.le)).mp hr) (by omega)

end Nodes

section Exact

variable {null : α} {pairHash : α → α → α} {vTxid rest l : List α} {vMatch : List Bool}
  {tree : CPartialMerkleTree α} {height pos k : ℕ}

/-- The matches below a node. -/
def matchedBelow (null : α) (vTxid : List α) (vMatch : List Bool) (height pos : ℕ) :
    List (ℕ × α) :=
  ((below vTxid.length height pos).filter fun p => vMatch.getD p false).map
    fun p => (p, vTxid.getD p null)

omit [DecidableEq α] in
lemma matchedBelow_of_parentOfMatch (h : parentOfMatch vTxid vMatch height pos = false) :
    matchedBelow null vTxid vMatch height pos = [] := by
  rw [parentOfMatch, any_eq_false] at h
  rw [matchedBelow, filter_eq_nil_iff.mpr h, map_nil]

omit [DecidableEq α] in
lemma matchedBelow_leaf (hpos : pos < vTxid.length) :
    matchedBelow null vTxid vMatch 0 pos =
      if parentOfMatch vTxid vMatch 0 pos then [(pos, vTxid.getD pos null)] else [] := by
  have hbelow : below vTxid.length 0 pos = [pos] := by
    simp [below, hpos]
  rw [matchedBelow, parentOfMatch, hbelow]
  simp only [filter_cons, any_cons, any_nil, Bool.or_false]
  split_ifs <;> rfl

omit [DecidableEq α] in
lemma matchedBelow_succ (height pos : ℕ) :
    matchedBelow null vTxid vMatch (height + 1) pos =
      matchedBelow null vTxid vMatch height (pos * 2) ++
        matchedBelow null vTxid vMatch height (pos * 2 + 1) := by
  rw [matchedBelow, below_succ, filter_append, map_append]
  rfl

omit [DecidableEq α] in
lemma getElem?_of_drop {x : α} (h : l.drop k = x :: rest) :
    l[k]? = some x ∧ l.drop (k + 1) = rest := by
  constructor
  · rw [← List.head?_drop, h]
    rfl
  · rw [← drop_drop, h]
    rfl

omit [DecidableEq α] in
lemma drop_of_drop {front : List α} (h : l.drop k = front ++ rest) :
    l.drop (k + front.length) = rest := by
  rw [← drop_drop, h, drop_left]

variable (null pairHash vMatch)

/-- Where the cursors stand on what was built for a node, extraction returns its hash, appends the
matches below it and moves the cursors behind it. -/
lemma traverseAndExtract_build (hn : vTxid.length ≤ 2 ^ 31)
    (htx : tree.nTransactions = vTxid.length) (htwins : NoTwins null pairHash vTxid vMatch)
    (hheight : height ≤ treeHeight vTxid.length) (hle : height ≤ 31)
    (hpos : pos * 2 ^ height < vTxid.length) (s : Extraction α) {restBits : List Bool}
    {restHash : List α} (hbits : tree.vBits.drop s.nBitsUsed =
      (traverseAndBuild null pairHash vTxid vMatch height pos).1 ++ restBits)
    (hhash : tree.vHash.drop s.nHashUsed =
      (traverseAndBuild null pairHash vTxid vMatch height pos).2 ++ restHash) :
    traverseAndExtract null pairHash tree height pos s =
      (calcHash null pairHash vTxid height pos,
        ⟨s.nBitsUsed + (traverseAndBuild null pairHash vTxid vMatch height pos).1.length,
          s.nHashUsed + (traverseAndBuild null pairHash vTxid vMatch height pos).2.length,
          s.fBad, s.vMatched ++ matchedBelow null vTxid vMatch height pos⟩) := by
  induction height generalizing pos s restBits restHash with
  | zero =>
    have hbit := (getElem?_of_drop hbits).1
    have hstored := (getElem?_of_drop hhash).1
    rw [pow_zero, mul_one] at hpos
    rw [traverseAndExtract, hbit, matchedBelow_leaf hpos]
    simp only [takeHash, hstored, traverseAndBuild, calcHash]
    split_ifs <;> simp
  | succ height ih =>
    rw [traverseAndBuild] at hbits hhash ⊢
    by_cases hmatch : parentOfMatch vTxid vMatch (height + 1) pos = true
    · have hleft := lt_left hpos
      rw [if_pos hmatch] at hbits hhash ⊢
      by_cases hright : pos * 2 + 1 < calcTreeWidth vTxid.length height
      · rw [if_pos hright] at hbits hhash ⊢
        simp only [append_assoc] at hbits hhash
        obtain ⟨hbit, hbits⟩ := getElem?_of_drop hbits
        have hl := ih (by omega) (by omega) hleft { s with nBitsUsed := s.nBitsUsed + 1 } hbits
          hhash
        have hr := ih (by omega) (by omega) ((lt_calcTreeWidth hn (by omega)).mp hright)
          (traverseAndExtract null pairHash tree height (pos * 2)
            { s with nBitsUsed := s.nBitsUsed + 1 }).2
          (by rw [hl]; exact drop_of_drop hbits) (by rw [hl]; exact drop_of_drop hhash)
        simp only [hl] at hr
        have hne := htwins height (by omega) pos hmatch hright
        rw [traverseAndExtract, hbit, htx]
        simp only [if_pos hright, hr, hl, matchedBelow_succ, calcHash, decide_eq_false hne,
          Bool.or_false, length_cons, length_append, append_assoc, Prod.mk.injEq,
          Extraction.mk.injEq, true_and, and_true]
        omega
      · rw [if_neg hright] at hbits hhash ⊢
        obtain ⟨hbit, hbits⟩ := getElem?_of_drop hbits
        have hl := ih (by omega) (by omega) hleft { s with nBitsUsed := s.nBitsUsed + 1 } hbits
          hhash
        have hempty : matchedBelow null vTxid vMatch height (pos * 2 + 1) = [] := by
          rw [lt_calcTreeWidth hn (by omega), not_lt] at hright
          rw [matchedBelow, below_eq_nil hright]
          rfl
        rw [traverseAndExtract, hbit, htx]
        simp only [if_neg hright, hl, matchedBelow_succ, hempty, calcHash, length_cons,
          append_nil, Prod.mk.injEq, Extraction.mk.injEq, true_and, and_true]
        omega
    · rw [if_neg hmatch] at hbits hhash ⊢
      have hbit := (getElem?_of_drop hbits).1
      have hstored := (getElem?_of_drop hhash).1
      rw [traverseAndExtract, hbit, matchedBelow_of_parentOfMatch (eq_false_of_ne_true hmatch)]
      simp [takeHash, hstored]

omit [DecidableEq α] in
/-- At most one hash is stored for each transaction, and a bit for each hash. -/
lemma length_build_le (hn : vTxid.length ≤ 2 ^ 31) (hle : height ≤ 31)
    (hpos : pos * 2 ^ height < vTxid.length) :
    (traverseAndBuild null pairHash vTxid vMatch height pos).2.length ≤
        (below vTxid.length height pos).length ∧
      (traverseAndBuild null pairHash vTxid vMatch height pos).2.length ≤
        (traverseAndBuild null pairHash vTxid vMatch height pos).1.length := by
  induction height generalizing pos with
  | zero =>
    have hbelow := length_below_pos hpos
    exact ⟨hbelow, le_refl _⟩
  | succ height ih =>
    have hbelow := length_below_pos hpos
    have hl := ih (by omega) (lt_left hpos)
    rw [below_succ, length_append] at hbelow ⊢
    rw [traverseAndBuild]
    split_ifs with hmatch hright
    · have hr := ih (by omega) ((lt_calcTreeWidth hn (by omega)).mp hright)
      simp only [length_append, length_cons]
      omega
    · simp only [length_cons]
      omega
    · exact ⟨hbelow, le_refl _⟩

/-- Extraction of a built tree, with the padding that serialisation adds to its bits. -/
lemma extractMatches_build (hne : vTxid ≠ []) (hn : vTxid.length ≤ 2 ^ 31)
    (htwins : NoTwins null pairHash vTxid vMatch) (padding : List Bool)
    (htree : tree = ⟨vTxid.length,
      (partialMerkleTree null pairHash vTxid vMatch).vBits ++ padding,
      (partialMerkleTree null pairHash vTxid vMatch).vHash, false⟩)
    (hpadding : ((partialMerkleTree null pairHash vTxid vMatch).vBits.length + 7) / 8 =
      ((partialMerkleTree null pairHash vTxid vMatch).vBits.length + padding.length + 7) / 8) :
    extractMatches null pairHash tree =
      ((computeMerkleRoot null pairHash vTxid).1, matched null vTxid vMatch) := by
  subst htree
  have hlength := length_pos_iff.mpr hne
  obtain ⟨hle, htop, -⟩ := treeHeight_spec hlength hn
  have hroot : 0 * 2 ^ treeHeight vTxid.length < vTxid.length := by omega
  obtain ⟨hhashes, hbits⟩ := length_build_le null pairHash vMatch hn hle hroot
  rw [below_root htop, length_range] at hhashes
  have hmatched : matchedBelow null vTxid vMatch (treeHeight vTxid.length) 0 =
      matched null vTxid vMatch := by
    rw [matchedBelow, below_root htop]
    rfl
  have hextract := traverseAndExtract_build null pairHash vMatch hn
    (show (⟨vTxid.length, (partialMerkleTree null pairHash vTxid vMatch).vBits ++ padding,
      (partialMerkleTree null pairHash vTxid vMatch).vHash, false⟩ :
        CPartialMerkleTree α).nTransactions = vTxid.length from rfl)
    htwins le_rfl hle hroot ⟨0, 0, false, []⟩ rfl (append_nil _).symm
  rw [hmatched, ← (computeMerkleRoot_eq_calcHash null pairHash hne hn).1] at hextract
  rw [extractMatches, if_neg (by exact hlength.ne'), if_neg (by exact Nat.not_lt.mpr hhashes),
    if_neg (by exact Nat.not_lt.mpr (length_append ▸ Nat.le_add_right_of_le hbits))]
  rw [partialMerkleTree] at hpadding
  simp only [start, hextract, length_append, Nat.zero_add, hpadding]
  simp [partialMerkleTree]

end Exact

section Sound

variable {null : α} {pairHash : α → α → α} {vTxid : List α} {tree : CPartialMerkleTree α}
  {height pos : ℕ} {s : Extraction α}

omit [DecidableEq α] in
lemma takeHash_fBad {isMatch : Bool} (h : (takeHash null tree isMatch pos s).2.fBad = false) :
    s.fBad = false ∧ tree.vHash[s.nHashUsed]? = some (takeHash null tree isMatch pos s).1 := by
  rw [takeHash] at h ⊢
  cases hnext : tree.vHash[s.nHashUsed]? with
  | none => simp [hnext] at h
  | some hash => exact ⟨by simpa [hnext] using h, rfl⟩

lemma fBad_of_traverseAndExtract
    (h : (traverseAndExtract null pairHash tree height pos s).2.fBad = false) : s.fBad = false := by
  induction height generalizing pos s with
  | zero =>
    rw [traverseAndExtract] at h
    split at h
    · exact absurd h (by simp)
    · exact (takeHash_fBad h).1
  | succ height ih =>
    rw [traverseAndExtract] at h
    split at h
    · exact absurd h (by simp)
    · exact (takeHash_fBad h).1
    · have hnext : ({ s with nBitsUsed := s.nBitsUsed + 1 } : Extraction α).fBad = false := by
        split_ifs at h with hright
        · exact ih (ih (Bool.or_eq_false_iff.mp h).1)
        · exact ih h
      exact hnext

/-- Below a node with the right hash, every match is an entry of the list. -/
lemma traverseAndExtract_sound {P : Set (α × α)} (hn : vTxid.length ≤ 2 ^ 31)
    (htx : tree.nTransactions = vTxid.length) (hinj : InjectiveOn pairHash P)
    (hlevels : ∀ h < treeHeight vTxid.length, ∀ p ∈ pairs (level pairHash h vTxid), p ∈ P)
    (hheight : height ≤ treeHeight vTxid.length) (hle : height ≤ 31)
    (hpos : pos * 2 ^ height < vTxid.length)
    (hbad : (traverseAndExtract null pairHash tree height pos s).2.fBad = false)
    (hhash : (traverseAndExtract null pairHash tree height pos s).1 =
      calcHash null pairHash vTxid height pos)
    (hextracted : ∀ p ∈ extractedPairs null pairHash tree height pos s, p ∈ P) :
    ∀ q ∈ (traverseAndExtract null pairHash tree height pos s).2.vMatched,
      q ∈ s.vMatched ∨ vTxid[q.1]? = some q.2 := by
  induction height generalizing pos s with
  | zero =>
    rw [traverseAndExtract] at hbad hhash ⊢
    cases hbit : tree.vBits[s.nBitsUsed]? with
    | none => simp [hbit] at hbad
    | some isMatch =>
      simp only [hbit] at hbad hhash ⊢
      have hstored := (takeHash_fBad hbad).2
      rw [pow_zero, mul_one] at hpos
      rw [hhash, calcHash] at hstored
      intro q hq
      simp only [takeHash, hstored] at hq
      split_ifs at hq
      · rcases mem_append.mp hq with hq | hq
        · exact Or.inl hq
        · rw [mem_singleton.mp hq]
          exact Or.inr (by simp [hpos])
      · exact Or.inl hq
  | succ height ih =>
    rw [traverseAndExtract] at hbad hhash ⊢
    rw [extractedPairs] at hextracted
    cases hbit : tree.vBits[s.nBitsUsed]? with
    | none => simp [hbit] at hbad
    | some descend =>
      cases descend with
      | false =>
        simp only [hbit] at hbad ⊢
        have hstored := (takeHash_fBad hbad).2
        intro q hq
        rw [takeHash, hstored] at hq
        exact Or.inl hq
      | true =>
        have hleft := lt_left hpos
        have hchildren := hlevels height (by omega) _ (mem_of_getElem? (getElem?_pairs_level
          null pairHash hn hle (getElem?_level null pairHash hn (by omega)) hpos))
        simp only [hbit, htx] at hbad hhash hextracted ⊢
        rw [calcHash] at hhash
        by_cases hright : pos * 2 + 1 < calcTreeWidth vTxid.length height
        · simp only [if_pos hright] at hbad hhash hextracted hchildren ⊢
          have hpair := hinj (hextracted _ mem_cons_self) hchildren hhash
          obtain ⟨hbad, -⟩ := Bool.or_eq_false_iff.mp hbad
          have hposr := (lt_calcTreeWidth hn (by omega)).mp hright
          intro q hq
          rcases ih (by omega) (by omega) hposr hbad (congrArg Prod.snd hpair)
            (fun p hp => hextracted p (mem_append_right _ hp)) q hq with hq | hq
          · exact ih (by omega) (by omega) hleft (fBad_of_traverseAndExtract hbad)
              (congrArg Prod.fst hpair)
              (fun p hp => hextracted p (mem_append_left _ (mem_cons_of_mem _ hp))) q hq
          · exact Or.inr hq
        · simp only [if_neg hright] at hbad hhash hextracted hchildren ⊢
          have hpair := hinj (hextracted _ mem_cons_self) hchildren hhash
          exact ih (by omega) (by omega) hleft hbad (congrArg Prod.fst hpair)
            fun p hp => hextracted p (mem_cons_of_mem _ hp)

end Sound

/-- One byte of `vBytes`, the first bit the lowest. -/
def packByte (bits : List Bool) : UInt8 :=
  (List.range 8).foldl (fun b j => b ||| (bits.getD j false).toUInt8 <<< UInt8.ofNat j) 0

def packBits (bits : List Bool) : Bytes :=
  (List.range ((bits.length + 7) / 8)).map fun i => packByte (bits.drop (8 * i))

def unpackBits (vBytes : Bytes) : List Bool :=
  (List.range (vBytes.length * 8)).map fun p =>
    decide (vBytes.getD (p / 8) 0 &&& 1 <<< UInt8.ofNat (p % 8) ≠ 0)

def serPartialMerkleTree (tree : CPartialMerkleTree Uint256) : Bytes :=
  ser32 (UInt32.ofNat tree.nTransactions) ++
    (serVector serUint256 tree.vHash ++ serBytes (packBits tree.vBits))

def readPartialMerkleTree : Reader (CPartialMerkleTree Uint256) := do
  let nTransactions ← readUInt32
  let vHash ← readVector readUint256
  let vBytes ← readByteVector
  return ⟨nTransactions.toNat, unpackBits vBytes, vHash, false⟩

lemma packByte_bit {j : ℕ} (hj : j < 8) :
    decide (packByte bits &&& 1 <<< UInt8.ofNat j ≠ 0) = bits.getD j false := by
  have hbyte : ∀ b₀ b₁ b₂ b₃ b₄ b₅ b₆ b₇ : Bool, ∀ j < 8,
      decide (((0 : UInt8) ||| b₀.toUInt8 <<< 0 ||| b₁.toUInt8 <<< 1 ||| b₂.toUInt8 <<< 2 |||
        b₃.toUInt8 <<< 3 ||| b₄.toUInt8 <<< 4 ||| b₅.toUInt8 <<< 5 ||| b₆.toUInt8 <<< 6 |||
        b₇.toUInt8 <<< 7) &&& 1 <<< UInt8.ofNat j ≠ 0) =
        [b₀, b₁, b₂, b₃, b₄, b₅, b₆, b₇].getD j false := by
    decide +kernel
  have hfirst : ∀ j < 8, bits.getD j false =
      [bits.getD 0 false, bits.getD 1 false, bits.getD 2 false, bits.getD 3 false,
        bits.getD 4 false, bits.getD 5 false, bits.getD 6 false,
        bits.getD 7 false].getD j false := by
    intro j hj
    interval_cases j <;> rfl
  have hfold : List.range 8 = [0, 1, 2, 3, 4, 5, 6, 7] := rfl
  rw [hfirst j hj, ← hbyte _ _ _ _ _ _ _ _ j hj, packByte]
  rfl

lemma unpackBits_packBits :
    unpackBits (packBits bits) =
      bits ++ List.replicate ((bits.length + 7) / 8 * 8 - bits.length) false := by
  have hlength : (packBits bits).length = (bits.length + 7) / 8 := by
    rw [packBits, length_map, length_range]
  apply ext_getElem
  · rw [unpackBits, length_map, length_range, length_append, length_replicate]
    omega
  · intro p hp hp'
    rw [unpackBits, length_map, length_range] at hp
    have hbyte : (packBits bits).getD (p / 8) 0 = packByte (bits.drop (8 * (p / 8))) := by
      rw [List.getD_eq_getElem?_getD, packBits, List.getElem?_map, List.getElem?_range (by omega)]
      rfl
    have hbit : (bits.drop (8 * (p / 8))).getD (p % 8) false = bits.getD p false := by
      rw [List.getD_eq_getElem?_getD, List.getElem?_drop, Nat.div_add_mod,
        List.getD_eq_getElem?_getD]
    simp only [unpackBits, getElem_map, getElem_range]
    rw [hbyte, packByte_bit _ (Nat.mod_lt p (by decide)), hbit]
    by_cases hin : p < bits.length
    · simp [hin]
    · simp [not_lt.mp hin]

/-- What is read back is the tree with its bits padded. -/
lemma reads_readPartialMerkleTree {tree : CPartialMerkleTree Uint256}
    (hn : tree.nTransactions < 2 ^ 32) (hhash : tree.vHash.length ≤ maxSize)
    (hbits : (packBits tree.vBits).length ≤ maxSize) :
    Reads readPartialMerkleTree (serPartialMerkleTree tree)
      ⟨tree.nTransactions, unpackBits (packBits tree.vBits), tree.vHash, false⟩ := by
  have hcount : (UInt32.ofNat tree.nTransactions).toNat = tree.nTransactions :=
    UInt32.toNat_ofNat_of_lt' hn
  have hread : Reads readPartialMerkleTree (serPartialMerkleTree tree)
      ⟨(UInt32.ofNat tree.nTransactions).toNat, unpackBits (packBits tree.vBits), tree.vHash,
        false⟩ := by
    apply (reads_readUInt32 _).bind
    apply (reads_readVector tree.vHash hhash fun v _ => reads_readUint256 v).bind
    exact (reads_readByteVector _ hbits).bind_pure
  rwa [hcount] at hread

/-- A partial merkle tree of at most `2 ^ 31` transactions gives back the merkle root and exactly
the matched txids with their positions, before and after serialisation, unless a node above a
match has two equal children; and whatever tree with the right number of transactions gives the
merkle root, all its matches are entries of the list. -/
theorem partialMerkleTree_exact (pairHash : Uint256 → Uint256 → Uint256) (vTxid : List Uint256)
    (hne : vTxid ≠ []) (hn : vTxid.length ≤ 2 ^ 31) :
    (∀ vMatch, NoTwins Uint256.null pairHash vTxid vMatch →
      extractMatches Uint256.null pairHash
          (partialMerkleTree Uint256.null pairHash vTxid vMatch) =
        ((computeMerkleRoot Uint256.null pairHash vTxid).1, matched Uint256.null vTxid vMatch) ∧
      ((partialMerkleTree Uint256.null pairHash vTxid vMatch).vHash.length ≤ maxSize →
        (packBits (partialMerkleTree Uint256.null pairHash vTxid vMatch).vBits).length ≤ maxSize →
        ∃ tree, Reads readPartialMerkleTree
            (serPartialMerkleTree (partialMerkleTree Uint256.null pairHash vTxid vMatch)) tree ∧
          extractMatches Uint256.null pairHash tree =
            ((computeMerkleRoot Uint256.null pairHash vTxid).1,
              matched Uint256.null vTxid vMatch))) ∧
    ∀ tree : CPartialMerkleTree Uint256, tree.nTransactions = vTxid.length →
      InjectiveOn pairHash {p | p ∈ merklePairs pairHash vTxid ∨
        p ∈ extractedPairs Uint256.null pairHash tree (treeHeight vTxid.length) 0 (start tree)} →
      (extractMatches Uint256.null pairHash tree).1 =
        (computeMerkleRoot Uint256.null pairHash vTxid).1 →
      (computeMerkleRoot Uint256.null pairHash vTxid).1 ≠ Uint256.null →
      ∀ q ∈ (extractMatches Uint256.null pairHash tree).2, vTxid[q.1]? = some q.2 := by
  constructor
  · intro vMatch htwins
    constructor
    · apply extractMatches_build Uint256.null pairHash vMatch hne hn htwins []
      · rw [append_nil]
        rfl
      · rfl
    · intro hhash hbits
      refine ⟨_, reads_readPartialMerkleTree (Nat.lt_of_le_of_lt hn (by decide)) hhash hbits, ?_⟩
      rw [unpackBits_packBits]
      apply extractMatches_build Uint256.null pairHash vMatch hne hn htwins _ rfl
      rw [length_replicate]
      omega
  · intro tree htx hinj hroot hnull q hq
    obtain ⟨hle, -, -⟩ := treeHeight_spec (length_pos_iff.mpr hne) hn
    obtain ⟨htop, hlevels⟩ := computeMerkleRoot_eq_calcHash Uint256.null pairHash hne hn
    rw [extractMatches] at hroot hq
    dsimp only at hroot hq
    split_ifs at hroot hq with hempty hhashes hbits hbad hused hall
    iterate 6 exact absurd hroot.symm hnull
    rw [Bool.not_eq_true, htx] at hbad
    rw [htx] at hroot hq
    rcases traverseAndExtract_sound hn htx hinj (fun h hh p hp => Or.inl (hlevels h hh p hp))
      le_rfl hle (by have := length_pos_iff.mpr hne; omega) hbad (hroot.trans htop)
      (fun p hp => Or.inr hp) q hq with hq | hq
    · exact absurd hq (by simp [start])
    · exact hq

/-- Three txids, the middle one matched. -/
def middleMatched : CPartialMerkleTree Uint256 :=
  partialMerkleTree Uint256.null Merkle.mixHash threeHashes [false, true, false]

theorem partialMerkleTree_exact_middleMatched :
    extractMatches Uint256.null Merkle.mixHash middleMatched =
        ((computeMerkleRoot Uint256.null Merkle.mixHash threeHashes).1, [(1, Uint256.ofByte 2)]) ∧
      (∃ tree, Reads readPartialMerkleTree (serPartialMerkleTree middleMatched) tree ∧
        extractMatches Uint256.null Merkle.mixHash tree =
          ((computeMerkleRoot Uint256.null Merkle.mixHash threeHashes).1,
            [(1, Uint256.ofByte 2)])) ∧
      ∀ q ∈ (extractMatches Uint256.null Merkle.mixHash middleMatched).2,
        threeHashes[q.1]? = some q.2 := by
  have h := partialMerkleTree_exact Merkle.mixHash threeHashes (by decide) (by decide)
  have hinj : ∀ p ∈ merklePairs Merkle.mixHash threeHashes ++
      extractedPairs Uint256.null Merkle.mixHash
        middleMatched (treeHeight threeHashes.length) 0 (start middleMatched),
      ∀ q ∈ merklePairs Merkle.mixHash threeHashes ++ extractedPairs Uint256.null Merkle.mixHash
        middleMatched (treeHeight threeHashes.length) 0 (start middleMatched),
      Merkle.mixHash p.1 p.2 = Merkle.mixHash q.1 q.2 → p = q := by decide +kernel
  have hmatched : matched Uint256.null threeHashes [false, true, false] =
      [(1, Uint256.ofByte 2)] := by
    decide +kernel
  have htwins : NoTwins Uint256.null Merkle.mixHash threeHashes [false, true, false] :=
    noTwins_of_nodup _ _ (by decide) (by decide) (by decide) (fun p hp q hq =>
      hinj p (mem_append_left _ hp) q (mem_append_left _ hq)) _
  obtain ⟨hexact, hread⟩ := h.1 [false, true, false] htwins
  refine ⟨hexact, hread (by decide +kernel) (by decide +kernel), ?_⟩
  apply h.2 middleMatched rfl
  · intro p hp q hq
    exact hinj p (mem_append.mpr hp) q (mem_append.mpr hq)
  · exact congrArg Prod.fst hexact
  · decide +kernel

/-- A txid twice, the first one matched. -/
def twins : CPartialMerkleTree Uint256 :=
  partialMerkleTree Uint256.null Merkle.mixHash [Uint256.ofByte 1, Uint256.ofByte 1] [true, false]

/-- Extraction refuses the tree that was built from a list with a repeated txid. -/
theorem extractMatches_twins :
    (extractMatches Uint256.null Merkle.mixHash twins).1 ≠
      (computeMerkleRoot Uint256.null Merkle.mixHash [Uint256.ofByte 1, Uint256.ofByte 1]).1 := by
  decide +kernel

end PyrrhaNode.PartialMerkle
