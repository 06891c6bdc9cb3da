import Mathlib
import PyrrhaNode.ChainSelection

/-!
# Received blocks and pruning

The link status of a block, the multimap of blocks that wait for their parent and the set of
candidates are kept by functions that each update some of them: `ReceivedBlockTransactions`,
`PruneOneBlockFile`, `FindMostWorkChain` and the moves of the tip.  A received block is remembered
if it is linked or waits for its parent, and if it is a candidate whenever its branch is complete
and better than the active chain.

`FindMostWorkChain` takes the links from a branch that misses data and does not note that the
branch waits, so its blocks are forgotten.  This module says exactly which steps forget a block.
-/
namespace PyrrhaNode.BlockMemory

open List BlockTree ChainActivation ChainActivation.Node ChainSelection Finality

/-- A tree of accepted headers: with every block its ancestors, and no header without work. -/
structure HeaderTree where
  blocks : List BlockIndex
  ne_nil : ∀ p ∈ blocks, p ≠ []
  closed : ∀ p ∈ blocks, p.tail = [] ∨ p.tail ∈ blocks
  proof_pos : ∀ b p, b :: p ∈ blocks → 0 < b.proof

/-- A node and the number of the file that holds the data of each block. -/
structure DiskNode where
  node : Node
  nFile : BlockIndex → ℕ

/-- The node that has the headers of the tree and no block yet. -/
def HeaderTree.start (t : HeaderTree) : DiskNode where
  node :=
    { Node.fresh with
      index := t.blocks
      status := fun p => { validity := if p ∈ t.blocks then validTree else 0 } }
  nFile _ := 0

/-- The entry belongs to the file that is pruned. -/
def DiskNode.inFile (d : DiskNode) (fileNumber : ℕ) (p : BlockIndex) : Bool :=
  decide (p ∈ d.node.index) && decide (d.nFile p = fileNumber)

/-- The blocks of a file lose their data and do not wait for their parents any more. -/
def pruneOneBlockFile (d : DiskNode) (fileNumber : ℕ) : DiskNode where
  node :=
    { d.node with
      status := fun p =>
        if d.inFile fileNumber p then { d.node.status p with haveData := false }
        else d.node.status p
      unlinked := d.node.unlinked.filter fun e =>
        !(d.inFile fileNumber e.2 && decide (e.1 = e.2.tail)) }
  nFile := fun p => if d.inFile fileNumber p then 0 else d.nFile p

/-- `ReceivedBlockTransactions` for a block that was written to a file. -/
def DiskNode.receive (d : DiskNode) (p : BlockIndex) (file : ℕ) : DiskNode :=
  ⟨d.node.receivedBlockTransactions p true, Function.update d.nFile p file⟩

/-- The tip moves, and `PruneBlockIndexCandidates` follows. -/
def DiskNode.move (d : DiskNode) (p : BlockIndex) : DiskNode :=
  { d with node := (d.node.updateTip p).pruneBlockIndexCandidates }

/-- What happens to a node. -/
inductive Step
  | receive (p : BlockIndex) (file : ℕ)
  | prune (file : ℕ)
  /-- `FindMostWorkChain` -/
  | find
  | move (p : BlockIndex)

/-- `none` is a failed assertion. -/
def DiskNode.step (d : DiskNode) : Step → Option DiskNode
  | .receive p file => some (d.receive p file)
  | .prune file => some (pruneOneBlockFile d file)
  | .find =>
    match selectChain d.node with
    | .selected n _ => some { d with node := n }
    | _ => none
  | .move p => some (d.move p)

/-- The block and its ancestors down to the active chain have data. -/
def DataPath (n : Node) (p : BlockIndex) : Prop :=
  ∀ a, a <:+ p → a ≠ [] → n.contains a = false → (n.status a).haveData = true

/-- The block sorts better than the tip. -/
def Better (n : Node) (p : BlockIndex) : Prop :=
  n.tip = [] ∨ n.worse n.tip p = true

/-- No received block off the active chain is forgotten. -/
structure Remembers (n : Node) : Prop where
  listed : ∀ p ∈ n.index, n.contains p = false → (n.status p).haveData = true →
    (n.status p).linked = true ∨ (p.tail, p) ∈ n.unlinked
  eligible : ∀ p ∈ n.index, n.contains p = false → DataPath n p → Better n p →
    p ∈ n.candidates

/-- The step goes through and everything received is remembered after it. -/
def Keeps (d : DiskNode) (s : Step) : Prop :=
  ∃ d', d.step s = some d' ∧ Remembers d'.node

/-- Blocks of the tree are received, and the tip moves to a better block whose branch has its
data. -/
def Enabled (d : DiskNode) : Step → Prop
  | .receive p _ => p ∈ d.node.index
  | .move p => p ∈ d.node.index ∧ DataPath d.node p ∧ Better d.node p
  | _ => True

/-- The node when the data and the new sequence id of a received block are noted. -/
def stored (n : Node) (p : BlockIndex) : Node :=
  ((n.mark p fun s => { s with processed := true, haveData := true }).assignSequence p).mark p
    fun s => s.raiseValidity validTransactions

/-- The condition under which a step forgets nothing.

* `FindMostWorkChain` meets no candidate above a block without data before it finds a usable one;
* when a block is received, the other linked blocks whose branch has its data and that are better
  than the tip are candidates.  Only the tip and pruned blocks can break this. -/
def Meets (d : DiskNode) : Step → Prop
  | .receive p _ => ∀ q ∈ d.node.index, q ≠ p → (d.node.status q).linked = true →
      d.node.contains q = false → DataPath (stored d.node p) q → Better (stored d.node p) q →
      q ∈ d.node.candidates
  | .find => ∀ p, Reached d.node p → cleared d.node p = []
  | _ => True

/-- The nodes of the runs in which every step meets the condition. -/
inductive CleanRun (t : HeaderTree) : DiskNode → Prop
  | start : CleanRun t t.start
  | step {d d' : DiskNode} {s : Step} (run : CleanRun t d) (enabled : Enabled d s)
      (meets : Meets d s) (done : d.step s = some d') : CleanRun t d'

namespace HeaderTree
variable {t : HeaderTree}

lemma chainWork_lt {a p : BlockIndex} (hp : p ∈ t.blocks) (ha : a <:+ p) (hne : a ≠ p) :
    chainWork a < chainWork p := by
  cases p with
  | nil => exact absurd (suffix_nil.mp ha) hne
  | cons b p =>
    rcases suffix_cons_iff.mp ha with rfl | ha
    · exact absurd rfl hne
    · have hle := chainWork_le ha
      have hpos := t.proof_pos b p hp
      rw [chainWork]
      omega

end HeaderTree

variable {p q : BlockIndex} {n : Node} {t : HeaderTree} {d : DiskNode}

lemma contains_eq_false_iff (hne : p ≠ []) :
    n.contains p = false ↔ ¬ p <:+ n.tip := by
  simp [Node.contains, hne]

lemma worse_eq_true_iff {p : BlockIndex} :
    n.worse p q = true ↔ chainWork p < chainWork q ∨
      chainWork p = chainWork q ∧ (n.status q).nSequenceId < (n.status p).nSequenceId := by
  rw [← not_iff_not, Bool.not_eq_true, worse_eq_false_iff]
  omega

lemma better_congr {n m : Node} (htip : m.tip = n.tip)
    (hself : (m.status p).nSequenceId = (n.status p).nSequenceId)
    (hid : (m.status n.tip).nSequenceId = (n.status n.tip).nSequenceId) :
    Better m p ↔ Better n p := by
  rw [Better, Better, worse_eq_true_iff, worse_eq_true_iff, htip, hself, hid]

lemma Better.not_worse (h : Better n p) :
    n.tip = [] ∨ n.worse p n.tip = false := by
  rcases h with h | h
  · exact .inl h
  · rw [worse_eq_true_iff] at h
    rw [worse_eq_false_iff]
    omega

/-- Links, waiting blocks and candidates fit together. -/
structure Consistent (t : HeaderTree) (n : Node) : Prop where
  index : n.index = t.blocks
  finalized : n.finalized = []
  unfailed : ∀ p, (n.status p).failed = false
  valid : ∀ p ∈ t.blocks, validTree ≤ (n.status p).validity
  sequence : ∀ p, (n.status p).nSequenceId ≤ n.nBlockSequenceId
  active : n.tip ≠ [] → n.tip ∈ t.blocks ∧ (n.status n.tip).linked = true
  parent : ∀ p ∈ t.blocks, (n.status p).linked = true →
    p.tail = [] ∨ (n.status p.tail).linked = true
  waiting : ∀ e ∈ n.unlinked, e.2 ∈ t.blocks ∧ e.1 = e.2.tail ∧ e.1 ≠ [] ∧
    (n.status e.1).linked = false
  candidates : ∀ p ∈ n.candidates, p ∈ t.blocks ∧ (n.status p).linked = true

/-- What holds while the blocks of `queue` are being linked. -/
structure Linking (t : HeaderTree) (queue : List BlockIndex) (n : Node) : Prop
    extends Consistent t n where
  queued : ∀ p ∈ queue, p ∈ t.blocks ∧ (p.tail = [] ∨ (n.status p.tail).linked = true)
  numbered : n.tip ∈ queue → (n.status n.tip).nSequenceId ≠ 0
  listed : ∀ p ∈ t.blocks, (n.status p).haveData = true →
    (n.status p).linked = true ∨ (p.tail, p) ∈ n.unlinked ∨ p ∈ queue
  eligible : ∀ p ∈ t.blocks, p ∉ queue → (n.status p).linked = true → n.contains p = false →
    DataPath n p → Better n p → p ∈ n.candidates

/-- What holds between the steps of a run. -/
def Sound (t : HeaderTree) (n : Node) : Prop := Linking t [] n

namespace Consistent
variable {t : HeaderTree} {n : Node}

lemma linked_of_suffix (h : Consistent t n) {a p : BlockIndex} (hp : p ∈ t.blocks)
    (hlinked : (n.status p).linked = true) (ha : a <:+ p) (hne : a ≠ []) :
    (n.status a).linked = true := by
  induction p with
  | nil => exact absurd (suffix_nil.mp ha) hne
  | cons b p ih =>
    rcases suffix_cons_iff.mp ha with rfl | ha
    · exact hlinked
    · have hpne : p ≠ [] := fun hnil => hne (suffix_nil.mp (hnil ▸ ha))
      rcases h.parent _ hp hlinked with hnil | hparent
      · exact absurd hnil hpne
      · exact ih (mem_of_suffix t.closed hp (suffix_cons b p) hpne) hparent ha

lemma active_linked (h : Consistent t n) {a : BlockIndex} (ha : a ≠ [])
    (hactive : n.contains a = true) : (n.status a).linked = true := by
  simp only [Node.contains, Bool.and_eq_true, decide_eq_true_eq] at hactive
  have htip : n.tip ≠ [] := by
    intro hnil
    rw [hnil] at hactive
    exact ha (suffix_nil.mp hactive.2)
  obtain ⟨hmem, hlinked⟩ := h.active htip
  exact h.linked_of_suffix hmem hlinked hactive.2 ha

lemma not_linked_of_waiting (h : Consistent t n) {e : BlockIndex × BlockIndex}
    (he : e ∈ n.unlinked) : (n.status e.2).linked = false := by
  obtain ⟨hmem, hparent, hne, hcut⟩ := h.waiting e he
  by_contra hlinked
  rcases h.parent e.2 hmem (eq_true_of_ne_false hlinked) with hnil | hup
  · exact hne (hparent.trans hnil)
  · rw [hparent, hup] at hcut
    cases hcut

end Consistent

lemma Sound.linked_of_dataPath (h : Sound t n) (hp : p ∈ t.blocks)
    (hdata : DataPath n p) : (n.status p).linked = true := by
  induction p with
  | nil => exact absurd rfl (t.ne_nil _ hp)
  | cons b p ih =>
    by_cases hactive : n.contains (b :: p) = true
    · exact h.active_linked (by simp) hactive
    · have hself := hdata _ (suffix_refl _) (by simp) (eq_false_of_ne_true hactive)
      rcases h.listed _ hp hself with hlinked | hwaits | hqueue
      · exact hlinked
      · -- its parent is linked, so it cannot wait for it
        obtain ⟨-, -, hne, hcut⟩ := h.waiting _ hwaits
        have hmem := (t.closed _ hp).resolve_left hne
        have hup := ih hmem fun a ha => hdata a (ha.trans (suffix_cons b p))
        rw [tail_cons, hup] at hcut
        cases hcut
      · simp at hqueue

lemma sound_start (t : HeaderTree) : Sound t t.start.node := by
  constructor
  case toConsistent =>
    constructor <;> simp +contextual [HeaderTree.start, Node.fresh, Status.failed]
  all_goals simp [HeaderTree.start]

/-- One round of the loop that links a block and those that wait for it. -/
def linkBlock (n : Node) (p : BlockIndex) : Node :=
  let n := (if (n.status p).nSequenceId = 0 then n.assignSequence p else n).offerCandidate p
  { n with unlinked := n.unlinked.filter (·.1 ≠ p) }.mark p fun s => { s with linked := true }

/-- The blocks that wait for `p`. -/
def waitingFor (n : Node) (p : BlockIndex) : List BlockIndex :=
  (n.unlinked.filter (·.1 = p)).map Prod.snd

/-- The sequence id that a block has after it is linked. -/
def linkedId (n : Node) (p : BlockIndex) : ℕ :=
  if (n.status p).nSequenceId = 0 then n.nBlockSequenceId + 1 else (n.status p).nSequenceId

section LinkBlock
variable (n : Node) (p q : BlockIndex)

lemma offerCandidate_eq :
    n.offerCandidate p = { n with candidates := (n.offerCandidate p).candidates } := by
  rw [offerCandidate, insertCandidate]
  split_ifs <;> rfl

lemma mem_offerCandidate_iff :
    q ∈ (n.offerCandidate p).candidates ↔
      q ∈ n.candidates ∨ q = p ∧ (n.tip = [] ∨ n.worse p n.tip = false) := by
  rw [offerCandidate, insertCandidate]
  split_ifs with hoffer hmem
  · refine ⟨.inl, ?_⟩
    rintro (h | ⟨rfl, -⟩)
    · exact h
    · exact hmem
  · simp [hoffer, or_comm]
  · simp [hoffer]

lemma linkDescendants_cons (fuel : ℕ) (queue : List BlockIndex) :
    linkDescendants (fuel + 1) (p :: queue) n =
      linkDescendants fuel (queue ++ waitingFor n p) (linkBlock n p) := by
  rw [linkDescendants, linkBlock, offerCandidate_eq]
  split_ifs <;> rfl

lemma linkBlock_unlinked : (linkBlock n p).unlinked = n.unlinked.filter (·.1 ≠ p) := by
  rw [linkBlock, offerCandidate_eq]
  split_ifs <;> rfl

lemma linkBlock_chain : (linkBlock n p).index = n.index ∧ (linkBlock n p).tip = n.tip ∧
    (linkBlock n p).finalized = n.finalized := by
  rw [linkBlock, offerCandidate_eq]
  split_ifs <;> exact ⟨rfl, rfl, rfl⟩

lemma linkBlock_status :
    (linkBlock n p).status q =
      if q = p then { n.status p with linked := true, nSequenceId := linkedId n p }
      else n.status q := by
  rw [linkBlock, offerCandidate_eq, linkedId]
  split_ifs with hzero hq hq
  · simp [assignSequence, mark, hq]
  · simp [assignSequence, mark, hq]
  · simp [mark, hq]
  · simp [mark, hq]

lemma linkBlock_nBlockSequenceId :
    n.nBlockSequenceId ≤ (linkBlock n p).nBlockSequenceId ∧
      linkedId n p ≤ max (n.status p).nSequenceId (linkBlock n p).nBlockSequenceId := by
  rw [linkBlock, offerCandidate_eq, linkedId]
  split_ifs <;> simp [assignSequence, mark]

lemma worse_linkBlock : (linkBlock n p).worse =
    (if (n.status p).nSequenceId = 0 then n.assignSequence p else n).worse := by
  rw [linkBlock, offerCandidate_eq]
  apply worse_congr
  intro c
  by_cases hc : c = p
  · simp [mark, hc]
  · simp [mark, hc]

lemma mem_linkBlock_iff :
    q ∈ (linkBlock n p).candidates ↔
      q ∈ n.candidates ∨ q = p ∧ (n.tip = [] ∨ (linkBlock n p).worse p n.tip = false) := by
  rw [worse_linkBlock]
  change q ∈ ((if (n.status p).nSequenceId = 0 then n.assignSequence p else n).offerCandidate
    p).candidates ↔ _
  rw [mem_offerCandidate_iff]
  split_ifs <;> rfl

end LinkBlock

lemma contains_linkBlock (n : Node) (p q : BlockIndex) :
    (linkBlock n p).contains q = n.contains q := by
  rw [Node.contains, Node.contains, (linkBlock_chain n p).2.1]

lemma Linking.link_first {queue : List BlockIndex} (h : Linking t (p :: queue) n) :
    Linking t (queue ++ waitingFor n p) (linkBlock n p) := by
  obtain ⟨hindex, htip, hfinal⟩ := linkBlock_chain n p
  have hwaits : ∀ q ∈ waitingFor n p, (p, q) ∈ n.unlinked := by
    intro q hq
    obtain ⟨e, he, rfl⟩ := mem_map.mp hq
    rw [mem_filter, decide_eq_true_eq] at he
    rw [← he.2]
    exact he.1
  have hother : ∀ q, q ≠ p → (linkBlock n p).status q = n.status q := fun q hq => by
    rw [linkBlock_status, if_neg hq]
  have hself : (linkBlock n p).status p =
      { n.status p with linked := true, nSequenceId := linkedId n p } := by
    rw [linkBlock_status, if_pos rfl]
  have hlinked : ∀ q, (n.status q).linked = true → ((linkBlock n p).status q).linked = true := by
    intro q hq
    by_cases hqp : q = p
    · rw [hqp, hself]
    · rwa [hother q hqp]
  have hdata : ∀ q, ((linkBlock n p).status q).haveData = (n.status q).haveData := by
    intro q
    by_cases hqp : q = p
    · rw [hqp, hself]
    · rw [hother q hqp]
  -- the tip has an id already, so it keeps it
  have htipId : ((linkBlock n p).status n.tip).nSequenceId = (n.status n.tip).nSequenceId := by
    by_cases htp : n.tip = p
    · have hne := h.numbered (by simp [htp])
      rw [htp] at hne ⊢
      rw [hself, linkedId, if_neg hne]
    · rw [hother _ htp]
  constructor
  case toConsistent =>
    constructor
    case index => rw [hindex, h.index]
    case finalized => rw [hfinal, h.finalized]
    case unfailed =>
      intro q
      by_cases hqp : q = p
      · rw [hqp, hself]
        exact h.unfailed p
      · rw [hother q hqp]
        exact h.unfailed q
    case valid =>
      intro q hq
      by_cases hqp : q = p
      · rw [hqp, hself]
        exact h.valid p (hqp ▸ hq)
      · rw [hother q hqp]
        exact h.valid q hq
    case sequence =>
      intro q
      obtain ⟨hmono, hnew⟩ := linkBlock_nBlockSequenceId n p
      by_cases hqp : q = p
      · have hold := h.sequence p
        rw [hqp, hself]
        simp only
        omega
      · rw [hother q hqp]
        exact (h.sequence q).trans hmono
    case active =>
      rw [htip]
      intro hne
      obtain ⟨hmem, hlink⟩ := h.active hne
      exact ⟨hmem, hlinked _ hlink⟩
    case parent =>
      intro q hq hlink
      by_cases hqp : q = p
      · rw [hqp]
        exact (h.queued p mem_cons_self).2.imp_right (hlinked _)
      · rw [hother q hqp] at hlink
        exact (h.parent q hq hlink).imp_right (hlinked _)
    case waiting =>
      intro e he
      rw [linkBlock_unlinked, mem_filter, decide_eq_true_eq] at he
      rw [hother e.1 he.2]
      exact h.waiting e he.1
    case candidates =>
      intro q hq
      rcases (mem_linkBlock_iff n p q).mp hq with hq | ⟨rfl, -⟩
      · obtain ⟨hmem, hlink⟩ := h.candidates q hq
        exact ⟨hmem, hlinked q hlink⟩
      · exact ⟨(h.queued q mem_cons_self).1, by rw [hself]⟩
  case queued =>
    intro q hq
    rcases mem_append.mp hq with hq | hq
    · obtain ⟨hmem, hup⟩ := h.queued q (mem_cons_of_mem _ hq)
      exact ⟨hmem, hup.imp_right (hlinked _)⟩
    · obtain ⟨hmem, hparent, -, -⟩ := h.waiting _ (hwaits q hq)
      refine ⟨hmem, .inr ?_⟩
      rw [← hparent, hself]
  case numbered =>
    rw [htip, htipId]
    intro hmem
    rcases mem_append.mp hmem with hmem | hmem
    · exact h.numbered (mem_cons_of_mem _ hmem)
    · -- the tip is linked and does not wait
      have hw := hwaits _ hmem
      have hcut := h.not_linked_of_waiting hw
      have hne := t.ne_nil _ (h.waiting _ hw).1
      rw [(h.active hne).2] at hcut
      cases hcut
  case listed =>
    intro q hq hqdata
    rw [hdata] at hqdata
    by_cases hqp : q = p
    · exact .inl (by rw [hqp, hself])
    · rcases h.listed q hq hqdata with hlink | hw | hqueue
      · exact .inl (hlinked q hlink)
      · by_cases hup : q.tail = p
        · refine .inr (.inr (mem_append_right _ ?_))
          exact mem_map.mpr ⟨_, mem_filter.mpr ⟨hw, by simpa using hup⟩, rfl⟩
        · refine .inr (.inl ?_)
          rw [linkBlock_unlinked]
          exact mem_filter.mpr ⟨hw, by simpa using hup⟩
      · exact .inr (.inr (mem_append_left _ (mem_of_ne_of_mem hqp hqueue)))
  case eligible =>
    intro q hq hnot hlink hoff hpath hbetter
    rw [mem_linkBlock_iff]
    by_cases hqp : q = p
    · refine .inr ⟨hqp, ?_⟩
      have := hbetter.not_worse
      rwa [htip, hqp] at this
    · refine .inl (h.eligible q hq ?_ ?_ ?_ ?_ ?_)
      · rw [mem_cons, not_or]
        exact ⟨hqp, fun hmem => hnot (mem_append_left _ hmem)⟩
      · rwa [hother q hqp] at hlink
      · rwa [contains_linkBlock] at hoff
      · intro a ha hne haoff
        rw [← hdata]
        exact hpath a ha hne (by rwa [contains_linkBlock])
      · exact (better_congr htip (by rw [hother q hqp]) htipId).mp hbetter

/-- Linking to the end: every waiting block is queued once at most. -/
lemma Linking.link_all (fuel : ℕ) {queue : List BlockIndex} (h : Linking t queue n)
    (hfuel : queue.length + n.unlinked.length ≤ fuel) :
    Sound t (linkDescendants fuel queue n) := by
  induction fuel generalizing queue n with
  | zero =>
    obtain rfl : queue = [] := length_eq_zero_iff.mp (by omega)
    exact h
  | succ fuel ih =>
    cases queue with
    | nil => exact h
    | cons p queue =>
      rw [linkDescendants_cons]
      refine ih h.link_first ?_
      have hsplit := length_eq_length_filter_add (l := n.unlinked) fun e => decide (e.1 = p)
      rw [linkBlock_unlinked, waitingFor, length_append, length_map]
      simp only [length_cons, decide_not] at hfuel hsplit ⊢
      omega

section Receive
variable {t : HeaderTree} {n : Node} {p : BlockIndex}

lemma stored_status_of_ne {q : BlockIndex} (hq : q ≠ p) :
    (stored n p).status q = n.status q := by
  simp [stored, assignSequence, mark, hq]

lemma stored_self (hunfailed : (n.status p).failed = false) :
    ((stored n p).status p).linked = (n.status p).linked ∧
      ((stored n p).status p).failed = false ∧ ((stored n p).status p).haveData = true ∧
      ((stored n p).status p).nSequenceId = n.nBlockSequenceId + 1 ∧
      (n.status p).validity ≤ ((stored n p).status p).validity := by
  simp only [Status.failed] at hunfailed
  simp only [stored, assignSequence, mark, Function.update_self, Status.raiseValidity,
    Status.failed, hunfailed]
  simp only [Bool.false_eq_true, if_false]
  split_ifs with hlow
  · exact ⟨rfl, hunfailed, rfl, rfl, hlow.le⟩
  · exact ⟨rfl, hunfailed, rfl, rfl, le_rfl⟩

variable (h : Sound t n)
include h

lemma stored_linked (q : BlockIndex) :
    ((stored n p).status q).linked = (n.status q).linked := by
  by_cases hq : q = p
  · rw [hq]
    exact (stored_self (h.unfailed p)).1
  · rw [stored_status_of_ne hq]

lemma Sound.consistent_stored (hp : p ∈ t.blocks) :
    Consistent t (stored n p) := by
  obtain ⟨-, hfailed, -, hid, hvalid⟩ := stored_self (h.unfailed p)
  have hlinked := stored_linked (p := p) h
  constructor
  case index => exact h.index
  case finalized => exact h.finalized
  case unfailed =>
    intro q
    by_cases hq : q = p
    · rw [hq, hfailed]
    · rw [stored_status_of_ne hq]
      exact h.unfailed q
  case valid =>
    intro q hq
    by_cases hqp : q = p
    · rw [hqp]
      exact (h.valid p hp).trans hvalid
    · rw [stored_status_of_ne hqp]
      exact h.valid q hq
  case sequence =>
    intro q
    by_cases hqp : q = p
    · rw [hqp, hid]
      rfl
    · rw [stored_status_of_ne hqp]
      exact (h.sequence q).trans (Nat.le_succ _)
  case active =>
    intro hne
    rw [hlinked]
    exact h.active hne
  case parent =>
    intro q hq hlink
    rw [hlinked] at hlink ⊢
    exact h.parent q hq hlink
  case waiting =>
    intro e he
    rw [hlinked]
    exact h.waiting e he
  case candidates =>
    intro q hq
    rw [hlinked]
    exact h.candidates q hq

omit h in
lemma mark_unlinked_eq (hcut : (n.status p).linked = false) :
    (n.mark p fun s => { s with linked := false }) = n := by
  have hsame : ({ n.status p with linked := false } : Status) = n.status p := by
    rw [← hcut]
  simp only [mark, hsame, Function.update_eq_self]

lemma Sound.received_cases (hp : p ∈ t.blocks) :
    ((p.tail = [] ∨ (n.status p.tail).linked = true) ∧
        n.receivedBlockTransactions p true =
          linkDescendants ((stored n p).unlinked.length + 1) [p] (stored n p)) ∨
      (p.tail ≠ [] ∧ (n.status p.tail).linked = false ∧
        n.receivedBlockTransactions p true =
          { stored n p with unlinked := (p.tail, p) :: (stored n p).unlinked }) := by
  have hlinked := stored_linked (p := p) h p.tail
  by_cases hup : p.tail = [] ∨ (n.status p.tail).linked = true
  · exact .inl ⟨hup, if_pos (hlinked ▸ hup)⟩
  · have hbase := h.consistent_stored hp
    have hno : ¬(p.tail = [] ∨ ((stored n p).status p.tail).linked = true) := hlinked ▸ hup
    rw [not_or] at hup
    have hcut : ((stored n p).status p).linked = false := by
      rw [stored_linked h]
      by_contra hlink
      exact (h.parent p hp (eq_true_of_ne_false hlink)).elim hup.1 hup.2
    have hvalid := hbase.valid _ ((t.closed p hp).resolve_left hup.1)
    have htree : ((stored n p).status p.tail).isValid validTree = true := by
      simp [Status.isValid, hbase.unfailed, hvalid]
    have hsame := congrArg
      (fun m : Node => { m with unlinked := (p.tail, p) :: (stored n p).unlinked })
      (mark_unlinked_eq hcut)
    exact .inr ⟨hup.1, eq_false_of_ne_true hup.2, (if_neg hno).trans ((if_pos htree).trans hsame)⟩

section Meets
variable (hmeets : ∀ q ∈ t.blocks, q ≠ p → (n.status q).linked = true → n.contains q = false →
  DataPath (stored n p) q → Better (stored n p) q → q ∈ n.candidates)
include hmeets

lemma Sound.queue (hp : p ∈ t.blocks) (hup : p.tail = [] ∨ (n.status p.tail).linked = true) :
    Linking t [p] (stored n p) := by
  obtain ⟨-, -, -, hid, -⟩ := stored_self (h.unfailed p)
  have hlinked := stored_linked (p := p) h
  refine ⟨h.consistent_stored hp, ?_, ?_, ?_, ?_⟩
  · intro q hq
    obtain rfl := mem_singleton.mp hq
    rw [hlinked]
    exact ⟨hp, hup⟩
  · intro htip
    have heq : (stored n p).tip = p := mem_singleton.mp htip
    rw [heq]
    omega
  · intro q hq hqdata
    by_cases hqp : q = p
    · exact .inr (.inr (mem_singleton.mpr hqp))
    · rw [stored_status_of_ne hqp] at hqdata ⊢
      exact (h.listed q hq hqdata).imp_right (.imp_right fun hmem => by simp at hmem)
  · intro q hq hqp hlink hoff hpath hbetter
    rw [hlinked] at hlink
    exact hmeets q hq (fun heq => hqp (mem_singleton.mpr heq)) hlink hoff hpath hbetter

lemma Sound.wait (hp : p ∈ t.blocks) (hroot : p.tail ≠ [])
    (hup : (n.status p.tail).linked = false) :
    Sound t { stored n p with unlinked := (p.tail, p) :: (stored n p).unlinked } := by
  have hlinked := stored_linked (p := p) h
  have hbase := h.consistent_stored hp
  refine ⟨{ hbase with waiting := ?_ }, by simp, by simp, ?_, ?_⟩
  · intro e he
    rcases mem_cons.mp he with rfl | he
    · exact ⟨hp, rfl, hroot, (hlinked _).trans hup⟩
    · exact hbase.waiting e he
  · intro q hq hqdata
    by_cases hqp : q = p
    · exact .inr (.inl (mem_cons.mpr (.inl (by rw [hqp]))))
    · change ((stored n p).status q).haveData = true at hqdata
      rw [stored_status_of_ne hqp] at hqdata ⊢
      exact (h.listed q hq hqdata).imp_right (.imp_left (mem_cons_of_mem _))
  · intro q hq _ hlink hoff hpath hbetter
    have hold : (n.status q).linked = true := (hlinked q).symm.trans hlink
    -- a block that waits is not linked
    have hqp : q ≠ p := by
      intro heq
      rw [heq] at hold
      rw [(h.parent p hp hold).resolve_left hroot] at hup
      cases hup
    exact hmeets q hq hqp hold hoff hpath hbetter

lemma Sound.receive (hp : p ∈ t.blocks) :
    Sound t (n.receivedBlockTransactions p true) := by
  rcases h.received_cases hp with ⟨hup, heq⟩ | ⟨hroot, hcut, heq⟩
  · rw [heq]
    exact (h.queue hmeets hp hup).link_all _ (by simp [Nat.add_comm])
  · rw [heq]
    exact h.wait hmeets hp hroot hcut

end Meets

end Receive

lemma pruneOneBlockFile_status (d : DiskNode) (file : ℕ) (p : BlockIndex) :
    (pruneOneBlockFile d file).node.status p =
      { d.node.status p with
        haveData := (d.node.status p).haveData && !d.inFile file p } := by
  simp only [pruneOneBlockFile]
  split_ifs with hfile
  · simp [hfile]
  · simp [hfile]

lemma Sound.prune (h : Sound t d.node) (file : ℕ) :
    Sound t (pruneOneBlockFile d file).node := by
  have hstatus := pruneOneBlockFile_status d file
  have hkept : ∀ e ∈ (pruneOneBlockFile d file).node.unlinked, e ∈ d.node.unlinked :=
    fun e he => mem_of_mem_filter he
  constructor
  case toConsistent =>
    constructor
    case index => exact h.index
    case finalized => exact h.finalized
    case unfailed =>
      intro p
      rw [hstatus]
      exact h.unfailed p
    case valid =>
      intro p hp
      rw [hstatus]
      exact h.valid p hp
    case sequence =>
      intro p
      rw [hstatus]
      exact h.sequence p
    case active =>
      intro hne
      rw [hstatus]
      exact h.active hne
    case parent =>
      intro p hp hlink
      rw [hstatus] at hlink ⊢
      exact h.parent p hp hlink
    case waiting =>
      intro e he
      rw [hstatus]
      exact h.waiting e (hkept e he)
    case candidates =>
      intro p hp
      rw [hstatus]
      exact h.candidates p hp
  case queued => simp
  case numbered => simp
  case listed =>
    intro p hp hdata
    rw [hstatus, Bool.and_eq_true] at hdata
    rw [hstatus]
    refine (h.listed p hp hdata.1).imp_right (.imp_left fun hwaits => ?_)
    exact mem_filter.mpr ⟨hwaits, by simp [hdata.2]⟩
  case eligible =>
    intro p hp _ hlink hoff hpath hbetter
    rw [hstatus] at hlink
    refine h.eligible p hp (by simp) hlink hoff ?_ ?_
    · intro a ha hne haoff
      have hdata := hpath a ha hne haoff
      rw [hstatus, Bool.and_eq_true] at hdata
      exact hdata.1
    · exact (better_congr (n := d.node) (m := (pruneOneBlockFile d file).node) rfl (by rw [hstatus])
        (by rw [hstatus])).mp hbetter

/-- What is better than the new tip was better than the old one and is off the old chain. -/
lemma Sound.better_trans {p : BlockIndex} (h : Sound t n) (hpne : p ≠ []) (hq : Better n q)
    (hp : Better (n.updateTip q) p) (hqne : q ≠ []) :
    Better n p ∧ n.contains p = false := by
  have hqp := hp.resolve_left hqne
  change n.worse q p = true at hqp
  rw [contains_eq_false_iff hpne]
  rcases hq with hnil | hq
  · refine ⟨.inl hnil, fun hsuffix => ?_⟩
    rw [hnil] at hsuffix
    exact hpne (suffix_nil.mp hsuffix)
  · rw [worse_eq_true_iff] at hq hqp
    refine ⟨.inr (worse_eq_true_iff.mpr (by omega)), fun hsuffix => ?_⟩
    by_cases heq : p = n.tip
    · rw [heq] at hqp
      omega
    · have htip : n.tip ≠ [] := fun hnil => hpne (suffix_nil.mp (hnil ▸ hsuffix))
      have hless := HeaderTree.chainWork_lt (h.active htip).1 hsuffix heq
      omega

lemma Sound.move (h : Sound t n) (hq : q ∈ t.blocks) (hdata : DataPath n q) (hbetter : Better n q) :
    Sound t (n.updateTip q).pruneBlockIndexCandidates := by
  have hqne := t.ne_nil q hq
  constructor
  case toConsistent =>
    exact
      { index := h.index
        finalized := h.finalized
        unfailed := h.unfailed
        valid := h.valid
        sequence := h.sequence
        active := fun _ => ⟨hq, h.linked_of_dataPath hq hdata⟩
        parent := h.parent
        waiting := h.waiting
        candidates := fun p hp => h.candidates p (mem_of_mem_filter hp) }
  case queued => simp
  case numbered => simp
  case listed => exact h.listed
  case eligible =>
    intro p hp _ hlink hoff hpath hpbetter
    have hpne := t.ne_nil p hp
    obtain ⟨hold, hoffOld⟩ := h.better_trans hpne hbetter hpbetter hqne
    refine mem_filter.mpr ⟨h.eligible p hp (by simp) hlink hoffOld ?_ hold, ?_⟩
    · -- below the fork the data is that of the new chain
      intro a ha hne haoff
      by_cases hnew : a <:+ q
      · exact hdata a hnew hne haoff
      · exact hpath a ha hne ((contains_eq_false_iff hne).mpr hnew)
    · have hkeep : (n.updateTip q).worse p q = false := hpbetter.not_worse.resolve_left hqne
      rw [Bool.not_eq_true']
      exact hkeep

/-- Without a finalised block: what every rejection keeps holds of the node at the end, and the
candidates that would clear links are gone. -/
lemma selected_induction (hfinal : n.finalized = []) (P : Node → Prop)
    (hstep : ∀ (seen : List BlockIndex) (m : Node) (p : BlockIndex),
      ChainSelection.Progress n seen m → P m → m.bestOf m.candidates = some p →
      fate n p ≠ .good →
      P (rejectChain (decide (fate m p = .failed)) (m.walkToActive p).1 p m)) (fuel : ℕ)
    {seen : List BlockIndex} {m m' : Node} {best : Option BlockIndex}
    (h : ChainSelection.Progress n seen m) (hP : P m)
    (hsel : selectLoop fuel m = .selected m' best) :
    P m' ∧ ∃ seen', ChainSelection.Progress n seen' m' ∧
      ∀ q, Reached n q → q ∈ cleared n q → q ∉ m'.candidates := by
  induction fuel generalizing seen m with
  | zero => cases hsel
  | succ fuel ih =>
    cases hbest : m.bestOf m.candidates with
    | none =>
      rw [selectLoop] at hsel
      simp only [hbest] at hsel
      cases hsel
      exact ⟨hP, seen, h, fun q _ _ => by simp [bestOf_eq_none hbest]⟩
    | some p =>
      have hfork : OnFork n p := .inl hfinal
      rcases h.round_of_onFork hbest hfork fuel with ⟨heq, -⟩ | ⟨heq, husable⟩ |
        ⟨heq, hgood, hdisjoint⟩
      · rw [heq] at hsel
        cases hsel
      · rw [heq] at hsel
        cases hsel
        exact ⟨hP, seen, h, fun q => h.cleared_gone hbest husable⟩
      · rw [heq] at hsel
        exact ih (h.reject (h.rejection_of_onFork hfork hgood) hbest hdisjoint)
          (hstep seen m p h hP hbest hgood) hsel

namespace Sound
variable {t : HeaderTree} {n : Node}

variable (h : Sound t n)
include h

lemma candidatesLinked : CandidatesLinked n := by
  intro p hp
  obtain ⟨hmem, hlink⟩ := h.candidates p hp
  exact ⟨t.ne_nil p hmem, fun a ha hne => h.linked_of_suffix hmem hlink ha hne⟩

lemma fate_ne_failed (p : BlockIndex) : fate n p ≠ .failed := by
  induction p with
  | nil => simp [fate]
  | cons b p ih =>
    rw [fate, h.unfailed]
    split_ifs <;> simp_all

lemma usable (hdata : DataPath n p) : Usable n p :=
  ⟨.inl h.finalized, fun a ha hne hoff => ⟨h.unfailed a, hdata a ha hne hoff⟩⟩

lemma restrict {keep : List BlockIndex} (hsub : ∀ p ∈ keep, p ∈ n.candidates)
    (husable : ∀ p ∈ n.candidates, Usable n p → p ∈ keep) :
    Sound t { n with candidates := keep } := by
  constructor
  case toConsistent =>
    exact { h.toConsistent with candidates := fun p hp => h.candidates p (hsub p hp) }
  case queued => simp
  case numbered => simp
  case listed => exact h.listed
  case eligible =>
    intro p hp hnot hlink hoff hpath hbetter
    exact husable p (h.eligible p hp hnot hlink hoff hpath hbetter) (h.usable hpath)

/-- When no link is cleared, the selection only takes candidates out. -/
lemma find (hmeets : ∀ p, Reached n p → cleared n p = []) :
    ∃ m best, selectChain n = .selected m best ∧ Sound t m := by
  have hright : SelectsRight n := by
    refine (selectsRight_iff h.candidatesLinked).mpr ⟨?_, ?_⟩
    · rintro ⟨c, p, q, ⟨hp, hcp⟩, -⟩
      rw [hmeets p hp] at hcp
      simp at hcp
    · rintro ⟨p, -, -, hfork⟩
      exact hfork (.inl h.finalized)
  obtain ⟨m, best, hsel, -⟩ := hright
  obtain ⟨heq, seen, hprogress, -⟩ := selected_induction h.finalized
    (fun m => m = { n with candidates := m.candidates }) (by
      intro seen m p hm heq hbest hgood
      -- the branch of the candidate ends at the candidate itself
      have hmissing : fate n p = .missing := by
        cases hcase : fate n p with
        | good => exact absurd hcase hgood
        | failed => exact absurd hcase (h.fate_ne_failed p)
        | missing => rfl
      have hnone := hmeets p (hm.reached_of_best hbest)
      rw [cleared, if_pos ⟨.inl h.finalized, hmissing⟩,
        ← hm.passed_eq (.inl h.finalized) hmissing] at hnone
      rw [rejectChain_eq, hnone]
      rw [heq]
      rfl)
    _ (ChainSelection.Progress.initial h.candidatesLinked) rfl hsel
  refine ⟨m, best, hsel, ?_⟩
  rw [heq]
  exact h.restrict (fun p => hprogress.mem_of_mem) fun p => hprogress.usable_mem

end Sound

/-- A step that meets the condition goes through and keeps the invariant. -/
lemma Sound.step {s : Step} (h : Sound t d.node) (henabled : Enabled d s) (hmeets : Meets d s) :
    ∃ d', d.step s = some d' ∧ Sound t d'.node := by
  cases s with
  | receive p file =>
    have hp : p ∈ t.blocks := h.index ▸ henabled
    exact ⟨_, rfl, h.receive (fun q hq => hmeets q (h.index ▸ hq)) hp⟩
  | prune file => exact ⟨_, rfl, h.prune file⟩
  | find =>
    obtain ⟨m, best, hsel, hsound⟩ := h.find hmeets
    exact ⟨{ d with node := m }, by simp [DiskNode.step, hsel], hsound⟩
  | move q =>
    obtain ⟨hq, hdata, hbetter⟩ := henabled
    exact ⟨_, rfl, h.move (h.index ▸ hq) hdata hbetter⟩

lemma CleanRun.sound (h : CleanRun t d) : Sound t d.node := by
  induction h with
  | start => exact sound_start t
  | step run enabled meets done ih =>
    obtain ⟨d', heq, hsound⟩ := ih.step enabled meets
    rw [done] at heq
    cases heq
    exact hsound

/-- A received block that is not the tip and that was not linked, or has not lost its data, meets
the condition. -/
lemma CleanRun.meets_receive (run : CleanRun t d) (file : ℕ) (htip : p ≠ d.node.tip)
    (hdata : (d.node.status p).linked = true → (d.node.status p).haveData = true) :
    Meets d (.receive p file) := by
  have h := run.sound
  intro q hq hqp hlink hoff hpath hbetter
  rw [h.index] at hq
  refine h.eligible q hq (by simp) hlink hoff (fun a ha hne haoff => ?_) ?_
  · by_cases hap : a = p
    · subst hap
      exact hdata (h.linked_of_suffix hq hlink ha hne)
    · rw [← stored_status_of_ne hap]
      exact hpath a ha hne haoff
  · -- neither block gets a new sequence id
    refine (better_congr (n := d.node) (m := stored d.node p) rfl ?_ ?_).mp hbetter
    · rw [stored_status_of_ne hqp]
    · rw [stored_status_of_ne htip.symm]

/-- Three blocks on top of each other. -/
def threeBlocks : HeaderTree where
  blocks := [blockB, blockA, blockG]
  ne_nil := by decide
  closed := by decide
  proof_pos := by
    intro b p hmem
    simp only [blockB, blockA, blockG, mem_cons, List.cons.injEq, not_mem_nil,
      or_false] at hmem
    rcases hmem with ⟨rfl, -⟩ | ⟨rfl, -⟩ | ⟨rfl, -⟩ <;> decide

/-- The blocks were received and the first of them is the tip. -/
def fullNode : DiskNode :=
  (((threeBlocks.start.receive blockG 0).move blockG).receive blockA 1).receive blockB 2

/-- The file of the middle block was pruned. -/
def prunedNode : DiskNode := pruneOneBlockFile fullNode 1

lemma CleanRun.receive (file : ℕ) (run : CleanRun t d) (hp : p ∈ d.node.index)
    (htip : p ≠ d.node.tip)
    (hdata : (d.node.status p).linked = true → (d.node.status p).haveData = true) :
    CleanRun t (d.receive p file) :=
  run.step (s := .receive p file) hp (run.meets_receive file htip hdata) rfl

lemma cleanRun_fullNode : CleanRun threeBlocks fullNode := by
  have hstart : CleanRun threeBlocks (threeBlocks.start.receive blockG 0) :=
    CleanRun.start.receive 0 (by decide) (by decide) (by decide)
  have hmoved : CleanRun threeBlocks ((threeBlocks.start.receive blockG 0).move blockG) := by
    refine hstart.step (s := .move blockG) ⟨by decide, ?_, .inl rfl⟩ trivial rfl
    intro a ha hne _
    rcases suffix_cons_iff.mp ha with rfl | ha
    · rfl
    · exact absurd (suffix_nil.mp ha) hne
  have hfirst := hmoved.receive (p := blockA) 1 (by decide) (by decide) (by decide)
  exact hfirst.receive 2 (by decide) (by decide) (by decide)

end PyrrhaNode.BlockMemory
