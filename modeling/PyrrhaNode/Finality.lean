import Mathlib
import PyrrhaNode.ChainActivation

/-!
# A finalised block is not reorganised away

Only three functions assign the tip or the finalised block: `connectTip`, `disconnectTip` and
`finalizeBlockInternal`.  The rest is bookkeeping of the index, and each piece of it leaves the
chain as it is (`SameChain`).  Over whole runs the finalised block then only moves to its own
descendants and no reorganisation disconnects it; and as long as the operator only finalises
blocks of the active chain, it stays on the active chain.
-/
namespace PyrrhaNode.Finality

open List BlockTree ChainActivation Node

variable {p q : BlockIndex} {n : Node} {cfg : Config} {ps : List BlockIndex} {onlyActive : Bool}

lemma chainWork_le (h : p <:+ q) : chainWork p ≤ chainWork q := by
  induction q with
  | nil => rw [suffix_nil.mp h]
  | cons b q ih =>
    rcases suffix_cons_iff.mp h with rfl | h
    · exact Nat.le_refl _
    · exact Nat.le_add_right_of_le (ih h)

lemma getAncestor_suffix (p : BlockIndex) (h : ℤ) : getAncestor p h <:+ p := by
  rw [getAncestor]
  split_ifs
  · exact nil_suffix
  · exact drop_suffix _ p

lemma getAncestor_height_eq_iff : getAncestor q (height p) = p ↔ p <:+ q := by
  constructor
  · intro h
    exact h ▸ getAncestor_suffix q (height p)
  · intro h
    have hle := h.length_le
    rw [getAncestor, height, height]
    by_cases hnil : p = []
    · subst hnil
      simp
    · have hpos := length_pos_iff.mpr hnil
      rw [if_neg (by omega), show ((q.length : ℤ) - 1 - (p.length - 1)).toNat = q.length - p.length
        by omega]
      exact (suffix_iff_eq_drop.mp h).symm

lemma length_getAncestor {k : ℕ} (hk : k < p.length) :
    (getAncestor p k).length = k + 1 := by
  rw [getAncestor, height, if_neg (by omega), length_drop]
  omega

/-- The chain, the finalised block and what happened to them are the same. -/
structure SameChain (n m : Node) : Prop where
  tip : m.tip = n.tip
  finalized : m.finalized = n.finalized
  log : m.log = n.log

namespace SameChain

lemma refl (n : Node) : SameChain n n := ⟨rfl, rfl, rfl⟩

lemma trans {n m k : Node} (h : SameChain n m) (h' : SameChain m k) : SameChain n k :=
  ⟨h'.tip.trans h.tip, h'.finalized.trans h.finalized, h'.log.trans h.log⟩

lemma mark (n : Node) (p : BlockIndex) (f : Status → Status) : SameChain n (n.mark p f) :=
  ⟨rfl, rfl, rfl⟩

lemma tick (n : Node) : SameChain n n.tick := ⟨rfl, rfl, rfl⟩

lemma eraseCandidate (n : Node) (p : BlockIndex) : SameChain n (n.eraseCandidate p) :=
  ⟨rfl, rfl, rfl⟩

lemma insertCandidate (n : Node) (p : BlockIndex) : SameChain n (n.insertCandidate p) := by
  rw [Node.insertCandidate]
  split_ifs
  · exact refl n
  · exact ⟨rfl, rfl, rfl⟩

lemma ite {n m k : Node} {P : Prop} [Decidable P] (h : SameChain n m) (h' : SameChain n k) :
    SameChain n (if P then m else k) := by
  split_ifs
  · exact h
  · exact h'

lemma foldl {β : Type*} {f : Node → β → Node} (hf : ∀ n b, SameChain n (f n b)) :
    ∀ (bs : List β) (n : Node), SameChain n (bs.foldl f n)
  | [], n => refl n
  | b :: bs, n => (hf n b).trans (foldl hf bs (f n b))

lemma rejectChain (failedChain : Bool) (test : BlockIndex) :
    ∀ (p : BlockIndex) (n : Node), SameChain n (Node.rejectChain failedChain test p n)
  | [], n => eraseCandidate n test
  | b :: p, n => by
    rw [Node.rejectChain]
    apply ite
    · exact eraseCandidate n test
    · exact ((mark n _ _).trans (eraseCandidate _ _)).trans (rejectChain failedChain test p _)

lemma rejectUnfinalized (n : Node) (p : BlockIndex) : SameChain n (n.rejectUnfinalized p) :=
  ite (mark n p _) (refl n)

lemma findMostWorkLoop : ∀ (fuel : ℕ) (n : Node), SameChain n (Node.findMostWorkLoop fuel n).1
  | 0, n => refl n
  | fuel + 1, n => by
    rw [Node.findMostWorkLoop]
    cases n.bestOf n.candidates with
    | none => exact refl n
    | some p =>
      have hmark := rejectUnfinalized n p
      simp only
      split_ifs
      · exact (hmark.trans (rejectChain _ _ _ _)).trans (findMostWorkLoop fuel _)
      · exact hmark

lemma findMostWorkChain (n : Node) : SameChain n n.findMostWorkChain.1 :=
  findMostWorkLoop _ n

lemma markDown (invalid : BlockIndex) :
    ∀ (p : BlockIndex) (n : Node), SameChain n (Node.markDown invalid p n)
  | [], n => refl n
  | b :: p, n => by
    rw [Node.markDown]
    exact ite (refl n) ((mark n _ _).trans (markDown invalid p _))

lemma markAllContainingChainsInvalid (n : Node) (p : BlockIndex) :
    SameChain n (n.markAllContainingChainsInvalid p) :=
  ite (foldl (fun n tip => ite (markDown p tip n) (refl n)) _ n) (refl n)

lemma invalidBlockFound (n : Node) (p : BlockIndex) (corruptionPossible : Bool) :
    SameChain n (n.invalidBlockFound p corruptionPossible) := by
  apply ite (refl n)
  apply ((mark n p _).trans (eraseCandidate _ p)).trans
  exact (markAllContainingChainsInvalid _ p).trans (findMostWorkChain _)

lemma connectBlock (n : Node) (p : BlockIndex) : SameChain n (n.connectBlock p) :=
  ite (refl n) (mark n p _)

lemma pruneBlockIndexCandidates (n : Node) : SameChain n n.pruneBlockIndexCandidates :=
  ⟨rfl, rfl, rfl⟩

lemma addToBlockIndex (n : Node) (a : Arrival) : SameChain n (n.addToBlockIndex a) :=
  ite (refl n) ⟨rfl, rfl, rfl⟩

lemma acceptBlockHeader (cfg : Config) (n : Node) (a : Arrival) :
    SameChain n (n.acceptBlockHeader cfg a).1 := by
  rw [Node.acceptBlockHeader]
  split_ifs
  · exact refl n
  · exact addToBlockIndex n a
  · exact refl n
  · exact addToBlockIndex n a

lemma assignSequence (n : Node) (p : BlockIndex) : SameChain n (n.assignSequence p) :=
  ⟨rfl, rfl, rfl⟩

lemma offerCandidate (n : Node) (p : BlockIndex) : SameChain n (n.offerCandidate p) :=
  ite (insertCandidate n p) (refl n)

lemma linkDescendants : ∀ (fuel : ℕ) (queue : List BlockIndex) (n : Node),
    SameChain n (Node.linkDescendants fuel queue n)
  | 0, _, n => refl n
  | _ + 1, [], n => refl n
  | fuel + 1, p :: queue, n => by
    have hassign : SameChain n (if (n.status p).nSequenceId = 0 then n.assignSequence p else n) :=
      ite (assignSequence n p) (refl n)
    have hoffer := hassign.trans (offerCandidate _ p)
    rw [Node.linkDescendants]
    apply SameChain.trans _ (linkDescendants fuel _ _)
    exact ⟨hoffer.tip, hoffer.finalized, hoffer.log⟩

lemma receivedBlockTransactions (n : Node) (p : BlockIndex) (txCount : Bool) :
    SameChain n (n.receivedBlockTransactions p txCount) := by
  have hassign := (mark n p fun s => { s with processed := true, haveData := true }).trans
    (assignSequence _ p)
  have hmark := hassign.trans (mark _ p fun s =>
    if txCount then s.raiseValidity validTransactions else { s with failedValid := true })
  apply ite
  · exact hmark.trans (linkDescendants _ _ _)
  · apply ite
    · exact ⟨hmark.tip, hmark.finalized, hmark.log⟩
    · exact hmark

lemma acceptBlock (cfg : Config) (n : Node) (a : Arrival) :
    SameChain n (n.acceptBlock cfg a) := by
  have hheader := acceptBlockHeader cfg n a
  rw [Node.acceptBlock]
  simp only
  split_ifs
  · exact hheader
  · exact hheader
  · exact hheader
  · cases a.blockChecks with
    | none => exact hheader.trans (receivedBlockTransactions _ _ _)
    | some corruptionPossible =>
      cases corruptionPossible with
      | true => exact hheader
      | false => exact hheader.trans ((mark _ _ _).trans (markAllContainingChainsInvalid _ _))

lemma restoreCandidates (n : Node) : SameChain n n.restoreCandidates :=
  foldl (fun n p => ite (insertCandidate n p) (refl n)) _ n

end SameChain

lemma worse_eq_false_iff :
    n.worse p q = false ↔ chainWork q < chainWork p ∨
      chainWork p = chainWork q ∧ (n.status p).nSequenceId ≤ (n.status q).nSequenceId := by
  rw [worse]
  split_ifs <;> simp <;> omega

lemma bestOf_eq_none (h : n.bestOf ps = none) : ps = [] := by
  cases ps with
  | nil => rfl
  | cons p ps =>
    rw [bestOf] at h
    split at h
    · contradiction
    · split_ifs at h

/-- The chosen candidate is worse than none. -/
lemma bestOf_best (h : n.bestOf ps = some p) :
    ∀ q ∈ ps, n.worse p q = false := by
  induction ps generalizing p with
  | nil => simp
  | cons p₀ ps ih =>
    rw [bestOf] at h
    split at h
    · rename_i hnone
      rw [bestOf_eq_none hnone, ← Option.some.inj h]
      simp [worse]
    rename_i r hr
    intro q hq
    have hbest := ih hr
    simp only [worse_eq_false_iff, mem_cons] at hbest hq ⊢
    split_ifs at h with hworse
    · rw [← Option.some.inj h]
      have hless := mt (worse_eq_false_iff (n := n) (p := r) (q := p₀)).mpr (by simp [hworse])
      rcases hq with rfl | hq
      · omega
      · have := hbest q hq
        omega
    · rw [← Option.some.inj h]
      have hmore := worse_eq_false_iff.mp (eq_false_of_ne_true hworse)
      rcases hq with rfl | hq
      · exact hmore
      · exact hbest q hq

/-- What `findMostWorkChain` says about the chain it returns: it is on the fork of the finalised
block, unless it is a piece of the active chain, and no candidate is better. -/
structure IsMostWork (n : Node) (p : BlockIndex) : Prop where
  fork : n.finalized = [] ∨ p <:+ n.finalized ∨ n.finalized <:+ p ∨ p <:+ n.tip
  best : ∀ q ∈ n.candidates, n.worse p q = false

lemma rejectUnfinalized_worse (n : Node) (p : BlockIndex) :
    (n.rejectUnfinalized p).worse = n.worse := by
  have hseq : ∀ q, ((n.rejectUnfinalized p).status q).nSequenceId = (n.status q).nSequenceId := by
    intro q
    rw [rejectUnfinalized]
    split_ifs
    · by_cases hqp : q = p
      · simp [mark, hqp]
      · simp [mark, hqp]
    · rfl
  ext q r
  simp [worse, hseq]

lemma rejectUnfinalized_candidates (n : Node) (p : BlockIndex) :
    (n.rejectUnfinalized p).candidates = n.candidates := by
  rw [rejectUnfinalized]
  split_ifs <;> rfl

/-- A candidate on another fork than the finalised block is only kept on the active chain. -/
lemma fork_of_walkToActive (hfailed : ((n.rejectUnfinalized p).walkToActive p).2.1 = false) :
    n.finalized = [] ∨ p <:+ n.finalized ∨ n.finalized <:+ p ∨ p <:+ n.tip := by
  by_cases hconflict : n.finalized ≠ [] ∧ areOnTheSameFork p n.finalized = false
  · cases p with
    | nil => exact Or.inr (Or.inl nil_suffix)
    | cons b p =>
      rw [rejectUnfinalized, if_pos hconflict, walkToActive] at hfailed
      by_cases hactive : b :: p <:+ n.tip
      · exact Or.inr (Or.inr (Or.inr hactive))
      · simp [Node.contains, mark, hactive, Status.failed] at hfailed
  · by_cases hnull : n.finalized = []
    · exact Or.inl hnull
    have hfork : areOnTheSameFork p n.finalized = true := by
      by_contra hne
      exact hconflict ⟨hnull, eq_false_of_ne_true hne⟩
    rcases areOnTheSameFork_iff.mp hfork with h | h
    · exact Or.inr (Or.inl h)
    · exact Or.inr (Or.inr (Or.inl h))

lemma findMostWorkLoop_isMostWork {fuel : ℕ} {n m : Node}
    (h : findMostWorkLoop fuel n = (m, some p)) : IsMostWork m p := by
  induction fuel generalizing n with
  | zero => simp [findMostWorkLoop] at h
  | succ fuel ih =>
    rw [findMostWorkLoop] at h
    cases hbest : n.bestOf n.candidates with
    | none => simp [hbest] at h
    | some q =>
      simp only [hbest] at h
      split_ifs at h with hreject
      · exact ih h
      obtain ⟨rfl, hqp⟩ := Prod.mk.inj h
      obtain rfl := Option.some.inj hqp
      have hsame := SameChain.rejectUnfinalized n q
      simp only [Bool.or_eq_true, not_or, Bool.not_eq_true] at hreject
      constructor
      · rw [hsame.finalized, hsame.tip]
        exact fork_of_walkToActive hreject.1
      · rw [rejectUnfinalized_candidates, rejectUnfinalized_worse]
        exact bestOf_best hbest

/-- Parallel validation prefers the earliest of the best candidates, which is the one that was
chosen. -/
lemma lowestSequence_eq (h : IsMostWork n p) :
    n.lowestSequence p = p := by
  rw [lowestSequence]
  have hbest := h.best
  generalize n.candidates = cs at hbest ⊢
  induction cs with
  | nil => rfl
  | cons c cs ih =>
    have hc := worse_eq_false_iff.mp (hbest c (by simp))
    rw [foldl_cons, if_neg (by omega)]
    exact ih fun q hq => hbest q (by simp [hq])

/-- A chain to switch to has the finalised block if the active chain has it. -/
def Towards (n : Node) (p : BlockIndex) : Prop := n.finalized <:+ n.tip → n.finalized <:+ p

lemma towards_of_work (h : IsMostWork n p)
    (hwork : ¬(n.tip ≠ [] ∧ chainWork p ≤ chainWork n.tip)) : Towards n p := by
  intro htip
  -- a piece of the active chain does not have more work than all of it
  have hpiece : p <:+ n.tip → n.finalized <:+ p := by
    intro hp
    have hnull : n.tip = [] := by
      by_contra hne
      exact hwork ⟨hne, chainWork_le hp⟩
    rw [hnull, suffix_nil] at htip
    exact htip ▸ nil_suffix
  rcases h.fork with hnull | hp | hF | hp
  · exact hnull ▸ nil_suffix
  · exact hpiece (hp.trans htip)
  · exact hF
  · exact hpiece hp

lemma towards_of_chooseChain {parallel : Bool} {block : Option BlockIndex} (h : IsMostWork n p)
    (hchoose : n.chooseChain parallel block p = some q) :
    Towards n q := by
  have hmost : (if parallel && block.isSome then n.lowestSequence p else p) = p := by
    split_ifs
    · exact lowestSequence_eq h
    · rfl
  rw [chooseChain] at hchoose
  simp only [hmost] at hchoose
  split_ifs at hchoose with hwork
  have hp := towards_of_work h hwork
  cases block with
  | none => exact Option.some.inj hchoose ▸ hp
  | some block =>
    simp only [preferBlock] at hchoose
    split_ifs at hchoose with hextends hbad
    · intro htip
      rw [← Option.some.inj hchoose]
      apply htip.trans
      rw [← hextends.2.2.2]
      exact tail_suffix block
    · exact Option.some.inj hchoose ▸ hp

/-- What an event must not do to a finalised block: a reorganisation does not disconnect it, and
it is only ever replaced by a descendant. -/
def Kept : ChainEvent → Prop
  | .disconnected .activateBestChainStep block finalized => finalized ≠ block
  | .disconnected .invalidateBlock _ _ => True
  | .finalized old new => old <:+ new
  | .stepDone _ _ => True

/-- After `ActivateBestChainStep` the finalised block is on the active chain. -/
def OnChain : ChainEvent → Prop
  | .stepDone tip finalized => finalized <:+ tip
  | _ => True

/-- The invariant of a run; `onlyActive` says that the operator only finalises blocks of the
active chain. -/
structure Safe (cfg : Config) (onlyActive : Bool) (n : Node) : Prop where
  kept : ∀ e ∈ n.log, Kept e
  disabled : cfg.maxReorgDepth < 0 → n.finalized = []
  onChain : onlyActive = true → n.finalized <:+ n.tip
  steps : onlyActive = true → ∀ e ∈ n.log, OnChain e

section Invariant

variable {cfg : Config} {onlyActive : Bool} {n : Node}

variable (h : Safe cfg onlyActive n)
include h

lemma Safe.congr {m : Node} (hsame : SameChain n m) :
    Safe cfg onlyActive m := by
  obtain ⟨htip, hfinalized, hlog⟩ := hsame
  constructor
  · rw [hlog]
    exact h.kept
  · rw [hfinalized]
    exact h.disabled
  · rw [hfinalized, htip]
    exact h.onChain
  · rw [hlog]
    exact h.steps

lemma Safe.record {e : ChainEvent} (hkept : Kept e)
    (hon : onlyActive = true → OnChain e) : Safe cfg onlyActive (n.record e) := by
  constructor
  · exact forall_mem_cons.mpr ⟨hkept, h.kept⟩
  · exact h.disabled
  · exact h.onChain
  · intro hactive
    exact forall_mem_cons.mpr ⟨hon hactive, h.steps hactive⟩

variable {p : BlockIndex} {env : Env} (fuel : ℕ)

lemma Safe.setFinalized (hmoves : n.finalized <:+ p) (hdisabled : cfg.maxReorgDepth < 0 → p = [])
    (hon : onlyActive = true → p <:+ n.tip) :
    Safe cfg onlyActive (n.setFinalized p) := by
  constructor
  · exact forall_mem_cons.mpr ⟨hmoves, h.kept⟩
  · exact hdisabled
  · exact hon
  · intro hactive
    exact forall_mem_cons.mpr ⟨trivial, h.steps hactive⟩

lemma Safe.extend (hp : p.tail = n.tip) :
    Safe cfg onlyActive (n.updateTip p) := by
  refine ⟨h.kept, h.disabled, ?_, h.steps⟩
  intro hactive
  have htip := h.onChain hactive
  rw [← hp] at htip
  exact htip.trans (tail_suffix p)

omit h in
/-- Finalisation fails without a trace, or the block is finalised afterwards and the finalised
block stayed or moved to it from an ancestor. -/
lemma finalizeBlockInternal_cases (n : Node) (p : BlockIndex) :
    n.finalizeBlockInternal p = (n, false) ∨
      n.finalizeBlockInternal p = (n, true) ∧ p <:+ n.finalized ∨
      n.finalizeBlockInternal p = (n.setFinalized p, true) ∧ n.finalized <:+ p := by
  rw [finalizeBlockInternal]
  split_ifs with hvalid hfork hdone
  · exact Or.inl rfl
  · exact Or.inl rfl
  · rw [isBlockFinalized, Bool.and_eq_true, decide_eq_true_iff, decide_eq_true_iff,
      getAncestor_height_eq_iff] at hdone
    exact Or.inr (Or.inl ⟨rfl, hdone.2⟩)
  · refine Or.inr (Or.inr ⟨rfl, ?_⟩)
    rw [isBlockFinalized, Bool.and_eq_true, decide_eq_true_iff, decide_eq_true_iff,
      getAncestor_height_eq_iff] at hdone
    by_cases hnull : n.finalized = []
    · exact hnull ▸ nil_suffix
    have hsame : areOnTheSameFork p n.finalized = true := by
      by_contra hne
      exact hfork ⟨hnull, eq_false_of_ne_true hne⟩
    rcases areOnTheSameFork_iff.mp hsame with h | h
    · exact absurd ⟨hnull, h⟩ hdone
    · exact h

omit h in
lemma findOldEnough_suffix (cfg : Config) (now : ℤ) (n : Node) :
    ∀ p, findOldEnough cfg now n p <:+ p
  | [] => suffix_refl _
  | b :: p => by
    rw [findOldEnough]
    split_ifs
    · exact nil_suffix
    · exact suffix_refl _
    · exact (findOldEnough_suffix cfg now n p).trans (suffix_cons b p)

omit h in
lemma findBlockToFinalize_suffix (cfg : Config) (now : ℤ) (n : Node) (p : BlockIndex) :
    findBlockToFinalize cfg now n p <:+ p := by
  rw [findBlockToFinalize]
  split_ifs
  · exact nil_suffix
  · exact (findOldEnough_suffix cfg now n _).trans (getAncestor_suffix p _)

/-- Connecting a block moves the finalised block at most up to that block. -/
lemma Safe.finalizeBehind (hp : p.tail = n.tip) (now : ℤ) :
    ((n.finalizeBehind cfg now p).2 = false → (n.finalizeBehind cfg now p).1 = n) ∧
      Safe cfg onlyActive ((n.finalizeBehind cfg now p).1.updateTip p) := by
  have hextend := h.extend hp
  rw [Node.finalizeBehind]
  split_ifs with hdepth hnone
  · exact ⟨fun hfalse => absurd hfalse (by simp), hextend⟩
  · rcases finalizeBlockInternal_cases n (findBlockToFinalize cfg now n p) with
      heq | ⟨heq, -⟩ | ⟨heq, hmoves⟩
    iterate 2
      rw [heq]
      exact ⟨fun _ => rfl, hextend⟩
    · rw [heq]
      refine ⟨fun hfalse => absurd hfalse (by simp), ?_⟩
      apply hextend.setFinalized hmoves
      · omega
      · intro _
        exact findBlockToFinalize_suffix cfg now n p
  · refine ⟨fun hfalse => absurd hfalse (by simp), ?_⟩
    apply hextend.setFinalized
    · exact h.disabled (by omega) ▸ suffix_refl _
    · intro _
      rfl
    · intro _
      exact nil_suffix

lemma Safe.connectTip (env : Env) (p : BlockIndex) :
    Safe cfg onlyActive (n.connectTip cfg env p).1 := by
  have htick := h.congr (SameChain.tick n)
  rw [Node.connectTip]
  split_ifs with hstop
  · exact htick
  simp only [not_or, not_not] at hstop
  cases env.connect n.clock with
  | shutdown | unreadable | failed => exact htick
  | invalid corruptionPossible =>
    exact htick.congr (SameChain.invalidBlockFound _ p corruptionPossible)
  | connected flushed =>
    have hsame := SameChain.connectBlock n.tick p
    have hconnect := htick.congr hsame
    obtain ⟨hfails, hbehind⟩ :=
      hconnect.finalizeBehind (hstop.2.trans hsame.tip.symm) env.now
    generalize Node.finalizeBehind cfg env.now (n.tick.connectBlock p) p = result
      at hfails hbehind ⊢
    obtain ⟨m, fine⟩ := result
    cases fine with
    | true => exact hbehind
    | false => exact hfails rfl ▸ hconnect

omit h in
lemma suffix_tail (h : p <:+ q) (hne : p ≠ q) : p <:+ q.tail := by
  cases q with
  | nil => exact h
  | cons b q =>
    rcases suffix_cons_iff.mp h with heq | h
    · exact absurd heq hne
    · exact h

lemma Safe.disconnectTip (hne : n.finalized ≠ n.tip) (caller : Caller) (env : Env) :
    Safe cfg onlyActive (n.disconnectTip caller env).1 ∧
      (n.disconnectTip caller env).1.finalized = n.finalized ∧
      ((n.disconnectTip caller env).2 = true →
        (n.disconnectTip caller env).1.tip = n.tip.tail) := by
  rw [Node.disconnectTip]
  cases env.disconnect n.clock with
  | failed => exact ⟨h.congr (SameChain.tick n), rfl, fun hfalse => absurd hfalse (by simp)⟩
  | disconnected flushed =>
    have hkept : Kept (.disconnected caller n.tip n.finalized) := by
      cases caller with
      | activateBestChainStep => exact hne
      | invalidateBlock => trivial
    have hrecord := (h.congr (SameChain.tick n)).record hkept fun _ => trivial
    have hundo : (n.tick.record (.disconnected caller n.tip n.finalized)).undoFinalized =
        n.tick.record (.disconnected caller n.tip n.finalized) := if_neg hne
    rw [hundo]
    refine ⟨⟨hrecord.kept, hrecord.disabled, ?_, hrecord.steps⟩, rfl, fun _ => rfl⟩
    intro hactive
    exact suffix_tail (h.onChain hactive) hne

/-- A reorganisation stops at the fork, and so before the finalised block. -/
lemma Safe.disconnectTo {fork : BlockIndex} (env : Env) (fuel : ℕ) (hfork : fork <:+ n.tip)
    (hkeeps : n.finalized <:+ n.tip → n.finalized <:+ fork) :
    Safe cfg onlyActive (disconnectTo env fork fuel n).1 := by
  induction fuel generalizing n with
  | zero => exact h
  | succ fuel ih =>
    rw [Node.disconnectTo]
    split_ifs with hdone hquit
    · exact h
    · exact h.congr (SameChain.tick n)
    · simp only [not_or] at hdone
      have hne : n.finalized ≠ n.tip := by
        intro heq
        have hF := hkeeps (heq ▸ suffix_refl _)
        rw [heq] at hF
        exact hdone.2 (suffix_antisymm hF hfork)
      obtain ⟨hsafe, hfinalized, htip⟩ := h.disconnectTip hne .activateBestChainStep env
      generalize n.disconnectTip .activateBestChainStep env = result at hsafe hfinalized htip ⊢
      obtain ⟨m, flushed⟩ := result
      cases flushed with
      | false => exact hsafe
      | true =>
        have hback := htip rfl
        simp only at hsafe hfinalized hback ⊢
        apply ih hsafe
        · rw [hback]
          exact suffix_tail hfork (Ne.symm hdone.2)
        · rw [hfinalized, hback]
          intro hF
          exact hkeeps (hF.trans (tail_suffix _))

lemma Safe.connectBlocks (env : Env) (mostWork : BlockIndex)
    (ps : List BlockIndex) : Safe cfg onlyActive (connectBlocks cfg env mostWork ps n).1 := by
  induction ps generalizing n with
  | nil => exact h
  | cons p ps ih =>
    have hfind := h.congr (SameChain.findMostWorkChain n)
    rw [Node.connectBlocks]
    generalize n.findMostWorkChain = found at hfind ⊢
    obtain ⟨m, new⟩ := found
    cases new with
    | none => exact hfind
    | some newMostWork =>
      simp only at hfind ⊢
      split_ifs
      · exact hfind
      have hconnect := hfind.connectTip env p
      generalize m.connectTip cfg env p = result at hconnect ⊢
      obtain ⟨k, verdict⟩ := result
      have hprune := (hconnect.congr (SameChain.pruneBlockIndexCandidates k)).congr
        (SameChain.tick _)
      cases verdict with
      | invalid | error => exact hconnect
      | ok =>
        simp only
        split_ifs
        · exact hprune
        · exact ih hprune

omit h in
lemma Safe.connectRounds (count : ℕ) (mostWork : BlockIndex) (h : Safe cfg onlyActive n) :
    Safe cfg onlyActive (connectRounds cfg env fuel count mostWork n).1 := by
  induction fuel generalizing n count mostWork with
  | zero => exact h
  | succ fuel ih =>
    rw [Node.connectRounds]
    split_ifs
    · exact h
    simp only
    generalize (toConnect count _).reverse = blocks
    have hblocks := h.connectBlocks env mostWork blocks
    generalize Node.connectBlocks cfg env mostWork blocks n = result at hblocks ⊢
    obtain ⟨m, progress⟩ := result
    cases progress with
    | returned | invalidFound => exact hblocks
    | connected =>
      have hfind := hblocks.congr (SameChain.findMostWorkChain m)
      simp only at hfind ⊢
      generalize m.findMostWorkChain = found at hfind ⊢
      obtain ⟨k, new⟩ := found
      cases new with
      | none => exact hfind
      | some newMostWork => exact ih _ _ hfind

lemma Safe.activateBestChainStep {mostWork : BlockIndex} (env : Env)
    (htowards : Towards n mostWork) :
    Safe cfg onlyActive (n.activateBestChainStep cfg env mostWork).1 := by
  have hmeet := isMeet_findFork n.tip mostWork
  have hdisconnect := h.disconnectTo env n.tip.length hmeet.left
    fun hF => hmeet.greatest _ hF (htowards hF)
  have hswitch : Safe cfg onlyActive (n.switchTo cfg env mostWork).1 := by
    rw [switchTo]
    generalize Node.disconnectTo env (findFork n.tip mostWork) n.tip.length n = result
      at hdisconnect ⊢
    obtain ⟨m, finished⟩ := result
    cases finished with
    | false => exact hdisconnect
    | true => exact hdisconnect.connectRounds _ _ _
  exact hswitch.record trivial hswitch.onChain

omit h in
lemma Safe.activateBestChain {parallel : Bool} (block : Option BlockIndex)
    (h : Safe cfg onlyActive n) :
    Safe cfg onlyActive (activateBestChain cfg env parallel fuel block n) := by
  induction fuel generalizing n block with
  | zero => exact h
  | succ fuel ih =>
    have htick := h.congr (SameChain.tick n)
    rw [Node.activateBestChain]
    split_ifs
    · exact htick
    have hfind := htick.congr (SameChain.findMostWorkChain n.tick)
    cases hfound : n.tick.findMostWorkChain with
    | mk m new =>
      rw [hfound] at hfind
      cases new with
      | none => exact hfind
      | some mostWork =>
        have hmost := findMostWorkLoop_isMostWork hfound
        simp only at hfind ⊢
        cases hchoose : m.chooseChain parallel block mostWork with
        | none => exact hfind
        | some chosen =>
          have hstep := hfind.activateBestChainStep env (towards_of_chooseChain hmost hchoose)
          simp only
          generalize m.activateBestChainStep cfg env chosen = result at hstep ⊢
          obtain ⟨k, verdict⟩ := result
          have hagain := hstep.congr (SameChain.findMostWorkChain k)
          simp only at hstep
          obtain ⟨⟨k', next⟩, hfound'⟩ : ∃ found, k.findMostWorkChain = found := ⟨_, rfl⟩
          rw [hfound'] at hagain
          cases next with
          | none =>
            cases verdict with
            | error => exact hstep
            | ok | invalid => simpa only [hfound'] using hagain
          | some next =>
            have hrest : Safe cfg onlyActive (if chainWork k'.tip < chainWork next then
                Node.activateBestChain cfg env parallel fuel none k' else k') := by
              split_ifs
              · exact ih none hagain
              · exact hagain
            cases verdict with
            | error => exact hstep
            | ok | invalid => simpa only [hfound'] using hrest

lemma Safe.disconnectWhile (env : Env) (fuel : ℕ)
    (hp : ¬p <:+ n.finalized) : Safe cfg onlyActive (disconnectWhile env p fuel n).1 := by
  induction fuel generalizing n with
  | zero => exact h
  | succ fuel ih =>
    rw [Node.disconnectWhile]
    split_ifs with hcontains
    · have hmark := h.congr
        ((SameChain.mark n n.tip fun s => { s with failedChild := true }).trans
          (SameChain.eraseCandidate _ n.tip))
      simp only [Node.contains, Bool.and_eq_true, decide_eq_true_iff] at hcontains
      have hne : n.finalized ≠ n.tip := by
        intro heq
        exact hp (heq ▸ hcontains.2)
      obtain ⟨hsafe, hfinalized, -⟩ := hmark.disconnectTip hne .invalidateBlock env
      simp only
      generalize Node.disconnectTip .invalidateBlock env _ = result at hsafe hfinalized ⊢
      obtain ⟨m, flushed⟩ := result
      cases flushed with
      | false => exact hsafe
      | true => exact ih hsafe (by rwa [hfinalized])
    · exact h

lemma Safe.invalidateBlock (env : Env)
    (hp : ¬p <:+ n.finalized) : Safe cfg onlyActive (n.invalidateBlock env p) := by
  have hmark := h.congr
    ((SameChain.mark n p fun s => { s with failedValid := true }).trans
      (SameChain.eraseCandidate _ p))
  have hdisconnect := hmark.disconnectWhile env n.tip.length hp
  rw [Node.invalidateBlock]
  generalize Node.disconnectWhile env p _ _ = result at hdisconnect ⊢
  obtain ⟨m, finished⟩ := result
  cases finished with
  | false => exact hdisconnect
  | true =>
    exact ((hdisconnect.congr (SameChain.restoreCandidates m)).congr
      (SameChain.markAllContainingChainsInvalid _ p)).congr (SameChain.findMostWorkChain _)

omit h in
/-- The block above the fork with a finalised side branch is not below the finalised block. -/
lemma not_suffix_above_fork {tip finalized : BlockIndex} (hfinal : p <:+ finalized)
    (hfork : areOnTheSameFork p tip = false) :
    ¬getAncestor tip (height (findFork tip p) + 1) <:+ finalized := by
  intro habove
  have hmeet := isMeet_findFork tip p
  have hapart : ¬(p <:+ tip ∨ tip <:+ p) := by
    rw [← areOnTheSameFork_iff, hfork]
    simp
  have hlen : (findFork tip p).length < tip.length := by
    apply lt_of_le_of_ne hmeet.left.length_le
    intro heq
    have htip := hmeet.left.eq_of_length heq
    exact hapart (Or.inr (htip ▸ hmeet.right))
  have hheight : height (findFork tip p) + 1 = ((findFork tip p).length : ℕ) := by
    rw [height]
    omega
  rw [hheight] at habove
  have hcount := length_getAncestor hlen
  have htip := getAncestor_suffix tip (findFork tip p).length
  rcases suffix_or_suffix_of_suffix habove hfinal with h | h
  · have hle := (hmeet.greatest _ htip h).length_le
    omega
  · exact hapart (Or.inl (h.trans htip))

lemma Safe.finalizeBlock (env : Env) (hp : onlyActive = true → p <:+ n.tip) :
    Safe cfg onlyActive (n.finalizeBlock cfg env p) := by
  rw [Node.finalizeBlock]
  split_ifs with hrefused
  · exact h
  -- the block is finalised, and with it nothing of the side branch is given up
  have hrewind : ∀ {m : Node}, Safe cfg onlyActive m → p <:+ m.finalized →
      Safe cfg onlyActive (if areOnTheSameFork p m.tip then m
        else m.invalidateBlock env (getAncestor m.tip (height (findFork m.tip p) + 1))) := by
    intro m hm hfinal
    split_ifs with hfork
    · exact hm
    · exact hm.invalidateBlock env (not_suffix_above_fork hfinal (eq_false_of_ne_true hfork))
  rw [finalizeBlockAndInvalidate]
  rcases finalizeBlockInternal_cases n p with heq | ⟨heq, hfinal⟩ | ⟨heq, hmoves⟩
  · rw [heq]
    exact h
  · rw [heq]
    exact hrewind h hfinal
  · rw [heq]
    apply hrewind
    · apply h.setFinalized hmoves
      · intro hneg
        exact absurd (Or.inl hneg) hrefused
      · exact hp
    · exact suffix_refl p

end Invariant

/-- The operator does not invalidate a finalised block, and with `onlyActive` only finalises
blocks of the active chain. -/
def Allowed (onlyActive : Bool) (n : Node) : Action → Prop
  | .invalidate _ p => ¬p <:+ n.finalized
  | .finalize _ p => onlyActive = true → p <:+ n.tip
  | _ => True

lemma safe_fresh (cfg : Config) (onlyActive : Bool) : Safe cfg onlyActive Node.fresh := by
  constructor
  · simp [Node.fresh]
  · intro _
    rfl
  · intro _
    exact suffix_refl _
  · simp [Node.fresh]

lemma Safe.step {a : Action} (h : Safe cfg onlyActive n) (hallowed : Allowed onlyActive n a) :
    Safe cfg onlyActive (n.step cfg a) := by
  cases a with
  | headerArrives a => exact h.congr (SameChain.acceptBlockHeader cfg n a)
  | blockArrives a => exact h.congr (SameChain.acceptBlock cfg n a)
  | activate env parallel block => exact h.activateBestChain _ block
  | invalidFound p corruptionPossible =>
    exact h.congr (SameChain.invalidBlockFound n p corruptionPossible)
  | invalidate env p => exact h.invalidateBlock env hallowed
  | finalize env p => exact h.finalizeBlock env hallowed

lemma safe_of_reachable (h : Reachable cfg (Allowed onlyActive) n) : Safe cfg onlyActive n := by
  induction h with
  | fresh => exact safe_fresh cfg onlyActive
  | step reached ok ih => exact ih.step ok

/-- In every run the finalised block only moves to its own descendants and no
`ActivateBestChainStep` disconnects it; in a run in which only blocks of the active chain are
finalised on request it is also on the active chain, after each step and at any other time. -/
theorem finalized_not_reorganised (cfg : Config) :
    (∀ n, Reachable cfg (Allowed false) n → ∀ e ∈ n.log, Kept e) ∧
      ∀ n, Reachable cfg (Allowed true) n →
        n.finalized <:+ n.tip ∧ ∀ e ∈ n.log, Kept e ∧ OnChain e := by
  constructor
  · intro n h
    exact (safe_of_reachable h).kept
  · intro n h
    have hsafe := safe_of_reachable h
    refine ⟨hsafe.onChain rfl, ?_⟩
    intro e he
    exact ⟨hsafe.kept e he, hsafe.steps rfl e he⟩

def Node.run (cfg : Config) (actions : List Action) : Node :=
  actions.foldl (Node.step cfg) Node.fresh

/-- Actions that are allowed at any node make a run. -/
lemma reachable_run {allowed : Node → Action → Prop} (actions : List Action)
    (h : ∀ a ∈ actions, ∀ n, allowed n a) : Reachable cfg allowed (Node.run cfg actions) := by
  rw [Node.run]
  have hfresh : Reachable cfg allowed Node.fresh := Reachable.fresh
  generalize Node.fresh = n at hfresh ⊢
  induction actions generalizing n with
  | nil => exact hfresh
  | cons a actions ih =>
    apply ih
    · intro b hb
      exact h b (mem_cons_of_mem a hb)
    · exact hfresh.step (h a mem_cons_self n)

/-- Every block can be read and is valid, and nothing stops the node. -/
def smoothEnv : Env :=
  ⟨100, fun _ => .connected true, fun _ => .disconnected true, fun _ => false, fun _ => false, 5⟩

/-- Three blocks on top of each other. -/
def blockG : BlockIndex := [⟨0, 1⟩]
def blockA : BlockIndex := ⟨1, 1⟩ :: blockG
def blockB : BlockIndex := ⟨2, 1⟩ :: blockA

/-- A requested block that passes all checks. -/
def goodBlock (b : Header) (prev : BlockIndex) : Action :=
  .blockArrives ⟨b, prev, chainWork (b :: prev), 10, true, true, none, true, true⟩

def depthOne : Config := ⟨1, 0, 0, 1024, ⟨0, 1⟩⟩

def twoBlocks : List Action :=
  [goodBlock ⟨0, 1⟩ [], .activate smoothEnv false none,
    goodBlock ⟨1, 1⟩ blockG, .activate smoothEnv false none,
    goodBlock ⟨2, 1⟩ blockA, .activate smoothEnv false none]

lemma twoBlocks_allowed (onlyActive : Bool) : ∀ a ∈ twoBlocks, ∀ n, Allowed onlyActive n a := by
  simp [twoBlocks, goodBlock, Allowed]

theorem finalized_not_reorganised_twoBlocks :
    (Node.run depthOne twoBlocks).finalized = blockA ∧
      (∀ e ∈ (Node.run depthOne twoBlocks).log, Kept e) ∧
      (Node.run depthOne twoBlocks).finalized <:+ (Node.run depthOne twoBlocks).tip ∧
      ∀ e ∈ (Node.run depthOne twoBlocks).log, Kept e ∧ OnChain e := by
  have h := finalized_not_reorganised depthOne
  exact ⟨by decide +kernel, h.1 _ (reachable_run _ (twoBlocks_allowed false)),
    h.2 _ (reachable_run _ (twoBlocks_allowed true))⟩

/-- The same environment, but the node is told to shut down before it connects a block. -/
def stoppingEnv : Env := { smoothEnv with connect := fun _ => .shutdown }

def depthFive : Config := { depthOne with maxReorgDepth := 5 }

/-- The chain is reorganised from `blockA` to a block of more work; the operator finalises
`blockA`, which rewinds the chain to the genesis block; the step that should connect `blockA`
again fails. -/
def finalizeSideBranch : List Action :=
  [goodBlock ⟨0, 1⟩ [], .activate smoothEnv false none,
    goodBlock ⟨1, 1⟩ blockG, .activate smoothEnv false none,
    goodBlock ⟨3, 2⟩ blockG, .activate smoothEnv false none,
    .finalize smoothEnv blockA, .activate stoppingEnv false none]

/-- After a block of a side branch is finalised on request, a failing step ends with the finalised
block off the active chain. -/
theorem stepDone_finalizeSideBranch :
    Reachable depthFive (Allowed false) (Node.run depthFive finalizeSideBranch) ∧
      ChainEvent.stepDone blockG blockA ∈ (Node.run depthFive finalizeSideBranch).log ∧
      ¬blockA <:+ blockG := by
  refine ⟨reachable_run _ ?_, by decide +kernel, by decide⟩
  simp [finalizeSideBranch, goodBlock, Allowed]

end PyrrhaNode.Finality
