import PyrrhaNode.ChainSelection

/-!
# Invalidating and reconsidering blocks

`InvalidateBlock` takes a block off the active chain and marks it and everything above it as
failed; `ReconsiderBlock` removes the marks of a block, of everything above it and of its
ancestors.  The operator's requests are compared with a plain set of invalidated blocks: a block
should carry a mark exactly when it or one of its ancestors is in this set.

Invalidating always keeps the two in step.  Reconsidering does not: it forgets the invalidated
ancestors of the block, but leaves their marks on the other branches, and it makes the ancestors
valid again without offering them as candidates.
-/
namespace PyrrhaNode.Reconsider

open List BlockTree ChainActivation ChainActivation.Node ChainSelection Finality

/-- Takes the bits of `BLOCK_FAILED_MASK` away. -/
def clearFailed (s : Status) : Status := { s with failedValid := false, failedChild := false }

/-- The loop body for one entry of `mapBlockIndex`. -/
def reconsiderEntry (b : BlockIndex) (n : Node) (p : BlockIndex) : Node :=
  if (n.status p).isValid validTransactions = false ∧ getAncestor p (height b) = b then
    let n := n.mark p clearFailed
    if (n.status p).isValid validTransactions && (n.status p).linked && n.worse n.tip p then
      n.insertCandidate p
    else n
  else n

def clearAncestors : BlockIndex → Node → Node
  | [], n => n
  | b :: p, n =>
    clearAncestors p
      (if (n.status (b :: p)).failed then n.mark (b :: p) clearFailed else n)

def reconsiderBlock (n : Node) (b : BlockIndex) : Node :=
  clearAncestors b (n.index.foldl (reconsiderEntry b) n)

/-- A request of the operator. -/
inductive Request
  | invalidate (env : Env) (b : BlockIndex)
  | reconsider (b : BlockIndex)

/-- A node and the blocks that the operator has invalidated. -/
structure Ledger where
  node : Node
  invalidated : List BlockIndex

/-- One of the blocks is an ancestor of the other, or they are the same. -/
def Related (p q : BlockIndex) : Prop := p <:+ q ∨ q <:+ p

instance (p q : BlockIndex) : Decidable (Related p q) := inferInstanceAs (Decidable (_ ∨ _))

def Ledger.serve (s : Ledger) : Request → Ledger
  | .invalidate env b => ⟨s.node.invalidateBlock env b, b :: s.invalidated⟩
  | .reconsider b => ⟨reconsiderBlock s.node b, s.invalidated.filter fun a => ¬ Related a b⟩

/-- The block or one of its ancestors is invalidated. -/
def Ledger.Covers (s : Ledger) (p : BlockIndex) : Prop := ∃ a ∈ s.invalidated, a <:+ p

/-- The marks are those of the invalidated blocks and everything above them. -/
def MarksRight (s : Ledger) : Prop :=
  ∀ p ∈ s.node.index, (s.node.status p).failed = true ↔ s.Covers p

/-- The linked, transaction-valid blocks from `b` on that sort better than the tip are
candidates. -/
def Offered (n : Node) (b : BlockIndex) : Prop :=
  ∀ p ∈ n.index, b <:+ p → (n.status p).linked = true →
    (n.status p).isValid validTransactions = true → n.worse n.tip p = true → p ∈ n.candidates

/-- The request is served as it should be. -/
def Keeps (s : Ledger) : Request → Prop
  | .invalidate env b => MarksRight (s.serve (.invalidate env b))
  | .reconsider b =>
    MarksRight (s.serve (.reconsider b)) ∧ Offered (s.serve (.reconsider b)).node b

/-- A block tree with all its data, whose tip and candidates are blocks of it, without a finalised
block. -/
structure Intact (n : Node) : Prop where
  ne_nil : ∀ p ∈ n.index, p ≠ []
  closed : ∀ p ∈ n.index, p.tail = [] ∨ p.tail ∈ n.index
  data : ∀ p ∈ n.index, (n.status p).haveData = true
  tip : n.tip ∈ n.index
  candidates : ∀ p ∈ n.candidates, p ∈ n.index
  finalized : n.finalized = []

/-- Requests are for blocks other than the genesis block, and the blocks of the active chain can be
disconnected. -/
def Allowed (s : Ledger) : Request → Prop
  | .invalidate env b =>
    b ∈ s.node.index ∧ b.tail ≠ [] ∧ ∀ k, env.disconnect k = .disconnected true
  | .reconsider b => b ∈ s.node.index ∧ b.tail ≠ []

/-- The condition under which reconsidering a block goes well.

* A marked block on another branch is above an invalidated block that is no ancestor of `b`;
* the blocks from `b` on that are valid already are candidates, where they should be. -/
def Meets (s : Ledger) : Request → Prop
  | .invalidate _ _ => True
  | .reconsider b =>
    (∀ p ∈ s.node.index, ¬ Related p b → s.Covers p →
      ∃ a ∈ s.invalidated, a <:+ p ∧ ¬ a <:+ b) ∧ Offered s.node b

/-- The states of the runs in which every request meets the condition. -/
inductive CleanRun : Ledger → Prop
  | start {n : Node} (intact : Intact n) (unmarked : ∀ p ∈ n.index, (n.status p).failed = false) :
      CleanRun ⟨n, []⟩
  | serve {s : Ledger} {r : Request} (run : CleanRun s) (allowed : Allowed s r)
      (meets : Meets s r) : CleanRun (s.serve r)

@[simp] lemma failed_clearFailed (s : Status) : (clearFailed s).failed = false := rfl

@[simp] lemma clearFailed_clearFailed (s : Status) : clearFailed (clearFailed s) = clearFailed s :=
  rfl

lemma clearFailed_of_unfailed {s : Status} (h : s.failed = false) : clearFailed s = s := by
  simp only [Status.failed] at h
  cases s
  simp_all [clearFailed]

lemma unfailed_of_isValid {s : Status} {upTo : ℕ} (h : s.isValid upTo = true) :
    s.failed = false := by
  simp only [Status.isValid, Bool.and_eq_true, Bool.not_eq_true'] at h
  exact h.1

section Clearing
variable (b : BlockIndex)

/-- What the loop over the entries of `l` does. -/
structure Cleared (l : List BlockIndex) (n m : Node) : Prop where
  chain : SameChain n m
  index : m.index = n.index
  status : ∀ q, m.status q =
    if q ∈ l ∧ b <:+ q then clearFailed (n.status q) else n.status q
  candidates : ∀ q, q ∈ m.candidates ↔ q ∈ n.candidates ∨
    (q ∈ l ∧ b <:+ q ∧ (n.status q).isValid validTransactions = false ∧
      (clearFailed (n.status q)).isValid validTransactions = true ∧
      (n.status q).linked = true ∧ n.worse n.tip q = true)

lemma mem_insertCandidate_iff (n : Node) (p q : BlockIndex) :
    q ∈ (n.insertCandidate p).candidates ↔ q = p ∨ q ∈ n.candidates := by
  rw [insertCandidate]
  split_ifs with hmem
  · refine ⟨.inr, ?_⟩
    rintro (rfl | h)
    · exact hmem
    · exact h
  · exact mem_cons

lemma insertCandidate_eq (n : Node) (p : BlockIndex) :
    n.insertCandidate p = { n with candidates := (n.insertCandidate p).candidates } := by
  rw [insertCandidate]
  split_ifs <;> rfl

lemma worse_mark_clearFailed (n : Node) (p : BlockIndex) :
    (n.mark p clearFailed).worse = n.worse := by
  apply worse_congr
  intro c
  by_cases hc : c = p
  · simp [mark, hc, clearFailed]
  · simp [mark, hc]

lemma cleared_entry (n : Node) (p : BlockIndex) : Cleared b [p] n (reconsiderEntry b n p) := by
  rw [reconsiderEntry]
  by_cases hp : (n.status p).isValid validTransactions = false ∧ b <:+ p
  · rw [if_pos ⟨hp.1, getAncestor_height_eq_iff.mpr hp.2⟩]
    have hself : (n.mark p clearFailed).status p = clearFailed (n.status p) := by
      simp [mark]
    have hother : ∀ q, q ≠ p → (n.mark p clearFailed).status q = n.status q := by
      intro q hq
      simp [mark, hq]
    have hstatus : ∀ q, (n.mark p clearFailed).status q =
        if q ∈ [p] ∧ b <:+ q then clearFailed (n.status q) else n.status q := by
      intro q
      by_cases hq : q = p
      · rw [hq, hself, if_pos ⟨by simp, hp.2⟩]
      · rw [hother q hq, if_neg (by simp [hq])]
    have htip : (n.mark p clearFailed).tip = n.tip := rfl
    simp only [hself, worse_mark_clearFailed, htip]
    by_cases hinsert : ((clearFailed (n.status p)).isValid validTransactions &&
        (clearFailed (n.status p)).linked && n.worse n.tip p) = true
    · have hcond := hinsert
      simp only [Bool.and_eq_true] at hcond
      rw [if_pos hinsert]
      refine ⟨(SameChain.mark n p _).trans (SameChain.insertCandidate _ p), ?_, ?_, ?_⟩
      · rw [insertCandidate_eq]
        rfl
      · rw [insertCandidate_eq]
        exact hstatus
      · intro q
        rw [mem_insertCandidate_iff]
        constructor
        · rintro (rfl | hq)
          · exact .inr ⟨by simp, hp.2, hp.1, hcond.1.1, hcond.1.2, hcond.2⟩
          · exact .inl hq
        · rintro (hq | ⟨hq, -⟩)
          · exact .inr hq
          · exact .inl (mem_singleton.mp hq)
    · rw [if_neg hinsert]
      refine ⟨SameChain.mark n p _, rfl, hstatus, fun q => ⟨.inl, ?_⟩⟩
      rintro (hq | ⟨hq, -, -, hvalid, hlinked, hworse⟩)
      · exact hq
      · obtain rfl := mem_singleton.mp hq
        refine absurd ?_ hinsert
        simp only [Bool.and_eq_true]
        exact ⟨⟨hvalid, hlinked⟩, hworse⟩
  · rw [if_neg fun hcond => hp ⟨hcond.1, getAncestor_height_eq_iff.mp hcond.2⟩]
    refine ⟨SameChain.refl n, rfl, ?_, fun q => ⟨.inl, ?_⟩⟩
    · intro q
      split_ifs with hq
      · obtain ⟨hmem, hsuffix⟩ := hq
        obtain rfl := mem_singleton.mp hmem
        have hvalid := eq_true_of_ne_false fun hno => hp ⟨hno, hsuffix⟩
        rw [clearFailed_of_unfailed (unfailed_of_isValid hvalid)]
      · rfl
    · rintro (hq | ⟨hq, hsuffix, hinvalid, -⟩)
      · exact hq
      · obtain rfl := mem_singleton.mp hq
        exact absurd ⟨hinvalid, hsuffix⟩ hp

lemma Cleared.cons {b p : BlockIndex} {l : List BlockIndex} {n m k : Node} (h : Cleared b [p] n m)
    (h' : Cleared b l m k) : Cleared b (p :: l) n k := by
  have hworse : m.worse = n.worse := by
    apply worse_congr
    intro c
    rw [h.status]
    split_ifs <;> rfl
  refine ⟨h.chain.trans h'.chain, h'.index.trans h.index, ?_, ?_⟩
  · intro q
    rw [h'.status, h.status]
    by_cases hq : b <:+ q
    · by_cases hqp : q ∈ [p] <;> by_cases hql : q ∈ l <;>
        simp_all
    · simp [hq]
  · intro q
    rw [h'.candidates, h.candidates, h.status, hworse, h.chain.tip]
    by_cases hqp : q = p
    · -- a second visit finds nothing to do
      by_cases hq : b <:+ q
      · rw [if_pos ⟨by simp [hqp], hq⟩]
        constructor
        · rintro ((hold | hnew) | ⟨-, -, hno, hyes, -⟩)
          · exact .inl hold
          · exact .inr ⟨by simp [hqp], hnew.2⟩
          · rw [clearFailed_clearFailed, hno] at hyes
            cases hyes
        · rintro (hold | hnew)
          · exact .inl (.inl hold)
          · exact .inl (.inr ⟨by simp [hqp], hnew.2⟩)
      · simp [hq]
    · simp [hqp]

lemma cleared_foldl (l : List BlockIndex) (n : Node) :
    Cleared b l n (l.foldl (reconsiderEntry b) n) := by
  induction l generalizing n with
  | nil => exact ⟨SameChain.refl n, rfl, by simp, by simp⟩
  | cons p l ih => exact (cleared_entry b n p).cons (ih _)

end Clearing

lemma clearAncestors_spec (b : BlockIndex) (n : Node) :
    (clearAncestors b n).index = n.index ∧ (clearAncestors b n).candidates = n.candidates ∧
      SameChain n (clearAncestors b n) ∧
      ∀ q, (clearAncestors b n).status q =
        if q <:+ b ∧ q ≠ [] then clearFailed (n.status q) else n.status q := by
  induction b generalizing n with
  | nil =>
    refine ⟨rfl, rfl, SameChain.refl n, fun q => (if_neg ?_).symm⟩
    rintro ⟨hq, hne⟩
    exact hne (suffix_nil.mp hq)
  | cons c p ih =>
    have hmark : (if (n.status (c :: p)).failed then n.mark (c :: p) clearFailed else n) =
        n.mark (c :: p) clearFailed := by
      split_ifs with hfailed
      · rfl
      · simp only [mark, clearFailed_of_unfailed (eq_false_of_ne_true hfailed),
          Function.update_eq_self]
    rw [clearAncestors, hmark]
    obtain ⟨hindex, hcandidates, hchain, hstatus⟩ := ih (n.mark (c :: p) clearFailed)
    refine ⟨hindex, hcandidates, (SameChain.mark n _ _).trans hchain, fun q => ?_⟩
    rw [hstatus]
    by_cases hq : q = c :: p
    · subst hq
      simp [mark]
    · simp [mark, hq, suffix_cons_iff]

lemma reconsiderBlock_spec (n : Node) (b : BlockIndex) :
    (reconsiderBlock n b).index = n.index ∧ SameChain n (reconsiderBlock n b) ∧
      (∀ q, (reconsiderBlock n b).status q =
        if (q ∈ n.index ∧ b <:+ q) ∨ (q <:+ b ∧ q ≠ []) then clearFailed (n.status q)
        else n.status q) ∧
      ∀ q, q ∈ (reconsiderBlock n b).candidates ↔ q ∈ n.candidates ∨
        (q ∈ n.index ∧ b <:+ q ∧ (n.status q).isValid validTransactions = false ∧
          (clearFailed (n.status q)).isValid validTransactions = true ∧
          (n.status q).linked = true ∧ n.worse n.tip q = true) := by
  obtain ⟨hindex, hcandidates, hchain, hstatus⟩ :=
    clearAncestors_spec b (n.index.foldl (reconsiderEntry b) n)
  have hloop := cleared_foldl b n.index n
  refine ⟨hindex.trans hloop.index, hloop.chain.trans hchain, fun q => ?_, fun q => ?_⟩
  · rw [reconsiderBlock, hstatus, hloop.status]
    by_cases habove : q ∈ n.index ∧ b <:+ q <;> by_cases hbelow : q <:+ b ∧ q ≠ [] <;>
      simp [habove]
  · rw [reconsiderBlock, hcandidates]
    exact hloop.candidates q

/-- The blocks in `A` get a mark, and nothing else of the index changes. -/
structure Marks (A : BlockIndex → Prop) (n m : Node) : Prop where
  index : m.index = n.index
  finalized : m.finalized = n.finalized
  kept : ∀ q, clearFailed (m.status q) = clearFailed (n.status q)
  failed : ∀ q, (m.status q).failed = true ↔ (n.status q).failed = true ∨ A q

namespace Marks
variable {A B : BlockIndex → Prop} {n m k : Node}

lemma of_status_eq (hindex : m.index = n.index) (hfinal : m.finalized = n.finalized)
    (hstatus : m.status = n.status) : Marks (fun _ => False) n m :=
  ⟨hindex, hfinal, fun q => by rw [hstatus], fun q => by simp [hstatus]⟩

lemma trans (h : Marks A n m) (h' : Marks B m k) : Marks (fun q => A q ∨ B q) n k :=
  ⟨h'.index.trans h.index, h'.finalized.trans h.finalized,
    fun q => (h'.kept q).trans (h.kept q), fun q => by rw [h'.failed, h.failed, or_assoc]⟩

lemma congr (h : Marks A n m) (hAB : ∀ q, A q ↔ B q) : Marks B n m :=
  ⟨h.index, h.finalized, h.kept, fun q => by rw [h.failed, hAB]⟩

lemma mark (n : Node) (p : BlockIndex) {f : Status → Status}
    (hkept : ∀ s, clearFailed (f s) = clearFailed s) (hfailed : ∀ s, (f s).failed = true) :
    Marks (· = p) n (n.mark p f) := by
  refine ⟨rfl, rfl, fun q => ?_, fun q => ?_⟩
  · by_cases hq : q = p
    · simp [Node.mark, hq, hkept]
    · simp [Node.mark, hq]
  · by_cases hq : q = p
    · simp [Node.mark, hq, hfailed]
    · simp [Node.mark, hq]

lemma foldl {β : Type*} {C : β → BlockIndex → Prop} {f : Node → β → Node}
    (hf : ∀ n x, Marks (C x) n (f n x)) (l : List β) (n : Node) :
    Marks (fun q => ∃ x ∈ l, C x q) n (l.foldl f n) := by
  induction l generalizing n with
  | nil => exact (of_status_eq rfl rfl rfl).congr (by simp)
  | cons x l ih => exact ((hf n x).trans (ih _)).congr (by simp)

lemma haveData (h : Marks A n m) (q : BlockIndex) :
    (m.status q).haveData = (n.status q).haveData := by
  change (clearFailed (m.status q)).haveData = _
  rw [h.kept]
  rfl

end Marks

variable {n : Node} {env : Env}

lemma disconnectTip_eq (henv : ∀ k, env.disconnect k = .disconnected true)
    (hfinal : n.finalized = []) (htip : n.tip ≠ []) (caller : Caller) :
    n.disconnectTip caller env =
      ((n.tick.record (.disconnected caller n.tip n.finalized)).updateTip n.tip.tail, true) := by
  have hkeep : (n.tick.record (.disconnected caller n.tip n.finalized)).undoFinalized =
      n.tick.record (.disconnected caller n.tip n.finalized) := by
    refine if_neg ?_
    intro heq
    exact htip (heq.symm.trans hfinal)
  rw [disconnectTip, henv]
  simp only [hkeep]

variable {b q : BlockIndex} {s : Ledger}

/-- The blocks of the active chain from `b` on are marked and disconnected. -/
lemma disconnectWhile_marks (henv : ∀ k, env.disconnect k = .disconnected true) (hb : b ≠ [])
    (fuel : ℕ) (n : Node) (hfinal : n.finalized = []) (hfuel : n.tip.length < fuel + b.length) :
    ∃ m, disconnectWhile env b fuel n = (m, true) ∧
      Marks (fun q => b <:+ q ∧ q <:+ n.tip) n m ∧
      (b <:+ n.tip ∧ m.tip = b.tail ∨ ¬ b <:+ n.tip ∧ m.tip = n.tip) ∧
      ∀ q ∈ m.candidates, q ∈ n.candidates := by
  induction fuel generalizing n with
  | zero =>
    have hoff : ¬ b <:+ n.tip := fun h => by
      have := h.length_le
      omega
    refine ⟨n, rfl, (Marks.of_status_eq rfl rfl rfl).congr fun q => ?_, .inr ⟨hoff, rfl⟩,
      fun _ hq => hq⟩
    exact ⟨False.elim, fun hq => hoff (hq.1.trans hq.2)⟩
  | succ fuel ih =>
    rw [disconnectWhile]
    by_cases hon : b <:+ n.tip
    · have htip : n.tip ≠ [] := fun hnil => hb (suffix_nil.mp (hnil ▸ hon))
      obtain ⟨c, p, hcp⟩ := exists_cons_of_ne_nil htip
      rw [if_pos (by simp [Node.contains, hb, hon])]
      have hdown := disconnectTip_eq henv
        (n := (n.mark n.tip fun s => { s with failedChild := true }).eraseCandidate n.tip)
        hfinal htip .invalidateBlock
      simp only [hdown]
      have hmark : Marks (· = n.tip) n
          (((n.mark n.tip fun s => { s with failedChild := true }).eraseCandidate
            n.tip).tick.record (.disconnected .invalidateBlock n.tip n.finalized) |>.updateTip
              n.tip.tail) := by
        have h := Marks.mark n n.tip (f := fun s => { s with failedChild := true })
          (fun _ => rfl) (fun s => by simp [Status.failed])
        exact ⟨h.index, h.finalized, h.kept, h.failed⟩
      obtain ⟨m, heq, hmarks, hend, hsub⟩ := ih
        (((n.mark n.tip fun s => { s with failedChild := true }).eraseCandidate
            n.tip).tick.record (.disconnected .invalidateBlock n.tip n.finalized) |>.updateTip
              n.tip.tail) hfinal (by
          change n.tip.tail.length < fuel + b.length
          rw [hcp] at hfuel ⊢
          simp only [tail_cons, length_cons] at hfuel ⊢
          omega)
      change b <:+ n.tip.tail ∧ m.tip = b.tail ∨ ¬ b <:+ n.tip.tail ∧ m.tip = n.tip.tail at hend
      refine ⟨m, heq, (hmark.trans hmarks).congr fun q => ?_, .inl ⟨hon, ?_⟩, fun q hq => ?_⟩
      · rw [hcp] at hon ⊢
        rw [suffix_cons_iff]
        constructor
        · rintro (rfl | ⟨habove, hbelow⟩)
          · exact ⟨hon, .inl rfl⟩
          · exact ⟨habove, .inr hbelow⟩
        · rintro ⟨habove, rfl | hbelow⟩
          · exact .inl rfl
          · exact .inr ⟨habove, hbelow⟩
      · rcases hend with ⟨-, htail⟩ | ⟨hno, htail⟩
        · exact htail
        · have hself : b = n.tip := by
            by_contra hne
            exact hno (suffix_tail hon hne)
          rw [htail, hself]
      · exact mem_of_mem_filter (hsub q hq)
    · rw [if_neg (by simp [Node.contains, hon])]
      refine ⟨n, rfl, (Marks.of_status_eq rfl rfl rfl).congr fun q => ?_, .inr ⟨hon, rfl⟩,
        fun _ hq => hq⟩
      exact ⟨False.elim, fun hq => hon (hq.1.trans hq.2)⟩

lemma mem_foldl_candidates {f : Node → BlockIndex → Node}
    (hf : ∀ n p q, q ∈ (f n p).candidates → q ∈ n.candidates ∨ q = p) (l : List BlockIndex)
    (n : Node) (hq : q ∈ (l.foldl f n).candidates) :
    q ∈ n.candidates ∨ q ∈ l := by
  induction l generalizing n with
  | nil => exact .inl hq
  | cons p l ih =>
    rcases ih (f n p) hq with hq | hq
    · rcases hf n p q hq with hq | rfl
      · exact .inl hq
      · exact .inr mem_cons_self
    · exact .inr (mem_cons_of_mem _ hq)

lemma restoreCandidates_marks (n : Node) :
    Marks (fun _ => False) n n.restoreCandidates ∧
      ∀ q ∈ n.restoreCandidates.candidates, q ∈ n.candidates ∨ q ∈ n.index := by
  refine ⟨(Marks.foldl (C := fun _ _ => False) (fun k p => ?_) n.index n).congr (by simp),
    fun q hq => mem_foldl_candidates (fun k p q hq => ?_) n.index n hq⟩
  · split_ifs
    · rw [insertCandidate_eq]
      exact Marks.of_status_eq rfl rfl rfl
    · exact Marks.of_status_eq rfl rfl rfl
  · split_ifs at hq
    · exact ((mem_insertCandidate_iff k p q).mp hq).symm
    · exact .inl hq

lemma markDown_marks {p : BlockIndex} (h : b <:+ p) (n : Node) :
    Marks (fun q => q <:+ p ∧ b <:+ q ∧ q ≠ b) n (markDown b p n) := by
  induction p generalizing n with
  | nil =>
    refine (Marks.of_status_eq rfl rfl rfl).congr fun q => ⟨False.elim, ?_⟩
    rintro ⟨hq, -, hne⟩
    exact hne ((suffix_nil.mp hq).trans (suffix_nil.mp h).symm)
  | cons c p ih =>
    rw [markDown]
    by_cases hself : c :: p = b
    · rw [if_pos hself]
      refine (Marks.of_status_eq rfl rfl rfl).congr fun q => ⟨False.elim, ?_⟩
      rintro ⟨hbelow, habove, hne⟩
      rw [hself] at hbelow
      exact hne (hbelow.eq_of_length (Nat.le_antisymm hbelow.length_le habove.length_le))
    · rw [if_neg hself]
      have hrest := (suffix_cons_iff.mp h).resolve_left (Ne.symm hself)
      have hmark := Marks.mark n (c :: p)
        (f := fun s => { s with failedValid := true, failedChild := true })
        (fun _ => rfl) (fun _ => by simp [Status.failed])
      refine (hmark.trans (ih hrest _)).congr fun q => ?_
      rw [suffix_cons_iff]
      constructor
      · rintro (rfl | ⟨hbelow, habove⟩)
        · exact ⟨.inl rfl, h, hself⟩
        · exact ⟨.inr hbelow, habove⟩
      · rintro ⟨rfl | hbelow, habove⟩
        · exact .inl rfl
        · exact .inr ⟨hbelow, habove⟩

lemma markAll_marks (hfailed : (n.status b).failed = true) :
    Marks (fun q => ∃ tip ∈ n.chainTips, q <:+ tip ∧ b <:+ q ∧ q ≠ b) n
      (n.markAllContainingChainsInvalid b) := by
  rw [markAllContainingChainsInvalid, if_pos hfailed]
  refine Marks.foldl (fun n tip => ?_) n.chainTips n
  by_cases hon : b <:+ tip
  · rw [if_pos (getAncestor_height_eq_iff.mpr hon)]
    exact markDown_marks hon n
  · rw [if_neg (mt getAncestor_height_eq_iff.mp hon)]
    refine (Marks.of_status_eq rfl rfl rfl).congr fun q => ⟨False.elim, ?_⟩
    rintro ⟨hbelow, habove, -⟩
    exact hon (habove.trans hbelow)

lemma markDown_candidates (b p : BlockIndex) (n : Node) :
    (markDown b p n).candidates = n.candidates := by
  induction p generalizing n with
  | nil => rfl
  | cons c p ih =>
    rw [markDown]
    split_ifs
    · rfl
    · exact ih _

lemma markAll_candidates (n : Node) (b : BlockIndex) :
    (n.markAllContainingChainsInvalid b).candidates = n.candidates := by
  rw [markAllContainingChainsInvalid]
  split_ifs
  · refine foldlRecOn (motive := fun k : Node => k.candidates = n.candidates) n.chainTips _ rfl
      fun k hk tip _ => ?_
    split_ifs
    · exact (markDown_candidates b tip k).trans hk
    · exact hk
  · rfl

/-- A block off the active chain is below the end of a branch. -/
lemma exists_chainTip (hne : ∀ p ∈ n.index, p ≠ []) (hq : q ∈ n.index)
    (hoff : n.contains q = false) : ∃ tip ∈ n.chainTips, q <:+ tip := by
  -- the longest block above `q` has no block on top
  have hself : q ∈ (n.index.filter fun p => !n.contains p && decide (q <:+ p)).toFinset := by
    simp [hq, hoff]
  obtain ⟨tip, htip, hmax⟩ := Finset.exists_max_image _ List.length ⟨q, hself⟩
  simp only [mem_toFinset, mem_filter, Bool.and_eq_true, Bool.not_eq_true',
    decide_eq_true_eq] at htip hmax
  refine ⟨tip, mem_cons_of_mem _ (mem_filter.mpr ⟨?_, ?_⟩), htip.2.2⟩
  · exact mem_filter.mpr ⟨htip.1, by simp [htip.2.1]⟩
  · rw [decide_eq_true_eq]
    intro hmem
    obtain ⟨child, hchild, htail⟩ := mem_map.mp hmem
    rw [mem_filter, Bool.not_eq_true'] at hchild
    obtain ⟨c, p, rfl⟩ := exists_cons_of_ne_nil (hne child hchild.1)
    rw [tail_cons] at htail
    have hlong := hmax (c :: p)
      ⟨hchild.1, hchild.2, (htail ▸ htip.2.2).trans (suffix_cons c p)⟩
    rw [← htail, length_cons] at hlong
    omega

/-- Where the marks reach upwards and all data is there, the selection only takes marked
candidates out. -/
lemma findMostWorkLoop_marks (fuel : ℕ) (n : Node) (hfinal : n.finalized = [])
    (hclean : ∀ p ∈ n.candidates, (n.status p).failed = false → ∀ a, a <:+ p → a ≠ [] →
      (n.status a).failed = false ∧ (n.status a).haveData = true) :
    Marks (fun _ => False) n (findMostWorkLoop fuel n).1 ∧
      ∀ q ∈ (findMostWorkLoop fuel n).1.candidates, q ∈ n.candidates := by
  induction fuel generalizing n with
  | zero => exact ⟨Marks.of_status_eq rfl rfl rfl, fun q hq => hq⟩
  | succ fuel ih =>
    rw [findMostWorkLoop]
    cases hbest : n.bestOf n.candidates with
    | none => exact ⟨Marks.of_status_eq rfl rfl rfl, fun q hq => hq⟩
    | some p =>
      simp only
      rw [rejectUnfinalized_of_onFork (.inl hfinal), (walkToActive_flags n p).2]
      by_cases hgood : fate n p = .good
      · rw [if_neg (by simp [hgood])]
        exact ⟨Marks.of_status_eq rfl rfl rfl, fun q hq => hq⟩
      have hfailed : (n.status p).failed = true := by
        by_contra hno
        refine hgood ((fate_eq_good_iff n p).mpr fun a ha hne _ => ?_)
        exact hclean p (mem_of_bestOf hbest) (eq_false_of_ne_true hno) a ha hne
      -- the walk stops at the candidate itself
      have hstop : rejectChain (n.walkToActive p).2.1 (n.walkToActive p).1 p n =
          n.eraseCandidate p := by
        cases p with
        | nil => exact absurd rfl hgood
        | cons c p =>
          have hwalk : (n.walkToActive (c :: p)).1 = c :: p := by
            simp only [walkToActive, hfailed, Bool.true_or]
            split_ifs <;> rfl
          rw [hwalk, rejectChain, if_pos rfl]
      rw [if_pos (by simp [hgood]), hstop]
      obtain ⟨hmarks, hsub⟩ := ih (n.eraseCandidate p) hfinal
        fun q hq => hclean q (mem_of_mem_filter hq)
      have herase : Marks (fun _ => False) n (n.eraseCandidate p) :=
        Marks.of_status_eq rfl rfl rfl
      exact ⟨(herase.trans hmarks).congr (by simp),
        fun q hq => mem_of_mem_filter (hsub q hq)⟩

/-- A block of the tree is marked with each of its ancestors. -/
def Spread (n : Node) : Prop :=
  ∀ p ∈ n.index, ∀ a, a <:+ p → a ≠ [] → (n.status a).failed = true → (n.status p).failed = true

section Invalidate
variable {n : Node} {env : Env} {b : BlockIndex}

/-- What is marked when the candidates are looked at again. -/
lemma Intact.marked (h : Intact n) (hb : b ∈ n.index) (hroot : b.tail ≠ [])
    (henv : ∀ k, env.disconnect k = .disconnected true) :
    ∃ k, n.invalidateBlock env b = k.findMostWorkChain.1 ∧ Intact k ∧ k.index = n.index ∧
      ∀ p ∈ n.index, (k.status p).failed = true ↔ (n.status p).failed = true ∨ b <:+ p := by
  have hbne := h.ne_nil b hb
  have hmark := Marks.mark n b (f := fun s => { s with failedValid := true })
    (fun _ => rfl) (fun s => by simp [Status.failed])
  have hfirst : Marks (· = b) n
      ((n.mark b fun s => { s with failedValid := true }).eraseCandidate b) :=
    ⟨hmark.index, hmark.finalized, hmark.kept, hmark.failed⟩
  obtain ⟨m, hdown, hdisconnected, hend, hsub⟩ := disconnectWhile_marks henv hbne n.tip.length
    ((n.mark b fun s => { s with failedValid := true }).eraseCandidate b) h.finalized
    (by
      have := length_pos_iff.mpr hbne
      change n.tip.length < _
      omega)
  obtain ⟨hrestored, hrestoredSub⟩ := restoreCandidates_marks m
  have htip : m.restoreCandidates.tip = m.tip := (SameChain.restoreCandidates m).tip
  have hsofar := (hfirst.trans hdisconnected).trans hrestored
  have hbfailed : (m.restoreCandidates.status b).failed = true :=
    (hsofar.failed b).mpr (.inr (.inl (.inl rfl)))
  have hall := hsofar.trans (markAll_marks hbfailed)
  refine ⟨m.restoreCandidates.markAllContainingChainsInvalid b, ?_, ?_, hall.index, ?_⟩
  · simp only [invalidateBlock, hdown]
  · refine ⟨?_, ?_, ?_, ?_, ?_, hall.finalized.trans h.finalized⟩
    · rw [hall.index]
      exact h.ne_nil
    · rw [hall.index]
      exact h.closed
    · intro p hp
      rw [hall.index] at hp
      rw [hall.haveData]
      exact h.data p hp
    · rw [hall.index, (SameChain.markAllContainingChainsInvalid _ b).tip, htip]
      rcases hend with ⟨-, heq⟩ | ⟨-, heq⟩
      · rw [heq]
        exact (h.closed b hb).resolve_left hroot
      · rw [heq]
        exact h.tip
    · intro p hp
      rw [markAll_candidates] at hp
      rw [hall.index]
      rcases hrestoredSub p hp with hp | hp
      · exact h.candidates p (mem_of_mem_filter (hsub p hp))
      · rwa [(hfirst.trans hdisconnected).index] at hp
  · intro p hp
    rw [hall.failed]
    constructor
    · rintro (hold | ((rfl | ⟨habove, -⟩) | hno) | ⟨tip, -, -, habove, -⟩)
      · exact .inl hold
      · exact .inr (suffix_refl _)
      · exact .inr habove
      · exact hno.elim
      · exact .inr habove
    · rintro (hold | habove)
      · exact .inl hold
      · by_cases heq : p = b
        · exact .inr (.inl (.inl (.inl heq)))
        -- the active chain ends below `b`, so `p` is on another branch
        have hoff : m.restoreCandidates.contains p = false := by
          have hno : ¬ p <:+ m.tip := by
            intro hon
            have hbon := habove.trans hon
            rcases hend with ⟨-, htail⟩ | ⟨hnot, htail⟩
            · rw [htail] at hbon
              have hlong := hbon.length_le
              have hpos := length_pos_iff.mpr hbne
              rw [length_tail] at hlong
              omega
            · rw [htail] at hbon
              exact hnot hbon
          simp [Node.contains, htip, hno]
        obtain ⟨tip, hmem, hbelow⟩ := exists_chainTip
          (by rw [hsofar.index]; exact h.ne_nil) (by rw [hsofar.index]; exact hp) hoff
        exact .inr (.inr ⟨tip, hmem, hbelow, habove, heq⟩)

/-- Invalidating a block marks it and everything above it. -/
lemma Intact.invalidateBlock (h : Intact n) (hspread : Spread n) (hb : b ∈ n.index)
    (hroot : b.tail ≠ []) (henv : ∀ k, env.disconnect k = .disconnected true) :
    Intact (n.invalidateBlock env b) ∧ (n.invalidateBlock env b).index = n.index ∧
      ∀ p ∈ n.index, ((n.invalidateBlock env b).status p).failed = true ↔
        (n.status p).failed = true ∨ b <:+ p := by
  obtain ⟨k, heq, hk, hindex, hfailed⟩ := h.marked hb hroot henv
  rw [heq]
  have hclean : ∀ p ∈ k.candidates, (k.status p).failed = false → ∀ a, a <:+ p → a ≠ [] →
      (k.status a).failed = false ∧ (k.status a).haveData = true := by
    intro p hp hno a ha hne
    have hpk := hk.candidates p hp
    have hak := mem_of_suffix hk.closed hpk ha hne
    refine ⟨?_, hk.data a hak⟩
    by_contra hyes
    rw [hindex] at hpk hak
    have hup : (k.status p).failed = true := by
      refine (hfailed p hpk).mpr ?_
      rcases (hfailed a hak).mp (eq_true_of_ne_false hyes) with hold | habove
      · exact .inl (hspread p hpk a ha hne hold)
      · exact .inr (habove.trans ha)
    rw [hup] at hno
    cases hno
  obtain ⟨hmarks, hsub⟩ := findMostWorkLoop_marks (k.candidates.length + 1) k hk.finalized hclean
  have hchain := SameChain.findMostWorkChain k
  have hsame : k.findMostWorkChain.1.index = n.index := hmarks.index.trans hindex
  refine ⟨⟨?_, ?_, ?_, ?_, ?_, hchain.finalized.trans hk.finalized⟩, hsame, fun p hp => ?_⟩
  · rw [hsame]
    exact h.ne_nil
  · rw [hsame]
    exact h.closed
  · intro p hp
    rw [hsame] at hp
    exact (hmarks.haveData p).trans (hk.data p (hindex ▸ hp))
  · rw [hsame, hchain.tip, ← hindex]
    exact hk.tip
  · intro p hp
    rw [hsame, ← hindex]
    exact hk.candidates p (hsub p hp)
  · exact (hmarks.failed p).trans ((iff_of_eq (or_false _)).trans (hfailed p hp))

end Invalidate

/-- A state between two requests. -/
structure Balanced (s : Ledger) : Prop where
  intact : Intact s.node
  marks : MarksRight s

namespace Balanced
variable {s : Ledger} {b : BlockIndex} {r : Request}

lemma spread (h : Balanced s) : Spread s.node := by
  intro p hp a ha hne hfailed
  obtain ⟨c, hc, hca⟩ := (h.marks a (mem_of_suffix h.intact.closed hp ha hne)).mp hfailed
  exact (h.marks p hp).mpr ⟨c, hc, hca.trans ha⟩

lemma invalidate (h : Balanced s) {env : Env} (hallowed : Allowed s (.invalidate env b)) :
    Balanced (s.serve (.invalidate env b)) := by
  obtain ⟨hb, hroot, henv⟩ := hallowed
  obtain ⟨hintact, hindex, hfailed⟩ := h.intact.invalidateBlock h.spread hb hroot henv
  refine ⟨hintact, fun p hp => ?_⟩
  have hp : p ∈ s.node.index := hindex ▸ hp
  refine (hfailed p hp).trans ((or_congr_left (h.marks p hp)).trans ?_)
  constructor
  · rintro (⟨a, ha, hap⟩ | hbp)
    · exact ⟨a, mem_cons_of_mem _ ha, hap⟩
    · exact ⟨b, mem_cons_self, hbp⟩
  · rintro ⟨a, ha, hap⟩
    rcases mem_cons.mp ha with rfl | ha
    · exact .inr hap
    · exact .inl ⟨a, ha, hap⟩

lemma intact_reconsider (h : Balanced s) (b : BlockIndex) :
    Intact (s.serve (.reconsider b)).node := by
  obtain ⟨hindex, hchain, hstatus, hcandidates⟩ := reconsiderBlock_spec s.node b
  change Intact (reconsiderBlock s.node b)
  refine ⟨?_, ?_, ?_, ?_, ?_, hchain.finalized.trans h.intact.finalized⟩
  · rw [hindex]
    exact h.intact.ne_nil
  · rw [hindex]
    exact h.intact.closed
  · intro p hp
    rw [hindex] at hp
    rw [hstatus]
    split_ifs
    · exact h.intact.data p hp
    · exact h.intact.data p hp
  · rw [hindex, hchain.tip]
    exact h.intact.tip
  · intro p hp
    rw [hindex]
    rcases (hcandidates p).mp hp with hp | ⟨hp, -⟩
    · exact h.intact.candidates p hp
    · exact hp

/-- The marks after reconsidering `b`: none on its own chains, the old ones elsewhere. -/
lemma failed_reconsider (h : Balanced s) (b : BlockIndex) {p : BlockIndex} (hp : p ∈ s.node.index) :
    ((reconsiderBlock s.node b).status p).failed = true ↔ ¬ Related p b ∧ s.Covers p := by
  obtain ⟨-, -, hstatus, -⟩ := reconsiderBlock_spec s.node b
  have hne := h.intact.ne_nil p hp
  rw [hstatus]
  by_cases hrelated : Related p b
  · rw [if_pos (by
      rcases hrelated with hbelow | habove
      · exact .inr ⟨hbelow, hne⟩
      · exact .inl ⟨hp, habove⟩)]
    simp [hrelated]
  · rw [if_neg (by
      rintro (⟨-, habove⟩ | ⟨hbelow, -⟩)
      · exact hrelated (.inr habove)
      · exact hrelated (.inl hbelow)), h.marks p hp]
    simp [hrelated]

/-- The blocks that are covered after reconsidering `b`. -/
lemma covers_reconsider (s : Ledger) (b p : BlockIndex) :
    (s.serve (.reconsider b)).Covers p ↔
      ¬ Related p b ∧ ∃ a ∈ s.invalidated, a <:+ p ∧ ¬ a <:+ b := by
  constructor
  · rintro ⟨a, ha, hap⟩
    rw [Ledger.serve, mem_filter, decide_eq_true_eq] at ha
    refine ⟨?_, a, ha.1, hap, fun hab => ha.2 (.inl hab)⟩
    rintro (hpb | hbp)
    · exact ha.2 (.inl (hap.trans hpb))
    · exact ha.2 (suffix_or_suffix_of_suffix hap hbp)
  · rintro ⟨hunrelated, a, ha, hap, hab⟩
    refine ⟨a, ?_, hap⟩
    rw [Ledger.serve, mem_filter, decide_eq_true_eq]
    refine ⟨ha, ?_⟩
    rintro (hab' | hba)
    · exact hab hab'
    · exact hunrelated (.inr (hba.trans hap))

/-- The marks are right after reconsidering `b` when no other branch loses its reason. -/
lemma marksRight_reconsider_iff (h : Balanced s) (b : BlockIndex) :
    MarksRight (s.serve (.reconsider b)) ↔ ∀ p ∈ s.node.index, ¬ Related p b → s.Covers p →
      ∃ a ∈ s.invalidated, a <:+ p ∧ ¬ a <:+ b := by
  have hindex : (s.serve (.reconsider b)).node.index = s.node.index :=
    (reconsiderBlock_spec s.node b).1
  constructor
  · intro hright p hp hunrelated hcovers
    have hmark := (h.failed_reconsider b hp).mpr ⟨hunrelated, hcovers⟩
    exact ((covers_reconsider s b p).mp ((hright p (hindex ▸ hp)).mp hmark)).2
  · intro hmeets p hp
    rw [hindex] at hp
    refine (h.failed_reconsider b hp).trans ((covers_reconsider s b p).trans ?_).symm
    constructor
    · rintro ⟨hunrelated, a, ha, hap, -⟩
      exact ⟨hunrelated, a, ha, hap⟩
    · rintro ⟨hunrelated, hcovers⟩
      exact ⟨hunrelated, hmeets p hp hunrelated hcovers⟩

/-- Only the blocks that were valid before can be missing among the candidates. -/
lemma offered_reconsider_iff (s : Ledger) (b : BlockIndex) :
    Offered (s.serve (.reconsider b)).node b ↔ Offered s.node b := by
  obtain ⟨hindex, hchain, hstatus, hcandidates⟩ := reconsiderBlock_spec s.node b
  have hworse : (reconsiderBlock s.node b).worse = s.node.worse := by
    apply worse_congr
    intro c
    rw [hstatus]
    split_ifs <;> rfl
  change Offered (reconsiderBlock s.node b) b ↔ _
  simp only [Offered, hindex, hworse, hchain.tip, hcandidates]
  refine forall_congr' fun p => forall_congr' fun hp => forall_congr' fun hbp => ?_
  rw [hstatus, if_pos (.inl ⟨hp, hbp⟩)]
  refine forall_congr' fun hlinked => ?_
  constructor
  · intro hoffered hvalid hbetter
    rw [clearFailed_of_unfailed (unfailed_of_isValid hvalid)] at hoffered
    rcases hoffered hvalid hbetter with hmem | ⟨-, -, hno, -⟩
    · exact hmem
    · rw [hvalid] at hno
      cases hno
  · intro hoffered hvalid hbetter
    by_cases hbefore : (s.node.status p).isValid validTransactions = true
    · exact .inl (hoffered hbefore hbetter)
    · exact .inr ⟨hp, hbp, eq_false_of_ne_true hbefore, hvalid, hlinked, hbetter⟩

/-- A request is served as it should be exactly when it meets the condition. -/
lemma keeps_iff (h : Balanced s) (hallowed : Allowed s r) :
    Keeps s r ↔ Meets s r := by
  cases r with
  | invalidate env b => exact ⟨fun _ => trivial, fun _ => (h.invalidate hallowed).marks⟩
  | reconsider b =>
    exact and_congr (h.marksRight_reconsider_iff b) (offered_reconsider_iff s b)

lemma serve (h : Balanced s) (hallowed : Allowed s r) (hmeets : Meets s r) :
    Balanced (s.serve r) := by
  cases r with
  | invalidate env b => exact h.invalidate hallowed
  | reconsider b =>
    exact ⟨h.intact_reconsider b, (h.marksRight_reconsider_iff b).mpr hmeets.1⟩

end Balanced

lemma CleanRun.balanced (run : CleanRun s) : Balanced s := by
  induction run with
  | start intact unmarked =>
    refine ⟨intact, fun p hp => ?_⟩
    simp [unmarked p hp, Ledger.Covers]
  | serve run allowed meets ih => exact ih.serve allowed meets

/-- After a run whose requests met the condition, a request is served as it should be exactly when
it meets the condition too. -/
theorem request_keeps_iff_meets {s : Ledger} {r : Request} (run : CleanRun s)
    (allowed : Allowed s r) : Keeps s r ↔ Meets s r :=
  run.balanced.keeps_iff allowed

/-- A second block on top of `blockA`. -/
def blockC : BlockIndex := ⟨3, 1⟩ :: blockA
def blockD : BlockIndex := ⟨4, 1⟩ :: blockB

/-- A node that has all blocks of a tree and the first of them as its tip. -/
def fullNode (tip : BlockIndex) (rest : List BlockIndex) : Node :=
  { Node.fresh with
    index := tip :: rest
    status := fun _ =>
      { validity := validTransactions, haveData := true, processed := true, linked := true }
    candidates := [tip]
    tip := tip }

lemma cleanRun_fullNode {tip : BlockIndex} {rest : List BlockIndex}
    (hne : ∀ p ∈ tip :: rest, p ≠ [])
    (hclosed : ∀ p ∈ tip :: rest, p.tail = [] ∨ p.tail ∈ tip :: rest) :
    CleanRun ⟨fullNode tip rest, []⟩ :=
  .start ⟨hne, hclosed, fun _ _ => rfl, mem_cons_self,
    fun p hp => by simp_all [fullNode], rfl⟩ fun _ _ => rfl

/-- Two blocks on top of `blockA`, which is invalidated. -/
def forkInvalidated : Ledger :=
  (⟨fullNode blockB [blockC, blockA, blockG], []⟩ : Ledger).serve (.invalidate smoothEnv blockA)

lemma cleanRun_forkInvalidated : CleanRun forkInvalidated :=
  (cleanRun_fullNode (by decide) (by decide)).serve
    ⟨by decide, by decide, fun _ => rfl⟩ trivial

/-- There is no other branch, and everything from `b` on is invalid. -/
lemma meets_of_related (hrelated : ∀ p ∈ s.node.index, Related p b)
    (hinvalid : ∀ p ∈ s.node.index, b <:+ p →
      (s.node.status p).isValid validTransactions = false) : Meets s (.reconsider b) := by
  refine ⟨fun p hp hunrelated => absurd (hrelated p hp) hunrelated, ?_⟩
  intro p hp hbelow _ hvalid
  rw [hinvalid p hp hbelow] at hvalid
  cases hvalid

theorem keeps_reconsider_blockA :
    CleanRun forkInvalidated ∧ Keeps forkInvalidated (.reconsider blockA) :=
  ⟨cleanRun_forkInvalidated,
    (request_keeps_iff_meets (r := .reconsider blockA) cleanRun_forkInvalidated
      ⟨by decide, by decide⟩).mpr (meets_of_related (by decide) (by decide))⟩

/-- A chain of four blocks whose second block was invalidated and whose last one was
reconsidered. -/
def chainReconsidered : Ledger :=
  ((⟨fullNode blockD [blockB, blockA, blockG], []⟩ : Ledger).serve
    (.invalidate smoothEnv blockA)).serve (.reconsider blockD)

lemma cleanRun_chainReconsidered : CleanRun chainReconsidered :=
  ((cleanRun_fullNode (by decide) (by decide)).serve (r := .invalidate smoothEnv blockA)
    ⟨by decide, by decide, fun _ => rfl⟩ trivial).serve
      ⟨by decide, by decide⟩ (meets_of_related (by decide) (by decide))

/-- Reconsidering `blockB` frees `blockA` and leaves the mark on the other block above it, without
an invalidated block that would explain it.  And after the last block of a chain was reconsidered,
`blockB` below it is valid, linked and better than the tip, but reconsidering `blockA` does not
make it a candidate. -/
theorem reconsider_leaves_mark :
    (CleanRun forkInvalidated ∧ Allowed forkInvalidated (.reconsider blockB) ∧
      (forkInvalidated.serve (.reconsider blockB)).invalidated = [] ∧
      ((forkInvalidated.serve (.reconsider blockB)).node.status blockC).failed = true ∧
      ¬ Keeps forkInvalidated (.reconsider blockB)) ∧
    (CleanRun chainReconsidered ∧ Allowed chainReconsidered (.reconsider blockA) ∧
      blockB ∉ (chainReconsidered.serve (.reconsider blockA)).node.candidates ∧
      ¬ Keeps chainReconsidered (.reconsider blockA)) := by
  have hmark : ((forkInvalidated.serve (.reconsider blockB)).node.status blockC).failed = true := by
    decide
  have hnone : (forkInvalidated.serve (.reconsider blockB)).invalidated = [] := by
    decide
  have hmissing : blockB ∉ (chainReconsidered.serve (.reconsider blockA)).node.candidates := by
    decide
  refine ⟨⟨cleanRun_forkInvalidated, ⟨by decide, by decide⟩, hnone, hmark, ?_⟩,
    cleanRun_chainReconsidered, ⟨by decide, by decide⟩, hmissing, ?_⟩
  · rintro ⟨hright, -⟩
    obtain ⟨a, ha, -⟩ := (hright blockC (by decide)).mp hmark
    rw [hnone] at ha
    simp at ha
  · rintro ⟨-, hoffered⟩
    exact hmissing (hoffered blockB (by decide) (by decide) (by decide) (by decide) (by decide))

end PyrrhaNode.Reconsider
