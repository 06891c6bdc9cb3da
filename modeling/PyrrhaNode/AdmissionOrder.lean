import PyrrhaNode.AdmissionSafety

/-!
# First seen wins

Of two transactions with a common outpoint the one that is queued first should be handed to
validation first. The order of arrival is kept as long as they wait in one queue; it can be
lost at every change of queue: a commit puts what is left in `txInQ` behind the older deferred
transactions, takes deferred ones up again in the order of their ids, and puts those that are
still in conflict behind all others. The runs in which none of this happens to transactions
in conflict are those in which the first one wins.
-/
namespace PyrrhaNode.TxAdmission
open List Serialize

/-- No transaction in conflict with `A` stands before the first `A`. -/
def SeenFirst (A : Tx) : List Tx → Prop
  | [] => True
  | t :: l => t = A ∨ (Compatible A t ∧ SeenFirst A l)

variable {l : List Tx} {A t : Tx} {m map : List Tx} {q : Queues} {tx : Tx} {e : Event} {i : ℕ}
  (avg : ℕ)

lemma SeenFirst.of_forall (h : ∀ t ∈ l, Compatible A t) :
    SeenFirst A l := by
  induction l with
  | nil => trivial
  | cons t l ih => exact .inr ⟨h t (by simp), ih fun s hs => h s (by simp [hs])⟩

lemma SeenFirst.compatible (h : SeenFirst A l) (hA : A ∉ l) (ht : t ∈ l) : Compatible A t := by
  induction l with
  | nil => simp at ht
  | cons s l ih =>
    rcases h with rfl | ⟨hs, hl⟩
    · simp at hA
    · rcases mem_cons.mp ht with rfl | ht
      · exact hs
      · exact ih hl (fun hA' => hA (mem_cons_of_mem s hA')) ht

lemma seenFirst_append :
    SeenFirst A (l ++ m) ↔ SeenFirst A l ∧ (A ∈ l ∨ SeenFirst A m) := by
  induction l with
  | nil => simp [SeenFirst]
  | cons t l ih =>
    simp only [cons_append, SeenFirst, ih]
    by_cases ht : t = A
    · simp [ht]
    · have hA : A ≠ t := fun h => ht h.symm
      simp [ht, hA, and_assoc]

/-- A transaction other than `A` may leave the order, and one that is compatible with `A`
may be put anywhere. -/
lemma SeenFirst.of_remove (h : SeenFirst A (l ++ t :: m)) (ht : t ≠ A) : SeenFirst A (l ++ m) := by
  rw [seenFirst_append] at h ⊢
  refine ⟨h.1, h.2.imp id ?_⟩
  rintro (rfl | ⟨-, hm⟩)
  · exact (ht rfl).elim
  · exact hm

lemma SeenFirst.swap (h : SeenFirst A (l ++ m))
    (hlm : ∀ s ∈ l, ∀ t ∈ m, Compatible s t) : SeenFirst A (m ++ l) := by
  rw [seenFirst_append] at h ⊢
  by_cases hA : A ∈ l
  · have hm := SeenFirst.of_forall fun t ht => hlm A hA t ht
    exact ⟨hm, .inr h.1⟩
  · exact ⟨h.2.resolve_left hA, .inr h.1⟩

/-- The values of a map by id stand in the order of the ids. -/
def SortedById (map : List Tx) : Prop :=
  map.Pairwise fun s t => idValue s.id < idValue t.id

lemma SortedById.emplace (h : SortedById map) (tx : Tx) :
    SortedById (emplace tx map) := by
  induction map with
  | nil => exact pairwise_singleton _ _
  | cons t map ih =>
    obtain ⟨ht, hmap⟩ := pairwise_cons.mp h
    rw [TxAdmission.emplace]
    split
    · exact h
    rename_i hid
    split
    · rename_i hlt
      refine pairwise_cons.mpr ⟨?_, h⟩
      intro s hs
      rcases mem_cons.mp hs with rfl | hs
      · exact hlt
      · exact hlt.trans (ht s hs)
    · rename_i hge
      refine pairwise_cons.mpr ⟨?_, ih hmap⟩
      intro s hs
      rcases mem_emplace hs with rfl | hs
      · have hne : idValue t.id ≠ idValue s.id := fun he => hid (Uint256.eq_of_ofLeBytes he)
        omega
      · exact ht s hs

lemma exists_mem_emplace (tx : Tx) (map : List Tx) :
    (∀ t ∈ map, t ∈ emplace tx map) ∧ ∃ t ∈ emplace tx map, t.id = tx.id := by
  induction map with
  | nil => simp [emplace]
  | cons s map ih =>
    rw [emplace]
    split
    · rename_i hid
      exact ⟨fun t => id, s, by simp, hid⟩
    split
    · exact ⟨fun t ht => mem_cons_of_mem tx ht, tx, by simp, rfl⟩
    obtain ⟨hold, t, ht, hid⟩ := ih
    refine ⟨?_, t, mem_cons_of_mem s ht, hid⟩
    intro t' ht'
    rcases mem_cons.mp ht' with rfl | ht'
    · simp
    · exact mem_cons_of_mem s (hold t' ht')

lemma foldl_emplace (l map : List Tx) (hmap : SortedById map) :
    let map' := l.foldl (fun map tx => emplace tx map) map
    SortedById map' ∧ (∀ t ∈ map', t ∈ map ∨ t ∈ l) ∧ (∀ t ∈ map, t ∈ map') ∧
      ∀ t ∈ l, ∃ s ∈ map', s.id = t.id := by
  induction l generalizing map with
  | nil => exact ⟨hmap, fun t ht => .inl ht, fun t ht => ht, by simp⟩
  | cons tx l ih =>
    obtain ⟨hsorted, hsub, hkeep, hall⟩ := ih (emplace tx map) (hmap.emplace tx)
    obtain ⟨hold, s, hs, hid⟩ := exists_mem_emplace tx map
    refine ⟨hsorted, ?_, fun t ht => hkeep t (hold t ht), ?_⟩
    · intro t ht
      rcases hsub t ht with ht | ht
      · rcases mem_emplace ht with rfl | ht
        · exact .inr (by simp)
        · exact .inl ht
      · exact .inr (mem_cons_of_mem tx ht)
    · intro t ht
      rcases mem_cons.mp ht with rfl | ht
      · exact ⟨s, hkeep s hs, hid⟩
      · exact hall t ht

lemma mem_foldl_emplace (hids : ∀ t ∈ l, t.id = A.id → t = A) (hA : A ∈ l) :
    A ∈ l.foldl (fun map tx => emplace tx map) [] := by
  obtain ⟨-, hsub, -, hex⟩ := foldl_emplace l [] Pairwise.nil
  obtain ⟨s, hs, hid⟩ := hex A hA
  exact hids s ((hsub s hs).resolve_left (by simp)) hid ▸ hs

lemma SortedById.seenFirst (h : SortedById map) (hA : A ∈ map)
    (hgt : ∀ t ∈ map, ¬ Compatible A t → idValue A.id < idValue t.id) : SeenFirst A map := by
  induction map with
  | nil => trivial
  | cons t map ih =>
    obtain ⟨ht, hmap⟩ := pairwise_cons.mp h
    rcases mem_cons.mp hA with rfl | hA
    · exact .inl rfl
    · refine .inr ⟨?_, ih hmap hA fun s hs => hgt s (mem_cons_of_mem t hs)⟩
      by_contra hc
      have h₁ := hgt t (by simp) hc
      have h₂ := ht A hA
      omega

lemma lt_of_seenFirst (hseen : SeenFirst A l)
    (hsorted : l.Pairwise fun s t => ¬ Compatible s t → idValue s.id < idValue t.id) (ht : t ∈ l)
    (hconf : ¬ Compatible A t) : idValue A.id < idValue t.id := by
  induction l with
  | nil => simp at ht
  | cons s l ih =>
    obtain ⟨hs, hl⟩ := pairwise_cons.mp hsorted
    rcases hseen with rfl | ⟨hc, hseen⟩
    · rcases mem_cons.mp ht with rfl | ht
      · exact (hconf (.refl _)).elim
      · exact hs t ht hconf
    · rcases mem_cons.mp ht with rfl | ht
      · exact (hconf hc).elim
      · exact ih hseen hl ht

/-- The transactions a commit has taken up again and not yet put back. -/
def Pc.deferred : Pc → List Tx
  | .committing _ (.requeueing mapWasDeferred) => mapWasDeferred
  | _ => []

def Node.Deferred (n : Node) (t : Tx) : Prop :=
  t ∈ n.queues.txDeferQ ∨ ∃ i, t ∈ (n.threads i).deferred

/-- Steps of admission rounds, of the commit thread and of those who enqueue. -/
def Event.ordinary : Event → Bool
  | .enqueue _ | .waitCorral _ => true
  | .limitMempoolSize _ => false
  | .thread _ act =>
    match act with
    | .enterPause _ | .lockAccept | .walletCommit => false
    | _ => true

/-- The second section of the requeueing keeps the order: a transaction that is deferred
again, and so goes behind the `old` ones, is not in conflict with these, and one that is
taken is not in conflict with those that were deferred `again` before it. -/
def RequeuesInOrder (old : List Tx) : List Tx → Queues → List Tx → Prop
  | _, _, [] => True
  | again, q, tx :: map =>
    if (testInputs q.incomingConflicts tx.vin).1 then
      (∀ t ∈ old, Compatible tx t) ∧
        RequeuesInOrder old (again ++ [tx]) (testConflictEnqueueTx q tx) map
    else
      (∀ t ∈ again, Compatible t tx) ∧
        RequeuesInOrder old again (testConflictEnqueueTx q tx) map

/-- No transaction gets ahead of one it is in conflict with and that waits already. -/
def Orderly (n : Node) : Event → Prop
  | .enqueue tx =>
    n.queues.txDeferQ.length ≤ 1000 → (testInputs n.queues.incomingConflicts tx.vin).1 = false →
      ∀ t, n.Deferred t → Compatible t tx
  | .thread i .takeDeferred =>
    (∀ j, j ≠ i → (n.threads j).deferred = []) ∧
    (∀ s ∈ n.queues.txInQ, ∀ t ∈ n.queues.txDeferQ, Compatible s t) ∧
    ((n.queues.txDeferQ ++ n.queues.txInQ).tail.take (maxmove n.avgCommitBatchSize)).Pairwise
      fun s t => ¬ Compatible s t → idValue s.id < idValue t.id
  | .thread i .enqueueDeferred =>
    RequeuesInOrder n.queues.txDeferQ [] n.queues (n.threads i).deferred
  | _ => True

/-- `A` is rejected only if the node has it already. -/
def Acceptable (A : Tx) (n : Node) : Event → Prop
  | .thread i .reject => (n.threads i).held = some A → A ∈ n.pool.mapTx ++ n.txCommitQ
  | _ => True

def Event.enqueued : Event → List Tx
  | .enqueue tx => [tx]
  | _ => []

/-- The transactions given to `EnqueueTxForAdmission`, in this order. -/
def enqueued (events : List Event) : List Tx := events.flatMap Event.enqueued

/-- The transaction that a step hands to validation. -/
def Node.handedBy (n : Node) : Event → List Tx
  | .thread _ .popTx => n.queues.txInQ.take 1
  | _ => []

/-- The transactions handed to validation, in this order. -/
def handedOver : Node → List Event → List Tx
  | _, [] => []
  | n, e :: events =>
    match n.step e with
    | none => []
    | some n' => n.handedBy e ++ handedOver n' events

/-- The program counters of admission threads and of the commit thread. -/
def Pc.ordinary : Pc → Bool
  | .outside | .processing | .checking _ | .validating _ => true
  | .committing .commitThread _ | .commitDone => true
  | _ => false

/-- What the steps of admission rounds and commits do. -/
inductive OrdinaryStep (n : Node) : Event → Node → Prop
  | enqueue (tx : Tx) :
      OrdinaryStep n (.enqueue tx) { n with queues := enqueueTxForAdmission n.queues tx }
  | waitCorral (region : ℕ) :
      OrdinaryStep n (.waitCorral region) { n with corral := n.corral.wait region }
  | enterProcessing {i : ℕ} {c : CThreadCorral} (hi : n.threads i = .outside) :
      OrdinaryStep n (.thread i .enterProcessing) ({ n with corral := c }.setPc i .processing)
  | enterCommitment {i : ℕ} {c : CThreadCorral} (hi : n.threads i = .outside) :
      OrdinaryStep n (.thread i .enterCommitment)
        ({ n with corral := c }.setPc i (.committing .commitThread .start))
  | exitCorral {i : ℕ} (hi : n.threads i = .processing ∨ n.threads i = .commitDone) :
      OrdinaryStep n (.thread i .exitCorral)
        ({ n with corral := n.corral.exit }.setPc i .outside)
  | popTx {i : ℕ} {tx : Tx} {rest : List Tx} (hi : n.threads i = .processing)
      (hq : n.queues.txInQ = tx :: rest) :
      OrdinaryStep n (.thread i .popTx)
        ({ n with queues := { n.queues with txInQ := rest } }.setPc i (.checking tx))
  | clear {i : ℕ} {tx : Tx} (hi : n.threads i = .checking tx) :
      OrdinaryStep n (.thread i .checkRespend) (n.setPc i (.validating tx))
  | respend {i : ℕ} {tx : Tx} (hi : n.threads i = .checking tx)
      (hrespend : n.pool.isRespend tx = true) :
      OrdinaryStep n (.thread i .checkRespend) (n.setPc i .processing)
  | reject {i : ℕ} {tx : Tx} (hi : (n.threads i).held = some tx) :
      OrdinaryStep n (.thread i .reject) (n.setPc i .processing)
  | pushCommitQ {i : ℕ} {tx : Tx} (hi : n.threads i = .validating tx) :
      OrdinaryStep n (.thread i .pushCommitQ)
        ({ n with txCommitQ := emplace tx n.txCommitQ }.setPc i .processing)
  | swapCommitQ {i : ℕ} (hi : n.threads i = .committing .commitThread .start) :
      OrdinaryStep n (.thread i .swapCommitQ) ({ n with
        csTxmempool := some i
        avgCommitBatchSize := (n.avgCommitBatchSize * 24 + n.txCommitQ.length) / 25
        txCommitQ := [] }.setPc i (.committing .commitThread (.adding n.txCommitQ)))
  | addToMempool {i : ℕ} {final : List Tx}
      (hi : n.threads i = .committing .commitThread (.adding final)) :
      OrdinaryStep n (.thread i .addToMempool) ({ n with
        csTxmempool := none
        pool := final.foldl Pool.addUnchecked n.pool }.setPc i (.committing .commitThread .added))
  | takeDeferred {i : ℕ} (hi : n.threads i = .committing .commitThread .added) :
      OrdinaryStep n (.thread i .takeDeferred)
        ({ n with queues := (TxAdmission.takeDeferred n.avgCommitBatchSize n.queues).2 }.setPc i
          (.committing .commitThread
            (.requeueing (TxAdmission.takeDeferred n.avgCommitBatchSize n.queues).1)))
  | enqueueDeferred {i : ℕ} {map : List Tx}
      (hi : n.threads i = .committing .commitThread (.requeueing map)) :
      OrdinaryStep n (.thread i .enqueueDeferred)
        ({ n with queues := TxAdmission.enqueueDeferred n.queues map }.setPc i .commitDone)

lemma OrdinaryStep.of_commit {n n' : Node} {act : Act} (hord : (n.threads i).ordinary = true)
    (hn : n.commit i act = some n') :
    OrdinaryStep n (.thread i act) n' := by
  unfold Node.commit at hn
  split at hn
  · rename_i caller stage hpc
    obtain rfl : caller = .commitThread := by
      cases caller <;> simp_all [Pc.ordinary]
    split at hn
    · split at hn
      · cases hn
        exact .swapCommitQ hpc
      · cases hn
    · cases hn
      exact .addToMempool hpc
    · cases hn
      exact .takeDeferred hpc
    · cases hn
      exact .enqueueDeferred hpc
    · cases hn
  · cases hn

/-- The steps from a node without other threads. -/
theorem OrdinaryStep.of_step {n n' : Node} (hord : ∀ i, (n.threads i).ordinary = true)
    (he : e.ordinary = true) (hn : n.step e = some n') : OrdinaryStep n e n' := by
  cases e with
  | enqueue tx =>
    cases hn
    exact .enqueue tx
  | limitMempoolSize keep => simp [Event.ordinary] at he
  | waitCorral region =>
    simp only [Node.step] at hn
    split at hn
    · cases hn
      exact .waitCorral region
    · cases hn
  | thread i act =>
    cases act with
    | enterProcessing =>
      simp only [Node.step, Node.act] at hn
      split at hn
      · rename_i hpc
        obtain ⟨c, -, rfl⟩ := Option.map_eq_some_iff.mp hn
        exact .enterProcessing hpc
      · cases hn
    | enterCommitment =>
      simp only [Node.step, Node.act] at hn
      split at hn
      · rename_i hpc
        obtain ⟨c, -, rfl⟩ := Option.map_eq_some_iff.mp hn
        exact .enterCommitment hpc
      · cases hn
    | exitCorral =>
      simp only [Node.step, Node.act] at hn
      split at hn
      · rename_i hpc
        cases hn
        refine .exitCorral ?_
        have := hord i
        simp only [mem_cons, not_mem_nil, or_false] at hpc
        rcases hpc with hpc | hpc | hpc
        · exact .inl hpc
        · exact .inr hpc
        · simp [hpc, Pc.ordinary] at this
      · cases hn
    | popTx =>
      simp only [Node.step, Node.act] at hn
      split at hn
      · rename_i tx rest hpc hq
        cases hn
        exact .popTx hpc hq
      · cases hn
    | checkRespend =>
      simp only [Node.step, Node.act, Node.checkRespend] at hn
      split at hn
      · rename_i tx hlock hpc
        cases hn
        by_cases hrespend : n.pool.isRespend tx = true
        · rw [if_pos hrespend]
          exact .respend hpc hrespend
        · rw [if_neg hrespend]
          exact .clear hpc
      · rename_i tx hlock hpc
        have := hord i
        simp [hpc, Pc.ordinary] at this
      · cases hn
    | reject =>
      have hi := hord i
      simp only [Node.step, Node.act, Node.reject] at hn
      split at hn
      iterate 2
        rename_i tx hpc
        have hheld : (n.threads i).held = some tx := by rw [hpc]; rfl
        cases hn
        exact .reject hheld
      iterate 2
        rename_i tx hpc
        simp [hpc, Pc.ordinary] at hi
      · cases hn
    | pushCommitQ =>
      have hi := hord i
      simp only [Node.step, Node.act, Node.pushCommitQ] at hn
      split at hn
      · rename_i tx hpc
        cases hn
        exact .pushCommitQ hpc
      · rename_i tx hpc
        simp [hpc, Pc.ordinary] at hi
      · cases hn
    | enterPause | lockAccept | walletCommit => simp [Event.ordinary] at he
    | swapCommitQ | addToMempool | takeDeferred | enqueueDeferred => exact .of_commit (hord i) hn

lemma testConflictEnqueueTx_of_conflict (h : (testInputs q.incomingConflicts tx.vin).1 = true) :
    testConflictEnqueueTx q tx = ⟨q.txInQ, q.txDeferQ ++ [tx],
      (testInputs q.incomingConflicts tx.vin).2⟩ :=
  if_pos h

lemma testConflictEnqueueTx_of_free (h : (testInputs q.incomingConflicts tx.vin).1 = false) :
    testConflictEnqueueTx q tx = ⟨q.txInQ ++ [tx], q.txDeferQ,
      (testInputs q.incomingConflicts tx.vin).2⟩ :=
  if_neg (by simp [h])

/-- `A` is in `txInQ`, or nothing in conflict with it is, and it stands first in the rest
of the order. -/
def FirstInLine (A : Tx) (q : Queues) (rest : List Tx) : Prop :=
  A ∈ q.txInQ ∨ ((∀ t ∈ q.txInQ, Compatible A t) ∧ SeenFirst A rest)

lemma mem_testConflictEnqueueTx :
    (t ∈ (testConflictEnqueueTx q tx).txInQ ∨ t ∈ (testConflictEnqueueTx q tx).txDeferQ) ↔
      (t ∈ q.txInQ ∨ t ∈ q.txDeferQ) ∨ t = tx := by
  cases h : (testInputs q.incomingConflicts tx.vin).1 with
  | true => simp [testConflictEnqueueTx_of_conflict h, or_assoc]
  | false =>
    simp only [testConflictEnqueueTx_of_free h, mem_append, mem_singleton]
    exact or_right_comm

lemma mem_enqueueTxForAdmission :
    (t ∈ (enqueueTxForAdmission q tx).txInQ ∨ t ∈ (enqueueTxForAdmission q tx).txDeferQ) ↔
      (t ∈ q.txInQ ∨ t ∈ q.txDeferQ) ∨ t = tx := by
  unfold enqueueTxForAdmission
  split
  · simp [or_assoc]
  · exact mem_testConflictEnqueueTx

lemma mem_enqueueDeferred :
    (t ∈ (enqueueDeferred q map).txInQ ∨ t ∈ (enqueueDeferred q map).txDeferQ) ↔
      (t ∈ q.txInQ ∨ t ∈ q.txDeferQ) ∨ t ∈ map := by
  unfold enqueueDeferred
  induction map generalizing q with
  | nil => simp
  | cons tx map ih =>
    rw [foldl_cons, ih, mem_testConflictEnqueueTx, mem_cons, or_assoc]

lemma mem_takeDeferred (h : t ∈ (takeDeferred avg q).2.txInQ ∨ t ∈ (takeDeferred avg q).1 ∨
      t ∈ (takeDeferred avg q).2.txDeferQ) : t ∈ q.txDeferQ ++ q.txInQ := by
  unfold takeDeferred resetConflicts at h
  split at h
  · simp at h
  rename_i first rest hall
  rw [hall]
  rcases h with h | h | h
  · simp_all
  · obtain ⟨-, hsub, -⟩ := foldl_emplace (rest.take (maxmove avg)) [] List.Pairwise.nil
    have hmem : t ∈ rest.take (maxmove avg) := (hsub t h).resolve_left (by simp)
    exact mem_cons_of_mem first (mem_of_mem_take hmem)
  · exact mem_cons_of_mem first (mem_of_mem_drop h)

/-- The enqueued transaction gets behind those it is in conflict with. -/
lemma FirstInLine.enqueue
    (horderly : q.txDeferQ.length ≤ 1000 → (testInputs q.incomingConflicts tx.vin).1 = false →
      A ∈ q.txInQ ∨ Compatible A tx) (h : FirstInLine A q (map ++ q.txDeferQ))
    (hwait : Compatible A tx ∨ A ∈ q.txInQ ∨ A ∈ map ++ q.txDeferQ) :
    FirstInLine A (enqueueTxForAdmission q tx)
      (map ++ (enqueueTxForAdmission q tx).txDeferQ) := by
  -- a transaction in conflict with `A` can be deferred: `A` waits before it
  have hdefer : (∀ t ∈ q.txInQ, Compatible A t) ∧ SeenFirst A (map ++ q.txDeferQ) →
      A ∉ q.txInQ → SeenFirst A (map ++ (q.txDeferQ ++ [tx])) := by
    rintro ⟨-, hseen⟩ hA
    rw [← append_assoc, seenFirst_append]
    refine ⟨hseen, ?_⟩
    rcases hwait with hc | hin | hmem
    · exact .inr (.inr ⟨hc, trivial⟩)
    · exact (hA hin).elim
    · exact .inl hmem
  by_cases hA : A ∈ q.txInQ
  · left
    unfold enqueueTxForAdmission
    split
    · exact hA
    · cases htest : (testInputs q.incomingConflicts tx.vin).1 with
      | true => simp [testConflictEnqueueTx_of_conflict htest, hA]
      | false => simp [testConflictEnqueueTx_of_free htest, hA]
  have hrest := h.resolve_left hA
  unfold enqueueTxForAdmission
  split
  · exact .inr ⟨hrest.1, hdefer hrest hA⟩
  cases htest : (testInputs q.incomingConflicts tx.vin).1 with
  | true =>
    rw [testConflictEnqueueTx_of_conflict htest]
    exact .inr ⟨hrest.1, hdefer hrest hA⟩
  | false =>
    rw [testConflictEnqueueTx_of_free htest]
    have hc := (horderly (by omega) htest).resolve_left hA
    exact .inr ⟨forall_mem_append.mpr ⟨hrest.1, forall_mem_singleton.mpr hc⟩, hrest.2⟩

/-- The first section of the requeueing: what was left in `txInQ` is not in conflict with
what it is put behind, and ids agree with the order of arrival. -/
lemma FirstInLine.takeDeferred {avg : ℕ} (hids : ∀ t ∈ q.txDeferQ ++ q.txInQ, t.id = A.id → t = A)
    (hseen : SeenFirst A (q.txDeferQ ++ q.txInQ))
    (hsorted : ((q.txDeferQ ++ q.txInQ).tail.take (maxmove avg)).Pairwise
      fun s t => ¬ Compatible s t → idValue s.id < idValue t.id) :
    FirstInLine A (takeDeferred avg q).2
      ((takeDeferred avg q).1 ++ (takeDeferred avg q).2.txDeferQ) := by
  unfold TxAdmission.takeDeferred resetConflicts
  split
  · right
    simp [SeenFirst]
  rename_i first rest hall
  rw [hall] at hids hseen hsorted
  by_cases hfirst : first = A
  · exact .inl (by simp [hfirst])
  obtain ⟨hc, hseen⟩ := hseen.resolve_left hfirst
  refine .inr ⟨by simpa using hc, ?_⟩
  obtain ⟨hmap, hsub, -⟩ := foldl_emplace (rest.take (maxmove avg)) [] List.Pairwise.nil
  simp only [tail_cons] at hsorted
  rw [← take_append_drop (maxmove avg) rest, seenFirst_append] at hseen
  rw [seenFirst_append]
  by_cases hA : A ∈ rest.take (maxmove avg)
  · have hs := mem_foldl_emplace
      (fun t ht => hids t (mem_cons_of_mem first (mem_of_mem_take ht))) hA
    refine ⟨hmap.seenFirst hs ?_, .inl hs⟩
    intro t ht hconf
    exact lt_of_seenFirst hseen.1 hsorted ((hsub t ht).resolve_left (by simp)) hconf
  · have hall := fun t ht => hseen.1.compatible hA (t := t) ht
    refine ⟨SeenFirst.of_forall fun t ht => hall t ((hsub t ht).resolve_left (by simp)), ?_⟩
    exact .inr (hseen.2.resolve_left hA)

/-- A transaction is lost from the queues only to another one with its id. -/
lemma mem_takeDeferred_of_mem (hids : ∀ t ∈ q.txDeferQ ++ q.txInQ, t.id = A.id → t = A)
    (hA : A ∈ q.txDeferQ ++ q.txInQ) :
    A ∈ (takeDeferred avg q).2.txInQ ∨ A ∈ (takeDeferred avg q).1 ∨
      A ∈ (takeDeferred avg q).2.txDeferQ := by
  unfold takeDeferred resetConflicts
  split
  · rename_i hall
    simp [hall] at hA
  rename_i first rest hall
  rw [hall] at hids hA
  rcases mem_cons.mp hA with rfl | hA
  · exact .inl (by simp)
  rw [← take_append_drop (maxmove avg) rest] at hA
  rcases mem_append.mp hA with hA | hA
  · exact .inr (.inl (mem_foldl_emplace
      (fun t ht => hids t (mem_cons_of_mem first (mem_of_mem_take ht))) hA))
  · exact .inr (.inr hA)

/-- The second section of the requeueing. In the middle of the loop the order is: those that
have been deferred again, those still in the map, and the old ones, although the first of
these stand behind the last in `txDeferQ`. -/
lemma FirstInLine.enqueueDeferred {old again : List Tx} (hq : q.txDeferQ = old ++ again)
    (hold : ∀ s ∈ again, ∀ t ∈ old, Compatible s t) (hord : RequeuesInOrder old again q map)
    (h : FirstInLine A q (again ++ map ++ old)) :
    FirstInLine A (enqueueDeferred q map) (enqueueDeferred q map).txDeferQ := by
  induction map generalizing q again with
  | nil =>
    refine h.imp id fun hrest => ⟨hrest.1, ?_⟩
    have hseen := hrest.2
    rw [append_nil] at hseen
    exact hq ▸ hseen.swap hold
  | cons tx map ih =>
    rw [RequeuesInOrder] at hord
    cases htest : (testInputs q.incomingConflicts tx.vin).1 with
    | true =>
      rw [if_pos htest] at hord
      refine ih ?_ (forall_mem_append.mpr ⟨hold, forall_mem_singleton.mpr hord.1⟩) hord.2 ?_
      · simp [testConflictEnqueueTx_of_conflict htest, hq]
      · rw [testConflictEnqueueTx_of_conflict htest]
        exact h.imp id fun hrest => ⟨hrest.1, by simpa using hrest.2⟩
    | false =>
      rw [if_neg (by simp [htest])] at hord
      refine ih ?_ hold hord.2 ?_
      · rw [testConflictEnqueueTx_of_free htest]
        exact hq
      · rw [testConflictEnqueueTx_of_free htest]
        rcases h with hA | ⟨hin, hseen⟩
        · exact .inl (mem_append_left _ hA)
        by_cases htx : tx = A
        · exact .inl (by simp [htx])
        -- `A` is not among those deferred before if `tx` is in conflict with it
        have hc : Compatible A tx := by
          by_cases hA : A ∈ again
          · exact hord.1 A hA
          · rw [append_assoc, seenFirst_append, cons_append] at hseen
            exact ((hseen.2.resolve_left hA).resolve_left htx).1
        refine .inr ⟨forall_mem_append.mpr ⟨hin, forall_mem_singleton.mpr hc⟩, ?_⟩
        rw [append_assoc, cons_append] at hseen
        simpa using hseen.of_remove htx

/-- Anywhere between `EnqueueTxForAdmission` and the mempool. -/
def Node.Has (n : Node) (t : Tx) : Prop :=
  n.Active t ∨ n.Deferred t ∨ t ∈ n.txCommitQ ∨ n.Stored t

/-- `A` has been handed to validation, and is still there or accepted. -/
def Node.Taken (n : Node) (A : Tx) : Prop :=
  (∃ i, (n.threads i).held = some A) ∨ A ∈ n.txCommitQ ∨ n.Stored A

/-- `A` has not been handed to validation, and nothing in conflict with it has. -/
structure Waiting (A : Tx) (enq : List Tx) (n : Node) : Prop where
  free : ∀ i t, (n.threads i).held = some t → Compatible A t
  waits : A ∈ enq → A ∈ n.queues.txInQ ∨ n.Deferred A
  line : ∃ i, (∀ j, j ≠ i → (n.threads j).deferred = []) ∧
    FirstInLine A n.queues ((n.threads i).deferred ++ n.queues.txDeferQ)

/-- The invariant that keeps `A` ahead of all that are in conflict with it. -/
structure Tracked (A : Tx) (enq handed : List Tx) (n : Node) : Prop where
  safe : Safe n
  ordinary : ∀ i, (n.threads i).ordinary = true
  spenders : ∀ o ∈ n.pool.mapNextTx, ∃ s ∈ n.pool.mapTx, o ∈ s.vin
  known : ∀ t, n.Has t → t ∈ enq
  accepted : ∀ t, n.Stored t ∨ t ∈ n.txCommitQ → Compatible A t
  order : SeenFirst A handed
  phase : (A ∉ handed ∧ Waiting A enq n) ∨ (A ∈ handed ∧ n.Taken A)

lemma attr_update {β : Type} (f : Pc → β) {T : ℕ → Pc} {p : Pc} (h : f p = f (T i))
    (j : ℕ) : f (Function.update T i p j) = f (T j) := by
  by_cases hj : j = i
  · subst hj
    simpa using h
  · simp [hj]

section Ordinary
variable {A : Tx} {enq handed : List Tx} {n n' : Node} {i : ℕ} {pc : Pc}

lemma ordinary_update {threads : ℕ → Pc} (h : ∀ j, (threads j).ordinary = true)
    (hpc : pc.ordinary = true) (j : ℕ) : (Function.update threads i pc j).ordinary = true := by
  rw [attr_update Pc.ordinary (by rw [hpc, h])]
  exact h j

lemma deferred_congr (hq : n'.queues = n.queues)
    (h : ∀ j, (n'.threads j).deferred = (n.threads j).deferred) (t : Tx) :
    n'.Deferred t ↔ n.Deferred t := by
  simp only [Node.Deferred, hq, h]

lemma stored_congr (hp : n'.pool = n.pool) (h : ∀ j, (n'.threads j).final = (n.threads j).final)
    (t : Tx) : n'.Stored t ↔ n.Stored t := by
  simp only [Node.Stored, hp, h]

/-- A step that hands nothing to validation, as far as the queues are concerned: no thread
takes up a transaction, no transaction is new, and `A` waits in its place. -/
structure KeepsLine (A : Tx) (enq : List Tx) (n n' : Node) : Prop where
  held : ∀ t, (∃ j, (n'.threads j).held = some t) → ∃ j, (n.threads j).held = some t
  queued : ∀ t, t ∈ n'.queues.txInQ ∨ n'.Deferred t → t ∈ n.queues.txInQ ∨ n.Deferred t
  waits : Waiting A enq n → A ∈ enq → A ∈ n'.queues.txInQ ∨ n'.Deferred A
  line : Waiting A enq n → ∃ i, (∀ j, j ≠ i → (n'.threads j).deferred = []) ∧
    FirstInLine A n'.queues ((n'.threads i).deferred ++ n'.queues.txDeferQ)

lemma KeepsLine.of_queues (hq : n'.queues = n.queues)
    (hdeferred : ∀ j, (n'.threads j).deferred = (n.threads j).deferred)
    (hheld : ∀ t, (∃ j, (n'.threads j).held = some t) → ∃ j, (n.threads j).held = some t) :
    KeepsLine A enq n n' where
  held := hheld
  queued t := by rw [deferred_congr hq hdeferred, hq]; exact id
  waits hw henq := by rw [deferred_congr hq hdeferred, hq]; exact hw.waits henq
  line hw := by simpa only [hq, hdeferred] using hw.line

lemma held_of_eq (hheld : ∀ j, (n'.threads j).held = (n.threads j).held) (t : Tx) :
    (∃ j, (n'.threads j).held = some t) → ∃ j, (n.threads j).held = some t := by
  simp only [hheld]
  exact id

variable (h : Tracked A enq handed n)
include h

/-- What is accepted may only be what is compatible with `A`, and `A` stays where it is
once it has been handed over. -/
lemma Tracked.move (hsafe : Safe n') (hord : ∀ i, (n'.threads i).ordinary = true)
    (hspenders : ∀ o ∈ n'.pool.mapNextTx, ∃ s ∈ n'.pool.mapTx, o ∈ s.vin)
    (hline : KeepsLine A enq n n')
    (haccepted : ∀ t, n'.Stored t ∨ t ∈ n'.txCommitQ → n.Has t ∧ Compatible A t)
    (htaken : n.Taken A → n'.Taken A) : Tracked A enq handed n' := by
  refine ⟨hsafe, hord, hspenders, ?_, fun t ht => (haccepted t ht).2, h.order, ?_⟩
  · have hqueued : ∀ t, t ∈ n'.queues.txInQ ∨ n'.Deferred t → t ∈ enq := fun t ht =>
      h.known t ((hline.queued t ht).elim (fun ht => .inl (.inl ht)) fun ht => .inr (.inl ht))
    rintro t ((ht | ht) | ht | ht | ht)
    · exact hqueued t (.inl ht)
    · exact h.known t (.inl (.inr (hline.held t ht)))
    · exact hqueued t (.inr ht)
    · exact h.known t (haccepted t (.inr ht)).1
    · exact h.known t (haccepted t (.inl ht)).1
  · refine h.phase.imp (fun hw => ⟨hw.1, ?_, hline.waits hw.2, hline.line hw.2⟩)
      (fun ht => ⟨ht.1, htaken ht.2⟩)
    intro j t hj
    obtain ⟨k, hk⟩ := hline.held t ⟨j, hj⟩
    exact hw.2.free k t hk

lemma Tracked.has_compatible {t : Tx}
    (ht : n.Stored t ∨ t ∈ n.txCommitQ) : n.Has t ∧ Compatible A t :=
  ⟨.inr (.inr ht.symm), h.accepted t ht⟩

lemma Tracked.move_queues (hsafe : Safe n') (hord : ∀ i, (n'.threads i).ordinary = true)
    (hp : n'.pool = n.pool) (hcommit : n'.txCommitQ = n.txCommitQ)
    (hheld : ∀ j, (n'.threads j).held = (n.threads j).held)
    (hfinal : ∀ j, (n'.threads j).final = (n.threads j).final)
    (hline : KeepsLine A enq n n') : Tracked A enq handed n' := by
  refine h.move hsafe hord (hp ▸ h.spenders) hline ?_ ?_
  · intro t ht
    rw [stored_congr hp hfinal, hcommit] at ht
    exact h.has_compatible ht
  · simp only [Node.Taken, hheld, hcommit, stored_congr hp hfinal]
    exact id

/-- A step that concerns the locks and the corral only. -/
lemma Tracked.setPc (c : CThreadCorral) (hsafe : Safe ({ n with corral := c }.setPc i pc))
    (hord : pc.ordinary = true) (hheld : pc.held = (n.threads i).held)
    (hdeferred : pc.deferred = (n.threads i).deferred) (hfinal : pc.final = (n.threads i).final) :
    Tracked A enq handed ({ n with corral := c }.setPc i pc) := by
  have hkeep := attr_update Pc.held hheld
  exact h.move_queues hsafe (ordinary_update h.ordinary hord) rfl rfl hkeep
    (attr_update Pc.final hfinal)
    (.of_queues rfl (attr_update Pc.deferred hdeferred) (held_of_eq hkeep))

/-- A transaction that has passed the test is not in conflict with `A`. -/
lemma Tracked.compatible_of_cleared {t : Tx}
    (ht : n.threads i = .validating t) : Compatible A t := by
  have hcleared : (n.threads i).cleared = some t := by rw [ht]; rfl
  rcases h.phase with ⟨-, hw⟩ | ⟨-, ⟨j, hj⟩ | hA | hA⟩
  · exact hw.free i t (by rw [ht]; rfl)
  · exact h.safe.apart A t (.inr ⟨j, hj⟩) (.inr ⟨i, by rw [ht]; rfl⟩)
  · exact h.safe.compatible_of_cleared hcleared hA
  · exact h.safe.cleared i t hcleared A hA

variable {tx : Tx} {p : Pool}

/-- A thread is done with its transaction, which is dropped or put into the commit queue. -/
lemma Tracked.release {q : List Tx} (hi : (n.threads i).held = some tx)
    (hsafe : Safe ({ n with txCommitQ := q }.setPc i .processing))
    (hq : ∀ t ∈ q, n.Has t ∧ Compatible A t) (hkeep : A ∈ n.txCommitQ → A ∈ q)
    (hhave : tx = A → n.Stored A ∨ A ∈ q) :
    Tracked A enq handed ({ n with txCommitQ := q }.setPc i .processing) := by
  have hpc : (n.threads i).deferred = [] ∧ (n.threads i).final = [] := by
    cases hpc : n.threads i <;> simp_all [Pc.held, Pc.deferred, Pc.final]
  have hstored : ∀ t, ({ n with txCommitQ := q }.setPc i .processing).Stored t ↔ n.Stored t :=
    stored_congr rfl (attr_update Pc.final hpc.2.symm)
  refine h.move hsafe (ordinary_update h.ordinary rfl) h.spenders
    (.of_queues rfl (attr_update Pc.deferred hpc.1.symm) ?_) ?_ ?_
  · exact fun t ht => (exists_of_exists_update (P := fun pc => pc.held = some t) ht).resolve_left
      (by simp [Pc.held])
  · rintro t (ht | ht)
    · exact h.has_compatible (.inl ((hstored t).mp ht))
    · exact hq t ht
  · rintro (⟨j, hj⟩ | ht | ht)
    · by_cases hji : j = i
      · subst hji
        rcases hhave (Option.some.inj (hi.symm.trans hj)) with ht | ht
        · exact .inr (.inr ((hstored A).mpr ht))
        · exact .inr (.inl ht)
      · exact .inl ⟨j, by rwa [threads_setPc_of_ne _ _ hji]⟩
    · exact .inr (.inl (hkeep ht))
    · exact .inr (.inr ((hstored A).mpr ht))

lemma Tracked.enqueue (horderly : Orderly n (.enqueue tx)) (hseen : SeenFirst A (enq ++ [tx])) :
    Tracked A (enq ++ [tx]) handed { n with queues := enqueueTxForAdmission n.queues tx } := by
  have hknown : ∀ t, n.Has t → t ∈ enq ++ [tx] := fun t ht =>
    mem_append_left _ (h.known t ht)
  have hnew : A ∉ enq → Compatible A tx := by
    intro henq
    rcases (seenFirst_append.mp hseen).2.resolve_left henq with rfl | ⟨hc, -⟩
    · exact .refl _
    · exact hc
  have hqueued : ∀ t, t ∈ (enqueueTxForAdmission n.queues tx).txInQ ∨
      t ∈ (enqueueTxForAdmission n.queues tx).txDeferQ → t ∈ enq ++ [tx] := by
    intro t ht
    rcases mem_enqueueTxForAdmission.mp ht with (ht | ht) | rfl
    · exact hknown t (.inl (.inl ht))
    · exact hknown t (.inr (.inl (.inl ht)))
    · simp
  refine ⟨h.safe.enqueue tx, h.ordinary, h.spenders, ?_, h.accepted, h.order, ?_⟩
  · rintro t ((ht | ht) | (ht | ht) | ht | ht)
    · exact hqueued t (.inl ht)
    · exact hknown t (.inl (.inr ht))
    · exact hqueued t (.inr ht)
    · exact hknown t (.inr (.inl (.inr ht)))
    · exact hknown t (.inr (.inr (.inl ht)))
    · exact hknown t (.inr (.inr (.inr ht)))
  · refine h.phase.imp (fun hw => ⟨hw.1, hw.2.free, ?_, ?_⟩) id
    · intro henq
      have hwait : (A ∈ n.queues.txInQ ∨ n.Deferred A) ∨ A = tx := by
        rcases mem_append.mp henq with henq | henq
        · exact .inl (hw.2.waits henq)
        · exact .inr (by simpa using henq)
      rcases hwait with (hA | hA | hA) | hA
      · exact (mem_enqueueTxForAdmission.mpr (.inl (.inl hA))).imp id .inl
      · exact (mem_enqueueTxForAdmission.mpr (.inl (.inr hA))).imp id .inl
      · exact .inr (.inr hA)
      · exact (mem_enqueueTxForAdmission.mpr (.inr hA)).imp id .inl
    · obtain ⟨i, hothers, hline⟩ := hw.2.line
      refine ⟨i, hothers, hline.enqueue ?_ ?_⟩
      · -- what waits is ahead of a transaction that goes straight to `txInQ`
        intro hlen htest
        by_cases hA : A ∈ n.queues.txInQ
        · exact .inl hA
        · right
          by_cases henq : A ∈ enq
          · exact horderly hlen htest A ((hw.2.waits henq).resolve_left hA)
          · exact hnew henq
      · by_cases henq : A ∈ enq
        · right
          rcases hw.2.waits henq with hA | hA | ⟨j, hj⟩
          · exact .inl hA
          · exact .inr (mem_append_right _ hA)
          · by_cases hji : j = i
            · exact .inr (mem_append_left _ (hji ▸ hj))
            · simp [hothers j hji] at hj
        · exact .inl (hnew henq)

lemma Tracked.popTx {rest : List Tx} (hi : n.threads i = .processing)
    (hq : n.queues.txInQ = tx :: rest) :
    Tracked A enq (handed ++ [tx])
      ({ n with queues := { n.queues with txInQ := rest } }.setPc i (.checking tx)) := by
  set n' := { n with queues := { n.queues with txInQ := rest } }.setPc i (.checking tx) with hn'
  have hheld : ∀ t, (∃ j, (n'.threads j).held = some t) → t = tx ∨
      ∃ j, (n.threads j).held = some t := by
    intro t ht
    refine (exists_of_exists_update (P := fun pc => pc.held = some t) ht).imp ?_ id
    simp [Pc.held, eq_comm]
  have hdeferred : ∀ j, (n'.threads j).deferred = (n.threads j).deferred :=
    attr_update Pc.deferred (by rw [hi]; rfl)
  have hdef : ∀ t, n'.Deferred t ↔ n.Deferred t := fun t =>
    or_congr Iff.rfl (exists_congr fun j => by rw [hdeferred])
  have hstored : ∀ t, n'.Stored t ↔ n.Stored t :=
    stored_congr rfl (attr_update Pc.final (by rw [hi]; rfl))
  have htx : n.Active tx := .inl (by simp [hq])
  -- the transaction in front is `A` or not in conflict with it
  have hcompat : A ∉ handed → Waiting A enq n → Compatible A tx := by
    intro _ hw
    obtain ⟨k, -, hline⟩ := hw.line
    rcases hline with hA | ⟨hin, -⟩
    · exact h.safe.apart A tx (.inl hA) htx
    · exact hin tx (by simp [hq])
  refine ⟨h.safe.popTx hi hq, ordinary_update h.ordinary rfl, h.spenders, ?_, ?_, ?_, ?_⟩
  · rintro t ((ht | ht) | ht | ht | ht)
    · exact h.known t (.inl (.inl (hq ▸ mem_cons_of_mem tx ht)))
    · rcases hheld t ht with rfl | ht
      · exact h.known t (.inl htx)
      · exact h.known t (.inl (.inr ht))
    · exact h.known t (.inr (.inl ((hdef t).mp ht)))
    · exact h.known t (.inr (.inr (.inl ht)))
    · exact h.known t (.inr (.inr (.inr ((hstored t).mp ht))))
  · intro t ht
    rw [hstored] at ht
    exact h.accepted t ht
  · rw [seenFirst_append]
    refine ⟨h.order, ?_⟩
    rcases h.phase with ⟨hA, hw⟩ | ⟨hA, -⟩
    · exact .inr (.inr ⟨hcompat hA hw, trivial⟩)
    · exact .inl hA
  · by_cases hAtx : tx = A
    · refine .inr ⟨by simp [hAtx], .inl ⟨i, ?_⟩⟩
      rw [threads_setPc_self, hAtx]
      rfl
    rcases h.phase with ⟨hA, hw⟩ | ⟨hA, ht⟩
    · have hne : A ≠ tx := fun he => hAtx he.symm
      refine .inl ⟨by simp [hA, hne], ?_, ?_, ?_⟩
      · intro j t hj
        rcases hheld t ⟨j, hj⟩ with rfl | ⟨k, hk⟩
        · exact hcompat hA hw
        · exact hw.free k t hk
      · intro henq
        refine (hw.waits henq).imp ?_ (hdef A).mpr
        intro hin
        rw [hq] at hin
        exact (mem_cons.mp hin).resolve_left hne
      · obtain ⟨k, hothers, hline⟩ := hw.line
        simp only [hdeferred]
        refine ⟨k, hothers, ?_⟩
        rcases hline with hin | ⟨hin, hrest⟩
        · rw [hq] at hin
          exact .inl ((mem_cons.mp hin).resolve_left hne)
        · exact .inr ⟨fun t ht => hin t (hq ▸ mem_cons_of_mem tx ht), hrest⟩
    · refine .inr ⟨mem_append_left _ hA, ?_⟩
      rcases ht with ht | ht | ht
      · exact .inl (exists_update_of_exists (P := fun pc => pc.held = some A) ht
          (by simp [hi, Pc.held]))
      · exact .inr (.inl ht)
      · exact .inr (.inr ((hstored A).mpr ht))

omit h in
lemma mem_emplace_of_ids {map : List Tx} (hids : ∀ t ∈ map, t.id = A.id → t = A) :
    A ∈ emplace A map := by
  obtain ⟨-, t, ht, hid⟩ := exists_mem_emplace A map
  rcases mem_emplace ht with rfl | hmem
  · exact ht
  · exact hids t hmem hid ▸ ht

lemma Tracked.pushCommitQ (hids : ∀ t ∈ enq, t.id = A.id → t = A)
    (hi : n.threads i = .validating tx)
    (hsafe : Safe ({ n with txCommitQ := emplace tx n.txCommitQ }.setPc i .processing)) :
    Tracked A enq handed ({ n with txCommitQ := emplace tx n.txCommitQ }.setPc i .processing) := by
  refine h.release (by rw [hi]; rfl) hsafe ?_ ((exists_mem_emplace tx n.txCommitQ).1 A) ?_
  · intro t ht
    rcases mem_emplace ht with rfl | ht
    · exact ⟨.inl (.inr ⟨i, by rw [hi]; rfl⟩), h.compatible_of_cleared hi⟩
    · exact h.has_compatible (.inr ht)
  · rintro rfl
    exact .inr (mem_emplace_of_ids fun t ht => hids t (h.known t (.inr (.inr (.inl ht)))))

omit h in
/-- The sections of a commit up to the requeueing touch neither the queues nor the
transactions that are being validated. -/
lemma KeepsLine.of_commit {m : Node} {stage stage' : Stage} (hq : m.queues = n.queues)
    (hm : m.threads = n.threads) (hi : n.threads i = .committing .commitThread stage)
    (hstage : Pc.deferred (.committing .commitThread stage') =
      Pc.deferred (.committing .commitThread stage)) :
    KeepsLine A enq n (m.setPc i (.committing .commitThread stage')) := by
  refine .of_queues hq ?_ ?_
  · intro j
    rw [← hm]
    exact attr_update Pc.deferred (by rw [hm, hi, hstage]) j
  · refine held_of_eq fun j => ?_
    rw [← hm]
    exact attr_update Pc.held (by rw [hm, hi]; rfl) j

lemma Tracked.swapCommitQ {avg : ℕ} (hi : n.threads i = .committing .commitThread .start)
    (hn' : n' = { n with
      csTxmempool := some i
      avgCommitBatchSize := avg
      txCommitQ := [] }.setPc i (.committing .commitThread (.adding n.txCommitQ)))
    (hsafe : Safe n') : Tracked A enq handed n' := by
  subst hn'
  refine h.move hsafe (ordinary_update h.ordinary rfl) h.spenders (.of_commit rfl rfl hi rfl) ?_ ?_
  · rintro t ((ht | ht) | ht)
    · exact h.has_compatible (.inl (.inl ht))
    · rcases exists_of_exists_update (P := fun pc => t ∈ pc.final) ht with ht | ht
      · exact h.has_compatible (.inr ht)
      · exact h.has_compatible (.inl (.inr ht))
    · simp [Node.setPc] at ht
  · rintro (ht | ht | ht | ht)
    · exact .inl (exists_update_of_exists (P := fun pc => pc.held = some A) ht
        (by simp [hi, Pc.held]))
    · refine .inr (.inr (.inr ⟨i, ?_⟩))
      rw [threads_setPc_self]
      exact ht
    · exact .inr (.inr (.inl ht))
    · refine .inr (.inr (.inr ?_))
      exact exists_update_of_exists (P := fun pc => A ∈ pc.final) ht (by simp [hi, Pc.final])

omit h in
lemma mem_foldl_addUnchecked_of_mem {l : List Tx}
    (hids : ∀ t, t ∈ p.mapTx ∨ t ∈ l → t.id = A.id → t = A) (hA : A ∈ p.mapTx ∨ A ∈ l) :
    A ∈ (l.foldl Pool.addUnchecked p).mapTx := by
  induction l generalizing p with
  | nil => exact hA.resolve_right (by simp)
  | cons s l ih =>
    have hmem : ∀ t, t ∈ (p.addUnchecked s).mapTx → t ∈ p.mapTx ∨ t = s := by
      intro t ht
      simpa using mem_foldl_addUnchecked (l := [s]) ht
    refine ih ?_ ?_
    · intro t ht
      refine hids t ?_
      rcases ht with ht | ht
      · exact (hmem t ht).imp id (by rintro rfl; simp)
      · exact .inr (mem_cons_of_mem s ht)
    · unfold Pool.addUnchecked
      split
      · rename_i hany
        rcases hA with hA | hA
        · exact .inl hA
        · rcases mem_cons.mp hA with rfl | hA
          · simp only [any_eq_true, decide_eq_true_eq] at hany
            obtain ⟨t, ht, hid⟩ := hany
            exact .inl (hids t (.inl ht) hid ▸ ht)
          · exact .inr hA
      · rcases hA with hA | hA
        · exact .inl (mem_append_left _ hA)
        · rcases mem_cons.mp hA with rfl | hA
          · exact .inl (by simp)
          · exact .inr hA

omit h in
lemma spenders_foldl_addUnchecked {l : List Tx} (h : ∀ o ∈ p.mapNextTx, ∃ s ∈ p.mapTx, o ∈ s.vin) :
    ∀ o ∈ (l.foldl Pool.addUnchecked p).mapNextTx,
      ∃ s ∈ (l.foldl Pool.addUnchecked p).mapTx, o ∈ s.vin := by
  induction l generalizing p with
  | nil => exact h
  | cons t l ih =>
    refine ih ?_
    unfold Pool.addUnchecked
    split
    · exact h
    · intro o ho
      rcases mem_append.mp ho with ho | ho
      · obtain ⟨s, hs, hos⟩ := h o ho
        exact ⟨s, mem_append_left _ hs, hos⟩
      · exact ⟨t, by simp, ho⟩

section

variable (hids : ∀ t ∈ enq, t.id = A.id → t = A)
include hids

lemma Tracked.addToMempool {final : List Tx}
    (hi : n.threads i = .committing .commitThread (.adding final)) (hn' : n' = { n with
      csTxmempool := none
      pool := final.foldl Pool.addUnchecked n.pool }.setPc i (.committing .commitThread .added))
    (hsafe : Safe n') : Tracked A enq handed n' := by
  subst hn'
  have hfinal : ∀ t ∈ final, n.Stored t := fun t ht => .inr ⟨i, by rw [hi]; exact ht⟩
  refine h.move hsafe (ordinary_update h.ordinary rfl) (spenders_foldl_addUnchecked h.spenders)
    (.of_commit rfl rfl hi rfl) ?_ ?_
  · rintro t ((ht | ht) | ht)
    · exact h.has_compatible (.inl ((mem_foldl_addUnchecked ht).elim .inl (hfinal t)))
    · exact h.has_compatible (.inl (.inr ((exists_of_exists_update
        (P := fun pc => t ∈ pc.final) ht).resolve_left (by simp [Pc.final]))))
    · exact h.has_compatible (.inr ht)
  · have hpool : ∀ t, t ∈ n.pool.mapTx ∨ t ∈ final → t.id = A.id → t = A := by
      intro t ht
      refine hids t (h.known t (.inr (.inr (.inr ?_))))
      exact ht.elim .inl (hfinal t)
    rintro (ht | ht | ht | ⟨j, hj⟩)
    · exact .inl (exists_update_of_exists (P := fun pc => pc.held = some A) ht
        (by simp [hi, Pc.held]))
    · exact .inr (.inl ht)
    · exact .inr (.inr (.inl (mem_foldl_addUnchecked_of_mem hpool (.inl ht))))
    · by_cases hji : j = i
      · subst hji
        rw [hi] at hj
        exact .inr (.inr (.inl (mem_foldl_addUnchecked_of_mem hpool (.inr hj))))
      · refine .inr (.inr (.inr ⟨j, ?_⟩))
        rwa [threads_setPc_of_ne _ _ hji]

lemma Tracked.takeDeferred (horderly : Orderly n (.thread i .takeDeferred))
    (hi : n.threads i = .committing .commitThread .added)
    (hn' : n' = { n with
      queues := (TxAdmission.takeDeferred n.avgCommitBatchSize n.queues).2 }.setPc
      i (.committing .commitThread
        (.requeueing (TxAdmission.takeDeferred n.avgCommitBatchSize n.queues).1)))
    (hsafe : Safe n') : Tracked A enq handed n' := by
  have hheld : ∀ j, (n'.threads j).held = (n.threads j).held := by
    subst hn'
    exact attr_update Pc.held (by rw [hi]; rfl)
  subst hn'
  obtain ⟨hsingle, hleft, hsorted⟩ := horderly
  -- no other commit has deferred transactions in its hands, and this one has none yet
  have hnone : ∀ j, (n.threads j).deferred = [] := by
    intro j
    by_cases hji : j = i
    · rw [hji, hi]
      rfl
    · exact hsingle j hji
  have hall : ∀ t, n.Deferred t → t ∈ n.queues.txDeferQ := by
    rintro t (ht | ⟨j, hj⟩)
    · exact ht
    · simp [hnone j] at hj
  have hidsq : ∀ t ∈ n.queues.txDeferQ ++ n.queues.txInQ, t.id = A.id → t = A := fun t ht =>
    hids t (h.known t ((mem_append.mp ht).elim (fun ht => .inr (.inl (.inl ht)))
      fun ht => .inl (.inl ht)))
  refine h.move_queues hsafe (ordinary_update h.ordinary rfl) rfl rfl hheld
    (attr_update Pc.final (by rw [hi]; rfl)) ⟨held_of_eq hheld, ?_, ?_, ?_⟩
  · intro t ht
    have hmem : t ∈ n.queues.txDeferQ ++ n.queues.txInQ := by
      refine mem_takeDeferred n.avgCommitBatchSize ?_
      rcases ht with ht | ht | ht
      · exact .inl ht
      · exact .inr (.inr ht)
      · rcases exists_of_exists_update (P := fun pc => t ∈ pc.deferred) ht with ht | ⟨j, hj⟩
        · exact .inr (.inl ht)
        · simp [hnone j] at hj
    exact (mem_append.mp hmem).symm.imp_right .inl
  · intro hw henq
    have hmem : A ∈ n.queues.txDeferQ ++ n.queues.txInQ :=
      mem_append.mpr ((hw.waits henq).symm.imp_left (hall A))
    rcases mem_takeDeferred_of_mem n.avgCommitBatchSize hidsq hmem with hA | hA | hA
    · exact .inl hA
    · refine .inr (.inr ⟨i, ?_⟩)
      rw [threads_setPc_self]
      exact hA
    · exact .inr (.inl hA)
  · intro hw
    refine ⟨i, fun j hj => ?_, ?_⟩
    · rw [threads_setPc_of_ne _ _ hj]
      exact hsingle j hj
    rw [threads_setPc_self]
    refine FirstInLine.takeDeferred hidsq ?_ hsorted
    obtain ⟨k, -, hline⟩ := hw.line
    rw [seenFirst_append]
    rcases hline with hA | ⟨hin, hseen⟩
    · -- nothing in conflict with `A` is in `txInQ`, nor among those it is put behind
      refine ⟨.of_forall fun t ht => hleft A hA t ht, .inr (.of_forall fun t ht => ?_)⟩
      exact h.safe.apart A t (.inl hA) (.inl ht)
    · rw [hnone k] at hseen
      exact ⟨hseen, .inr (.of_forall hin)⟩

omit hids in
lemma Tracked.enqueueDeferred {map : List Tx} (horderly : Orderly n (.thread i .enqueueDeferred))
    (hi : n.threads i = .committing .commitThread (.requeueing map))
    (hn' : n' = { n with queues := TxAdmission.enqueueDeferred n.queues map }.setPc i .commitDone)
    (hsafe : Safe n') : Tracked A enq handed n' := by
  subst hn'
  have hheld := attr_update Pc.held (T := n.threads) (p := .commitDone)
    (by rw [hi]; rfl)
  have hmap : (n.threads i).deferred = map := by rw [hi]; rfl
  refine h.move_queues hsafe (ordinary_update h.ordinary rfl) rfl rfl hheld
    (attr_update Pc.final (by rw [hi]; rfl)) ⟨held_of_eq hheld, ?_, ?_, ?_⟩
  · intro t ht
    rw [Node.Deferred, ← or_assoc] at ht
    rcases ht.imp_left mem_enqueueDeferred.mp with ((ht | ht) | ht) | ht
    · exact .inl ht
    · exact .inr (.inl ht)
    · exact .inr (.inr ⟨i, hmap ▸ ht⟩)
    · exact .inr (.inr ((exists_of_exists_update (P := fun pc => t ∈ pc.deferred) ht).resolve_left
        (by simp [Pc.deferred])))
  · intro hw henq
    have hwait := hw.waits henq
    rw [Node.Deferred, ← or_assoc] at hwait ⊢
    rcases hwait with hA | ⟨j, hj⟩
    · exact .inl (mem_enqueueDeferred.mpr (.inl hA))
    · by_cases hji : j = i
      · subst hji
        exact .inl (mem_enqueueDeferred.mpr (.inr (hmap ▸ hj)))
      · refine .inr ⟨j, ?_⟩
        rwa [threads_setPc_of_ne _ _ hji]
  · intro hw
    obtain ⟨k, hothers, hline⟩ := hw.line
    by_cases hki : k = i
    · subst hki
      refine ⟨k, fun j hj => ?_, ?_⟩
      · rw [threads_setPc_of_ne _ _ hj]
        exact hothers j hj
      · rw [threads_setPc_self]
        refine FirstInLine.enqueueDeferred (append_nil _).symm (by simp) ?_ ?_
        · exact hmap ▸ horderly
        · exact hmap ▸ hline
    · -- another commit has taken up what was deferred: nothing is put back here
      obtain rfl : map = [] := hmap.symm.trans (hothers i (Ne.symm hki))
      have hdef := attr_update Pc.deferred (p := .commitDone)
        hmap.symm
      exact ⟨k, fun j hj => (hdef j).trans (hothers j hj), (hdef k).symm ▸ hline⟩

omit hids in
/-- The test for double spends rejects `A` only if it is in the mempool. -/
lemma Tracked.stored_of_isRespend (hrespend : n.pool.isRespend A = true) : n.Stored A := by
  simp only [Pool.isRespend, any_eq_true, decide_eq_true_eq] at hrespend
  obtain ⟨o, ho, hspent⟩ := hrespend
  obtain ⟨s, hs, hos⟩ := h.spenders o hspent
  by_cases hA : A = s
  · exact .inl (hA ▸ hs)
  · exact (h.accepted s (.inl (.inl hs)) hA o ho hos).elim

/-- The steps that neither take in a transaction nor hand one over. -/
lemma Tracked.step_other {e : Event} (horderly : Orderly n e) (haccept : Acceptable A n e)
    (hsafe : Safe n') (hstep : OrdinaryStep n e n')
    (hnone : e.enqueued = [] ∧ n.handedBy e = []) : Tracked A enq handed n' := by
  cases hstep with
  | enqueue tx => simp [Event.enqueued] at hnone
  | popTx hi hq => simp [Node.handedBy, hq] at hnone
  | waitCorral region =>
    exact h.move_queues hsafe h.ordinary rfl rfl (fun _ => rfl) (fun _ => rfl)
      (.of_queues rfl (fun _ => rfl) fun _ => id)
  | enterProcessing hi | enterCommitment hi =>
    exact h.setPc _ hsafe rfl (hi ▸ rfl) (hi ▸ rfl) (hi ▸ rfl)
  | exitCorral hi =>
    refine h.setPc _ hsafe rfl ?_ ?_ ?_
    all_goals rcases hi with hi | hi <;> rw [hi] <;> rfl
  | clear hi => exact h.setPc n.corral hsafe rfl (hi ▸ rfl) (hi ▸ rfl) (hi ▸ rfl)
  | respend hi hrespend =>
    refine h.release (by rw [hi]; rfl) hsafe (fun t ht => h.has_compatible (.inr ht)) id ?_
    rintro rfl
    exact .inl (h.stored_of_isRespend hrespend)
  | reject hi =>
    refine h.release hi hsafe (fun t ht => h.has_compatible (.inr ht)) id ?_
    rintro rfl
    exact (mem_append.mp (haccept hi)).imp_left .inl
  | pushCommitQ hi => exact h.pushCommitQ hids hi hsafe
  | swapCommitQ hi => exact h.swapCommitQ hi rfl hsafe
  | addToMempool hi => exact h.addToMempool hids hi rfl hsafe
  | takeDeferred hi => exact h.takeDeferred hids horderly hi rfl hsafe
  | enqueueDeferred hi => exact h.enqueueDeferred horderly hi rfl hsafe

/-- What a step of an admission round or a commit preserves. -/
theorem Tracked.step {e : Event} (hseen : SeenFirst A (enq ++ e.enqueued)) (he : e.ordinary = true)
    (horderly : Orderly n e) (haccept : Acceptable A n e) (hn : n.step e = some n') :
    Tracked A (enq ++ e.enqueued) (handed ++ n.handedBy e) n' := by
  have hquiet : Quiet n e := by
    unfold Quiet
    split
    · rename_i i
      intro hpc
      have := h.ordinary i
      simp [hpc, Pc.ordinary] at this
    · trivial
  have hsafe := h.safe.step hquiet hn
  have hstep := OrdinaryStep.of_step h.ordinary he hn
  by_cases hnone : e.enqueued = [] ∧ n.handedBy e = []
  · rw [hnone.1, hnone.2, append_nil, append_nil]
    exact h.step_other hids horderly haccept hsafe hstep hnone
  cases hstep with
  | enqueue tx =>
    simpa only [Event.enqueued, Node.handedBy, append_nil] using h.enqueue horderly hseen
  | popTx hi hq =>
    simpa only [Event.enqueued, Node.handedBy, hq, take_succ_cons, take_zero,
      append_nil] using h.popTx hi hq
  | _ => exact absurd ⟨rfl, rfl⟩ hnone

end

omit h in
lemma tracked_init : Tracked A [] [] Node.init := by
  refine ⟨safe_init, fun _ => rfl, by simp [Node.init], ?_, ?_, trivial, .inl ⟨by simp, ?_⟩⟩
  · simp [Node.Has, Node.Active, Node.Deferred, Node.Stored, Node.init, Pc.held, Pc.deferred,
      Pc.final]
  · simp [Node.Stored, Node.init, Pc.final]
  · refine ⟨by simp [Node.init, Pc.held], by simp, 0, fun _ _ => rfl, .inr ⟨?_, ?_⟩⟩
    · simp [Node.init]
    · simp [Node.init, Pc.deferred, SeenFirst]

/-- What whole runs of admission rounds and commits preserve. -/
theorem Tracked.run {events : List Event} (hids : ∀ t ∈ enq ++ enqueued events, t.id = A.id → t = A)
    (hseen : SeenFirst A (enq ++ enqueued events)) (he : ∀ e ∈ events, e.ordinary = true)
    (horderly : AllSteps Orderly n events) (haccept : AllSteps (Acceptable A) n events)
    (hn : n.run events = some n') :
    Tracked A (enq ++ enqueued events) (handed ++ handedOver n events) n' := by
  induction events generalizing n enq handed with
  | nil =>
    cases hn
    simpa [enqueued, handedOver] using h
  | cons e events ih =>
    obtain ⟨m, hm, hrest⟩ := Option.bind_eq_some_iff.mp hn
    have henq : enq ++ enqueued (e :: events) = (enq ++ e.enqueued) ++ enqueued events := by
      simp [enqueued]
    have hhanded : handed ++ handedOver n (e :: events) =
        (handed ++ n.handedBy e) ++ handedOver m events := by
      simp [handedOver, hm]
    rw [henq] at hids hseen ⊢
    rw [hhanded]
    refine ih (h.step ?_ ?_ (he e mem_cons_self) horderly.1 haccept.1 hm) hids hseen
      (fun e' he' => he e' (mem_cons_of_mem e he')) (horderly.2 m hm) (haccept.2 m hm) hrest
    · exact fun t ht => hids t (by simp [ht])
    · exact (seenFirst_append.mp hseen).1

end Ordinary

def Event.rejects : Event → Bool
  | .thread _ .reject => true
  | _ => false

lemma acceptable_of_rejects_eq_false (h : e.rejects = false) (n : Node) :
    Acceptable A n e := by
  unfold Acceptable
  split
  · simp [Event.rejects] at h
  · trivial

/-- First seen wins in every run in which no change of queue puts a transaction ahead of an
earlier one it is in conflict with: if `A` is queued before all that spend one of its
outpoints, it is handed to validation before them, and none of them is accepted. -/
theorem firstSeen_wins {A : Tx} {events : List Event} {n : Node}
    (hordinary : ∀ e ∈ events, e.ordinary = true) (horderly : AllSteps Orderly Node.init events)
    (haccept : AllSteps (Acceptable A) Node.init events)
    (hids : ∀ t ∈ enqueued events, t.id = A.id → t = A) (hfirst : SeenFirst A (enqueued events))
    (hrun : Node.init.run events = some n) :
    SeenFirst A (handedOver Node.init events) ∧
      ∀ B ∈ n.pool.mapTx ++ n.txCommitQ, Compatible A B := by
  have h : Tracked A ([] ++ enqueued events) ([] ++ handedOver Node.init events) n :=
    tracked_init.run hids hfirst hordinary horderly haccept hrun
  refine ⟨h.order, fun B hB => h.accepted B ?_⟩
  exact (mem_append.mp hB).imp_left .inl

/-- Two spends of a coin arrive one after the other. -/
def twoSpends : List Event := [.enqueue (spendOf 1), .enqueue (spendOf 2)]

/-- The sections of a commit by the commit thread. -/
def commitSections (i : ℕ) : List Event :=
  [.thread i .enterCommitment, .thread i .swapCommitQ, .thread i .addToMempool,
    .thread i .takeDeferred, .thread i .enqueueDeferred, .thread i .exitCorral]

/-- The sections of a round of an admission thread that accepts a transaction. -/
def admissionSections (i : ℕ) : List Event :=
  [.thread i .enterProcessing, .thread i .popTx, .thread i .checkRespend, .thread i .pushCommitQ,
    .thread i .exitCorral]

/-- The spends are validated with a commit between them. -/
def orderlyEvents : List Event :=
  twoSpends ++ admissionSections 1 ++ commitSections 0 ++
    [.thread 1 .enterProcessing, .thread 1 .popTx]

theorem firstSeen_wins_twoSpends :
    handedOver Node.init orderlyEvents = [spendOf 1, spendOf 2] ∧
    SeenFirst (spendOf 1) (handedOver Node.init orderlyEvents) := by
  have hrejects : ∀ e ∈ orderlyEvents, e.rejects = false := by decide
  have hhanded : handedOver Node.init orderlyEvents = [spendOf 1, spendOf 2] := by
    decide +kernel
  obtain ⟨n, hn⟩ := Option.isSome_iff_exists.mp
    (show (Node.init.run orderlyEvents).isSome = true by decide +kernel)
  refine ⟨hhanded, (firstSeen_wins (by decide) ?_
    (.of_forall fun e he => acceptable_of_rejects_eq_false (hrejects e he)) (by decide) ?_ hn).1⟩
  · refine .cons ?_ rfl (.cons ?_ rfl (.cons trivial rfl (.cons trivial rfl (.cons trivial rfl
      (.cons trivial rfl (.cons trivial rfl (.cons trivial rfl (.cons trivial rfl
      (.cons trivial rfl (.cons ?_ rfl (.cons ?_ rfl (.cons trivial rfl (.cons trivial rfl
      (.cons trivial rfl trivial))))))))))))))
    · simp [Orderly, Node.Deferred, Node.init, Pc.deferred]
    · -- the second spend is deferred
      exact fun _ htest => absurd htest (by decide +kernel)
    · refine ⟨fun j hj => ?_, by decide +kernel, by decide +kernel⟩
      by_cases hj1 : j = 1 <;> simp [Node.setPc, Node.init, hj, Pc.deferred]
    · exact trivial
  · exact .inl rfl

/-- The commit comes before the spends are validated. -/
def turningEvents : List Event := twoSpends ++ commitSections 0 ++ admissionSections 1

/-- A commit between the arrival of two spends and their validation puts the second one
first: it is handed to validation before the first one, and accepted. -/
theorem commit_turns_order_round :
    (∀ e ∈ turningEvents, e.ordinary = true) ∧
    AllSteps (Acceptable (spendOf 1)) Node.init turningEvents ∧
    SeenFirst (spendOf 1) (enqueued turningEvents) ∧
    ¬ SeenFirst (spendOf 1) (handedOver Node.init turningEvents) ∧
    (Node.init.run turningEvents).map (·.txCommitQ) = some [spendOf 2] := by
  have hrejects : ∀ e ∈ turningEvents, e.rejects = false := by decide
  refine ⟨by decide, .of_forall fun e he => acceptable_of_rejects_eq_false (hrejects e he),
    .inl rfl, ?_, by decide +kernel⟩
  rintro (he | ⟨hc, -⟩)
  · exact absurd he (by decide)
  · exact hc (by decide) someCoin (by decide) (by decide)

end PyrrhaNode.TxAdmission
