import PyrrhaNode.TxAdmission

/-!
# No double spend enters the mempool

The transactions that have been taken from `txInQ` or wait in it have their outpoints set
in the filter until the next reset, and so have those in `txCommitQ`, except for one that
`AcceptToMemoryPool` has put there while the admission threads are kept out. A reset under
the corral meets none of the former. A reset by the wallet, which does not enter the
corral, may meet all of them; the runs in which it never does are free of double spends.
-/
namespace PyrrhaNode.TxAdmission
open Function List Serialize Transaction FastFilter

/-- Two transactions that may be accepted together. -/
def Compatible (s t : Tx) : Prop := s ≠ t → ∀ o ∈ s.vin, o ∉ t.vin

instance (s t : Tx) : Decidable (Compatible s t) :=
  inferInstanceAs (Decidable (s ≠ t → ∀ o ∈ s.vin, o ∉ t.vin))

variable {t tx s : Tx} {n n' : Node} {i : ℕ} {pc : Pc} {f : CFastFilter (4 * 1024 * 1024) 16}

lemma Compatible.symm (h : Compatible s t) : Compatible t s :=
  fun hne o ho hs => h hne.symm o hs ho

lemma Compatible.refl (t : Tx) : Compatible t t := fun hne => (hne rfl).elim

/-- The mempool and `txCommitQ` do not have two transactions that spend one outpoint. -/
def Node.NoDoubleSpend (n : Node) : Prop :=
  ∀ s ∈ n.pool.mapTx ++ n.txCommitQ, ∀ t ∈ n.pool.mapTx ++ n.txCommitQ, Compatible s t

/-- All outpoints of the transaction are set in the filter. -/
def Covers (f : CFastFilter (4 * 1024 * 1024) 16) (tx : Tx) : Prop :=
  ∀ o ∈ tx.vin, f.contains (incomingConflictHash o) = true

lemma Covers.mono {g : CFastFilter (4 * 1024 * 1024) 16} (h : Covers f tx)
    (hfg : f.vData ⊆ g.vData) : Covers g tx :=
  fun o ho => CFastFilter.contains_of_subset hfg (h o ho)

lemma testInputs_subset (f : CFastFilter (4 * 1024 * 1024) 16) (vin : List COutPoint) :
    f.vData ⊆ (testInputs f vin).2.vData := by
  induction vin generalizing f with
  | nil => exact Finset.Subset.refl _
  | cons o vin ih =>
    have hset := CFastFilter.subset_checkAndSet f (incomingConflictHash o)
    rw [testInputs]
    split
    · exact hset.trans (ih _)
    · exact hset

/-- A transaction that passes the test had no outpoint in the filter, and has all of them
there afterwards. -/
lemma testInputs_free {vin : List COutPoint} (h : (testInputs f vin).1 = false) :
    ∀ o ∈ vin, f.contains (incomingConflictHash o) = false ∧
      (testInputs f vin).2.contains (incomingConflictHash o) = true := by
  induction vin generalizing f with
  | nil => simp
  | cons o vin ih =>
    have hfst := CFastFilter.checkAndSet_fst f (incomingConflictHash o)
    rw [testInputs] at h ⊢
    split at h
    · rename_i hunset
      rw [if_pos hunset]
      rw [hunset, eq_comm, Bool.not_eq_true'] at hfst
      have hset := CFastFilter.subset_checkAndSet f (incomingConflictHash o)
      intro o' ho'
      rcases mem_cons.mp ho' with rfl | ho'
      · exact ⟨hfst, CFastFilter.contains_of_subset (testInputs_subset _ vin)
          (CFastFilter.contains_checkAndSet f _)⟩
      · obtain ⟨hfree, hcov⟩ := ih h o' ho'
        refine ⟨?_, hcov⟩
        by_contra hcon
        rw [CFastFilter.contains_of_subset hset (by simpa using hcon)] at hfree
        exact absurd hfree (by simp)
    · simp at h

lemma foldl_insert_subset (f : CFastFilter (4 * 1024 * 1024) 16) (vin : List COutPoint) :
    f.vData ⊆ (vin.foldl (fun f o => f.insert (incomingConflictHash o)) f).vData := by
  induction vin generalizing f with
  | nil => exact Finset.Subset.refl _
  | cons o vin ih => exact (CFastFilter.subset_insert f _).trans (ih _)

lemma covers_foldl_insert (f : CFastFilter (4 * 1024 * 1024) 16) (vin : List COutPoint) :
    ∀ o ∈ vin, (vin.foldl (fun f o => f.insert (incomingConflictHash o)) f).contains
      (incomingConflictHash o) = true := by
  induction vin generalizing f with
  | nil => simp
  | cons o vin ih =>
    intro o' ho'
    rcases mem_cons.mp ho' with rfl | ho'
    · exact CFastFilter.contains_of_subset (foldl_insert_subset _ vin)
        (CFastFilter.contains_insert f _)
    · exact ih _ o' ho'

lemma mem_emplace {map : List Tx} (h : t ∈ emplace tx map) : t = tx ∨ t ∈ map := by
  induction map with
  | nil => simpa [emplace] using h
  | cons s map ih =>
    rw [emplace] at h
    split at h
    · exact .inr h
    · split at h
      · simpa using h
      · rcases mem_cons.mp h with rfl | h
        · simp
        · rcases ih h with h | h <;> simp [h]

def Pc.region : Pc → Option ℕ
  | .outside | .committing .wallet _ => none
  | .processing | .checking _ | .validating _ => some corralTxProcessing
  | .committing .commitThread _ | .commitDone => some corralTxCommitment
  | _ => some corralTxPause

/-- The transaction an admission thread has taken from `txInQ`. -/
def Pc.held : Pc → Option Tx
  | .checking tx | .validating tx => some tx
  | _ => none

/-- The transaction that has passed the test for double spends. -/
def Pc.cleared : Pc → Option Tx
  | .validating tx | .acceptValidating tx => some tx
  | _ => none

/-- The transactions on their way from `txCommitQ` to the mempool. -/
def Pc.final : Pc → List Tx
  | .committing _ (.adding txCommitQFinal) => txCommitQFinal
  | _ => []

def Pc.adding : Pc → Bool
  | .committing _ (.adding _) => true
  | _ => false

def Pc.accepting : Pc → Bool
  | .acceptChecking _ | .acceptValidating _ | .committing (.acceptLast _) _ => true
  | _ => false

/-- The transaction that `AcceptToMemoryPool` has put into `txCommitQ` and is about to
commit. -/
def Pc.owned : Pc → Option Tx
  | .committing (.acceptLast tx) .start => some tx
  | _ => none

/-- The thread is in a region of the corral without admission threads and has taken away
what these had put into `txCommitQ`. -/
def Pc.flushed : Pc → Bool
  | .outside | .processing | .checking _ | .validating _ => false
  | .committing .wallet _ => false
  | .committing (.acceptLast _) _ => true
  | .committing _ .start => false
  | _ => true

/-- Taken from `txInQ` or waiting in it. -/
def Node.Active (n : Node) (t : Tx) : Prop :=
  t ∈ n.queues.txInQ ∨ ∃ i, (n.threads i).held = some t

/-- In the mempool or on the way there from `txCommitQ`. -/
def Node.Stored (n : Node) (t : Tx) : Prop :=
  t ∈ n.pool.mapTx ∨ ∃ i, t ∈ (n.threads i).final

def Node.Owned (n : Node) (t : Tx) : Prop := ∃ i, (n.threads i).owned = some t

/-- The locks and the corral do what they are for. -/
structure Locked (n : Node) : Prop where
  region : ∀ i r, (n.threads i).region = some r → n.corral.curRegion = r
  count : ∃ S : Finset ℕ, S.card = n.corral.curCount ∧
    ∀ i, i ∈ S ↔ (n.threads i).region.isSome = true
  accept : ∀ i, (n.threads i).accepting = true → n.csAccept = some i
  adding : ∀ i, (n.threads i).adding = true → n.csTxmempool = some i

/-- Active transactions are in the conflict filter and spend different coins. -/
structure Safe (n : Node) : Prop where
  locked : Locked n
  covered : ∀ t, n.Active t → Covers n.queues.incomingConflicts t
  apart : ∀ s t, n.Active s → n.Active t → Compatible s t
  queued : ∀ c ∈ n.txCommitQ, n.Owned c ∨
    (Covers n.queues.incomingConflicts c ∧ ∀ t, n.Active t → Compatible c t)
  flushed : ∀ i, (n.threads i).flushed = true → ∀ c ∈ n.txCommitQ, n.Owned c
  cleared : ∀ i t, (n.threads i).cleared = some t → ∀ s, n.Stored s → Compatible s t
  stored : ∀ s t, n.Stored s ∨ s ∈ n.txCommitQ → n.Stored t ∨ t ∈ n.txCommitQ → Compatible s t
  spent : ∀ s ∈ n.pool.mapTx, ∀ o ∈ s.vin, o ∈ n.pool.mapNextTx

theorem Safe.noDoubleSpend (h : Safe n) : n.NoDoubleSpend := by
  intro s hs t ht
  refine h.stored s t ?_ ?_
  · exact (mem_append.mp hs).imp_left .inl
  · exact (mem_append.mp ht).imp_left .inl

@[simp] lemma threads_setPc_self (n : Node) (i : ℕ) (pc : Pc) :
    (n.setPc i pc).threads i = pc := by
  simp [Node.setPc]

lemma threads_setPc_of_ne (n : Node) {i j : ℕ} (pc : Pc) (h : j ≠ i) :
    (n.setPc i pc).threads j = n.threads j := by
  simp [Node.setPc, h]

lemma forall_update {β : Type} {f : Pc → β} {b : β} {Q : ℕ → Prop} {threads : ℕ → Pc}
    (hi : f pc = b → Q i) (h : ∀ j, j ≠ i → f (threads j) = b → Q j) :
    ∀ j, f (update threads i pc j) = b → Q j :=
  (Function.forall_update_iff threads fun j pc => f pc = b → Q j).mpr ⟨hi, h⟩

lemma Locked.move (h : Locked n) (hthreads : n'.threads = update n.threads i pc)
    (hcorral : n'.corral = n.corral) (hregion : pc.region = (n.threads i).region)
    (haccept : pc.accepting = true → n'.csAccept = some i)
    (haccept' : ∀ j ≠ i, n.csAccept = some j → n'.csAccept = some j)
    (hadding : pc.adding = true → n'.csTxmempool = some i)
    (hadding' : ∀ j ≠ i, n.csTxmempool = some j → n'.csTxmempool = some j) : Locked n' := by
  have hsame : ∀ j, (n'.threads j).region = (n.threads j).region := by
    intro j
    by_cases hj : j = i
    · subst hj
      simp [hthreads, hregion]
    · simp [hthreads, hj]
  refine ⟨?_, ?_, ?_, ?_⟩
  · intro j r hr
    rw [hcorral]
    exact h.region j r (hsame j ▸ hr)
  · obtain ⟨S, hcard, hS⟩ := h.count
    exact ⟨S, by rw [hcard, hcorral], fun j => by rw [hS, hsame]⟩
  · rw [hthreads]
    exact forall_update haccept fun j hj hacc => haccept' j hj (h.accept j hacc)
  · rw [hthreads]
    exact forall_update hadding fun j hj hadd => hadding' j hj (h.adding j hadd)

lemma Locked.enter {i region : ℕ} {c : CThreadCorral} (h : Locked n)
    (henter : n.corral.enter region = some c) (hi : (n.threads i).region = none)
    (hpc : pc.region = some region) (haccept : pc.accepting = false)
    (hadding : pc.adding = false) : Locked ({ n with corral := c }.setPc i pc) := by
  obtain ⟨S, hcard, hS⟩ := h.count
  have hiS : i ∉ S := by simp [hS, hi]
  have hcount : ∀ j, j ∈ insert i S ↔
      (({ n with corral := c }.setPc i pc).threads j).region.isSome = true := by
    intro j
    by_cases hj : j = i
    · subst hj
      simp [hpc]
    · rw [threads_setPc_of_ne _ _ hj, Finset.mem_insert, hS]
      simp [hj]
  -- the region of the threads inside: there are none, or it is the one that is entered
  have hcur : c.curRegion = region ∧ c.curCount = n.corral.curCount + 1 ∧
      ∀ j r, (n.threads j).region = some r → r = region := by
    rw [CThreadCorral.enter] at henter
    split at henter
    · rename_i hzero
      cases henter
      refine ⟨rfl, by simp [hzero.1], ?_⟩
      intro j r hr
      have hempty : S = ∅ := Finset.card_eq_zero.mp (hcard.trans hzero.1)
      have := (hS j).mpr (by simp [hr])
      simp [hempty] at this
    · split at henter
      · rename_i hsame
        cases henter
        exact ⟨hsame.1, rfl, fun j r hr => (h.region j r hr).symm.trans hsame.1⟩
      · simp at henter
  refine ⟨?_, ⟨insert i S, ?_, hcount⟩, ?_, ?_⟩
  · intro j r
    refine forall_update (fun hr => ?_) (fun j _ hr => hcur.1.trans (hcur.2.2 j r hr).symm) j
    exact hcur.1.trans (Option.some.inj (hpc.symm.trans hr))
  · rw [Finset.card_insert_of_notMem hiS, hcard]
    exact hcur.2.1.symm
  · exact forall_update (by simp [haccept]) fun j _ => h.accept j
  · exact forall_update (by simp [hadding]) fun j _ => h.adding j

lemma Locked.exit (h : Locked n) (hi : (n.threads i).region.isSome = true) :
    Locked ({ n with corral := n.corral.exit }.setPc i .outside) := by
  obtain ⟨S, hcard, hS⟩ := h.count
  refine ⟨?_, ⟨S.erase i, ?_, ?_⟩, ?_, ?_⟩
  · exact fun j r => forall_update (by simp [Pc.region]) (fun j _ => h.region j r) j
  · rw [Finset.card_erase_of_mem ((hS i).mpr hi), hcard]
    rfl
  · intro j
    by_cases hj : j = i
    · subst hj
      simp [Pc.region]
    · rw [threads_setPc_of_ne _ _ hj, Finset.mem_erase, hS]
      simp [hj]
  · exact forall_update (by simp [Pc.accepting]) fun j _ => h.accept j
  · exact forall_update (by simp [Pc.adding]) fun j _ => h.adding j

lemma Locked.region_unique (h : Locked n) {i j r r' : ℕ} (hi : (n.threads i).region = some r)
    (hj : (n.threads j).region = some r') : r = r' :=
  (h.region i r hi).symm.trans (h.region j r' hj)

lemma region_of_held (h : pc.held = some t) :
    pc.region = some corralTxProcessing := by
  cases pc <;> simp_all [Pc.held, Pc.region]

lemma region_of_owned (h : pc.owned = some t) :
    pc.region = some corralTxPause := by
  unfold Pc.owned at h
  split at h <;> simp_all [Pc.region]

lemma accepting_of_owned (h : pc.owned = some t) :
    pc.accepting = true := by
  unfold Pc.owned at h
  split at h <;> simp_all [Pc.accepting]

lemma adding_of_mem_final (h : t ∈ pc.final) : pc.adding = true := by
  unfold Pc.final at h
  split at h <;> simp_all [Pc.adding]

/-- A thread that has flushed `txCommitQ` shares the corral with no admission thread. -/
lemma region_of_flushed (h : pc.flushed = true) :
    ∃ r, pc.region = some r ∧ r ≠ corralTxProcessing := by
  cases pc with
  | committing caller stage =>
    cases caller <;>
      simp_all [Pc.flushed, Pc.region, corralTxProcessing, corralTxPause, corralTxCommitment]
  | _ =>
    simp_all [Pc.flushed, Pc.region, corralTxProcessing, corralTxPause, corralTxCommitment]

section Threads
variable {threads : ℕ → Pc} {P : Pc → Prop} {i : ℕ} {pc : Pc}

lemma exists_of_exists_update (h : ∃ j, P (update threads i pc j)) :
    P pc ∨ ∃ j, P (threads j) := by
  obtain ⟨j, hj⟩ := h
  by_cases hji : j = i
  · subst hji
    exact .inl (by simpa using hj)
  · exact .inr ⟨j, by simpa [hji] using hj⟩

lemma exists_update_of_exists (h : ∃ j, P (threads j)) (hi : ¬ P (threads i)) :
    ∃ j, P (update threads i pc j) := by
  obtain ⟨j, hj⟩ := h
  have hji : j ≠ i := fun he => hi (he ▸ hj)
  exact ⟨j, by simpa [hji] using hj⟩

end Threads

section Moves
variable {m : Node} {i : ℕ} {pc : Pc} (hm : m.threads = n.threads)
include hm

lemma active_of_setPc (hq : m.queues = n.queues)
    (hheld : pc.held = none ∨ pc.held = (n.threads i).held) (ht : (m.setPc i pc).Active t) :
    n.Active t := by
  refine ht.imp (fun ht => hq ▸ ht) fun ht => ?_
  rcases exists_of_exists_update (P := fun pc => pc.held = some t) ht with ht | ht
  · rcases hheld with hnone | hsame
    · cases hnone.symm.trans ht
    · exact ⟨i, hsame ▸ ht⟩
  · exact hm ▸ ht

lemma owned_setPc (howned : (n.threads i).owned = none) (ht : n.Owned t) :
    (m.setPc i pc).Owned t :=
  exists_update_of_exists (P := fun pc => pc.owned = some t) (hm ▸ ht) (by simp [hm, howned])

lemma flushed_of_setPc (hflushed : pc.flushed = true → (n.threads i).flushed = true)
    (h : ∃ j, ((m.setPc i pc).threads j).flushed = true) : ∃ j, (n.threads j).flushed = true :=
  (exists_of_exists_update (P := fun pc => pc.flushed = true) h).elim
    (fun h => ⟨i, hflushed h⟩) fun h => hm ▸ h

lemma cleared_of_setPc (hcleared : pc.cleared = none)
    (h : ∃ j, ((m.setPc i pc).threads j).cleared = some t) :
    ∃ j, (n.threads j).cleared = some t :=
  hm ▸ (exists_of_exists_update (P := fun pc => pc.cleared = some t) h).resolve_left
    (by simp [hcleared])

lemma stored_of_setPc (hfinal : pc.final = []) (ht : (m.setPc i pc).Stored t) :
    t ∈ m.pool.mapTx ∨ n.Stored t := by
  refine ht.imp id fun ht => .inr ?_
  exact hm ▸ (exists_of_exists_update (P := fun pc => t ∈ pc.final) ht).resolve_left
    (by simp [hfinal])

end Moves

section

variable (h : Safe n) {caller : Caller} {l : List Tx} {q : Queues} {m : Node} {p : Pool}
include h

/-- A step that only takes away from what the invariant is about. -/
lemma Safe.mono (hlocked : Locked n') (hactive : ∀ t, n'.Active t → n.Active t)
    (hfilter : n.queues.incomingConflicts.vData ⊆ n'.queues.incomingConflicts.vData)
    (hcommit : ∀ t ∈ n'.txCommitQ, t ∈ n.txCommitQ) (howned : ∀ t, n.Owned t → n'.Owned t)
    (hflushed : (∃ i, (n'.threads i).flushed = true) → ∃ i, (n.threads i).flushed = true)
    (hcleared : ∀ t, (∃ i, (n'.threads i).cleared = some t) →
      (∃ i, (n.threads i).cleared = some t) ∨ ∀ s, n.Stored s → Compatible s t)
    (hstored : ∀ t, n'.Stored t → n.Stored t)
    (hspent : ∀ s ∈ n'.pool.mapTx, ∀ o ∈ s.vin, o ∈ n'.pool.mapNextTx) : Safe n' where
  locked := hlocked
  covered t ht := (h.covered t (hactive t ht)).mono hfilter
  apart s t hs ht := h.apart s t (hactive s hs) (hactive t ht)
  queued c hc := (h.queued c (hcommit c hc)).imp (howned c)
    fun hcov => ⟨hcov.1.mono hfilter, fun t ht => hcov.2 t (hactive t ht)⟩
  flushed i hi c hc := by
    obtain ⟨j, hj⟩ := hflushed ⟨i, hi⟩
    exact howned c (h.flushed j hj c (hcommit c hc))
  cleared i t ht s hs := by
    rcases hcleared t ⟨i, ht⟩ with ⟨j, hj⟩ | hcompat
    · exact h.cleared j t hj s (hstored s hs)
    · exact hcompat s (hstored s hs)
  stored s t hs ht :=
    h.stored s t (hs.imp (hstored s) (hcommit s)) (ht.imp (hstored t) (hcommit t))
  spent := hspent

/-- A step of thread `i` that leaves the queues and the mempool alone. -/
lemma Safe.move (hlocked : Locked (m.setPc i pc)) (hm : m.threads = n.threads)
    (hqueues : m.queues = n.queues) (hcommit : m.txCommitQ = n.txCommitQ) (hpool : m.pool = n.pool)
    (hheld : pc.held = none ∨ pc.held = (n.threads i).held) (hcleared : pc.cleared = none)
    (hfinal : pc.final = []) (howned : (n.threads i).owned = none)
    (hflushed : pc.flushed = true → (n.threads i).flushed = true) : Safe (m.setPc i pc) := by
  refine h.mono hlocked (fun t => active_of_setPc hm hqueues hheld) (by simp [Node.setPc, hqueues])
    (by simp [Node.setPc, hcommit]) (fun t => owned_setPc hm howned) (flushed_of_setPc hm hflushed)
    (fun t ht => .inl (cleared_of_setPc hm hcleared ht)) ?_ (hpool ▸ h.spent)
  exact fun t ht => (stored_of_setPc hm hfinal ht).elim (fun ht => .inl (hpool ▸ ht)) id

omit h in
lemma Locked.congr (h : Locked n) (hthreads : n'.threads = n.threads)
    (hcur : n'.corral.curRegion = n.corral.curRegion)
    (hcount : n'.corral.curCount = n.corral.curCount) (haccept : n'.csAccept = n.csAccept)
    (hadding : n'.csTxmempool = n.csTxmempool) : Locked n' where
  region i r := by
    rw [hthreads, hcur]
    exact h.region i r
  count := by
    obtain ⟨S, hcard, hS⟩ := h.count
    exact ⟨S, by rw [hcard, hcount], by rw [hthreads]; exact hS⟩
  accept i := by
    rw [hthreads, haccept]
    exact h.accept i
  adding i := by
    rw [hthreads, hadding]
    exact h.adding i

lemma Safe.defer (hin : q.txInQ = n.queues.txInQ)
    (hfilter : n.queues.incomingConflicts.vData ⊆ q.incomingConflicts.vData) :
    Safe { n with queues := q } := by
  refine h.mono (h.locked.congr rfl rfl rfl rfl rfl) ?_ hfilter (fun _ => id) (fun _ => id) id
    (fun _ => .inl) (fun _ => id) h.spent
  rintro t (ht | ht)
  · exact .inl (hin ▸ ht)
  · exact .inr ht

lemma Safe.testConflictEnqueueTx (tx : Tx) :
    Safe { n with queues := testConflictEnqueueTx n.queues tx } := by
  have hsub := testInputs_subset n.queues.incomingConflicts tx.vin
  unfold TxAdmission.testConflictEnqueueTx
  by_cases hconflict : (testInputs n.queues.incomingConflicts tx.vin).1 = true
  · rw [if_pos hconflict]
    exact h.defer rfl hsub
  rw [if_neg hconflict]
  have hfree := testInputs_free (by simpa using hconflict)
  have hactive : ∀ t, Node.Active { n with queues := ⟨n.queues.txInQ ++ [tx], n.queues.txDeferQ,
      (testInputs n.queues.incomingConflicts tx.vin).2⟩ } t → n.Active t ∨ t = tx := by
    rintro t (ht | ht)
    · rcases mem_append.mp ht with ht | ht
      · exact .inl (.inl ht)
      · exact .inr (by simpa using ht)
    · exact .inl (.inr ht)
  -- whatever is covered by the filter is compatible with the new transaction
  have hnew : ∀ s, Covers n.queues.incomingConflicts s → Compatible s tx :=
    fun s hs _ o hos hot => absurd ((hs o hos).symm.trans (hfree o hot).1) (by simp)
  refine ⟨h.locked.congr rfl rfl rfl rfl rfl, ?_, ?_, ?_, h.flushed, h.cleared, h.stored,
    h.spent⟩
  · intro t ht
    rcases hactive t ht with ht | rfl
    · exact (h.covered t ht).mono hsub
    · exact fun o ho => (hfree o ho).2
  · intro s t hs ht
    rcases hactive s hs with hs' | rfl <;> rcases hactive t ht with ht' | rfl
    · exact h.apart s t hs' ht'
    · exact hnew s (h.covered s hs')
    · exact (hnew t (h.covered t ht')).symm
    · exact .refl _
  · intro c hc
    refine (h.queued c hc).imp id fun hcov => ⟨hcov.1.mono hsub, ?_⟩
    intro t ht
    rcases hactive t ht with ht | rfl
    · exact hcov.2 t ht
    · exact hnew c hcov.1

lemma Safe.enqueue (tx : Tx) :
    Safe { n with queues := enqueueTxForAdmission n.queues tx } := by
  unfold enqueueTxForAdmission
  split
  · exact h.defer rfl (Finset.Subset.refl _)
  · exact h.testConflictEnqueueTx tx

lemma Safe.enqueueDeferred (mapWasDeferred : List Tx) :
    Safe { n with queues := enqueueDeferred n.queues mapWasDeferred } := by
  unfold TxAdmission.enqueueDeferred
  induction mapWasDeferred generalizing n with
  | nil => exact h
  | cons tx map ih => exact ih (h.testConflictEnqueueTx tx)

omit h in
lemma txInQ_takeDeferred {avg : ℕ} (ht : t ∈ (takeDeferred avg q).2.txInQ) :
    (takeDeferred avg q).2.txInQ = [t] ∧
      Covers (takeDeferred avg q).2.incomingConflicts t := by
  unfold takeDeferred resetConflicts at *
  split
  · rename_i hnil
    simp [hnil] at ht
  · rename_i first rest hcons
    simp only [hcons, mem_singleton] at ht
    subst ht
    exact ⟨rfl, covers_foldl_insert _ _⟩

/-- The reset of the filter is safe if no transaction relies on it: none is being validated
and those in `txCommitQ` are about to be committed by `AcceptToMemoryPool`. -/
lemma Safe.takeDeferred (avg : ℕ) (hheld : ∀ i, (n.threads i).held = none)
    (hcommit : ∀ c ∈ n.txCommitQ, n.Owned c) :
    Safe { n with queues := (takeDeferred avg n.queues).2 } := by
  have hactive : ∀ t, Node.Active { n with queues := (TxAdmission.takeDeferred avg n.queues).2 } t →
      t ∈ (TxAdmission.takeDeferred avg n.queues).2.txInQ := by
    rintro t (ht | ⟨i, hi⟩)
    · exact ht
    · simp [hheld i] at hi
  refine ⟨h.locked.congr rfl rfl rfl rfl rfl, ?_, ?_, ?_, h.flushed, h.cleared, h.stored,
    h.spent⟩
  · exact fun t ht => (txInQ_takeDeferred (hactive t ht)).2
  · intro s t hs ht
    have hs := hactive s hs
    rw [(txInQ_takeDeferred (hactive t ht)).1, mem_singleton] at hs
    exact hs ▸ .refl _
  · exact fun c hc => .inl (hcommit c hc)

lemma Safe.popTx {rest : List Tx} (hpc : n.threads i = .processing)
    (hq : n.queues.txInQ = tx :: rest) :
    Safe ({ n with queues := { n.queues with txInQ := rest } }.setPc i (.checking tx)) := by
  have hlocked : Locked ({ n with queues := { n.queues with txInQ := rest } }.setPc i
      (.checking tx)) :=
    h.locked.move rfl rfl (by rw [hpc]; rfl) (by simp [Pc.accepting]) (fun _ _ => id)
      (by simp [Pc.adding]) (fun _ _ => id)
  refine h.mono hlocked ?_ (Finset.Subset.refl _) (fun _ => id)
    (fun t => owned_setPc rfl (by rw [hpc]; rfl)) (flushed_of_setPc rfl (by simp [Pc.flushed]))
    (fun t ht => .inl (cleared_of_setPc rfl rfl ht))
    (fun t ht => (stored_of_setPc rfl rfl ht).elim .inl id) h.spent
  rintro t (ht | ht)
  · exact .inl (hq ▸ mem_cons_of_mem tx ht)
  · rcases exists_of_exists_update (P := fun pc => pc.held = some t) ht with ht | ht
    · obtain rfl : tx = t := by simpa [Pc.held] using ht
      exact .inl (hq ▸ mem_cons_self)
    · exact .inr ht

lemma Safe.clear (hlocked : Locked (n.setPc i pc)) (hlock : n.csTxmempool = none)
    (hrespend : n.pool.isRespend tx = false) (hheld : pc.held = (n.threads i).held)
    (hcleared : pc.cleared = some tx) (hfinal : pc.final = []) (howned : (n.threads i).owned = none)
    (hflushed : pc.flushed = true → (n.threads i).flushed = true) : Safe (n.setPc i pc) := by
  refine h.mono hlocked (fun t => active_of_setPc rfl rfl (.inr hheld)) (Finset.Subset.refl _)
    (fun _ => id) (fun t => owned_setPc rfl howned) (flushed_of_setPc rfl hflushed) ?_
    (fun t ht => (stored_of_setPc rfl hfinal ht).elim .inl id) h.spent
  intro t ht
  rcases exists_of_exists_update (P := fun pc => pc.cleared = some t) ht with ht | ht
  · obtain rfl : tx = t := by simpa [hcleared] using ht
    refine .inr fun s hs => ?_
    rcases hs with hs | ⟨j, hj⟩
    · intro _ o hos hot
      have hspent := h.spent s hs o hos
      simp only [Pool.isRespend, any_eq_false, decide_eq_true_eq] at hrespend
      exact hrespend o hot hspent
    · have := h.locked.adding j (adding_of_mem_final hj)
      simp [hlock] at this
  · exact .inl ht

/-- A transaction that has passed the test is compatible with `txCommitQ`. Of an admission
thread this is what the filter is for. While `AcceptToMemoryPool` validates, holding
`cs_accept`, the queue is empty. -/
lemma Safe.compatible_of_cleared {c : Tx} (ht : (n.threads i).cleared = some t)
    (hc : c ∈ n.txCommitQ) : Compatible c t := by
  cases hpc : n.threads i with
  | validating tx =>
    obtain rfl : tx = t := by simpa [hpc, Pc.cleared] using ht
    rcases h.queued c hc with ⟨j, hj⟩ | ⟨-, hcompat⟩
    · have := h.locked.region_unique (by rw [hpc]; rfl) (region_of_owned hj)
      simp [corralTxProcessing, corralTxPause] at this
    · exact hcompat tx (.inr ⟨i, by rw [hpc]; rfl⟩)
  | acceptValidating tx =>
    obtain ⟨j, hj⟩ := h.flushed i (by rw [hpc]; rfl) c hc
    have hi := h.locked.accept i (by rw [hpc]; rfl)
    have hji := h.locked.accept j (accepting_of_owned hj)
    obtain rfl : i = j := Option.some.inj (hi.symm.trans hji)
    simp [hpc, Pc.owned] at hj
  | _ => simp [hpc, Pc.cleared] at ht

/-- A transaction that has passed the test is put into `txCommitQ`. -/
lemma Safe.pushCommitQ
    (hlocked : Locked ({ n with txCommitQ := emplace tx n.txCommitQ }.setPc i pc))
    (hpc : (n.threads i).cleared = some tx) (hheld : pc.held = none)
    (hcleared : pc.cleared = none) (hfinal : pc.final = [])
    (hcase : (n.threads i = .validating tx ∧ pc.flushed = false) ∨
      ((n.threads i).flushed = true ∧ pc.owned = some tx)) :
    Safe ({ n with txCommitQ := emplace tx n.txCommitQ }.setPc i pc) := by
  set m : Node := { n with txCommitQ := emplace tx n.txCommitQ }
  have hactive : ∀ t, (m.setPc i pc).Active t → n.Active t := fun t =>
    active_of_setPc rfl rfl (.inl hheld)
  have hkeep : ∀ t, n.Owned t → (m.setPc i pc).Owned t := by
    refine fun t => owned_setPc rfl ?_
    cases hi : n.threads i <;> simp_all [Pc.cleared, Pc.owned]
  have hstored : ∀ t, (m.setPc i pc).Stored t → n.Stored t := fun t ht =>
    (stored_of_setPc rfl hfinal ht).elim .inl id
  refine ⟨hlocked, ?_, ?_, ?_, ?_, ?_, ?_, h.spent⟩
  · exact fun t ht => h.covered t (hactive t ht)
  · exact fun s t hs ht => h.apart s t (hactive s hs) (hactive t ht)
  · intro c hc
    rcases mem_emplace hc with rfl | hc
    · rcases hcase with ⟨hval, -⟩ | ⟨-, howned⟩
      · have htx : n.Active c := .inr ⟨i, by rw [hval]; rfl⟩
        exact .inr ⟨h.covered c htx, fun t ht => h.apart c t htx (hactive t ht)⟩
      · exact .inl ⟨i, by rw [threads_setPc_self, howned]⟩
    · exact (h.queued c hc).imp (hkeep c)
        fun hcov => ⟨hcov.1, fun t ht => hcov.2 t (hactive t ht)⟩
  · intro j hj c hc
    rcases hcase with ⟨hval, hpcf⟩ | ⟨hflush, howned⟩
    · -- an admission thread shares the corral with no thread that has flushed the queue
      obtain ⟨k, hk⟩ := flushed_of_setPc rfl (by simp [hpcf]) ⟨j, hj⟩
      obtain ⟨r, hr, hne⟩ := region_of_flushed hk
      exact (hne (h.locked.region_unique hr (by rw [hval]; rfl))).elim
    · rcases mem_emplace hc with rfl | hc
      · exact ⟨i, by rw [threads_setPc_self, howned]⟩
      · exact hkeep c (h.flushed i hflush c hc)
  · intro j t ht s hs
    obtain ⟨k, hk⟩ := cleared_of_setPc rfl hcleared ⟨j, ht⟩
    exact h.cleared k t hk s (hstored s hs)
  · have hold : ∀ s, (m.setPc i pc).Stored s ∨ s ∈ m.txCommitQ →
        s = tx ∨ (n.Stored s ∨ s ∈ n.txCommitQ) := by
      rintro s (hs | hs)
      · exact .inr (.inl (hstored s hs))
      · exact (mem_emplace hs).imp id .inr
    have hnew : ∀ s, n.Stored s ∨ s ∈ n.txCommitQ → Compatible s tx := by
      rintro s (hs | hs)
      · exact h.cleared i tx hpc s hs
      · exact h.compatible_of_cleared hpc hs
    intro s t hs ht
    rcases hold s hs with rfl | hs' <;> rcases hold t ht with rfl | ht'
    · exact .refl _
    · exact (hnew t ht').symm
    · exact hnew s hs'
    · exact h.stored s t hs' ht'

omit h in
lemma Locked.commit {stage stage' : Stage} (h : Locked n) (hm : m.threads = n.threads)
    (hcorral : m.corral = n.corral) (haccept : m.csAccept = n.csAccept)
    (hpc : n.threads i = .committing caller stage)
    (hadding : (Pc.committing caller stage').adding = true → m.csTxmempool = some i)
    (hother : ∀ j ≠ i, n.csTxmempool = some j → m.csTxmempool = some j) :
    Locked (m.setPc i (.committing caller stage')) := by
  refine h.move (congrArg (update · i _) hm) hcorral ?_ ?_ ?_ hadding hother
  · rw [hpc]
    cases caller <;> rfl
  · intro hacc
    refine haccept.trans (h.accept i ?_)
    cases caller <;> simp_all [Pc.accepting]
  · exact fun _ _ hsome => haccept.trans hsome

lemma Safe.swapCommitQ (hpc : n.threads i = .committing caller .start)
    (hlock : n.csTxmempool = none) (avg : ℕ) :
    Safe ({ n with
      csTxmempool := some i
      avgCommitBatchSize := avg
      txCommitQ := [] }.setPc i (.committing caller (.adding n.txCommitQ))) := by
  set m : Node := { n with
    csTxmempool := some i
    avgCommitBatchSize := avg
    txCommitQ := [] }
  have hactive : ∀ t, (m.setPc i (.committing caller (.adding n.txCommitQ))).Active t →
      n.Active t := fun t => active_of_setPc rfl rfl (.inl rfl)
  have hstored : ∀ t, (m.setPc i (.committing caller (.adding n.txCommitQ))).Stored t →
      n.Stored t ∨ t ∈ n.txCommitQ := by
    rintro t (ht | ht)
    · exact .inl (.inl ht)
    · exact (exists_of_exists_update (P := fun pc => t ∈ pc.final) ht).symm.imp_left .inr
  refine ⟨?_, ?_, ?_, by simp [Node.setPc, m], by simp [Node.setPc, m], ?_, ?_, h.spent⟩
  · exact h.locked.commit rfl rfl rfl hpc (fun _ => rfl) (by simp [hlock])
  · exact fun t ht => h.covered t (hactive t ht)
  · exact fun s t hs ht => h.apart s t (hactive s hs) (hactive t ht)
  · intro j t ht s hs
    obtain ⟨k, hk⟩ := cleared_of_setPc rfl rfl ⟨j, ht⟩
    exact (hstored s hs).elim (h.cleared k t hk s) (h.compatible_of_cleared hk)
  · rintro s t (hs | hs) (ht | ht)
    · exact h.stored s t (hstored s hs) (hstored t ht)
    all_goals simp [Node.setPc, m] at hs ht

omit h in
lemma mem_foldl_addUnchecked
    (ht : t ∈ (l.foldl Pool.addUnchecked p).mapTx) : t ∈ p.mapTx ∨ t ∈ l := by
  induction l generalizing p with
  | nil => exact .inl ht
  | cons s l ih =>
    rcases ih ht with ht | ht
    · unfold Pool.addUnchecked at ht
      split at ht
      · exact .inl ht
      · rcases mem_append.mp ht with ht | ht
        · exact .inl ht
        · exact .inr (by simp_all)
    · exact .inr (mem_cons_of_mem s ht)

omit h in
lemma spent_foldl_addUnchecked (h : ∀ s ∈ p.mapTx, ∀ o ∈ s.vin, o ∈ p.mapNextTx) :
    ∀ s ∈ (l.foldl Pool.addUnchecked p).mapTx, ∀ o ∈ s.vin,
      o ∈ (l.foldl Pool.addUnchecked p).mapNextTx := by
  induction l generalizing p with
  | nil => exact h
  | cons t l ih =>
    refine ih ?_
    unfold Pool.addUnchecked
    split
    · exact h
    · intro s hs o ho
      rcases mem_append.mp hs with hs | hs
      · exact mem_append_left _ (h s hs o ho)
      · obtain rfl : s = t := by simpa using hs
        exact mem_append_right _ ho

lemma Safe.addToMempool {txCommitQFinal : List Tx}
    (hpc : n.threads i = .committing caller (.adding txCommitQFinal)) :
    Safe ({ n with
      csTxmempool := none
      pool := txCommitQFinal.foldl Pool.addUnchecked n.pool }.setPc i
        (.committing caller .added)) := by
  have hlock : n.csTxmempool = some i := h.locked.adding i (by rw [hpc]; rfl)
  refine h.mono (h.locked.commit rfl rfl rfl hpc (by simp [Pc.adding]) ?_)
    (fun t => active_of_setPc rfl rfl (.inl rfl)) (Finset.Subset.refl _) (fun _ => id)
    (fun t => owned_setPc rfl (by simp [hpc, Pc.owned])) (flushed_of_setPc rfl ?_)
    (fun t ht => .inl (cleared_of_setPc rfl rfl ht)) ?_ (spent_foldl_addUnchecked h.spent)
  · intro j hj hsome
    rw [hlock] at hsome
    exact (hj (Option.some.inj hsome).symm).elim
  · rw [hpc]
    cases caller <;> simp [Pc.flushed]
  · intro t ht
    rcases stored_of_setPc (n := n) (by rfl) rfl ht with ht | ht
    · exact (mem_foldl_addUnchecked ht).imp id fun ht => ⟨i, by rw [hpc]; exact ht⟩
    · exact ht

lemma Safe.limitMempoolSize (keep : Tx → Bool) :
    Safe { n with pool := n.pool.retain keep } := by
  refine h.mono (h.locked.congr rfl rfl rfl rfl rfl) (fun _ => id) (Finset.Subset.refl _)
    (fun _ => id) (fun _ => id) id (fun _ => .inl) ?_ ?_
  · exact fun t ht => ht.imp_left mem_of_mem_filter
  · intro s hs o ho
    have hs' := mem_filter.mp hs
    refine mem_filter.mpr ⟨h.spent s hs'.1 o ho, ?_⟩
    -- a removed transaction with this outpoint would be one that is kept
    simp only [Bool.not_eq_true', any_eq_false, Bool.and_eq_true, decide_eq_true_eq,
      not_and]
    intro t ht hkeep hot
    have hne : s ≠ t := by
      rintro rfl
      simp [hs'.2] at hkeep
    exact h.stored s t (.inl (.inl hs'.1)) (.inl (.inl ht)) hne o ho hot

/-- A reset of the filter by the wallet, which has not entered the corral, meets no
transaction between `txInQ` and the mempool. -/
def Quiet (n : Node) : Event → Prop
  | .thread i .takeDeferred => n.threads i = .committing .wallet .added →
      (∀ j, (n.threads j).held = none) ∧ n.txCommitQ = []
  | _ => True

/-- All steps of the run meet the condition. -/
def AllSteps (P : Node → Event → Prop) : Node → List Event → Prop
  | _, [] => True
  | n, e :: events => P n e ∧ ∀ n', n.step e = some n' → AllSteps P n' events

variable {events : List Event} {P : Node → Event → Prop} {e : Event}

omit h in
lemma AllSteps.cons (he : P n e) (hn : n.step e = some n') (hrest : AllSteps P n' events) :
    AllSteps P n (e :: events) := by
  refine ⟨he, fun m hm => ?_⟩
  obtain rfl := Option.some.inj (hn.symm.trans hm)
  exact hrest

omit h in
lemma AllSteps.of_forall (h : ∀ e ∈ events, ∀ n, P n e) : AllSteps P n events := by
  induction events generalizing n with
  | nil => trivial
  | cons e events ih =>
    exact ⟨h e mem_cons_self n, fun n' _ =>
      ih fun e' he' => h e' (mem_cons_of_mem e he')⟩

omit h in
lemma safe_init : Safe Node.init := by
  refine ⟨⟨?_, ⟨∅, ?_⟩, ?_, ?_⟩, ?_, ?_, ?_, ?_, ?_, ?_, ?_⟩
  all_goals simp [Node.init, Node.Active, Node.Stored, Pc.region, Pc.accepting, Pc.adding,
    Pc.held, Pc.final]

lemma Safe.enterCorral {i region : ℕ} (hi : n.threads i = .outside) (hpc : pc.region = some region)
    (haccept : pc.accepting = false) (hadding : pc.adding = false) (hheld : pc.held = none)
    (hcleared : pc.cleared = none) (hfinal : pc.final = []) (hflushed : pc.flushed = false)
    (hn : n.enterCorral i region pc = some n') : Safe n' := by
  obtain ⟨c, hc, rfl⟩ := Option.map_eq_some_iff.mp hn
  refine h.move (h.locked.enter hc (by rw [hi]; rfl) hpc haccept hadding) rfl rfl rfl rfl
    (.inl hheld) hcleared hfinal (by rw [hi]; rfl) (by simp [hflushed])

lemma Safe.commit {act : Act} (hquiet : Quiet n (.thread i act))
    (hn : n.commit i act = some n') : Safe n' := by
  unfold Node.commit at hn
  split at hn
  · rename_i caller stage hpc
    split at hn
    · split at hn
      · rename_i hlock
        cases hn
        exact h.swapCommitQ hpc hlock _
      · cases hn
    · cases hn
      exact h.addToMempool hpc
    · cases hn
      have hreset : Safe { n with queues :=
          (TxAdmission.takeDeferred n.avgCommitBatchSize n.queues).2 } := by
        by_cases hf : (n.threads i).flushed = true
        · -- the corral keeps the admission threads out
          refine h.takeDeferred _ (fun j => ?_) (h.flushed i hf)
          obtain ⟨r, hr, hne⟩ := region_of_flushed hf
          cases hj : (n.threads j).held with
          | none => rfl
          | some t => exact (hne (h.locked.region_unique hr (region_of_held hj))).elim
        · obtain rfl : caller = .wallet := by
            cases caller <;> simp_all [Pc.flushed]
          obtain ⟨hheld, hempty⟩ := hquiet hpc
          exact h.takeDeferred _ hheld (by simp [hempty])
      refine hreset.move (hreset.locked.commit rfl rfl rfl hpc (by simp [Pc.adding])
        fun _ _ => id) rfl rfl rfl rfl (.inl rfl) rfl rfl ?_ ?_
      · simp [hpc, Pc.owned]
      · rw [hpc]
        cases caller <;> simp [Pc.flushed]
    · rename_i mapWasDeferred
      cases hn
      have hqueued := h.enqueueDeferred mapWasDeferred
      refine hqueued.move (hqueued.locked.move rfl rfl ?_ ?_ ?_ ?_ (fun _ _ => id))
        rfl rfl rfl rfl ?_ ?_ ?_ ?_ ?_
      · rw [hpc]
        cases caller <;> rfl
      · cases caller <;> simp [Caller.resume, Pc.accepting]
      · intro j hj hsome
        cases caller with
        | acceptLast tx =>
          have := h.locked.accept i (by rw [hpc]; rfl)
          exact (hj (Option.some.inj (hsome.symm.trans this))).elim
        | _ => exact hsome
      · cases caller <;> simp [Caller.resume, Pc.adding]
      · cases caller <;> simp [Caller.resume, Pc.held]
      · cases caller <;> rfl
      · cases caller <;> rfl
      · simp [hpc, Pc.owned]
      · rw [hpc]
        cases caller <;> simp [Caller.resume, Pc.flushed]
    · cases hn
  · cases hn

lemma Safe.release (hn : (∃ tx, (n.threads i = .checking tx ∨ n.threads i = .validating tx) ∧
        n' = n.setPc i .processing) ∨
      (∃ tx, (n.threads i = .acceptChecking tx ∨ n.threads i = .acceptValidating tx) ∧
        n' = { n with csAccept := none }.setPc i .acceptDone)) : Safe n' := by
  rcases hn with ⟨tx, hpc, rfl⟩ | ⟨tx, hpc, rfl⟩
  · refine h.move (h.locked.move rfl rfl ?_ (by simp [Pc.accepting]) (fun _ _ => id)
      (by simp [Pc.adding]) (fun _ _ => id)) rfl rfl rfl rfl (.inl rfl) rfl rfl ?_
      (by simp [Pc.flushed])
    all_goals rcases hpc with hpc | hpc <;> rw [hpc] <;> rfl
  · have hacc : n.csAccept = some i := by
      refine h.locked.accept i ?_
      rcases hpc with hpc | hpc <;> rw [hpc] <;> rfl
    refine h.move (h.locked.move rfl rfl ?_ (by simp [Pc.accepting]) ?_
      (by simp [Pc.adding]) (fun _ _ => id)) rfl rfl rfl rfl (.inl rfl) rfl rfl ?_ ?_
    · rcases hpc with hpc | hpc <;> rw [hpc] <;> rfl
    · intro j hj hsome
      exact (hj (Option.some.inj (hsome.symm.trans hacc))).elim
    · rcases hpc with hpc | hpc <;> rw [hpc] <;> rfl
    · rcases hpc with hpc | hpc <;> simp [hpc, Pc.flushed]

lemma Safe.checkRespend (hn : n.checkRespend i = some n') :
    Safe n' := by
  unfold Node.checkRespend at hn
  split at hn
  · rename_i tx hlock hpc
    cases hn
    by_cases hrespend : n.pool.isRespend tx = true
    · rw [if_pos hrespend]
      exact h.release (.inl ⟨tx, .inl hpc, rfl⟩)
    · rw [if_neg hrespend]
      refine h.clear (h.locked.move rfl rfl ?_ (by simp [Pc.accepting]) (fun _ _ => id)
        (by simp [Pc.adding]) (fun _ _ => id)) hlock (by simpa using hrespend) ?_ rfl rfl ?_
        (by simp [Pc.flushed])
      all_goals rw [hpc]; rfl
  · rename_i tx hlock hpc
    cases hn
    by_cases hrespend : n.pool.isRespend tx = true
    · rw [if_pos hrespend]
      exact h.release (.inr ⟨tx, .inl hpc, rfl⟩)
    · rw [if_neg hrespend]
      refine h.clear (h.locked.move rfl rfl ?_ (fun _ => h.locked.accept i ?_) (fun _ _ => id)
        (by simp [Pc.adding]) (fun _ _ => id)) hlock (by simpa using hrespend) ?_ rfl rfl ?_ ?_
      all_goals simp [hpc, Pc.region, Pc.accepting, Pc.held, Pc.owned, Pc.flushed]
  · cases hn

lemma Safe.reject (hn : n.reject i = some n') : Safe n' := by
  unfold Node.reject at hn
  split at hn
  · rename_i tx hpc
    exact h.release (.inl ⟨tx, .inl hpc, (Option.some.inj hn).symm⟩)
  · rename_i tx hpc
    exact h.release (.inl ⟨tx, .inr hpc, (Option.some.inj hn).symm⟩)
  · rename_i tx hpc
    exact h.release (.inr ⟨tx, .inl hpc, (Option.some.inj hn).symm⟩)
  · rename_i tx hpc
    exact h.release (.inr ⟨tx, .inr hpc, (Option.some.inj hn).symm⟩)
  · cases hn

lemma Safe.push (hn : n.pushCommitQ i = some n') :
    Safe n' := by
  unfold Node.pushCommitQ at hn
  split at hn
  · rename_i tx hpc
    cases hn
    exact h.pushCommitQ (h.locked.move rfl rfl (by rw [hpc]; rfl) (by simp [Pc.accepting])
      (fun _ _ => id) (by simp [Pc.adding]) (fun _ _ => id)) (by rw [hpc]; rfl) rfl rfl rfl
      (.inl ⟨hpc, rfl⟩)
  · rename_i tx hpc
    cases hn
    exact h.pushCommitQ (h.locked.move rfl rfl (by rw [hpc]; rfl)
      (fun _ => h.locked.accept i (by rw [hpc]; rfl)) (fun _ _ => id) (by simp [Pc.adding])
      (fun _ _ => id)) (by rw [hpc]; rfl) rfl rfl rfl (.inr ⟨by rw [hpc]; rfl, rfl⟩)
  · cases hn

theorem Safe.act {act : Act} (hquiet : Quiet n (.thread i act))
    (hn : n.act i act = some n') : Safe n' := by
  cases act with
  | enterProcessing | enterCommitment | enterPause =>
    simp only [Node.act] at hn
    split at hn
    · rename_i hpc
      exact h.enterCorral hpc rfl rfl rfl rfl rfl rfl rfl hn
    · cases hn
  | popTx =>
    simp only [Node.act] at hn
    split at hn
    · rename_i tx rest hpc hq
      cases hn
      exact h.popTx hpc hq
    · cases hn
  | checkRespend => exact h.checkRespend hn
  | reject => exact h.reject hn
  | pushCommitQ => exact h.push hn
  | exitCorral =>
    simp only [Node.act] at hn
    split at hn
    · rename_i hpc
      cases hn
      simp only [mem_cons, not_mem_nil, or_false] at hpc
      refine h.move (h.locked.exit ?_) rfl rfl rfl rfl (.inl rfl) rfl rfl ?_
        (by simp [Pc.flushed])
      all_goals rcases hpc with hpc | hpc | hpc <;> rw [hpc] <;> rfl
    · cases hn
  | lockAccept =>
    simp only [Node.act] at hn
    split at hn
    · rename_i tx hfree hpc
      cases hn
      refine h.move (h.locked.move rfl rfl (by rw [hpc]; rfl) (fun _ => rfl) (by simp [hfree])
        (by simp [Pc.adding]) (fun _ _ => id)) rfl rfl rfl rfl (.inl rfl) rfl rfl
        (by rw [hpc]; rfl) (by simp [hpc, Pc.flushed])
    · cases hn
  | walletCommit =>
    simp only [Node.act] at hn
    split at hn
    · rename_i hpc
      cases hn
      refine h.move (h.locked.move rfl rfl (by rw [hpc]; rfl) (by simp [Pc.accepting])
        (fun _ _ => id) (by simp [Pc.adding]) (fun _ _ => id)) rfl rfl rfl rfl (.inl rfl) rfl
        rfl (by rw [hpc]; rfl) (by simp [Pc.flushed])
    · cases hn
  | swapCommitQ | addToMempool | takeDeferred | enqueueDeferred => exact h.commit hquiet hn

theorem Safe.step (hquiet : Quiet n e) (hn : n.step e = some n') : Safe n' := by
  cases e with
  | enqueue tx =>
    cases hn
    exact h.enqueue tx
  | limitMempoolSize keep =>
    simp only [Node.step] at hn
    split at hn
    · cases hn
      exact h.limitMempoolSize keep
    · cases hn
  | waitCorral region =>
    simp only [Node.step] at hn
    split at hn
    · cases hn
      exact h.mono (h.locked.congr rfl rfl rfl rfl rfl) (fun _ => id) (Finset.Subset.refl _)
        (fun _ => id) (fun _ => id) id (fun _ => .inl) (fun _ => id) h.spent
    · cases hn
  | thread i act => exact h.act hquiet hn

theorem Safe.run (hquiet : AllSteps Quiet n events) (hn : n.run events = some n') : Safe n' := by
  induction events generalizing n with
  | nil =>
    cases hn
    exact h
  | cons e events ih =>
    obtain ⟨m, hm, hrest⟩ := Option.bind_eq_some_iff.mp hn
    exact ih (h.step hquiet.1 hm) (hquiet.2 m hm) hrest

end

def Event.resets : Event → Bool
  | .thread _ .takeDeferred => true
  | _ => false

lemma quiet_of_resets_eq_false {e : Event} (h : e.resets = false) (n : Node) : Quiet n e := by
  unfold Quiet
  split
  · simp [Event.resets] at h
  · trivial

def someCoin : COutPoint := ⟨.ofByte 9⟩

def spendOf (b : UInt8) : Tx := ⟨.ofByte b, [someCoin]⟩

/-- The sections of a call of `CommitTxToMempool` by the wallet. -/
def walletSections (i : ℕ) : List Event :=
  [.thread i .walletCommit, .thread i .swapCommitQ, .thread i .addToMempool,
    .thread i .takeDeferred, .thread i .enqueueDeferred]

/-- A spend is queued and an admission thread tests it. -/
def validateSpend (b : UInt8) (i : ℕ) : List Event :=
  [.enqueue (spendOf b), .thread i .enterProcessing, .thread i .popTx, .thread i .checkRespend]

/-- In every run in which the wallet's resets of the filter meet no transaction between
`txInQ` and the mempool, the mempool and `txCommitQ` stay free of double spends. -/
theorem noDoubleSpend_of_quietRun {events : List Event} {n : Node}
    (hquiet : AllSteps Quiet Node.init events) (hrun : Node.init.run events = some n) :
    n.NoDoubleSpend :=
  (safe_init.run hquiet hrun).noDoubleSpend

/-- Two spends of one coin after a commit of the wallet. -/
def conflictEvents : List Event :=
  walletSections 2 ++ validateSpend 1 0 ++ [.enqueue (spendOf 2), .thread 0 .pushCommitQ]

/-- The second spend is deferred, and only the first is committed. -/
theorem noDoubleSpend_after_walletCommit :
    ∃ n, Node.init.run conflictEvents = some n ∧ n.txCommitQ = [spendOf 1] ∧
      n.queues.txDeferQ = [spendOf 2] ∧ n.NoDoubleSpend := by
  have hrest : ∀ e ∈ conflictEvents.drop 4, e.resets = false := by decide
  have hquiet : AllSteps Quiet Node.init conflictEvents := by
    refine .cons trivial rfl (.cons trivial rfl (.cons trivial rfl (.cons ?_ rfl
      (.of_forall fun e he => quiet_of_resets_eq_false (hrest e he)))))
    refine fun _ => ⟨fun j => ?_, rfl⟩
    by_cases hj : j = 2 <;> simp [Node.setPc, Node.init, hj, Pc.held]
  have hqueues : (Node.init.run conflictEvents).map (fun n => (n.txCommitQ, n.queues.txDeferQ)) =
      some ([spendOf 1], [spendOf 2]) := by decide +kernel
  obtain ⟨n, hn, hqueues⟩ := Option.map_eq_some_iff.mp hqueues
  obtain ⟨hcommit, hdefer⟩ := Prod.mk.inj hqueues
  exact ⟨n, hn, hcommit, hdefer, noDoubleSpend_of_quietRun hquiet hn⟩

/-- The wallet commits while the first spend is validated; the filter has forgotten it
when the second one comes. -/
theorem walletCommit_lets_double_spend_in :
    ∃ n, Node.init.run (validateSpend 1 0 ++ walletSections 2 ++ validateSpend 2 1 ++
      [.thread 0 .pushCommitQ, .thread 1 .pushCommitQ]) = some n ∧ ¬ n.NoDoubleSpend := by
  have hqueue : (Node.init.run (validateSpend 1 0 ++ walletSections 2 ++ validateSpend 2 1 ++
      [.thread 0 .pushCommitQ, .thread 1 .pushCommitQ])).map (·.txCommitQ) =
        some [spendOf 1, spendOf 2] := by decide +kernel
  obtain ⟨n, hn, hcommit⟩ := Option.map_eq_some_iff.mp hqueue
  refine ⟨n, hn, fun hsafe => ?_⟩
  have hcompat : Compatible (spendOf 1) (spendOf 2) :=
    hsafe _ (by simp [hcommit]) _ (by simp [hcommit])
  exact hcompat (by decide) someCoin (by decide) (by decide)

end PyrrhaNode.TxAdmission
