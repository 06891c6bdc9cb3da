import Mathlib
import PyrrhaNode.GroupTokens

/-!
# A round of transaction admission

An admission thread takes up to 200 transactions from the queue and validates them with one
validation state.  The state is not reset between them, so that a transaction is answered for
what the earlier ones of the round left in the state: peers are sent rejects and given scores for
transactions of others.  How a state that is not clean changes the answer to a transaction is
worked out here, and the answers are right exactly when no transaction meets such a state.
-/
namespace PyrrhaNode.AdmissionRound
open GroupTokens

inductive Mode where
  | valid
  | invalid
  | error
  deriving DecidableEq

structure CValidationState where
  mode : Mode := .valid
  nDoS : ℕ := 0
  strRejectReason : String := ""
  chRejectCode : ℕ := 0
  corruptionPossible : Bool := false
  strDebugMessage : String := ""
  deriving DecidableEq

/-- The calls by which checks report to a validation state. -/
inductive StateCall where
  | doS (level chRejectCode : ℕ) (strRejectReason : String) (corruption : Bool)
      (strDebugMessage : String)
  | error (strRejectReason : String)
  | setDebugMessage (s : String)
  /-- Sets the debug message if there is none. -/
  | defaultDebugMessage (s : String)
  deriving DecidableEq

def invalid (chRejectCode : ℕ) (strRejectReason : String) (strDebugMessage : String := "") :
    StateCall :=
  .doS 0 chRejectCode strRejectReason false strDebugMessage

namespace CValidationState

def isInvalid (state : CValidationState) : Bool := state.mode == .invalid

def call (state : CValidationState) : StateCall → CValidationState
  | .doS level chRejectCode strRejectReason corruption strDebugMessage =>
    let state := { state with
      chRejectCode := chRejectCode
      strRejectReason := strRejectReason
      corruptionPossible := corruption
      strDebugMessage := strDebugMessage }
    if state.mode = .error then state
    else { state with nDoS := state.nDoS + level, mode := .invalid }
  | .error strRejectReason =>
    let state := if state.mode = .valid then { state with strRejectReason := strRejectReason }
      else state
    { state with mode := .error }
  | .setDebugMessage s => { state with strDebugMessage := s }
  | .defaultDebugMessage s =>
    if state.strDebugMessage = "" then { state with strDebugMessage := s } else state

def calls (state : CValidationState) (l : List StateCall) : CValidationState := l.foldl call state

end CValidationState
open CValidationState (isInvalid)

def rejectNonstandard : ℕ := 0x40
def rejectInsufficientFee : ℕ := 0x42
def rejectInternal : ℕ := 0x100
def rejectHighFee : ℕ := 0x100
def rejectAlreadyKnown : ℕ := 0x101
def rejectConflict : ℕ := 0x102
def maxTxSigCheckCount : ℕ := 3000

/-- The outcome of a check that reports to the state when it fails. -/
inductive Check where
  | passed
  | failed (calls : List StateCall)

/-- What the checks find about a transaction at the time it is validated. -/
structure TxFacts where
  /-- `CheckTransaction` and `ContextualCheckTransaction` -/
  checkTransaction : Check
  isCoinBase : Bool
  /-- Why the transaction is not standard, if that is required. -/
  nonStandard : Option String
  checkFinalTx : Bool
  undersize : Bool
  idemExists : Bool
  isRespend : Bool
  isInteresting : Bool
  missingInputs : Bool
  checkSequenceLocks : Bool
  /-- The inputs are standard, or this is not required. -/
  areInputsStandard : Bool
  checkInputs : Check
  nSigOps : ℕ
  insufficientPriority : Bool
  belowMinRelayFee : Bool
  /-- The rate limit of free transactions is used up. -/
  freeLimitReached : Bool
  /-- The message about a fee that is too high. -/
  absurdFee : Option String
  /-- `CheckInputs` against the mandatory flags only. -/
  checkMandatory : Check

/-- What `ParallelAcceptToMemoryPool` does with the state and returns. -/
structure Report where
  calls : List StateCall
  accepted : Bool := false
  fMissingInputs : Bool := false

/-- The control flow does not depend on the state, so the calls on it are collected. -/
def parallelAcceptToMemoryPool (fLimitFree fRejectAbsurdFee : Bool) (tx : TxFacts) : Report :=
  match tx.checkTransaction with
  | .failed calls => { calls := calls ++ [.defaultDebugMessage "CheckTransaction failed"] }
  | .passed =>
    if tx.isCoinBase then { calls := [.doS 100 rejectInvalid "coinbase" false ""] }
    else match tx.nonStandard with
    | some reason =>
      { calls := [.setDebugMessage "IsStandardTx failed", invalid rejectNonstandard reason] }
    | none =>
      if !tx.checkFinalTx then { calls := [invalid rejectNonstandard "non-final"] }
      else if tx.undersize then { calls := [invalid rejectInvalid "txn-undersize"] }
      else if tx.idemExists then
        { calls := [invalid rejectAlreadyKnown "txn-already-in-mempool"] }
      else if tx.isRespend && !tx.isInteresting then
        { calls := [invalid rejectConflict "txn-txpool-conflict"] }
      else if tx.missingInputs then
        { calls := [.setDebugMessage "inputs-are-missing"], fMissingInputs := true }
      else if !tx.checkSequenceLocks then
        { calls := [invalid rejectNonstandard "non-BIP68-final"] }
      else if !tx.areInputsStandard then
        { calls := [invalid rejectNonstandard "bad-txns-nonstandard-inputs"] }
      else match tx.checkInputs with
      | .failed calls => { calls := calls ++ [.defaultDebugMessage "CheckInputs failed"] }
      | .passed =>
        if maxTxSigCheckCount < tx.nSigOps then
          { calls := [invalid rejectInvalid "bad-txns-too-many-sigchecks" (toString tx.nSigOps)] }
        else if tx.insufficientPriority then
          { calls := [invalid rejectInsufficientFee "insufficient priority"] }
        else if tx.belowMinRelayFee && (!fLimitFree || tx.freeLimitReached) then
          { calls := [invalid rejectInsufficientFee "mempool min fee not met"] }
        else match (if fRejectAbsurdFee then tx.absurdFee else none) with
        | some message => { calls := [invalid rejectHighFee "absurdly-high-fee" message] }
        | none =>
          match tx.checkMandatory with
          | .failed calls =>
            { calls := calls ++ [.defaultDebugMessage
                "CheckInputs failed against mandatory but not standard flags"] }
          | .passed =>
            if tx.isRespend then { calls := [invalid rejectConflict "txn-txpool-conflict"] }
            else { calls := [], accepted := true }

def maxTxPerRound : ℕ := 200
def maxRejectMessageLength : ℕ := 111

/-- A transaction from the queue, with what the thread finds out about it. -/
structure CTxInputData where
  id : ℕ
  nodeId : ℕ
  whitelisted : Bool
  /-- `TxAlreadyHave` -/
  alreadyHave : Bool
  tx : TxFacts
  /-- `FindNodeFromId` still finds the peer. -/
  nodeFound : Bool

/-- What a thread does after the validation of a transaction. -/
inductive Action where
  | relay (id : ℕ)
  | addOrphanTx (id nodeId : ℕ)
  | recentReject (id : ℕ)
  | forceRelay (id : ℕ)
  | uncache (id : ℕ)
  | received (id : ℕ)
  | reject (nodeId chRejectCode : ℕ) (reason : String) (id : ℕ)
  | misbehaving (nodeId nDoS : ℕ)
  deriving DecidableEq

/-- The validation of a transaction by an admission thread. -/
def reportOn (txd : CTxInputData) : Report := parallelAcceptToMemoryPool true false txd.tx

/-- A transaction that was not accepted and has all its inputs. -/
def discard (whitelistForceRelay : Bool) (state : CValidationState) (txd : CTxInputData) :
    List Action :=
  .recentReject txd.id ::
    (if txd.whitelisted && whitelistForceRelay && (!state.isInvalid || state.nDoS == 0) then
      [.forceRelay txd.id] else []) ++ [.uncache txd.id]

/-- What the peer hears about its transaction. -/
def answerPeer (state : CValidationState) (txd : CTxInputData) : List Action :=
  if state.isInvalid && decide (state.chRejectCode < rejectInternal) && txd.nodeFound then
    .reject txd.nodeId state.chRejectCode
        (String.ofList (state.strRejectReason.toList.take maxRejectMessageLength)) txd.id ::
      if 0 < state.nDoS then [.misbehaving txd.nodeId state.nDoS] else []
  else []

/-- What the thread does with a transaction after it was validated into `state`. -/
def actions (whitelistForceRelay : Bool) (state : CValidationState) (txd : CTxInputData) :
    List Action :=
  (if (reportOn txd).accepted then [.relay txd.id]
    else (if (reportOn txd).fMissingInputs then [.addOrphanTx txd.id txd.nodeId]
      else discard whitelistForceRelay state txd) ++ [.received txd.id]) ++
  answerPeer state txd

/-- One turn of the loop, from the state that the earlier ones left. -/
def handleTx (whitelistForceRelay : Bool) (state : CValidationState) (txd : CTxInputData) :
    CValidationState × List Action :=
  if txd.alreadyHave then (state, [])
  else
    (state.calls (reportOn txd).calls,
      actions whitelistForceRelay (state.calls (reportOn txd).calls) txd)

/-- The transactions of a round that are validated, each with the state that it meets. -/
def validated : CValidationState → List CTxInputData → List (CValidationState × CTxInputData)
  | _, [] => []
  | state, txd :: queue =>
    if txd.alreadyHave then validated state queue
    else (state, txd) :: validated (state.calls (reportOn txd).calls) queue

/-- A round of a thread over what it pops from the queue. -/
def admissionRound (queue : List CTxInputData) : List (CValidationState × CTxInputData) :=
  validated {} (queue.take maxTxPerRound)

/-- The state after the transaction was validated alone. -/
def verdict (txd : CTxInputData) : CValidationState :=
  ({} : CValidationState).calls (reportOn txd).calls

/-- The transaction is of a whitelisted peer and was thrown away. -/
def mayForceRelay (whitelistForceRelay : Bool) (txd : CTxInputData) : Bool :=
  !(reportOn txd).accepted && !(reportOn txd).fMissingInputs && txd.whitelisted &&
    whitelistForceRelay

/-- The peer answers only for its own transaction: a reject or a score goes to the peer of an
invalid transaction and says what its validation alone found, and so does the relay of a
transaction of a whitelisted peer. -/
structure OwnAnswer (whitelistForceRelay : Bool) (state : CValidationState) (txd : CTxInputData) :
    Prop where
  reject : ∀ node code reason id,
    .reject node code reason id ∈ (handleTx whitelistForceRelay state txd).2 →
      node = txd.nodeId ∧ id = txd.id ∧ (reportOn txd).accepted = false ∧
        (verdict txd).isInvalid = true ∧ code = (verdict txd).chRejectCode ∧
        reason = String.ofList ((verdict txd).strRejectReason.toList.take maxRejectMessageLength)
  score : ∀ node nDoS, .misbehaving node nDoS ∈ (handleTx whitelistForceRelay state txd).2 →
    node = txd.nodeId ∧ (reportOn txd).accepted = false ∧ (verdict txd).isInvalid = true ∧
      nDoS = (verdict txd).nDoS
  relay : .forceRelay txd.id ∈ (handleTx whitelistForceRelay state txd).2 ↔
    mayForceRelay whitelistForceRelay txd = true ∧
      ((verdict txd).isInvalid = true → (verdict txd).nDoS = 0)

/-- The state that a transaction meets does not show in the answer. Where it is invalid, there
must be no score left in it that the answer would include, and, if the transaction alone is not
found invalid, no reject code that is sent. -/
def Tolerates (whitelistForceRelay : Bool) (state : CValidationState) (txd : CTxInputData) :
    Prop :=
  match state.mode, (verdict txd).mode with
  | .valid, _ => True
  | .invalid, .invalid =>
    (txd.nodeFound = true → (verdict txd).chRejectCode < rejectInternal → state.nDoS = 0) ∧
      (mayForceRelay whitelistForceRelay txd = true → (verdict txd).nDoS = 0 → state.nDoS = 0)
  | .invalid, .valid =>
    (txd.nodeFound = true → rejectInternal ≤ state.chRejectCode) ∧
      (mayForceRelay whitelistForceRelay txd = true → state.nDoS = 0)
  | .invalid, .error => True
  | .error, .invalid =>
    mayForceRelay whitelistForceRelay txd = true → (verdict txd).nDoS = 0
  | .error, _ => True

/-- How the state after some calls, begun in `start`, relates to the one after the same calls on
a new state: nothing was reported, or what was reported is added, or an error ends it. -/
inductive Carries (start state own : CValidationState) : Prop where
  | untouched (hown : own.mode = .valid) (hnDoS : own.nDoS = 0) (hmode : state.mode = start.mode)
      (hscore : state.nDoS = start.nDoS) (hcode : state.chRejectCode = start.chRejectCode)
  | added (hown : own.mode = .invalid)
      (hmode : state.mode = if start.mode = .error then .error else .invalid)
      (hscore : start.mode ≠ .error → state.nDoS = start.nDoS + own.nDoS)
      (hcode : state.chRejectCode = own.chRejectCode)
      (hreason : state.strRejectReason = own.strRejectReason)
  | failed (hown : own.mode = .error) (hmode : state.mode = .error)

lemma CValidationState.call_doS (state : CValidationState) (level chRejectCode : ℕ)
    (strRejectReason : String) (corruption : Bool) (strDebugMessage : String) :
    let after := state.call (.doS level chRejectCode strRejectReason corruption strDebugMessage)
    after.mode = (if state.mode = .error then .error else .invalid) ∧
      (state.mode ≠ .error → after.nDoS = state.nDoS + level) ∧
      after.chRejectCode = chRejectCode ∧ after.strRejectReason = strRejectReason := by
  by_cases he : state.mode = .error <;> simp [call, he]

variable {state : CValidationState} {report : Report}

lemma Carries.call {start own : CValidationState} (h : Carries start state own)
    (c : StateCall) : Carries start (state.call c) (own.call c) := by
  have hdebug (m m' : String) :
      Carries start (state.call (.setDebugMessage m)) (own.call (.setDebugMessage m')) := by
    cases h with
    | untouched hown hnDoS hmode hscore hcode => exact .untouched hown hnDoS hmode hscore hcode
    | added hown hmode hscore hcode hreason => exact .added hown hmode hscore hcode hreason
    | failed hown hmode => exact .failed hown hmode
  cases c with
  | doS level chRejectCode strRejectReason corruption strDebugMessage =>
    obtain ⟨hm, hn, hc, hr⟩ :=
      state.call_doS level chRejectCode strRejectReason corruption strDebugMessage
    obtain ⟨hm', hn', hc', hr'⟩ :=
      own.call_doS level chRejectCode strRejectReason corruption strDebugMessage
    cases h with
    | untouched hown hnDoS hmode hscore hcode =>
      refine .added (by simp [hm', hown]) (by rw [hm, hmode]) (fun he => ?_) (hc.trans hc'.symm)
        (hr.trans hr'.symm)
      rw [hn (by rwa [hmode]), hn' (by simp [hown]), hscore, hnDoS, zero_add]
    | added hown hmode hscore hcode hreason =>
      refine .added (by simp [hm', hown]) ?_ (fun he => ?_) (hc.trans hc'.symm) (hr.trans hr'.symm)
      · by_cases he : start.mode = .error <;> simp [hm, hmode]
      · rw [hn (by simp [hmode, he]), hn' (by simp [hown]), hscore he, add_assoc]
    | failed hown hmode => exact .failed (by simp [hm', hown]) (by simp [hm, hmode])
  | error strRejectReason => exact .failed rfl rfl
  | setDebugMessage s => exact hdebug s s
  | defaultDebugMessage s =>
    have hset (t : CValidationState) :
        ∃ m, t.call (.defaultDebugMessage s) = t.call (.setDebugMessage m) := by
      rw [CValidationState.call]
      split_ifs
      exacts [⟨s, rfl⟩, ⟨t.strDebugMessage, rfl⟩]
    obtain ⟨m, hm⟩ := hset state
    obtain ⟨m', hm'⟩ := hset own
    rw [hm, hm']
    exact hdebug m m'

lemma carries_calls (start : CValidationState) (l : List StateCall) :
    Carries start (start.calls l) (({} : CValidationState).calls l) := by
  have hrun : ∀ (l : List StateCall) (state own : CValidationState), Carries start state own →
      Carries start (state.calls l) (own.calls l) := by
    intro l
    induction l with
    | nil => exact fun _ _ h => h
    | cons c l ih => exact fun state own h => ih _ _ (h.call c)
  exact hrun l start {} (.untouched rfl rfl rfl rfl rfl)

/-- A report that accepts the transaction makes no calls. -/
def Report.Silent (report : Report) : Prop := report.accepted = true → report.calls = []

lemma silent_of_not_accepted (h : report.accepted = false) : report.Silent := by
  intro hyes
  rw [h] at hyes
  cases hyes

lemma Report.Silent.ite {P : Prop} [Decidable P] {report' : Report} (h : report.Silent)
    (h' : report'.Silent) : (if P then report else report').Silent := by
  split_ifs
  · exact h
  · exact h'

lemma silent_parallelAccept (fLimitFree fRejectAbsurdFee : Bool) (tx : TxFacts) :
    (parallelAcceptToMemoryPool fLimitFree fRejectAbsurdFee tx).Silent := by
  rw [parallelAcceptToMemoryPool]
  cases tx.checkTransaction with
  | failed calls => exact silent_of_not_accepted rfl
  | passed =>
    apply Report.Silent.ite (silent_of_not_accepted rfl)
    cases tx.nonStandard with
    | some reason => exact silent_of_not_accepted rfl
    | none =>
      -- from the lock time to the standard inputs
      iterate 7 apply Report.Silent.ite (silent_of_not_accepted rfl)
      cases tx.checkInputs with
      | failed calls => exact silent_of_not_accepted rfl
      | passed =>
        iterate 3 apply Report.Silent.ite (silent_of_not_accepted rfl)
        cases (if fRejectAbsurdFee then tx.absurdFee else none) with
        | some message => exact silent_of_not_accepted rfl
        | none =>
          cases tx.checkMandatory with
          | failed calls => exact silent_of_not_accepted rfl
          | passed => exact Report.Silent.ite (silent_of_not_accepted rfl) fun _ => rfl

lemma not_accepted_of_invalid {txd : CTxInputData} (h : (verdict txd).isInvalid = true) :
    (reportOn txd).accepted = false := by
  by_contra hno
  have hsilent := silent_parallelAccept true false txd.tx (eq_true_of_ne_false hno)
  rw [verdict, reportOn, hsilent] at h
  cases h

section Answers
variable {whitelistForceRelay : Bool} {state : CValidationState} {txd : CTxInputData}

lemma mem_answerPeer {a : Action} : a ∈ answerPeer state txd ↔
    state.isInvalid = true ∧ state.chRejectCode < rejectInternal ∧ txd.nodeFound = true ∧
      (a = .reject txd.nodeId state.chRejectCode
          (String.ofList (state.strRejectReason.toList.take maxRejectMessageLength)) txd.id ∨
        0 < state.nDoS ∧ a = .misbehaving txd.nodeId state.nDoS) := by
  rw [answerPeer]
  split_ifs with hsend hscore
  · simp_all
  · simp_all
  · simp only [Bool.and_eq_true, decide_eq_true_eq, not_and] at hsend
    simp only [List.not_mem_nil, false_iff]
    rintro ⟨hinvalid, hcode, hnode, -⟩
    exact hsend ⟨hinvalid, hcode⟩ hnode

lemma reject_mem_actions {node code : ℕ} {reason : String} {id : ℕ} :
    .reject node code reason id ∈ actions whitelistForceRelay state txd ↔
      state.isInvalid = true ∧ state.chRejectCode < rejectInternal ∧ txd.nodeFound = true ∧
        node = txd.nodeId ∧ code = state.chRejectCode ∧ id = txd.id ∧
        reason = String.ofList (state.strRejectReason.toList.take maxRejectMessageLength) := by
  have hpeer : .reject node code reason id ∈ actions whitelistForceRelay state txd ↔
      .reject node code reason id ∈ answerPeer state txd := by
    rw [actions, discard]
    split_ifs <;> simp
  rw [hpeer, mem_answerPeer]
  simp
  tauto

lemma misbehaving_mem_actions {node nDoS : ℕ} :
    .misbehaving node nDoS ∈ actions whitelistForceRelay state txd ↔
      state.isInvalid = true ∧ state.chRejectCode < rejectInternal ∧ txd.nodeFound = true ∧
        node = txd.nodeId ∧ nDoS = state.nDoS ∧ 0 < state.nDoS := by
  have hpeer : .misbehaving node nDoS ∈ actions whitelistForceRelay state txd ↔
      .misbehaving node nDoS ∈ answerPeer state txd := by
    rw [actions, discard]
    split_ifs <;> simp
  rw [hpeer, mem_answerPeer]
  simp
  tauto

lemma forceRelay_mem_actions :
    .forceRelay txd.id ∈ actions whitelistForceRelay state txd ↔
      mayForceRelay whitelistForceRelay txd = true ∧
        (state.isInvalid = true → state.nDoS = 0) := by
  have hno : Action.forceRelay txd.id ∉ answerPeer state txd := by
    rw [answerPeer]
    split_ifs <;> simp
  rw [actions, List.mem_append, mayForceRelay, discard]
  simp only [hno]
  cases (reportOn txd).accepted <;> cases (reportOn txd).fMissingInputs <;>
    cases txd.whitelisted <;> cases whitelistForceRelay <;> simp
  cases state.isInvalid <;> simp

lemma ownAnswer_iff_state (hnew : txd.alreadyHave = false) {after : CValidationState}
    (hafter : state.calls (reportOn txd).calls = after) :
    OwnAnswer whitelistForceRelay state txd ↔
      (after.isInvalid = true → after.chRejectCode < rejectInternal → txd.nodeFound = true →
        (verdict txd).isInvalid = true ∧ after.chRejectCode = (verdict txd).chRejectCode ∧
          String.ofList (after.strRejectReason.toList.take maxRejectMessageLength) =
            String.ofList ((verdict txd).strRejectReason.toList.take maxRejectMessageLength) ∧
          (0 < after.nDoS → after.nDoS = (verdict txd).nDoS)) ∧
      (mayForceRelay whitelistForceRelay txd = true →
        ((after.isInvalid = true → after.nDoS = 0) ↔
          ((verdict txd).isInvalid = true → (verdict txd).nDoS = 0))) := by
  have hactions : (handleTx whitelistForceRelay state txd).2 =
      actions whitelistForceRelay after txd := by
    simp [handleTx, hnew, hafter]
  constructor
  · rintro ⟨hreject, hscore, hrelay⟩
    rw [hactions] at hreject hscore hrelay
    rw [forceRelay_mem_actions] at hrelay
    refine ⟨fun hinvalid hcode hnode => ?_, fun hmay => ?_⟩
    · obtain ⟨-, -, -, hverdict, hcode', hreason⟩ := hreject _ _ _ _
        (reject_mem_actions.mpr ⟨hinvalid, hcode, hnode, rfl, rfl, rfl, rfl⟩)
      refine ⟨hverdict, hcode', hreason, fun hpos => ?_⟩
      exact (hscore _ _ (misbehaving_mem_actions.mpr
        ⟨hinvalid, hcode, hnode, rfl, rfl, hpos⟩)).2.2.2
    · simpa [hmay] using hrelay
  · rintro ⟨hanswer, hrelay⟩
    refine ⟨fun node code reason id hmem => ?_, fun node nDoS hmem => ?_, ?_⟩
    · rw [hactions, reject_mem_actions] at hmem
      obtain ⟨hinvalid, hcode, hnode, rfl, rfl, rfl, rfl⟩ := hmem
      obtain ⟨hverdict, hcode', hreason, -⟩ := hanswer hinvalid hcode hnode
      exact ⟨rfl, rfl, not_accepted_of_invalid hverdict, hverdict, hcode', hreason⟩
    · rw [hactions, misbehaving_mem_actions] at hmem
      obtain ⟨hinvalid, hcode, hnode, rfl, rfl, hpos⟩ := hmem
      obtain ⟨hverdict, -, -, hscore⟩ := hanswer hinvalid hcode hnode
      exact ⟨rfl, not_accepted_of_invalid hverdict, hverdict, hscore hpos⟩
    · rw [hactions, forceRelay_mem_actions]
      exact and_congr_right hrelay

/-- The answer to a validated transaction is its own exactly when the state that it meets does
not show. -/
theorem ownAnswer_iff (hstate : state.mode = .valid → state.nDoS = 0)
    (hnew : txd.alreadyHave = false) :
    OwnAnswer whitelistForceRelay state txd ↔ Tolerates whitelistForceRelay state txd := by
  have hcarries : Carries state (state.calls (reportOn txd).calls) (verdict txd) :=
    carries_calls state _
  rw [ownAnswer_iff_state hnew rfl, Tolerates]
  generalize state.calls (reportOn txd).calls = after at hcarries
  cases hcarries with
  | untouched hown hnDoS hmode hscore hcode =>
    rw [hown]
    cases hcase : state.mode with
    | valid | error => simp [isInvalid, hmode, hown, hcase]
    | invalid =>
      have hi : after.isInvalid = true := by simp [isInvalid, hmode, hcase]
      have hv : (verdict txd).isInvalid = false := by simp [isInvalid, hown]
      constructor
      · rintro ⟨hanswer, hrelay⟩
        refine ⟨fun hnode => ?_, fun hmay => ?_⟩
        · by_contra hlt
          have hblamed := (hanswer hi (by omega) hnode).1
          simp [hv] at hblamed
        · rw [← hscore]
          exact (hrelay hmay).mpr (by simp [hv]) hi
      · rintro ⟨hquiet, hzero⟩
        refine ⟨fun _ hlt hnode => ?_, fun hmay => ?_⟩
        · have := hquiet hnode
          omega
        · simp [hv, hscore, hzero hmay]
  | added hown hmode hscore hcode hreason =>
    rw [hown]
    cases hcase : state.mode with
    | valid =>
      have hzero := hstate hcase
      simp [isInvalid, hmode, hown, hcase, hcode, hreason, hscore, hzero]
    | invalid =>
      have hi : after.isInvalid = true := by simp [isInvalid, hmode, hcase]
      have hv : (verdict txd).isInvalid = true := by simp [isInvalid, hown]
      have hsum := hscore (by simp [hcase])
      constructor
      · rintro ⟨hanswer, hrelay⟩
        refine ⟨fun hnode hlt => ?_, fun hmay hzero => ?_⟩
        · have hown := (hanswer hi (by omega) hnode).2.2.2
          omega
        · have := (hrelay hmay).mpr (fun _ => hzero) hi
          omega
      · rintro ⟨hquiet, hrelay⟩
        refine ⟨fun _ hlt hnode => ⟨hv, hcode, by rw [hreason], fun _ => ?_⟩, fun hmay => ?_⟩
        · have := hquiet hnode (by omega)
          omega
        · simp only [hi, hv, true_implies]
          refine ⟨fun _ => by omega, fun hz => ?_⟩
          have := hrelay hmay hz
          omega
    | error => simp [isInvalid, hmode, hown, hcase]
  | failed hown hmode =>
    cases hcase : state.mode <;> simp [isInvalid, hmode, hown]

end Answers

lemma nDoS_calls (h : state.mode = .valid → state.nDoS = 0)
    (l : List StateCall) : (state.calls l).mode = .valid → (state.calls l).nDoS = 0 := by
  intro hvalid
  cases carries_calls state l with
  | untouched _ _ hmode hscore _ =>
    rw [hscore]
    exact h (by rw [← hmode, hvalid])
  | added _ hmode _ _ _ =>
    rw [hvalid] at hmode
    split_ifs at hmode
  | failed _ hmode =>
    rw [hvalid] at hmode
    cases hmode

/-- What every report keeps holds of each state that a validated transaction meets. -/
lemma validated_induction {P : CValidationState → Prop} {queue : List CTxInputData}
    (hstep : ∀ txd ∈ queue, ∀ state, P state → P (state.calls (reportOn txd).calls)) (h : P state)
    {p : CValidationState × CTxInputData} (hp : p ∈ validated state queue) :
    P p.1 ∧ p.2 ∈ queue ∧ p.2.alreadyHave = false := by
  induction queue generalizing state with
  | nil => simp [validated] at hp
  | cons txd queue ih =>
    have hrest := fun t ht => hstep t (List.mem_cons_of_mem txd ht)
    rw [validated] at hp
    split_ifs at hp with hhave
    · exact (ih hrest h hp).imp_right (.imp_left (List.mem_cons_of_mem txd))
    · rcases List.mem_cons.mp hp with rfl | hp
      · exact ⟨h, List.mem_cons_self, by simpa using hhave⟩
      · exact (ih hrest (hstep txd List.mem_cons_self state h) hp).imp_right
          (.imp_left (List.mem_cons_of_mem txd))

lemma ownAnswer_iff_of_mem {whitelistForceRelay : Bool} {queue : List CTxInputData}
    {p : CValidationState × CTxInputData} (hp : p ∈ admissionRound queue) :
    OwnAnswer whitelistForceRelay p.1 p.2 ↔ Tolerates whitelistForceRelay p.1 p.2 := by
  obtain ⟨hstate, -, hnew⟩ := validated_induction
    (P := fun state => state.mode = .valid → state.nDoS = 0) (fun _ _ _ h => nDoS_calls h _)
    (fun _ => rfl) hp
  exact ownAnswer_iff hstate hnew

/-- In every run of admission rounds all peers answer only for their own transactions exactly
when every transaction tolerates the state that it meets. -/
theorem ownAnswers_iff (whitelistForceRelay : Bool) (rounds : List (List CTxInputData)) :
    (∀ queue ∈ rounds, ∀ p ∈ admissionRound queue, OwnAnswer whitelistForceRelay p.1 p.2) ↔
      ∀ queue ∈ rounds, ∀ p ∈ admissionRound queue, Tolerates whitelistForceRelay p.1 p.2 := by
  refine forall₂_congr fun queue _ => forall₂_congr fun p hp => ?_
  exact ownAnswer_iff_of_mem hp

/-- A round in which no transaction is found invalid is answered right. -/
theorem ownAnswers_of_none_invalid (whitelistForceRelay : Bool) {queue : List CTxInputData}
    (hqueue : ∀ txd ∈ queue, (verdict txd).mode ≠ .invalid) :
    ∀ p ∈ admissionRound queue, OwnAnswer whitelistForceRelay p.1 p.2 := by
  intro p hp
  have hnone : ∀ txd ∈ queue.take maxTxPerRound, (verdict txd).mode ≠ .invalid :=
    fun txd htxd => hqueue txd (List.mem_of_mem_take htxd)
  obtain ⟨hmode, hmem, -⟩ := validated_induction (P := (·.mode ≠ .invalid)) (by
    intro txd htxd state hstate
    cases carries_calls state (reportOn txd).calls with
    | untouched _ _ hmode _ _ => rwa [hmode]
    | added hown _ _ _ _ => exact absurd hown (hnone txd htxd)
    | failed _ hmode => simp [hmode]) (by decide) hp
  refine (ownAnswer_iff_of_mem hp).mpr ?_
  have hown := hnone p.2 hmem
  rw [Tolerates]
  split <;> simp_all

/-- A transaction without any problems. -/
def fineTx : TxFacts where
  checkTransaction := .passed
  isCoinBase := false
  nonStandard := none
  checkFinalTx := true
  undersize := false
  idemExists := false
  isRespend := false
  isInteresting := false
  missingInputs := false
  checkSequenceLocks := true
  areInputsStandard := true
  checkInputs := .passed
  nSigOps := 1
  insufficientPriority := false
  belowMinRelayFee := false
  freeLimitReached := false
  absurdFee := none
  checkMandatory := .passed

/-- A coinbase from peer 1, then a good transaction from peer 2. -/
def twoPeers : List CTxInputData :=
  [⟨11, 1, false, false, { fineTx with isCoinBase := true }, true⟩,
    ⟨12, 2, false, false, fineTx, true⟩]

/-- The second peer is sent a reject and given the score of the first one. -/
theorem second_peer_is_blamed :
    (admissionRound twoPeers).map (fun p => (handleTx true p.1 p.2).2) =
        [[.recentReject 11, .uncache 11, .received 11, .reject 1 rejectInvalid "coinbase" 11,
          .misbehaving 1 100],
        [.relay 12, .reject 2 rejectInvalid "coinbase" 12, .misbehaving 2 100]] ∧
      ¬ ∀ p ∈ admissionRound twoPeers, OwnAnswer true p.1 p.2 := by
  refine ⟨by decide, fun h => ?_⟩
  have hsecond := h (({} : CValidationState).calls
    [.doS 100 rejectInvalid "coinbase" false ""], ⟨12, 2, false, false, fineTx, true⟩) (by
      right
      left)
  have hblame := hsecond.score 2 100 (by decide)
  exact absurd hblame.2.1 (by decide)

end PyrrhaNode.AdmissionRound
