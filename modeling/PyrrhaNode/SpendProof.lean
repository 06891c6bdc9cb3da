import PyrrhaNode.Transaction

/-!
# Double-spend proofs on the wire

A proof names an outpoint and carries, for each of the two transactions that spend it,
the parts of the signed message and the signature. The records of the two spenders are
written one after the other, and the receiver reads them into an empty proof.
-/
namespace PyrrhaNode.SpendProof
open Serialize Transaction

/-- The limit for an element of a `pushData` vector. -/
def maxPushDataSize : ℕ := 520

/-- What a proof says about one of the transactions. -/
structure Spender where
  txVersion : UInt32
  outSequence : UInt32
  lockTime : UInt32
  hashPrevOutputs : Uint256
  hashSequence : Uint256
  hashOutputs : Uint256
  hashInAmounts : Uint256
  pushData : List Bytes
  deriving DecidableEq

/-- The first push, which is the only one that is looked at. -/
def Spender.front (s : Spender) : Bytes := s.pushData.headD []

structure DoubleSpendProof where
  prevOutpoint : COutPoint
  spender1 : Spender
  spender2 : Spender
  deriving DecidableEq

/-- The record of a spender, with an input-amounts hash that is given separately. -/
def serSpender (s : Spender) (hashInAmounts : Uint256) : Bytes :=
  ser32 s.txVersion ++ (ser32 s.outSequence ++ (ser32 s.lockTime ++
    (serUint256 s.hashPrevOutputs ++ (serUint256 s.hashSequence ++ (serUint256 hashInAmounts ++
      (serUint256 s.hashOutputs ++ serVector serBytes s.pushData))))))

/-- Both records are written with the input-amounts hash of the first spender. -/
def serProof (p : DoubleSpendProof) : Bytes :=
  serOutPoint p.prevOutpoint ++ (serSpender p.spender1 p.spender1.hashInAmounts ++
    serSpender p.spender2 p.spender1.hashInAmounts)

/-- Script data must be within size limits. -/
def checkFront (pushData : List Bytes) : Except String (List Bytes) :=
  match pushData with
  | front :: _ =>
    if maxPushDataSize < front.length then throw "DSProof script size limit exceeded"
    else return pushData
  | [] => return pushData

/-- The limits for data that is written. -/
def checkWritten (pushData : List Bytes) : Except String (List Bytes) :=
  if 1 < pushData.length then throw "DSProof contained more than 1 pushData"
  else checkFront pushData

/-- The bytes that are sent. The limits are checked after all has been written. -/
def serialize (p : DoubleSpendProof) : Except String Bytes := do
  let _ ← checkWritten p.spender1.pushData
  let _ ← checkWritten p.spender2.pushData
  return serProof p

/-- A record as it stands on the wire. -/
def readSpender : Reader Spender := do
  let txVersion ← readUInt32
  let outSequence ← readUInt32
  let lockTime ← readUInt32
  let hashPrevOutputs ← readUint256
  let hashSequence ← readUint256
  let hashInAmounts ← readUint256
  let hashOutputs ← readUint256
  let pushData ← readVector readByteVector
  return ⟨txVersion, outSequence, lockTime, hashPrevOutputs, hashSequence, hashOutputs,
    hashInAmounts, pushData⟩

/-- Data after the first element is discarded. -/
def checkRead (pushData : List Bytes) : Except String (List Bytes) := checkFront (pushData.take 1)

/-- The receiver's proof. The input-amounts hash of the second record is stored in the first
spender, so that of the second spender keeps its initial value. -/
def unserialize : Reader DoubleSpendProof := do
  let hash ← readUint256
  let first ← readSpender
  let second ← readSpender
  let pushData1 ← checkRead first.pushData
  let pushData2 ← checkRead second.pushData
  return ⟨⟨hash⟩,
    { first with hashInAmounts := second.hashInAmounts, pushData := pushData1 },
    { second with hashInAmounts := Uint256.null, pushData := pushData2 }⟩

/-- What arrives when a proof is sent to another node. -/
def relay (p : DoubleSpendProof) : Except String DoubleSpendProof := do
  let bytes ← serialize p
  let received ← unserialize bytes
  return received.1

/-- The data that a proof may carry to be sent. -/
def Sendable (pushData : List Bytes) : Prop :=
  pushData.length ≤ 1 ∧ ∀ data ∈ pushData, data.length ≤ maxPushDataSize

instance (pushData : List Bytes) : Decidable (Sendable pushData) :=
  inferInstanceAs (Decidable (_ ∧ _))

variable {pushData : List Bytes}

lemma checkFront_of_sendable (h : Sendable pushData) :
    checkFront pushData = .ok pushData := by
  cases pushData with
  | nil => rfl
  | cons front rest =>
    have hfront := h.2 front (by simp)
    simp only [checkFront, if_neg (Nat.not_lt.mpr hfront)]
    rfl

lemma checkWritten_of_sendable (h : Sendable pushData) :
    checkWritten pushData = .ok pushData := by
  rw [checkWritten, if_neg (Nat.not_lt.mpr h.1), checkFront_of_sendable h]

lemma checkRead_of_sendable (h : Sendable pushData) :
    checkRead pushData = .ok pushData := by
  rw [checkRead, List.take_of_length_le h.1, checkFront_of_sendable h]

lemma sendable_of_checkWritten {checked : List Bytes}
    (h : checkWritten pushData = .ok checked) : Sendable pushData := by
  unfold checkWritten at h
  split_ifs at h with hmany
  have hone : pushData.length ≤ 1 := Nat.le_of_not_lt hmany
  refine ⟨hone, fun data hdata => ?_⟩
  match pushData with
  | [front] =>
    obtain rfl : data = front := by simpa using hdata
    simp only [checkFront] at h
    split_ifs at h with hlong
    exact Nat.le_of_not_lt hlong

lemma Sendable.reads (h : Sendable pushData) :
    Reads (readVector readByteVector) (serVector serBytes pushData) pushData := by
  refine reads_readVector pushData (h.1.trans (by decide)) fun data hdata => ?_
  exact reads_readByteVector data ((h.2 data hdata).trans (by decide))

lemma reads_readSpender {s : Spender} (h : Sendable s.pushData) (hashInAmounts : Uint256) :
    Reads readSpender (serSpender s hashInAmounts) { s with hashInAmounts := hashInAmounts } := by
  refine (reads_readUInt32 _).bind ?_
  refine (reads_readUInt32 _).bind ?_
  refine (reads_readUInt32 _).bind ?_
  refine (reads_readUint256 _).bind ?_
  refine (reads_readUint256 _).bind ?_
  refine (reads_readUint256 _).bind ?_
  refine (reads_readUint256 _).bind ?_
  exact h.reads.bind_pure

/-- A proof within the limits arrives whole but for the input-amounts hash of its second
spender. -/
theorem relay_of_sendable {p : DoubleSpendProof} (h₁ : Sendable p.spender1.pushData)
    (h₂ : Sendable p.spender2.pushData) :
    relay p = .ok { p with spender2 := { p.spender2 with hashInAmounts := Uint256.null } } := by
  have hwrite : serialize p = .ok (serProof p) := by
    simp only [serialize, checkWritten_of_sendable h₁, checkWritten_of_sendable h₂]
    rfl
  have hread : Reads unserialize (serProof p)
      { p with spender2 := { p.spender2 with hashInAmounts := Uint256.null } } := by
    refine (reads_readUint256 _).bind ?_
    refine (reads_readSpender h₁ _).bind ?_
    rw [← List.append_nil (serSpender p.spender2 _)]
    refine (reads_readSpender h₂ _).bind ?_
    simp only [checkRead_of_sendable h₁, checkRead_of_sendable h₂]
    exact Reads.pure _
  simp only [relay, hwrite]
  show (unserialize (serProof p) >>= fun received => pure received.1) = _
  rw [hread.eval]
  rfl

/-- A proof that arrives unchanged is within the limits and has no input-amounts hash for its
second spender, and every such proof does. -/
theorem relay_eq_self_iff (p : DoubleSpendProof) :
    relay p = .ok p ↔ Sendable p.spender1.pushData ∧ Sendable p.spender2.pushData ∧
      p.spender2.hashInAmounts = Uint256.null := by
  constructor
  · intro h
    have hboth : Sendable p.spender1.pushData ∧ Sendable p.spender2.pushData := by
      cases hc₁ : checkWritten p.spender1.pushData with
      | error e =>
        simp only [relay, serialize, hc₁] at h
        cases h
      | ok data₁ =>
        cases hc₂ : checkWritten p.spender2.pushData with
        | error e =>
          simp only [relay, serialize, hc₁, hc₂] at h
          cases h
        | ok data₂ => exact ⟨sendable_of_checkWritten hc₁, sendable_of_checkWritten hc₂⟩
    rw [relay_of_sendable hboth.1 hboth.2] at h
    have hself := congrArg (fun q => q.spender2.hashInAmounts) (Except.ok.inj h)
    exact ⟨hboth.1, hboth.2, hself.symm⟩
  · rintro ⟨h₁, h₂, hnull⟩
    rw [relay_of_sendable h₁ h₂, ← hnull]

/-- A proof whose two spenders differ in their outputs. -/
def sampleProof : DoubleSpendProof where
  prevOutpoint := ⟨lengthHash.hash256 [0]⟩
  spender1 := ⟨0, 0, 0, lengthHash.hash256 [0], lengthHash.hash256 [0, 0],
    lengthHash.hash256 [0, 0, 0], lengthHash.hash256 [0], [[1]]⟩
  spender2 := ⟨0, 0, 0, lengthHash.hash256 [0], lengthHash.hash256 [0, 0],
    lengthHash.hash256 [0, 0, 0, 0], lengthHash.hash256 [0], [[2]]⟩

theorem relay_sampleProof_ne : ∃ q, relay sampleProof = .ok q ∧
    q.spender2.hashInAmounts ≠ sampleProof.spender2.hashInAmounts := by
  refine ⟨_, relay_of_sendable (by decide) (by decide), ?_⟩
  decide +kernel

end PyrrhaNode.SpendProof
