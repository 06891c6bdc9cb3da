import PyrrhaNode.SpendProofCheck
import PyrrhaNode.TxId

/-!
# Creating a double-spend proof

Two transactions are searched for inputs that spend the same outpoint. The first such pair
gives the signatures of the proof, which are taken to be the first pushes of the inputs,
and the hashes of the parts of each transaction that its signature covers.
-/
namespace PyrrhaNode.SpendProofCreate
open List Serialize Transaction Script
open ScriptAttributes Coins SignatureHash ScriptOps
open SpendVerify SpendProof SpendProofCheck

def matchPayToPubkeyHash (script : CScript) : Bool :=
  script.length == 25 && script[0]? == some opDup && script[1]? == some opHash160 &&
    script[2]? == some 20 && script[23]? == some opEqualVerify && script[24]? == some opCheckSig

/-- Outputs that pay to the hash of a key or by the pay-to-public-key template. -/
def isValidType (out : CTxOut) : Bool :=
  if out.scriptType = .template then
    match getScriptTemplate out.scriptType out.scriptPubKey with
    | .ok _ templateHash argsHash _ =>
      (argsHash.length == 20 || argsHash.length == 32 || argsHash.length == 0) &&
        templateHash == p2pktId
    | _ => false
  else matchPayToPubkeyHash out.scriptPubKey

/-- The coin of an outpoint: an output of a transaction in the memory pool that is not null, or
else an unspent coin of the tip. -/
def viewMemPoolGetCoin (view : DspView) (o : COutPoint) : Option CTxOut :=
  match (view.poolOutput o).filter fun txout => txout.nValue != -1 with
  | some txout => some txout
  | none => ((view.pcoinsTip.getCoin o).filter fun coin => !coin.isSpent).map Coin.out

/-- The data of the first opcode, which is empty if it carries none or cannot be read. -/
def getSignature (script : CScript) : Bytes :=
  match getOp script with
  | some (_, data, _) => data
  | none => []

/-- The record of a spend before the hashes are computed. -/
def unhashedSpender (tx : CTransaction) (inp : CTxIn) : Spender where
  txVersion := tx.nVersion.toUInt32
  outSequence := inp.nSequence
  lockTime := tx.nLockTime
  hashPrevOutputs := Uint256.null
  hashSequence := Uint256.null
  hashOutputs := Uint256.null
  hashInAmounts := Uint256.null
  pushData := [getSignature inp.scriptSig]

/-- The hashes that the signature's type selects. A type that does not fit the transaction
leaves those that have not been computed null. -/
def hashTx (H : HashFns) (spender : Spender) (tx : CTransaction) (inputIndex : UInt32) : Spender :=
  let sigHashType := sigHashTypeOf spender.front
  if tx.vin.length ≤ inputIndex.toNat then spender
  else if !sigHashType.valid then spender
  else
    match signedInputs tx inputIndex sigHashType.inp with
    | none => spender
    | some inputs =>
      let hashed := { spender with
        hashPrevOutputs := H.hash256 (prevoutMessage inputs)
        hashSequence := H.hash256 (sequenceMessage inputs)
        hashInAmounts := H.hash256 (inputAmountMessage inputs) }
      match signedOutputs tx sigHashType.out with
      | none => hashed
      | some outputs => { hashed with hashOutputs := H.hash256 (outputsMessage outputs) }

def spenderRecord (H : HashFns) (tx : CTransaction) (inp : CTxIn) (inputIndex : ℕ) : Spender :=
  hashTx H (unhashedSpender tx inp) tx (UInt32.ofNat inputIndex)

/-- The first pair of inputs, with their indices, that spend the same outpoint. -/
def firstShared (t₁ t₂ : CTransaction) : Option ((CTxIn × ℕ) × CTxIn × ℕ) :=
  t₁.vin.zipIdx.findSome? fun in₁ =>
    (t₂.vin.zipIdx.find? fun in₂ => in₁.1.prevout = in₂.1.prevout).map fun in₂ => (in₁, in₂)

/-- The hexadecimal digits of a hash, from its last byte on. -/
def hashToString (hash : Uint256) : String :=
  String.ofList (hash.data.reverse.flatMap fun b =>
    [Nat.digitChar (b.toNat / 16), Nat.digitChar (b.toNat % 16)])

/-- By convention the spender with the smaller hash comes first. -/
def sortedProof (o : COutPoint) (s₁ s₂ : Spender) : DoubleSpendProof :=
  if comesAfter s₁ s₂ then ⟨o, s₂, s₁⟩ else ⟨o, s₁, s₂⟩

def create (H : HashFns) (view : DspView) (t₁ t₂ : CTransaction) :
    Except String DoubleSpendProof :=
  if getTxId H t₁ = getTxId H t₂ then
    throw "Can not create dsproof from identical transactions"
  else
    match firstShared t₁ t₂ with
    | none => throw "Transactions do not double spend each other"
    | some ((in₁, inputIndex1), in₂, inputIndex2) =>
      match viewMemPoolGetCoin view in₁.prevout with
      | none => throw ("Coin was not found for double spend " ++ hashToString in₁.prevout.hash)
      | some out =>
        if !isValidType out then
          throw "Can not create dsproof: Transaction was not a valid type"
        else if (getSignature in₁.scriptSig).isEmpty ||
            (getSignature in₂.scriptSig).isEmpty then
          throw "scriptSig has no signature"
        else if in₁.prevout.isNull then throw "Transactions do not double spend each other"
        else
          return sortedProof in₁.prevout (spenderRecord H t₁ in₁ inputIndex1)
            (spenderRecord H t₂ in₂ inputIndex2)

lemma find?_of_find?_zipIdx {α : Type*} {l : List α} {f : α → Bool} {a : α} {i : ℕ}
    (h : (l.zipIdx.find? fun p => f p.1) = some (a, i)) : l.find? f = some a ∧ l[i]? = some a := by
  have hmem : (a, i) ∈ l.zipIdx := List.mem_of_find?_eq_some h
  refine ⟨?_, by simpa [mk_mem_zipIdx_iff_getElem?] using hmem⟩
  have hmap := List.find?_map (p := f) (f := Prod.fst) (l := l.zipIdx)
  rw [zipIdx_map_fst] at hmap
  rw [hmap]
  exact congrArg (Option.map Prod.fst) h

variable {t₁ t₂ : CTransaction} {in₁ in₂ : CTxIn} {view : DspView} {o : COutPoint} {out : CTxOut}

/-- Both inputs of the pair are the first ones of their transactions that spend the outpoint. -/
lemma firstShared_eq_some {i₁ i₂ : ℕ} (h : firstShared t₁ t₂ = some ((in₁, i₁), in₂, i₂)) :
    in₂.prevout = in₁.prevout ∧ t₁.vin[i₁]? = some in₁ ∧ t₂.vin[i₂]? = some in₂ ∧
      (t₁.vin.find? fun inp => inp.prevout = in₁.prevout) = some in₁ ∧
      (t₂.vin.find? fun inp => inp.prevout = in₁.prevout) = some in₂ := by
  obtain ⟨before, p₁, after, hsplit, hp₁, hbefore⟩ := List.findSome?_eq_some_iff.mp h
  obtain ⟨p₂, hp₂, heq⟩ := Option.map_eq_some_iff.mp hp₁
  cases heq
  have hfind : (t₂.vin.zipIdx.find? fun p => decide (p.1.prevout = in₁.prevout)) =
      some (in₂, i₂) := by
    simpa only [eq_comm] using hp₂
  have hboth : (t₂.vin.find? fun inp => inp.prevout = in₁.prevout) = some in₂ ∧
      t₂.vin[i₂]? = some in₂ := find?_of_find?_zipIdx hfind
  obtain ⟨hfind₂, hget₂⟩ := hboth
  have hsame : in₂.prevout = in₁.prevout := by simpa using List.find?_some hfind₂
  have hget₁ : (in₁, i₁) ∈ t₁.vin.zipIdx := by simp [hsplit]
  rw [mk_mem_zipIdx_iff_getElem?] at hget₁
  refine ⟨hsame, hget₁, hget₂, ?_, hfind₂⟩
  have hvin : t₁.vin = before.map Prod.fst ++ in₁ :: after.map Prod.fst := by
    rw [← zipIdx_map_fst 0 t₁.vin, hsplit]
    simp
  have hnone : ((before.map Prod.fst).find? fun inp => decide (inp.prevout = in₁.prevout)) =
      none := by
    rw [List.find?_eq_none]
    intro inp hinp hprevout
    obtain ⟨p, hp, rfl⟩ := mem_map.mp hinp
    have hp₂ := Option.map_eq_none_iff.mp (hbefore p hp)
    rw [List.find?_eq_none] at hp₂
    refine hp₂ (in₂, i₂) (List.mem_of_find?_eq_some hfind) ?_
    simpa [hsame] using hprevout
  rw [hvin, List.find?_append, hnone]
  simp

lemma exists_firstShared (h₁ : in₁ ∈ t₁.vin) (h₂ : in₂ ∈ t₂.vin)
    (h : in₁.prevout = in₂.prevout) : ∃ r, firstShared t₁ t₂ = some r := by
  obtain ⟨i₁, hi₁⟩ := mem_iff_getElem?.mp h₁
  obtain ⟨i₂, hi₂⟩ := mem_iff_getElem?.mp h₂
  rw [← Option.ne_none_iff_exists']
  intro hnone
  have hin₁ := List.findSome?_eq_none_iff.mp hnone (in₁, i₁)
    (mk_mem_zipIdx_iff_getElem?.mpr hi₁)
  rw [Option.map_eq_none_iff, List.find?_eq_none] at hin₁
  exact hin₁ (in₂, i₂) (mk_mem_zipIdx_iff_getElem?.mpr hi₂) (by simpa using h)

/-- The coin that validation looks up is found unless it is null. -/
lemma viewMemPoolGetCoin_of_prevOutput (h : prevOutput view o = some out)
    (hvalue : out.nValue ≠ -1) :
    viewMemPoolGetCoin view o = some out := by
  have hkeep : (some out).filter (fun txout => txout.nValue != -1) = some out := by
    simp [hvalue]
  unfold viewMemPoolGetCoin
  unfold prevOutput at h
  cases hpool : view.poolOutput o with
  | none =>
    rw [hpool] at h
    obtain ⟨coin, hcoin, rfl⟩ := Option.map_eq_some_iff.mp h
    have hunspent : coin.isSpent = false := by simpa [Coin.isSpent] using hvalue
    simp [hcoin, hunspent]
  | some txout =>
    rw [hpool] at h
    cases h
    rw [hkeep]

lemma create_eq_ok {H : HashFns} {i₁ i₂ : ℕ} (hid : getTxId H t₁ ≠ getTxId H t₂)
    (hshared : firstShared t₁ t₂ = some ((in₁, i₁), in₂, i₂))
    (hcoin : viewMemPoolGetCoin view in₁.prevout = some out) (htype : isValidType out = true)
    (hsig₁ : getSignature in₁.scriptSig ≠ []) (hsig₂ : getSignature in₂.scriptSig ≠ [])
    (hnull : in₁.prevout.isNull = false) :
    create H view t₁ t₂ = .ok (sortedProof in₁.prevout (spenderRecord H t₁ in₁ i₁)
      (spenderRecord H t₂ in₂ i₂)) := by
  unfold create
  rw [if_neg hid, hshared]
  dsimp only
  rw [hcoin]
  simp [htype, hsig₁, hsig₂, hnull]
  rfl

lemma comesAfter_asymm {s₁ s₂ : Spender} (h : comesAfter s₁ s₂ = true) :
    comesAfter s₂ s₁ = false := by
  unfold comesAfter at h ⊢
  by_cases hsame : s₁.hashOutputs = s₂.hashOutputs
  · rw [if_pos hsame] at h
    rw [if_pos hsame.symm]
    simp only [decide_eq_true_eq, decide_eq_false_iff_not] at h ⊢
    omega
  · rw [if_neg hsame] at h
    rw [if_neg (Ne.symm hsame)]
    simp only [decide_eq_true_eq, decide_eq_false_iff_not] at h ⊢
    omega

/-- A proof of two spends is valid exactly if both are accepted for the key that the spending
transaction brings. -/
theorem validate_sortedProof {R : ScriptRules} {ptx : Option CTransaction} {s₁ s₂ : Spender}
    {tx : CTransaction} {pubkey : Bytes}
    (hnull : o.isNull = false) (hfront₁ : s₁.front ≠ []) (hfront₂ : s₂.front ≠ [])
    (hout : prevOutput view o = some out) (htx : ptx.or (view.mapNextTx o) = some tx)
    (hpush : secondPush tx o = some pubkey) :
    validate R view ptx (sortedProof o s₁ s₂) = .valid ↔
      s₁ ≠ s₂ ∧ pubkey ≠ [] ∧ (∃ m, verifySpender R s₁ pubkey out = .ok m) ∧
        ∃ m, verifySpender R s₂ pubkey out = .ok m := by
  have hspenders : ∀ p : DoubleSpendProof, p.prevOutpoint = o →
      (validateSpenders R p out tx = .valid ↔ pubkey ≠ [] ∧
        (∃ m, verifySpender R p.spender1 pubkey out = .ok m) ∧
        ∃ m, verifySpender R p.spender2 pubkey out = .ok m) := by
    intro p hp
    rw [validateSpenders_eq_valid, hp, hpush]
    simp
  rw [validate_eq_valid, sortedProof]
  split_ifs with horder
  · simp [hnull, hfront₁, hfront₂, hout, htx, hspenders, comesAfter_asymm horder, ne_comm,
      and_comm]
  · simp [hnull, hfront₁, hfront₂, hout, htx, hspenders, horder]

end PyrrhaNode.SpendProofCreate
