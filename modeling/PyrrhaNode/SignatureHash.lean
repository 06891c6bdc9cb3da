import PyrrhaNode.Transaction

/-!
# Signature hashes

A signature covers a hash of parts of a transaction. Its type selects the inputs and
the outputs that are covered: all of them, the first ones, the signed input alone, or
two outputs. The selected prevouts, amounts, sequences and outputs are hashed one by
one, and the hashes enter the signed message with the version, the lock time, the
script code and the type itself.
-/
namespace PyrrhaNode.SignatureHash
open List ByteCodec Serialize Transaction

/-- The inputs that a signature covers. -/
inductive SigHashInput where
  | all
  | firstN (n : UInt8)
  | thisIn
  deriving DecidableEq

/-- The outputs that a signature covers. -/
inductive SigHashOutput where
  | all
  | firstN (n : UInt8)
  | two (a b : UInt8)
  deriving DecidableEq

structure SigHashType where
  valid : Bool
  inp : SigHashInput
  out : SigHashOutput
  deriving DecidableEq

namespace SigHashInput

def code : SigHashInput → UInt8
  | .all => 0
  | .firstN _ => 1
  | .thisIn => 2

def data : SigHashInput → Bytes
  | .firstN n => [n]
  | _ => []

/-- The input type of a code, with its data taken from the front of the bytes. -/
def read : UInt8 → Bytes → Option (SigHashInput × Bytes)
  | 0, bytes => some (.all, bytes)
  | 1, n :: bytes => some (.firstN n, bytes)
  | 2, bytes => some (.thisIn, bytes)
  | _, _ => none

theorem read_data (inp : SigHashInput) (rest : Bytes) :
    read inp.code (inp.data ++ rest) = some (inp, rest) := by
  cases inp <;> rfl

end SigHashInput

namespace SigHashOutput

def code : SigHashOutput → UInt8
  | .all => 0
  | .firstN _ => 1
  | .two _ _ => 2

def data : SigHashOutput → Bytes
  | .all => []
  | .firstN n => [n]
  | .two a b => [a, b]

/-- The output type of a code, with its data taken from the front of the bytes. -/
def read : UInt8 → Bytes → Option (SigHashOutput × Bytes)
  | 0, bytes => some (.all, bytes)
  | 1, n :: bytes => some (.firstN n, bytes)
  | 2, a :: b :: bytes => some (.two a b, bytes)
  | _, _ => none

theorem read_data (out : SigHashOutput) (rest : Bytes) :
    read out.code (out.data ++ rest) = some (out, rest) := by
  cases out <;> rfl

end SigHashOutput

namespace SigHashType

/-- The type that covers everything. -/
def all : SigHashType := ⟨true, .all, .all⟩

def invalid : SigHashType := ⟨false, .all, .all⟩

/-- The bytes that follow a signature. The type that covers everything has none. -/
def appendToSig (t : SigHashType) : Bytes :=
  if !t.valid then []
  else if t.inp = .all ∧ t.out = .all then []
  else ((t.inp.code <<< 4) ||| t.out.code) :: (t.inp.data ++ t.out.data)

/-- The type that bytes stand for. Bytes must not be missing or left over. -/
def fromBytes : Bytes → SigHashType
  | [] => all
  | io :: bytes =>
    match SigHashInput.read (io >>> 4) bytes with
    | none => invalid
    | some (inp, bytes) =>
      match SigHashOutput.read (io &&& 0xf) bytes with
      | some (out, []) => ⟨true, inp, out⟩
      | _ => invalid

theorem code_unpack (inp : SigHashInput) (out : SigHashOutput) :
    ((inp.code <<< 4) ||| out.code) >>> 4 = inp.code ∧
      ((inp.code <<< 4) ||| out.code) &&& 0xf = out.code := by
  cases inp <;> cases out <;> simp only [SigHashInput.code, SigHashOutput.code] <;> decide

theorem fromBytes_appendToSig {t : SigHashType} (h : t.valid = true) :
    fromBytes t.appendToSig = t := by
  obtain ⟨valid, inp, out⟩ := t
  cases h
  by_cases hall : inp = .all ∧ out = .all
  · obtain ⟨rfl, rfl⟩ := hall
    rfl
  · have hout := SigHashOutput.read_data out []
    rw [append_nil] at hout
    simp [appendToSig, hall, fromBytes, code_unpack inp out, SigHashInput.read_data, hout]

theorem eq_of_appendToSig_eq {t₁ t₂ : SigHashType} (h₁ : t₁.valid = true) (h₂ : t₂.valid = true)
    (h : t₁.appendToSig = t₂.appendToSig) : t₁ = t₂ := by
  rw [← fromBytes_appendToSig h₁, h, fromBytes_appendToSig h₂]

theorem length_appendToSig_le (t : SigHashType) : t.appendToSig.length ≤ 4 := by
  obtain ⟨valid, inp, out⟩ := t
  cases valid <;> cases inp <;> cases out <;>
    simp [appendToSig, SigHashInput.data, SigHashOutput.data]

end SigHashType

def prevoutMessage (inputs : List CTxIn) : Bytes :=
  inputs.flatMap fun inp => ser8 inp.type ++ serOutPoint inp.prevout

def inputAmountMessage (inputs : List CTxIn) : Bytes :=
  inputs.flatMap fun inp => serInt64 inp.amount

def sequenceMessage (inputs : List CTxIn) : Bytes :=
  inputs.flatMap fun inp => ser32 inp.nSequence

def outputsMessage (outputs : List CTxOut) : Bytes := outputs.flatMap serTxOut

/-- The inputs that a type covers. Counts are kept in 32 bits. -/
def signedInputs (tx : CTransaction) (nIn : UInt32) : SigHashInput → Option (List CTxIn)
  | .firstN n => if tx.vin.length < n.toNat then none else some (tx.vin.take n.toNat)
  | .thisIn => (tx.vin[nIn.toNat]?).map fun inp => [inp]
  | .all => some (tx.vin.take (tx.vin.length % 2 ^ 32))

/-- The outputs that a type covers. -/
def signedOutputs (tx : CTransaction) : SigHashOutput → Option (List CTxOut)
  | .two a b =>
    match tx.vout[a.toNat]?, tx.vout[b.toNat]? with
    | some outA, some outB => some [outA, outB]
    | _, _ => none
  | .firstN n => if tx.vout.length < n.toNat then none else some (tx.vout.take n.toNat)
  | .all => some (tx.vout.take (tx.vout.length % 2 ^ 32))

/-- The hashes of the covered parts. -/
structure Components where
  hashPrevouts : Uint256
  hashSequence : Uint256
  hashInputAmounts : Uint256
  hashOutputs : Uint256
  deriving DecidableEq

def componentsOf (H : HashFns) (inputs : List CTxIn) (outputs : List CTxOut) : Components where
  hashPrevouts := H.hash256 (prevoutMessage inputs)
  hashSequence := H.hash256 (sequenceMessage inputs)
  hashInputAmounts := H.hash256 (inputAmountMessage inputs)
  hashOutputs := H.hash256 (outputsMessage outputs)

def signatureHashPyrrhaComponents (H : HashFns) (txTo : CTransaction) (nIn : UInt32)
    (sigHashType : SigHashType) : Option Components :=
  if txTo.vin.length ≤ nIn.toNat then none
  else if !sigHashType.valid then none
  else
    match signedInputs txTo nIn sigHashType.inp, signedOutputs txTo sigHashType.out with
    | some inputs, some outputs => some (componentsOf H inputs outputs)
    | _, _ => none

def sigHashMessage (scriptCode : CScript) (txVersion : UInt8) (txLockTime : UInt32)
    (sigHashType : SigHashType) (c : Components) : Bytes :=
  ser8 txVersion ++ serUint256 c.hashPrevouts ++ serUint256 c.hashInputAmounts ++
    serUint256 c.hashSequence ++ serBytes scriptCode ++ serUint256 c.hashOutputs ++
    ser32 txLockTime ++ serBytes sigHashType.appendToSig

/-- The signature hash of given hashes of the covered parts. -/
def signatureHashOf (H : HashFns) (scriptCode : CScript) (txVersion : UInt8) (txLockTime : UInt32)
    (sigHashType : SigHashType) (c : Components) : Uint256 :=
  H.hash256 (sigHashMessage scriptCode txVersion txLockTime sigHashType c)

/-- The signature hash of an input, unless the type does not fit the transaction. -/
def signatureHashPyrrha (H : HashFns) (scriptCode : CScript) (txTo : CTransaction) (nIn : UInt32)
    (sigHashType : SigHashType) : Option Uint256 :=
  (signatureHashPyrrhaComponents H txTo nIn sigHashType).map
    (signatureHashOf H scriptCode txTo.nVersion txTo.nLockTime sigHashType)

/-- The fields of an input that a signature covers. -/
structure SignedFields where
  type : UInt8
  prevout : COutPoint
  amount : Int64
  nSequence : UInt32
  deriving DecidableEq

def signedFields (inp : CTxIn) : SignedFields := ⟨inp.type, inp.prevout, inp.amount, inp.nSequence⟩

theorem map_eq_of_flatMap_eq {α κ : Type*} {key : α → κ} {enc : κ → Bytes}
    (hfree : PrefixFreeOn Set.univ enc) (hne : ∀ k, enc k ≠ []) {l l' : List α}
    (h : (l.flatMap fun a => enc (key a)) = l'.flatMap fun a => enc (key a)) :
    l.map key = l'.map key := by
  refine hfree.flatMap_injective (fun k _ => hne k) _ _ (fun _ _ => trivial) (fun _ _ => trivial) ?_
  rw [flatMap_map, flatMap_map]
  exact h

variable {l l' : List CTxIn} {tx₁ tx₂ : CTransaction} {out : SigHashOutput} {H : HashFns}

theorem map_eq_of_prevoutMessage_eq (h : prevoutMessage l = prevoutMessage l') :
    (l.map fun inp => (inp.type, inp.prevout)) = l'.map fun inp => (inp.type, inp.prevout) := by
  have hfree : PrefixFreeOn Set.univ
      fun k : UInt8 × COutPoint => ser8 k.1 ++ serOutPoint k.2 := by
    intro a _ b _ xs ys he
    obtain ⟨htype, he⟩ := ser8_prefixFree _ trivial _ trivial _ _ he
    obtain ⟨hprevout, he⟩ := serOutPoint_prefixFree _ trivial _ trivial _ _ he
    exact ⟨Prod.ext htype hprevout, he⟩
  exact map_eq_of_flatMap_eq hfree (fun k => by simp [ser8]) h

theorem map_eq_of_inputAmountMessage_eq (h : inputAmountMessage l = inputAmountMessage l') :
    l.map CTxIn.amount = l'.map CTxIn.amount := by
  refine map_eq_of_flatMap_eq serInt64_prefixFree (fun k hk => ?_) h
  have hlen := congrArg List.length hk
  simp [serInt64, ser64] at hlen

theorem map_eq_of_sequenceMessage_eq (h : sequenceMessage l = sequenceMessage l') :
    l.map CTxIn.nSequence = l'.map CTxIn.nSequence := by
  refine map_eq_of_flatMap_eq ser32_prefixFree (fun k hk => ?_) h
  have hlen := congrArg List.length hk
  simp [ser32] at hlen

theorem map_signedFields_eq (hprevout : (l.map fun inp => (inp.type, inp.prevout)) =
      l'.map fun inp => (inp.type, inp.prevout))
    (hamount : l.map CTxIn.amount = l'.map CTxIn.amount)
    (hsequence : l.map CTxIn.nSequence = l'.map CTxIn.nSequence) :
    l.map signedFields = l'.map signedFields := by
  induction l generalizing l' with
  | nil => simpa using hprevout
  | cons inp l ih =>
    match l' with
    | [] => simp at hprevout
    | inp' :: l' =>
      simp only [map_cons, List.cons.injEq, Prod.mk.injEq] at hprevout hamount hsequence
      rw [map_cons, map_cons, ih hprevout.2 hamount.2 hsequence.2]
      simp only [signedFields, hprevout.1, hamount.1, hsequence.1]

theorem idemMessage_eq_of_signedFields (hversion : tx₁.nVersion = tx₂.nVersion)
    (hlock : tx₁.nLockTime = tx₂.nLockTime)
    (hvin : tx₁.vin.map signedFields = tx₂.vin.map signedFields) (hvout : tx₁.vout = tx₂.vout) :
    idemMessage tx₁ = idemMessage tx₂ := by
  have hlength : tx₁.vin.length = tx₂.vin.length := by
    simpa using congrArg List.length hvin
  have hflat : ∀ vin : List CTxIn, vin.flatMap serTxInIdem = (vin.map signedFields).flatMap
      fun f => ser8 f.type ++ serOutPoint f.prevout ++ ser32 f.nSequence ++ serInt64 f.amount := by
    intro vin
    rw [flatMap_map]
    rfl
  simp only [idemMessage, serVector, hflat, hversion, hlock, hvin, hvout, hlength]

/-- A message determines what it was built from; of the type it determines the bytes. -/
theorem sigHashMessage_inj {sc₁ sc₂ : CScript} {v₁ v₂ : UInt8} {lock₁ lock₂ : UInt32}
    {t₁ t₂ : SigHashType} {c₁ c₂ : Components} (hsc₁ : Fits sc₁) (hsc₂ : Fits sc₂)
    (h : sigHashMessage sc₁ v₁ lock₁ t₁ c₁ = sigHashMessage sc₂ v₂ lock₂ t₂ c₂) :
    sc₁ = sc₂ ∧ v₁ = v₂ ∧ lock₁ = lock₂ ∧ t₁.appendToSig = t₂.appendToSig ∧ c₁ = c₂ := by
  have hfits : ∀ t : SigHashType, Fits t.appendToSig := fun t =>
    lt_of_le_of_lt t.length_appendToSig_le (by decide)
  simp only [sigHashMessage, append_assoc] at h
  obtain ⟨hversion, h⟩ := ser8_prefixFree _ trivial _ trivial _ _ h
  obtain ⟨hprevouts, h⟩ := serUint256_prefixFree _ trivial _ trivial _ _ h
  obtain ⟨hamounts, h⟩ := serUint256_prefixFree _ trivial _ trivial _ _ h
  obtain ⟨hsequence, h⟩ := serUint256_prefixFree _ trivial _ trivial _ _ h
  obtain ⟨hscript, h⟩ := serBytes_prefixFree _ hsc₁ _ hsc₂ _ _ h
  obtain ⟨houtputs, h⟩ := serUint256_prefixFree _ trivial _ trivial _ _ h
  obtain ⟨hlock, h⟩ := ser32_prefixFree _ trivial _ trivial _ _ h
  have htype := serBytes_prefixFree.injOn (hfits t₁) (hfits t₂) h
  refine ⟨hscript, hversion, hlock, htype, ?_⟩
  obtain ⟨p₂, s₂, a₂, o₂⟩ := c₂
  cases hprevouts
  cases hamounts
  cases hsequence
  cases houtputs
  rfl

/-- The vectors of the transaction have lengths that the counters of the code hold. -/
structure CountsFit (tx : CTransaction) : Prop where
  vin : tx.vin.length < 2 ^ 32
  vout : tx.vout.length < 2 ^ 32
  scriptPubKey : ∀ out ∈ tx.vout, Fits out.scriptPubKey

/-- The messages that are hashed for covered inputs and outputs. -/
def coveredMessages (H : HashFns) (scriptCode : CScript) (txTo : CTransaction)
    (sigHashType : SigHashType) (inputs : List CTxIn) (outputs : List CTxOut) : List Bytes :=
  [prevoutMessage inputs, sequenceMessage inputs, inputAmountMessage inputs,
    outputsMessage outputs,
    sigHashMessage scriptCode txTo.nVersion txTo.nLockTime sigHashType
      (componentsOf H inputs outputs)]

/-- All messages that a signature hash hashes. -/
def sigHashMessages (H : HashFns) (scriptCode : CScript) (txTo : CTransaction) (nIn : UInt32)
    (sigHashType : SigHashType) : List Bytes :=
  match signedInputs txTo nIn sigHashType.inp, signedOutputs txTo sigHashType.out with
  | some inputs, some outputs => coveredMessages H scriptCode txTo sigHashType inputs outputs
  | _, _ => []

/-- The inputs that the type covers agree in everything but their satisfiers. -/
def SameInputs (tx₁ : CTransaction) (nIn₁ : UInt32) (tx₂ : CTransaction) (nIn₂ : UInt32) :
    SigHashInput → Prop
  | .all => tx₁.vin.map signedFields = tx₂.vin.map signedFields
  | .firstN k => k.toNat ≤ tx₁.vin.length ∧ k.toNat ≤ tx₂.vin.length ∧
      (tx₁.vin.take k.toNat).map signedFields = (tx₂.vin.take k.toNat).map signedFields
  | .thisIn => ∃ inp₁ inp₂, tx₁.vin[nIn₁.toNat]? = some inp₁ ∧ tx₂.vin[nIn₂.toNat]? = some inp₂ ∧
      signedFields inp₁ = signedFields inp₂

/-- The outputs that the type covers agree. -/
def SameOutputs (tx₁ tx₂ : CTransaction) : SigHashOutput → Prop
  | .all => tx₁.vout = tx₂.vout
  | .firstN k => k.toNat ≤ tx₁.vout.length ∧ k.toNat ≤ tx₂.vout.length ∧
      tx₁.vout.take k.toNat = tx₂.vout.take k.toNat
  | .two a b => ∃ outA outB, tx₁.vout[a.toNat]? = some outA ∧ tx₁.vout[b.toNat]? = some outB ∧
      tx₂.vout[a.toNat]? = some outA ∧ tx₂.vout[b.toNat]? = some outB

theorem signatureHashPyrrha_ok {scriptCode : CScript} {txTo : CTransaction} {nIn : UInt32}
    {sigHashType : SigHashType} {result : Uint256}
    (h : signatureHashPyrrha H scriptCode txTo nIn sigHashType = some result) :
    sigHashType.valid = true ∧ ∃ inputs outputs,
      signedInputs txTo nIn sigHashType.inp = some inputs ∧
      signedOutputs txTo sigHashType.out = some outputs ∧
      result = signatureHashOf H scriptCode txTo.nVersion txTo.nLockTime sigHashType
        (componentsOf H inputs outputs) := by
  unfold signatureHashPyrrha signatureHashPyrrhaComponents at h
  split_ifs at h with hin hvalid
  · simp at h
  · simp at h
  · split at h
    case h_1 inputs outputs hinputs houtputs =>
      rw [Option.map_some, Option.some.injEq] at h
      exact ⟨by simpa using hvalid, inputs, outputs, hinputs, houtputs, h.symm⟩
    case h_2 => simp at h

theorem signedOutputs_fits {tx : CTransaction} (hfit : CountsFit tx) {outputs : List CTxOut}
    (h : signedOutputs tx out = some outputs) :
    ∀ o ∈ outputs, Fits o.scriptPubKey := by
  intro o ho
  apply hfit.scriptPubKey
  cases out with
  | all =>
    cases h
    exact mem_of_mem_take ho
  | firstN n =>
    simp only [signedOutputs] at h
    split_ifs at h
    cases h
    exact mem_of_mem_take ho
  | two a b =>
    simp only [signedOutputs] at h
    split at h
    case h_1 outA outB hA hB =>
      cases h
      obtain rfl | rfl : o = outA ∨ o = outB := by simpa using ho
      · exact mem_of_getElem? hA
      · exact mem_of_getElem? hB
    case h_2 => cases h

theorem sameInputs_of_signedInputs {nIn₁ nIn₂ : UInt32} {inp : SigHashInput} {l₁ l₂ : List CTxIn}
    (hfit₁ : CountsFit tx₁) (hfit₂ : CountsFit tx₂) (h₁ : signedInputs tx₁ nIn₁ inp = some l₁)
    (h₂ : signedInputs tx₂ nIn₂ inp = some l₂)
    (h : l₁.map signedFields = l₂.map signedFields) : SameInputs tx₁ nIn₁ tx₂ nIn₂ inp := by
  cases inp with
  | all =>
    simp only [signedInputs, Nat.mod_eq_of_lt hfit₁.vin, Nat.mod_eq_of_lt hfit₂.vin,
      take_length, Option.some.injEq] at h₁ h₂
    rw [SameInputs, h₁, h₂, h]
  | firstN k =>
    simp only [signedInputs] at h₁ h₂
    split_ifs at h₁ h₂ with hk₁ hk₂
    cases h₁
    cases h₂
    exact ⟨Nat.le_of_not_lt hk₁, Nat.le_of_not_lt hk₂, h⟩
  | thisIn =>
    obtain ⟨inp₁, hinp₁, rfl⟩ := Option.map_eq_some_iff.mp h₁
    obtain ⟨inp₂, hinp₂, rfl⟩ := Option.map_eq_some_iff.mp h₂
    exact ⟨inp₁, inp₂, hinp₁, hinp₂, by simpa using h⟩

theorem sameOutputs_of_signedOutputs {l : List CTxOut} (hfit₁ : CountsFit tx₁)
    (hfit₂ : CountsFit tx₂) (h₁ : signedOutputs tx₁ out = some l)
    (h₂ : signedOutputs tx₂ out = some l) :
    SameOutputs tx₁ tx₂ out := by
  cases out with
  | all =>
    simp only [signedOutputs, Nat.mod_eq_of_lt hfit₁.vout, Nat.mod_eq_of_lt hfit₂.vout,
      take_length, Option.some.injEq] at h₁ h₂
    rw [SameOutputs, h₁, h₂]
  | firstN k =>
    simp only [signedOutputs] at h₁ h₂
    split_ifs at h₁ h₂ with hk₁ hk₂
    have htake := Option.some.inj (h₁.trans h₂.symm)
    exact ⟨Nat.le_of_not_lt hk₁, Nat.le_of_not_lt hk₂, htake⟩
  | two a b =>
    simp only [signedOutputs] at h₁ h₂
    split at h₁
    case h_1 outA outB hA₁ hB₁ =>
      split at h₂
      case h_1 outA' outB' hA₂ hB₂ =>
        cases h₁
        cases h₂
        exact ⟨outA, outB, hA₁, hB₁, hA₂, hB₂⟩
      case h_2 => cases h₂
    case h_2 => cases h₁

/-- Without collisions, equal messages cover the same parts. -/
theorem covered_eq_of_sigHashMessage_eq {S : Set Bytes} (hinj : Set.InjOn H.hash256 S)
    {sc₁ sc₂ : CScript} {t₁ t₂ : SigHashType} {ins₁ ins₂ : List CTxIn} {outs₁ outs₂ : List CTxOut}
    (hS₁ : ∀ m ∈ coveredMessages H sc₁ tx₁ t₁ ins₁ outs₁, m ∈ S)
    (hS₂ : ∀ m ∈ coveredMessages H sc₂ tx₂ t₂ ins₂ outs₂, m ∈ S) (hsc₁ : Fits sc₁) (hsc₂ : Fits sc₂)
    (houts₁ : ∀ o ∈ outs₁, Fits o.scriptPubKey) (houts₂ : ∀ o ∈ outs₂, Fits o.scriptPubKey)
    (h : sigHashMessage sc₁ tx₁.nVersion tx₁.nLockTime t₁ (componentsOf H ins₁ outs₁) =
      sigHashMessage sc₂ tx₂.nVersion tx₂.nLockTime t₂ (componentsOf H ins₂ outs₂)) :
    sc₁ = sc₂ ∧ tx₁.nVersion = tx₂.nVersion ∧ tx₁.nLockTime = tx₂.nLockTime ∧
      t₁.appendToSig = t₂.appendToSig ∧ ins₁.map signedFields = ins₂.map signedFields ∧
      outs₁ = outs₂ := by
  obtain ⟨hscript, hversion, hlock, htype, hcomponents⟩ := sigHashMessage_inj hsc₁ hsc₂ h
  simp only [componentsOf, Components.mk.injEq] at hcomponents
  obtain ⟨hprevouts, hsequences, hamounts, houtputs⟩ := hcomponents
  have hprevouts := hinj (hS₁ _ (by simp [coveredMessages])) (hS₂ _ (by simp [coveredMessages]))
    hprevouts
  have hsequences := hinj (hS₁ _ (by simp [coveredMessages])) (hS₂ _ (by simp [coveredMessages]))
    hsequences
  have hamounts := hinj (hS₁ _ (by simp [coveredMessages])) (hS₂ _ (by simp [coveredMessages]))
    hamounts
  have houtputs := hinj (hS₁ _ (by simp [coveredMessages])) (hS₂ _ (by simp [coveredMessages]))
    houtputs
  refine ⟨hscript, hversion, hlock, htype, map_signedFields_eq ?_ ?_ ?_, ?_⟩
  · exact map_eq_of_prevoutMessage_eq hprevouts
  · exact map_eq_of_inputAmountMessage_eq hamounts
  · exact map_eq_of_sequenceMessage_eq hsequences
  · exact serTxOut_prefixFree.flatMap_injective (fun out _ => by simp [serTxOut, ser8]) _ _
      houts₁ houts₂ houtputs

/-- Equal signature hashes cover equal things: the same type, version, lock time and script
code, and the same inputs and outputs as far as the type selects them. -/
theorem signatureHashPyrrha_binds (H : HashFns) (scriptCode₁ scriptCode₂ : CScript)
    (tx₁ tx₂ : CTransaction) (nIn₁ nIn₂ : UInt32) (t₁ t₂ : SigHashType) (result : Uint256)
    (hfit₁ : CountsFit tx₁) (hfit₂ : CountsFit tx₂) (hsc₁ : Fits scriptCode₁)
    (hsc₂ : Fits scriptCode₂)
    (hinj : Set.InjOn H.hash256 {m | m ∈ sigHashMessages H scriptCode₁ tx₁ nIn₁ t₁ ++
      sigHashMessages H scriptCode₂ tx₂ nIn₂ t₂})
    (h₁ : signatureHashPyrrha H scriptCode₁ tx₁ nIn₁ t₁ = some result)
    (h₂ : signatureHashPyrrha H scriptCode₂ tx₂ nIn₂ t₂ = some result) :
    t₁ = t₂ ∧ tx₁.nVersion = tx₂.nVersion ∧ tx₁.nLockTime = tx₂.nLockTime ∧
      scriptCode₁ = scriptCode₂ ∧ SameInputs tx₁ nIn₁ tx₂ nIn₂ t₁.inp ∧
      SameOutputs tx₁ tx₂ t₁.out := by
  obtain ⟨hv₁, ins₁, outs₁, hins₁, houts₁, hr₁⟩ := signatureHashPyrrha_ok h₁
  obtain ⟨hv₂, ins₂, outs₂, hins₂, houts₂, hr₂⟩ := signatureHashPyrrha_ok h₂
  simp only [sigHashMessages, hins₁, houts₁, hins₂, houts₂] at hinj
  have hmessage := hinj (mem_append_left _ (by simp [coveredMessages]))
    (mem_append_right _ (by simp [coveredMessages])) (hr₁.symm.trans hr₂)
  obtain ⟨hscript, hversion, hlock, htype, hinputs, rfl⟩ := covered_eq_of_sigHashMessage_eq hinj
    (fun m hm => mem_append_left _ hm) (fun m hm => mem_append_right _ hm) hsc₁ hsc₂
    (signedOutputs_fits hfit₁ houts₁) (signedOutputs_fits hfit₂ houts₂) hmessage
  obtain rfl := SigHashType.eq_of_appendToSig_eq hv₁ hv₂ htype
  refine ⟨rfl, hversion, hlock, hscript, ?_, ?_⟩
  · exact sameInputs_of_signedInputs hfit₁ hfit₂ hins₁ hins₂ hinputs
  · exact sameOutputs_of_signedOutputs hfit₁ hfit₂ houts₁ houts₂

/-- A transaction whose second input is signed alone, with two of the outputs. -/
def partialTx (otherInput : CTxIn) (extra : List CTxOut) : CTransaction where
  nVersion := 0
  vin := [otherInput, ⟨0, ⟨Uint256.null⟩, [], 0xffffffff, 546⟩]
  vout := [⟨0, 100, [0x51]⟩, ⟨0, 200, [0x51]⟩] ++ extra
  nLockTime := 7

def partialType : SigHashType := ⟨true, .thisIn, .two 0 1⟩

def shortTx : CTransaction := partialTx ⟨0, ⟨Uint256.null⟩, [], 1, 1⟩ []
def longTx : CTransaction := partialTx ⟨0, ⟨Uint256.null⟩, [], 2, 2⟩ [⟨0, 300, [0x52]⟩]

theorem signatureHashPyrrha_binds_partialTx :
    SameInputs shortTx 1 longTx 1 .thisIn ∧ SameOutputs shortTx longTx (.two 0 1) := by
  have hsame : sigHashMessages lengthHash [0x51] longTx 1 partialType =
      sigHashMessages lengthHash [0x51] shortTx 1 partialType := by
    decide +kernel
  have hnodup : ((sigHashMessages lengthHash [0x51] shortTx 1 partialType).map
      lengthHash.hash256).Nodup := by
    decide +kernel
  have hbinds := signatureHashPyrrha_binds lengthHash [0x51] [0x51] shortTx longTx 1 1
    partialType partialType (lengthHash.hash256 (List.replicate 139 0))
    ⟨by decide, by decide, by decide⟩ ⟨by decide, by decide, by decide⟩ (by decide) (by decide)
    (by
      rw [hsame]
      intro a ha b hb he
      exact inj_on_of_nodup_map hnodup (by simpa using ha) (by simpa using hb) he)
    (by decide +kernel) (by decide +kernel)
  exact ⟨hbinds.2.2.2.2.1, hbinds.2.2.2.2.2⟩

end PyrrhaNode.SignatureHash
