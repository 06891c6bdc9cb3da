import PyrrhaNode.Serialize

/-!
# Transactions and their identifiers

The idem hashes a transaction without its satisfier scripts and names its outputs;
the id hashes the idem together with a hash of the satisfier scripts and enters the
merkle tree of a block. An outpoint is the hash of an idem and an output index.
-/
namespace PyrrhaNode.Transaction
open ByteCodec Serialize

abbrev CAmount := Int64
abbrev CScript := Bytes

/-- The kind of a script, which selects how it is interpreted. -/
inductive ScriptType where
  | satoscript
  | template
  | pushOnly
  deriving DecidableEq

structure COutPoint where
  hash : Uint256
  deriving DecidableEq

/-- The outpoint of output `outIdx` of the transaction with the given idem. -/
def COutPoint.ofIdem (H : HashFns) (txIdemIn : Uint256) (outIdx : UInt32) : COutPoint :=
  ⟨H.sha256 (serUint256 txIdemIn ++ ser32 outIdx)⟩

def COutPoint.isNull (o : COutPoint) : Bool := o.hash.isNull

structure CTxIn where
  type : UInt8
  prevout : COutPoint
  scriptSig : CScript
  nSequence : UInt32
  amount : CAmount
  deriving DecidableEq

structure CTxOut where
  type : UInt8
  nValue : CAmount
  scriptPubKey : CScript
  deriving DecidableEq

/-- The script kind that deserialization gives to an output's script. -/
def scriptTypeOf (ctxoutType : UInt8) : ScriptType :=
  if ctxoutType &&& 1 = 1 then .template else .satoscript

def CTxOut.scriptType (out : CTxOut) : ScriptType := scriptTypeOf out.type

structure CTransaction where
  nVersion : UInt8
  vin : List CTxIn
  vout : List CTxOut
  nLockTime : UInt32
  deriving DecidableEq

def maxTxNumVout : ℕ := 256
def maxTxNumVin : ℕ := 256

namespace CTransaction

/-- Only coinbase transactions have no inputs. -/
def isCoinBase (tx : CTransaction) : Bool := tx.vin.isEmpty

def scriptSigs (tx : CTransaction) : List CScript := tx.vin.map CTxIn.scriptSig

/-- Every vector of the transaction has a length that `size_t` holds. -/
structure SizesFit (tx : CTransaction) : Prop where
  vin : Fits tx.vin
  vout : Fits tx.vout
  scriptPubKey : ∀ out ∈ tx.vout, Fits out.scriptPubKey

end CTransaction

def serOutPoint (o : COutPoint) : Bytes := serUint256 o.hash

/-- An input as written into the idem, that is without its satisfier script. -/
def serTxInIdem (i : CTxIn) : Bytes :=
  ser8 i.type ++ serOutPoint i.prevout ++ ser32 i.nSequence ++ serInt64 i.amount

def serTxOut (out : CTxOut) : Bytes :=
  ser8 out.type ++ serInt64 out.nValue ++ serBytes out.scriptPubKey

/-- The message whose hash is the idem. -/
def idemMessage (tx : CTransaction) : Bytes :=
  ser8 tx.nVersion ++ serVector serTxInIdem tx.vin ++ serVector serTxOut tx.vout ++
    ser32 tx.nLockTime

/-- The opcode that closes every satisfier script in the satisfier hash. -/
def opInvalidOpcode : UInt8 := 0xff

/-- The message of the satisfier hash: the low 32 bits of the number of inputs,
then every satisfier script closed by the invalid opcode. -/
def satisfierMessage (tx : CTransaction) : Bytes :=
  leBytes 4 tx.vin.length ++ tx.vin.flatMap (fun i => i.scriptSig ++ [opInvalidOpcode])

def getTxIdem (H : HashFns) (tx : CTransaction) : Uint256 := H.hash256 (idemMessage tx)

/-- The message whose hash is the id. -/
def idMessage (H : HashFns) (tx : CTransaction) : Bytes :=
  serUint256 (getTxIdem H tx) ++ serUint256 (H.hash256 (satisfierMessage tx))

def getTxId (H : HashFns) (tx : CTransaction) : Uint256 := H.hash256 (idMessage H tx)

/-- The outpoint of an output of the transaction. -/
def outpointAt (H : HashFns) (tx : CTransaction) (n : UInt32) : COutPoint :=
  COutPoint.ofIdem H (getTxIdem H tx) n

theorem serOutPoint_prefixFree : PrefixFreeOn Set.univ serOutPoint := by
  intro a _ b _ xs ys he
  obtain ⟨hab, hxy⟩ := serUint256_prefixFree _ trivial _ trivial xs ys he
  exact ⟨by cases a; cases b; simp_all, hxy⟩

theorem serTxOut_prefixFree : PrefixFreeOn {out | Fits out.scriptPubKey} serTxOut := by
  intro a ha b hb xs ys he
  obtain ⟨htype, he⟩ := ser8_prefixFree _ trivial _ trivial _ _ he
  obtain ⟨hvalue, he⟩ := serInt64_prefixFree _ trivial _ trivial _ _ he
  obtain ⟨hscript, he⟩ := serBytes_prefixFree _ ha _ hb _ _ he
  exact ⟨by cases a; cases b; simp_all, he⟩

theorem length_vin_eq_of_idemMessage_eq (t₁ t₂ : CTransaction) (h₁ : t₁.SizesFit) (h₂ : t₂.SizesFit)
    (he : idemMessage t₁ = idemMessage t₂) :
    t₁.vin.length = t₂.vin.length := by
  simp only [idemMessage, serVector, List.append_assoc] at he
  obtain ⟨-, he⟩ := ser8_prefixFree _ trivial _ trivial _ _ he
  exact (writeCompactSize_prefixFree _ h₁.vin _ h₂.vin _ _ he).1

end PyrrhaNode.Transaction
