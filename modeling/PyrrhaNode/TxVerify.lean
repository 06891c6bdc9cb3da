import PyrrhaNode.GroupTokens
import PyrrhaNode.Money

/-!
# Checks of one transaction

The first check needs the transaction alone: its shape, the range of its output
values, and that it spends no outpoint twice. The second one compares the values of
the coins that it spends with the values of its outputs.
-/
namespace PyrrhaNode.TxVerify
open ByteCodec Serialize Transaction Script Coins
open GroupTokens Money SignedWord Loop

def currentVersion : UInt8 := 0
def defaultLargestTransaction : ℕ := 1000000
def minTxSize : ℕ := 65

/-- The types of inputs and outputs. -/
def txInUtxo : UInt8 := 0
def txOutSatoscript : UInt8 := 0
def txOutTemplate : UInt8 := 1

def serTxIn (i : CTxIn) : Bytes :=
  ser8 i.type ++ serOutPoint i.prevout ++ serBytes i.scriptSig ++ ser32 i.nSequence ++
    serInt64 i.amount

def serTransaction (tx : CTransaction) : Bytes :=
  ser8 tx.nVersion ++ serVector serTxIn tx.vin ++ serVector serTxOut tx.vout ++ ser32 tx.nLockTime

def getTxSize (tx : CTransaction) : ℕ := (serTransaction tx).length

/-- Checks an output and adds its value. -/
def checkTxOut (A : Arithmetic) (nValueOut : CAmount) (out : CTxOut) : Except String CAmount :=
  if out.type ≠ txOutSatoscript ∧ out.type ≠ txOutTemplate then
    throw "bad-txns-invalid-txout-type"
  else if out.nValue < 0 then throw "bad-txns-vout-negative"
  else if maxMoney < out.nValue then throw "bad-txns-vout-toolarge"
  else do
    let total ← A.add nValueOut out.nValue
    if !moneyRange total then throw "bad-txns-txouttotal-toolarge" else return total

/-- The pairwise comparison that is used for few inputs. -/
def checkPrevoutPairs : List COutPoint → Except String Unit
  | [] => return ()
  | prevout :: rest =>
    if prevout.isNull then throw "bad-txns-prevout-null"
    else if prevout ∈ rest then throw "bad-txns-inputs-duplicate"
    else checkPrevoutPairs rest

/-- No outpoint is null or spent twice. Many inputs are sorted to find duplicates. -/
def checkPrevouts (prevouts : List COutPoint) : Except String Unit :=
  if prevouts.length < 120 then checkPrevoutPairs prevouts
  else if prevouts.any COutPoint.isNull then throw "bad-txns-prevout-null"
  else if ¬ prevouts.Nodup then throw "bad-txns-inputs-duplicate"
  else return ()

/-- `std::sort` of the outpoints: equal ones are the same, so the result is unique. -/
def sortedPrevOuts (prevouts : List COutPoint) : List COutPoint :=
  prevouts.mergeSort fun a b => decide (ofLeBytes a.hash.data ≤ ofLeBytes b.hash.data)

/-- The test for many inputs: `std::adjacent_find` looks for equal neighbours. -/
def checkSortedPrevouts (prevouts : List COutPoint) : Except String Unit :=
  if prevouts.any COutPoint.isNull then throw "bad-txns-prevout-null"
  else if ¬ (sortedPrevOuts prevouts).IsChain (· ≠ ·) then throw "bad-txns-inputs-duplicate"
  else return ()

/-- The last output of a coinbase is a data output. -/
def checkCoinBase (tx : CTransaction) : Except String Unit :=
  if isAnyTxOutputGrouped tx then throw "coinbase-has-group-outputs"
  else if (tx.vout.getLast?.bind fun out => out.scriptPubKey.head?) ≠ some opReturn then
    throw "coinbase-last-vout-op-return"
  else return ()

def checkSpending (tx : CTransaction) : Except String Unit :=
  if tx.vin.isEmpty then throw "bad-txns-vin-empty"
  else if tx.vin.any fun inp => inp.type ≠ txInUtxo then throw "bad-txns-invalid-txin-type"
  else checkPrevouts (tx.vin.map CTxIn.prevout)

def checkTransaction (A : Arithmetic) (enforceMinTxSize : Bool) (tx : CTransaction) :
    Except String Unit :=
  if currentVersion < tx.nVersion then throw "bad-txns-version"
  else if tx.vout.isEmpty then throw "bad-txns-vout-empty"
  else if defaultLargestTransaction < getTxSize tx then throw "bad-txns-oversize"
  else if getTxSize tx < minTxSize ∧ enforceMinTxSize then throw "txn-undersize"
  else if maxTxNumVout < tx.vout.length then throw "bad-txns-too-many-vout"
  else if maxTxNumVin < tx.vin.length then throw "bad-txns-too-many-vin"
  else do
    let _ ← tx.vout.foldlM (checkTxOut A) 0
    if tx.isCoinBase then checkCoinBase tx else checkSpending tx

/-- A coinbase can be spent when it is deep enough. -/
def checkMaturity (coinbaseMaturity nSpendHeight : ℤ) (coin : Coin) : Except String Unit :=
  if coin.fCoinBase ∧ nSpendHeight - coin.nHeight.toNat < coinbaseMaturity then
    throw "bad-txns-premature-spend-of-coinbase"
  else return ()

/-- Adds the value of a spent coin. -/
def addValueIn (A : Arithmetic) (coinbaseMaturity nSpendHeight : ℤ) (nValueIn : CAmount)
    (coin : Coin) : Except String CAmount := do
  checkMaturity coinbaseMaturity nSpendHeight coin
  tallyAmount A "bad-txns-inputvalues-outofrange" nValueIn coin.out.nValue

/-- What `CheckTxInputs` hands to `SetAmounts`. -/
structure TxAmounts where
  nValueIn : CAmount
  outAmount : CAmount
  nTxFee : CAmount

/-- The amounts are recorded for the transaction when the check passes. -/
def checkTxInputs (A : Arithmetic) (coinbaseMaturity nSpendHeight : ℤ) (tx : CTransaction)
    (inputs : CCoinsViewCache) : Except String TxAmounts :=
  if !inputs.haveInputs tx then throw "Inputs unavailable"
  else do
    let nValueIn ← (tx.vin.map fun inp => inputs.accessCoin inp.prevout).foldlM
      (addValueIn A coinbaseMaturity nSpendHeight) 0
    let outAmount ← getValueOut A tx
    if nValueIn < outAmount then throw "bad-txns-in-belowout"
    else do
      let nTxFee ← A.sub nValueIn outAmount
      if nTxFee < 0 then throw "bad-txns-fee-negative"
      else if !moneyRange nTxFee then throw "bad-txns-fee-outofrange"
      else return ⟨nValueIn, outAmount, nTxFee⟩

lemma tallies_checkTxOut : Tallies CTxOut.nValue checkTxOut := by
  intro sum out total hsum h
  unfold checkTxOut at h ⊢
  obtain ⟨htype, h⟩ := ite_throw_eq_ok.mp h
  obtain ⟨hneg, h⟩ := ite_throw_eq_ok.mp h
  obtain ⟨hlarge, h⟩ := ite_throw_eq_ok.mp h
  obtain ⟨t, ht, h⟩ := bind_eq_ok.mp h
  cases ht
  obtain ⟨htotal, h⟩ := ite_throw_eq_ok.mp h
  cases h
  have hvalue : InRange out.nValue.toInt := by
    rw [← moneyRange_iff]
    simp only [moneyRange, Bool.and_eq_true, decide_eq_true_eq]
    exact ⟨Int64.not_lt.mp hneg, Int64.not_lt.mp hlarge⟩
  have hexact := toInt_add_of_inRange hsum hvalue
  have hrange : moneyRange (sum + out.nValue) = true := by simpa using htotal
  refine ⟨?_, hexact, hvalue, (moneyRange_iff _).mp hrange⟩
  rw [if_neg htype, if_neg hneg, if_neg hlarge, trapping_add hexact]
  simp [bind, Except.bind, pure, Except.pure, hrange]

variable {prevouts : List COutPoint} {enforceMinTxSize : Bool} {tx : CTransaction}

lemma checkPrevoutPairs_eq_ok :
    checkPrevoutPairs prevouts = .ok () ↔
      prevouts.any COutPoint.isNull = false ∧ prevouts.Nodup := by
  induction prevouts with
  | nil => simp [checkPrevoutPairs, pure, Except.pure]
  | cons prevout rest ih =>
    rw [checkPrevoutPairs, ite_throw_eq_ok, ite_throw_eq_ok, ih, List.nodup_cons, List.any_cons,
      Bool.or_eq_false_iff, Bool.not_eq_true]
    tauto

/-- Sorting by the order of the hashes puts equal outpoints side by side. -/
lemma isChain_sortedPrevOuts :
    (sortedPrevOuts prevouts).IsChain (· ≠ ·) ↔ prevouts.Nodup := by
  have hperm : (sortedPrevOuts prevouts).Perm prevouts := List.mergeSort_perm _ _
  rw [← hperm.nodup_iff]
  refine ⟨fun hne => ?_, List.Pairwise.isChain⟩
  have hsorted : (sortedPrevOuts prevouts).Pairwise fun a b =>
      ofLeBytes a.hash.data ≤ ofLeBytes b.hash.data := by
    simpa [sortedPrevOuts] using @List.pairwise_mergeSort _
      (fun a b : COutPoint => decide (ofLeBytes a.hash.data ≤ ofLeBytes b.hash.data))
      (by simpa using fun _ _ _ => le_trans) (by simpa using fun _ _ => le_total _ _) prevouts
  have hlt : (sortedPrevOuts prevouts).IsChain fun a b =>
      ofLeBytes a.hash.data < ofLeBytes b.hash.data := by
    rw [List.isChain_iff_getElem] at hne ⊢
    intro i hi
    have hle := List.pairwise_iff_getElem.mp hsorted i (i + 1) (by omega) hi (by omega)
    refine lt_of_le_of_ne hle fun he => hne i hi ?_
    exact congrArg COutPoint.mk (Uint256.eq_of_ofLeBytes he)
  exact (List.isChain_iff_pairwise.mp hlt).imp fun hab he => (he ▸ hab).false

lemma checkSortedPrevouts_eq_ok :
    checkSortedPrevouts prevouts = .ok () ↔
      prevouts.any COutPoint.isNull = false ∧ prevouts.Nodup := by
  rw [checkSortedPrevouts, ite_throw_eq_ok, ite_throw_eq_ok, not_not, isChain_sortedPrevOuts]
  simp [pure, Except.pure]

lemma checkPrevouts_eq (prevouts : List COutPoint) :
    checkPrevouts prevouts = if prevouts.length < 120 then checkPrevoutPairs prevouts
      else checkSortedPrevouts prevouts := by
  simp only [checkPrevouts, checkSortedPrevouts, isChain_sortedPrevOuts]

lemma checkPrevouts_eq_ok :
    checkPrevouts prevouts = .ok () ↔
      prevouts.any COutPoint.isNull = false ∧ prevouts.Nodup := by
  rw [checkPrevouts_eq]
  split_ifs
  · exact checkPrevoutPairs_eq_ok
  · exact checkSortedPrevouts_eq_ok

lemma prevouts_of_checkTransaction {A : Arithmetic}
    (h : checkTransaction A enforceMinTxSize tx = .ok ()) :
    (tx.vin.map CTxIn.prevout).any COutPoint.isNull = false ∧
      (tx.vin.map CTxIn.prevout).Nodup := by
  simp only [checkTransaction, ite_throw_eq_ok, bind_eq_ok] at h
  obtain ⟨-, -, -, -, -, -, total, -, h⟩ := h
  split_ifs at h with hcb
  · have hempty : tx.vin = [] := by simpa [CTransaction.isCoinBase] using hcb
    simp [hempty]
  · obtain ⟨-, h⟩ := ite_throw_eq_ok.mp h
    exact checkPrevouts_eq_ok.mp (ite_throw_eq_ok.mp h).2

/-- What the check without context establishes. -/
structure Checked (tx : CTransaction) : Prop where
  values : ∀ out ∈ tx.vout, InRange out.nValue.toInt
  total : InRange (valueSum tx.vout)
  prevouts : tx.isCoinBase = false → (tx.vin.map CTxIn.prevout).Nodup
  outputs : tx.vout.length ≤ maxTxNumVout

theorem checkTransaction_ok (h : checkTransaction wrapping enforceMinTxSize tx = .ok ()) :
    checkTransaction trapping enforceMinTxSize tx = .ok () ∧ Checked tx := by
  have hprevouts := (prevouts_of_checkTransaction h).2
  unfold checkTransaction at h ⊢
  obtain ⟨h₁, h⟩ := ite_throw_eq_ok.mp h
  obtain ⟨h₂, h⟩ := ite_throw_eq_ok.mp h
  obtain ⟨h₃, h⟩ := ite_throw_eq_ok.mp h
  obtain ⟨h₄, h⟩ := ite_throw_eq_ok.mp h
  obtain ⟨h₅, h⟩ := ite_throw_eq_ok.mp h
  obtain ⟨h₆, h⟩ := ite_throw_eq_ok.mp h
  obtain ⟨total, htotal, h⟩ := bind_eq_ok.mp h
  obtain ⟨htrap, hsum, hrange, hvalues⟩ := tallies_checkTxOut.foldlM htotal
  constructor
  · rw [if_neg h₁, if_neg h₂, if_neg h₃, if_neg h₄, if_neg h₅, if_neg h₆]
    exact bind_eq_ok.mpr ⟨total, htrap, h⟩
  · refine ⟨hvalues, by rw [valueSum, ← hsum]; exact hrange, fun _ => hprevouts, not_lt.mp h₅⟩

lemma tallies_addValueIn (coinbaseMaturity nSpendHeight : ℤ) :
    Tallies (fun coin : Coin => coin.out.nValue)
      fun A => addValueIn A coinbaseMaturity nSpendHeight := by
  intro sum coin total hsum h
  obtain ⟨u, hmature, h⟩ := bind_eq_ok.mp h
  obtain ⟨htrap, hexact, hvalue, htotal⟩ := tallyAmount_ok hsum h
  exact ⟨bind_eq_ok.mpr ⟨u, hmature, htrap⟩, hexact, hvalue, htotal⟩

/-- The exact value of the coins that a transaction spends. -/
def valueIn (inputs : CCoinsViewCache) (tx : CTransaction) : ℤ :=
  (tx.vin.map fun inp => (inputs.accessCoin inp.prevout).out.nValue.toInt).sum

/-- What the check on coins establishes. -/
structure InputsChecked (tx : CTransaction) (inputs : CCoinsViewCache) : Prop where
  values : ∀ inp ∈ tx.vin, InRange (inputs.accessCoin inp.prevout).out.nValue.toInt
  total : InRange (valueIn inputs tx)
  covers : valueSum tx.vout ≤ valueIn inputs tx

section Amounts

variable {A : Arithmetic} {coinbaseMaturity nSpendHeight : ℤ} {tx : CTransaction}
  {inputs : CCoinsViewCache}

/-- The recorded amounts are exact, and no coinbase is spent too early. -/
structure AmountsExact (coinbaseMaturity nSpendHeight : ℤ) (tx : CTransaction)
    (inputs : CCoinsViewCache) (amounts : TxAmounts) : Prop where
  nValueIn : amounts.nValueIn.toInt = valueIn inputs tx
  outAmount : amounts.outAmount.toInt = valueSum tx.vout
  nTxFee : amounts.nTxFee.toInt = valueIn inputs tx - valueSum tx.vout
  nTxFee_nonneg : 0 ≤ amounts.nTxFee.toInt
  mature : ∀ inp ∈ tx.vin, (inputs.accessCoin inp.prevout).fCoinBase = true →
    coinbaseMaturity ≤ nSpendHeight - (inputs.accessCoin inp.prevout).nHeight.toNat

theorem checkTxInputs_ok {amounts : TxAmounts}
    (h : checkTxInputs wrapping coinbaseMaturity nSpendHeight tx inputs = .ok amounts) :
    checkTxInputs trapping coinbaseMaturity nSpendHeight tx inputs = .ok amounts ∧
      InputsChecked tx inputs ∧ AmountsExact coinbaseMaturity nSpendHeight tx inputs amounts := by
  unfold checkTxInputs at h ⊢
  obtain ⟨hhave, h⟩ := ite_throw_eq_ok.mp h
  obtain ⟨nValueIn, hin, h⟩ := bind_eq_ok.mp h
  obtain ⟨outAmount, hout, h⟩ := bind_eq_ok.mp h
  obtain ⟨hcovers, h⟩ := ite_throw_eq_ok.mp h
  obtain ⟨nTxFee, hfee, h⟩ := bind_eq_ok.mp h
  cases hfee
  obtain ⟨hneg, hrange⟩ := ite_throw_eq_ok.mp h
  cases (ite_throw_eq_ok.mp hrange).2
  obtain ⟨htrapIn, hsumIn, hrangeIn, hvaluesIn⟩ :=
    (tallies_addValueIn coinbaseMaturity nSpendHeight).foldlM hin
  obtain ⟨htrapOut, hsumOut, hrangeOut, -⟩ := getValueOut_ok hout
  have hexact := toInt_sub_of_inRange hrangeIn hrangeOut
  have hvalueIn : nValueIn.toInt = valueIn inputs tx := by
    rw [hsumIn, valueIn, List.map_map]
    rfl
  refine ⟨?_, ⟨fun inp hinp => ?_, hvalueIn ▸ hrangeIn, ?_⟩, hvalueIn, hsumOut, ?_, ?_, ?_⟩
  · rw [if_neg hhave]
    refine bind_eq_ok.mpr ⟨nValueIn, htrapIn, bind_eq_ok.mpr ⟨outAmount, htrapOut, ?_⟩⟩
    rw [if_neg hcovers]
    exact bind_eq_ok.mpr ⟨_, trapping_sub hexact, h⟩
  · exact hvaluesIn _ (List.mem_map_of_mem hinp)
  · rw [← hsumOut, ← hvalueIn]
    exact Int64.le_iff_toInt_le.mp (Int64.not_lt.mp hcovers)
  · rw [← hsumOut, ← hvalueIn]
    exact hexact
  · exact Int64.le_iff_toInt_le.mp (Int64.not_lt.mp hneg)
  · intro inp hinp
    refine foldlM_invariant (fun done _ => ∀ coin ∈ done, coin.fCoinBase = true →
      coinbaseMaturity ≤ nSpendHeight - coin.nHeight.toNat) ?_ hin (by simp) _
      (List.mem_map_of_mem hinp)
    intro done coin sum sum' _ hdone hstep
    obtain ⟨u, hmature, -⟩ := bind_eq_ok.mp hstep
    have hcoin := (ite_throw_eq_ok.mp hmature).1
    refine List.forall_mem_append.mpr ⟨hdone, List.forall_mem_singleton.mpr fun hcb => ?_⟩
    exact not_lt.mp fun hlt => hcoin ⟨hcb, hlt⟩

/-- The checks on the inputs of a transaction are exact: both tests for duplicates accept
the lists of distinct outpoints that are not null, an accepted transaction has such inputs,
nothing overflows, and the amounts recorded for it are the exact ones. -/
theorem inputChecks_exact {enforceMinTxSize : Bool} :
    (∀ prevouts, checkPrevoutPairs prevouts = .ok () ↔ checkSortedPrevouts prevouts = .ok ()) ∧
    (checkTransaction wrapping enforceMinTxSize tx = .ok () →
      checkTransaction trapping enforceMinTxSize tx = .ok () ∧
      (∀ inp ∈ tx.vin, inp.prevout.isNull = false) ∧ (tx.vin.map CTxIn.prevout).Nodup ∧
      ∀ amounts, checkTxInputs wrapping coinbaseMaturity nSpendHeight tx inputs = .ok amounts →
        checkTxInputs trapping coinbaseMaturity nSpendHeight tx inputs = .ok amounts ∧
          AmountsExact coinbaseMaturity nSpendHeight tx inputs amounts) := by
  refine ⟨fun prevouts => checkPrevoutPairs_eq_ok.trans checkSortedPrevouts_eq_ok.symm, ?_⟩
  intro h
  have hprevouts := prevouts_of_checkTransaction h
  refine ⟨(checkTransaction_ok h).1, by simpa using hprevouts.1, hprevouts.2, ?_⟩
  intro amounts hinputs
  obtain ⟨htrap, -, hamounts⟩ := checkTxInputs_ok hinputs
  exact ⟨htrap, hamounts⟩

end Amounts

/-- A transaction that spends two outputs. -/
def twoInputTx : CTransaction :=
  ⟨0, [⟨0, ⟨.ofByte 1⟩, [], 0, 5⟩, ⟨0, ⟨.ofByte 2⟩, [], 0, 5⟩], [⟨0, 8, []⟩], 0⟩

/-- A view in which all outputs are coinbases of value 5 at height 1. -/
def fives : CCoinsViewCache :=
  ⟨⟨fun _ => some ⟨⟨0, 5, []⟩, true, 1⟩, DefaultMap.empty⟩, .null, .null⟩

theorem inputChecks_exact_twoInputTx :
    checkTxInputs trapping 100 101 twoInputTx fives = .ok ⟨10, 8, 2⟩ ∧
      AmountsExact 100 101 twoInputTx fives ⟨10, 8, 2⟩ := by
  have haccepted : checkTransaction wrapping true twoInputTx = .ok () := by decide +kernel
  exact (inputChecks_exact.2 haccepted).2.2.2 ⟨10, 8, 2⟩ rfl

end PyrrhaNode.TxVerify
