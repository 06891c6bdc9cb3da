import PyrrhaNode.Loop
import PyrrhaNode.SignedWord
import PyrrhaNode.Transaction

/-!
# Amounts of money

An amount is in range when it is neither negative nor above the limit. Running sums
are checked after every addition together with the amount that was added, so that no
sum that passes the checks has wrapped around.
-/
namespace PyrrhaNode.Money
open Transaction SignedWord Loop

def oneCoin : CAmount := 100

def maxMoney : CAmount := 21000000000000 * oneCoin

def moneyRange (nValue : CAmount) : Bool := decide (0 ≤ nValue) && decide (nValue ≤ maxMoney)

/-- Adds an amount to a running sum and checks both. -/
def tallyAmount (A : Arithmetic) (reason : String) (sum nValue : CAmount) :
    Except String CAmount := do
  let total ← A.add sum nValue
  if !moneyRange nValue || !moneyRange total then throw reason else return total

def addValueOut (A : Arithmetic) (nValueOut : CAmount) (out : CTxOut) : Except String CAmount :=
  tallyAmount A "CTransaction::GetValueOut(): value out of range" nValueOut out.nValue

/-- The sum of the output values of a transaction. -/
def getValueOut (A : Arithmetic) (tx : CTransaction) : Except String CAmount :=
  tx.vout.foldlM (addValueOut A) 0

/-- The exact sum of output values. -/
def valueSum (vout : List CTxOut) : ℤ := (vout.map fun out => out.nValue.toInt).sum

/-- The amount is between zero and the limit, as a number. -/
def InRange (n : ℤ) : Prop := 0 ≤ n ∧ n ≤ 2100000000000000

lemma moneyRange_iff (nValue : CAmount) : moneyRange nValue = true ↔ InRange nValue.toInt := by
  have hmax : maxMoney.toInt = 2100000000000000 := by decide
  have hzero : (0 : CAmount).toInt = 0 := by decide
  simp [moneyRange, InRange, Int64.le_iff_toInt_le, hmax]

lemma inRange_zero : InRange (0 : CAmount).toInt := by
  have hzero : (0 : CAmount).toInt = 0 := by decide
  exact ⟨le_refl 0, by decide⟩

lemma toInt_add_of_inRange {a b : CAmount} (ha : InRange a.toInt) (hb : InRange b.toInt) :
    (a + b).toInt = a.toInt + b.toInt := by
  obtain ⟨ha₀, ha₁⟩ := ha
  obtain ⟨hb₀, hb₁⟩ := hb
  exact toInt_add_of_bounds (by omega) (by omega)

lemma toInt_sub_of_inRange {a b : CAmount} (ha : InRange a.toInt) (hb : InRange b.toInt) :
    (a - b).toInt = a.toInt - b.toInt := by
  obtain ⟨ha₀, ha₁⟩ := ha
  obtain ⟨hb₀, hb₁⟩ := hb
  exact toInt_sub_of_bounds (by omega) (by omega)

lemma tallyAmount_ok {reason : String} {sum nValue total : CAmount} (hsum : InRange sum.toInt)
    (h : tallyAmount wrapping reason sum nValue = .ok total) :
    tallyAmount trapping reason sum nValue = .ok total ∧
      total.toInt = sum.toInt + nValue.toInt ∧ InRange nValue.toInt ∧ InRange total.toInt := by
  obtain ⟨t, ht, h⟩ := bind_eq_ok.mp h
  cases ht
  obtain ⟨hrange, h⟩ := ite_throw_eq_ok.mp h
  cases h
  simp only [Bool.or_eq_true, Bool.not_eq_true', not_or, Bool.not_eq_false, moneyRange_iff]
    at hrange
  have hexact := toInt_add_of_inRange hsum hrange.1
  refine ⟨?_, hexact, hrange.1, hrange.2⟩
  rw [tallyAmount, trapping_add hexact]
  simp [bind, Except.bind, pure, Except.pure, (moneyRange_iff _).mpr hrange.1,
    (moneyRange_iff _).mpr hrange.2]

/-- A step that adds the amount of an element and checks the amount and the sum, in a
given arithmetic. -/
def Tallies {α : Type} (amount : α → CAmount)
    (step : Arithmetic → CAmount → α → Except String CAmount) : Prop :=
  ∀ sum a total, InRange sum.toInt → step wrapping sum a = .ok total →
    step trapping sum a = .ok total ∧ total.toInt = sum.toInt + (amount a).toInt ∧
      InRange (amount a).toInt ∧ InRange total.toInt

/-- A completed loop of such steps: the sum is exact and in range, so is each amount, and
no step traps. -/
lemma Tallies.foldlM {α : Type} {amount : α → CAmount}
    {step : Arithmetic → CAmount → α → Except String CAmount} (hstep : Tallies amount step)
    {l : List α} {total : CAmount} (h : l.foldlM (step wrapping) 0 = .ok total) :
    l.foldlM (step trapping) 0 = .ok total ∧
      total.toInt = (l.map fun a => (amount a).toInt).sum ∧ InRange total.toInt ∧
      ∀ a ∈ l, InRange (amount a).toInt := by
  refine foldlM_invariant (fun done sum =>
    done.foldlM (step trapping) 0 = .ok sum ∧
      sum.toInt = (done.map fun a => (amount a).toInt).sum ∧ InRange sum.toInt ∧
      ∀ a ∈ done, InRange (amount a).toInt) ?_ h
    ⟨rfl, by simp, inRange_zero, by simp⟩
  rintro done a sum total - ⟨htrap, hsum, hrange, hall⟩ h
  obtain ⟨htrap', hexact, hamount, htotal⟩ := hstep sum a total hrange h
  refine ⟨?_, ?_, htotal, ?_⟩
  · exact foldlM_append_eq_ok.mpr ⟨sum, htrap, foldlM_cons_eq_ok.mpr ⟨total, htrap', rfl⟩⟩
  · rw [hexact, hsum]
    simp
  · exact List.forall_mem_append.mpr ⟨hall, List.forall_mem_singleton.mpr hamount⟩

lemma getValueOut_ok {tx : CTransaction} {v : CAmount} (h : getValueOut wrapping tx = .ok v) :
    getValueOut trapping tx = .ok v ∧ v.toInt = valueSum tx.vout ∧ InRange v.toInt ∧
      ∀ out ∈ tx.vout, InRange out.nValue.toInt := by
  have htallies : Tallies CTxOut.nValue addValueOut := fun _ _ _ hsum hstep =>
    tallyAmount_ok hsum hstep
  exact htallies.foldlM h

end PyrrhaNode.Money
