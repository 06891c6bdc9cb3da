import PyrrhaNode.GroupAcceptance

/-!
# Token conservation

Without a mint permission the outputs of a group are covered by its inputs, and
without a melt permission its inputs are covered by its outputs. A permission comes
from an authority of the group itself, or from authorities of its parent that also
have the subgroup permission.
-/
namespace PyrrhaNode.GroupConservation
open Serialize Transaction
open ScriptAttributes Coins
open GroupTokens GroupAccounting GroupAcceptance

/-- A group that the transaction does not create gains no tokens without a grant to
mint and loses none without a grant to melt. -/
theorem checkGroupTokens_conserves {H : HashFns} {tx : CTransaction}
    {view : COutPoint → Option Coin} {m : GroupBalanceMap} (h : checkGroupTokens H tx view = .ok m)
    (hvout : ∀ out ∈ tx.vout, 0 ≤ out.nValue.toInt)
    (hvin : ∀ inp ∈ tx.vin, ∀ coin, view inp.prevout = some coin → 0 ≤ coin.out.nValue.toInt)
    {g : CGroupTokenID} (hg : g ≠ noGroup) (hnew : newGroupId H tx (authorityFlags g tx.vout) ≠ g) :
    (¬ Grants .mint g (spentOutputs view tx.vin) →
      tokenSum g tx.vout ≤ tokenSum g (spentOutputs view tx.vin)) ∧
    (¬ Grants .melt g (spentOutputs view tx.vin) →
      tokenSum g (spentOutputs view tx.vin) ≤ tokenSum g tx.vout) := by
  have hbal := checkGroupTokens_balanced h hvout hvin hg
  have hno : ¬ Creates H tx (spentOutputs view tx.vin) g := fun hc => hnew hc.2.2
  constructor
  · intro hgrant
    by_contra hlt
    have hperm := hbal.mint hno (not_le.mp hlt)
    exact hgrant (grants_of_inputPerms (by decide) hperm)
  · intro hgrant
    by_contra hlt
    have hperm := hbal.melt hno (not_le.mp hlt)
    exact hgrant (grants_of_inputPerms (by decide) hperm)

/-- Of five coins of the fenced group, five stay and one more is taken away. -/
def takingTx : CTransaction :=
  { splitTx fencedGroup 0 0 with vout := [fencedOut 5, fencedOut (-1)] }

/-- The token group check alone accepts a transaction with an output of negative value, by which
the group loses tokens without a grant to melt. -/
theorem checkGroupTokens_takingTx :
    (checkGroupTokens lengthHash takingTx (oneCoinView (fencedOut 5))).isOk = true ∧
      newGroupId lengthHash takingTx (authorityFlags fencedGroup takingTx.vout) ≠ fencedGroup ∧
      ¬ Grants .melt fencedGroup (spentOutputs (oneCoinView (fencedOut 5)) takingTx.vin) ∧
      tokenSum fencedGroup (spentOutputs (oneCoinView (fencedOut 5)) takingTx.vin) = 5 ∧
      tokenSum fencedGroup takingTx.vout = 4 := by
  decide +kernel

/-- The outputs that `splitTx` spends. -/
def plainIns : List CTxOut :=
  spentOutputs (oneCoinView (tokenOut plainGroup 5)) (splitTx plainGroup 2 3).vin

theorem checkGroupTokens_conserves_splitTx :
    ¬ Grants .mint plainGroup plainIns ∧
      tokenSum plainGroup (splitTx plainGroup 2 3).vout ≤ tokenSum plainGroup plainIns := by
  obtain ⟨m, h⟩ : ∃ m, checkGroupTokens lengthHash (splitTx plainGroup 2 3)
      (oneCoinView (tokenOut plainGroup 5)) = .ok m := Loop.exists_eq_ok.mp (by decide +kernel)
  have hgrant : ¬ Grants .mint plainGroup plainIns := by
    decide +kernel
  refine ⟨hgrant,
    (checkGroupTokens_conserves h (by decide) ?_ (by decide) (by decide +kernel)).1 hgrant⟩
  intro inp _ coin hcoin
  cases hcoin
  decide

end PyrrhaNode.GroupConservation
