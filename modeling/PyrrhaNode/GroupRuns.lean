import PyrrhaNode.GroupAcceptance

/-!
# Sequences of accepted transactions

A coinbase may not have grouped outputs, every other transaction passes the token
group check on the coins of the view. An accepted transaction spends its inputs and
adds its outputs. What a view holds after a sequence was there before, or is an output
of one of the transactions.
-/
namespace PyrrhaNode.GroupRuns
open Serialize Transaction ScriptAttributes Coins
open WriteBackCache GroupTokens GroupAccounting
open GroupAcceptance Loop

/-- The token rules for a transaction on the coins of a view. -/
def checkTokens (H : HashFns) (view : CCoinsViewCache) (tx : CTransaction) :
    Except String Unit :=
  if tx.isCoinBase then
    if isAnyTxOutputGrouped tx then throw "coinbase-has-group-outputs" else return ()
  else
    match checkGroupTokens H tx view.getCoin with
    | .error reject => throw reject.reason
    | .ok _ => return ()

/-- Accepts a transaction at a height. -/
def acceptTx (H : HashFns) (view : CCoinsViewCache) (step : CTransaction × ℕ) :
    Except String CCoinsViewCache := do
  checkTokens H view step.1
  let updated ← updateCoins H step.1 view step.2
  return updated.1

/-- Accepts a sequence of transactions. -/
def acceptTxs (H : HashFns) (view : CCoinsViewCache) (steps : List (CTransaction × ℕ)) :
    Except String CCoinsViewCache :=
  steps.foldlM (acceptTx H) view

variable {tx : CTransaction} {out : CTxOut} {H : HashFns} {view : CCoinsViewCache}

lemma checkTokens_cases (h : checkTokens H view tx = .ok ()) :
    (∀ out ∈ tx.vout, groupOf out = noGroup) ∨
      tx.isCoinBase = false ∧ ∃ m, checkGroupTokens H tx view.getCoin = .ok m := by
  unfold checkTokens at h
  by_cases hcb : tx.isCoinBase = true
  · rw [if_pos hcb] at h
    obtain ⟨hgrouped, -⟩ := ite_throw_eq_ok.mp h
    refine .inl fun out hout => ?_
    by_contra hne
    exact hgrouped (List.any_eq_true.mpr ⟨out, hout, by simp [hne]⟩)
  rw [if_neg hcb] at h
  match hm : checkGroupTokens H tx view.getCoin with
  | .error e =>
    rw [hm] at h
    cases h
  | .ok m => exact .inr ⟨Bool.eq_false_iff.mpr hcb, m, rfl⟩

/-- An accepted transaction satisfies the token rules, and the view holds nothing new
but its outputs. -/
lemma acceptTx_holds {view' : CCoinsViewCache} {step : CTransaction × ℕ} (hc : view.Coherent)
    (h : acceptTx H view step = .ok view') :
    checkTokens H view step.1 = .ok () ∧ view'.Coherent ∧ ∀ o coin, view'.Holds o coin →
      view.Holds o coin ∨ coin.out ∈ step.1.vout := by
  obtain ⟨u, hcheck, h⟩ := bind_eq_ok.mp h
  obtain ⟨updated, hupdate, h⟩ := bind_eq_ok.mp h
  cases h
  obtain ⟨hcoh, hheld⟩ := updateCoins_holds hc hupdate
  refine ⟨hcheck, hcoh, fun o coin hholds => (hheld o coin hholds).imp_right ?_⟩
  rintro ⟨out, hout, rfl⟩
  exact hout

lemma holds_of_mem_spentOutputs {m : GroupBalanceMap}
    (h : checkGroupTokens H tx view.getCoin = .ok m)
    (hout : out ∈ spentOutputs view.getCoin tx.vin) :
    ∃ o coin, view.Holds o coin ∧ coin.out = out := by
  obtain ⟨outputs, inputs, houtputs, hinputs, -⟩ := checkGroupTokens_eq h
  have hfound := (inputPass_counted (outputPass_counted houtputs).1 hinputs).2
  obtain ⟨inp, hinp, hmap⟩ := List.mem_filterMap.mp hout
  obtain ⟨coin, hcoin, hlive⟩ := hfound inp hinp
  rw [hcoin] at hmap
  exact ⟨inp.prevout, coin, ⟨hlive, Cache.holds_of_get hcoin⟩, Option.some.inj hmap⟩

end PyrrhaNode.GroupRuns
