import PyrrhaNode.CoinSupply
import PyrrhaNode.Subsidy

/-!
# The value that a block creates

The first pass over a block adds the values of all outputs and the second one takes
away the values of all inputs, so that the coins after the block are worth what they
were before, and what the coinbase pays, less the fees. The fees only grow from one
transaction to the next and in the end are at most the value of all coins; hence no
sum on the way overflows, however many transactions the block has.
-/
namespace PyrrhaNode.BlockSupply
open List Serialize Transaction Coins Money
open TxVerify BlockConnect CoinSupply SignedWord
open Loop

/-- A bound on fees that leaves room for the inputs of one transaction. -/
def feeCap : ℤ := 2 ^ 62

variable {nHeight : ℕ} {H : HashFns}

lemma addBlockTx_addCoins {state state' : CCoinsViewCache × Uint256} {tx : CTransaction × ℕ}
    (h : addBlockTx H nHeight state tx = .ok state') :
    addCoins H state.1 tx.1 nHeight = .ok state'.1 := by
  unfold addBlockTx at h
  match hadd : addCoins H state.1 tx.1 nHeight with
  | .error e =>
    rw [hadd] at h
    cases h
  | .ok view =>
    rw [hadd] at h
    dsimp only at h
    by_cases hfirst : tx.2 = 0
    · rw [if_pos hfirst] at h
      cases h
      rfl
    · rw [if_neg hfirst] at h
      obtain ⟨-, h⟩ := ite_throw_eq_ok.mp h
      cases h
      rfl

/-- The value of the outputs of a list of transactions. -/
def outputSum (txs : List CTransaction) : ℤ := (txs.map fun tx => valueSum tx.vout).sum

lemma Bounded.addBlock {base : COutPoint → Option Coin} {φ : COutPoint → ℤ} {b : ℤ}
    {state state' : CCoinsViewCache × Uint256} {txs : List (CTransaction × ℕ)}
    (hb : Bounded base φ state.1 b) (hchecked : ∀ tx ∈ txs, Checked tx.1)
    (h : txs.foldlM (addBlockTx H nHeight) state = .ok state') :
    Bounded base φ state'.1 (b + outputSum (txs.map Prod.fst)) := by
  refine foldlM_invariant
    (fun done s => Bounded base φ s.1 (b + outputSum (done.map Prod.fst))) ?_ h
    (by simpa [outputSum] using hb)
  intro done tx s s' hmem hdone hstep
  have hnext := hdone.addCoins (hchecked tx hmem).values (addBlockTx_addCoins hstep)
  simpa [outputSum, add_assoc] using hnext

lemma addInputFees_ok {view : CCoinsViewCache} {vin : List CTxIn} {nFees nFees' : CAmount}
    (h : vin.foldlM (addInputFee wrapping view) nFees = .ok nFees')
    (hvalues : ∀ inp ∈ vin, InRange (view.accessCoin inp.prevout).out.nValue.toInt)
    (hpos : 0 ≤ nFees.toInt) (hcap : nFees.toInt +
      (vin.map fun inp => (view.accessCoin inp.prevout).out.nValue.toInt).sum < 2 ^ 63) :
    vin.foldlM (addInputFee trapping view) nFees = .ok nFees' ∧
      nFees'.toInt = nFees.toInt +
        (vin.map fun inp => (view.accessCoin inp.prevout).out.nValue.toInt).sum := by
  induction vin generalizing nFees with
  | nil =>
    cases h
    exact ⟨rfl, by simp⟩
  | cons inp vin ih =>
    obtain ⟨sum, hsum, h⟩ := foldlM_cons_eq_ok.mp h
    obtain ⟨hlive, hsum⟩ := ite_throw_eq_ok.mp hsum
    obtain ⟨t, ht, hsum⟩ := bind_eq_ok.mp hsum
    cases ht
    obtain ⟨hamount, hsum⟩ := ite_throw_eq_ok.mp hsum
    cases hsum
    have hvalue := hvalues inp (by simp)
    have hrest : 0 ≤ (vin.map fun i => (view.accessCoin i.prevout).out.nValue.toInt).sum :=
      sum_nonneg fun x hx => by
        obtain ⟨i, hi, rfl⟩ := mem_map.mp hx
        exact (hvalues i (by simp [hi])).1
    simp only [map_cons, sum_cons] at hcap ⊢
    have hexact : (nFees + (view.accessCoin inp.prevout).out.nValue).toInt =
        nFees.toInt + (view.accessCoin inp.prevout).out.nValue.toInt :=
      toInt_add_of_bounds (by have := hvalue.1; omega) (by omega)
    have hvalue₀ := hvalue.1
    obtain ⟨htrap, hsum⟩ := ih h (fun i hi => hvalues i (by simp [hi])) (by omega) (by omega)
    refine ⟨foldlM_cons_eq_ok.mpr ⟨_, ?_, htrap⟩, by omega⟩
    rw [addInputFee, if_neg hlive, trapping_add hexact]
    exact bind_eq_ok.mpr ⟨_, rfl, by rw [if_neg hamount]; rfl⟩

section Connect
variable {H : HashFns} {params : ConsensusParams} {checks : BlockChecks} {nHeight : ℕ}
  {base : COutPoint → Option Coin} {φ : COutPoint → ℤ} {view : CCoinsViewCache} {tx : CTransaction}
  {state : ConnectState} {b : ℤ} {state' : ConnectState} {block : CBlock} {coinbase : CTransaction}
  {txs : List CTransaction} {nFees : CAmount}

lemma checkInputs_ok (h : checkInputs wrapping H params checks nHeight view tx = .ok ()) :
    checkInputs trapping H params checks nHeight view tx = .ok () ∧ InputsChecked tx view := by
  obtain ⟨u, hinputs, h⟩ := bind_eq_ok.mp h
  obtain ⟨htrap, hchecked, -⟩ := checkTxInputs_ok hinputs
  exact ⟨bind_eq_ok.mpr ⟨u, htrap, h⟩, hchecked⟩

lemma connectInputs_ok {nFees' : CAmount}
    (h : connectInputs wrapping H params checks nHeight view nFees tx = .ok nFees') :
    InputsChecked tx view ∧
      (0 ≤ nFees.toInt → nFees.toInt + (valueIn view tx - valueSum tx.vout) ≤ feeCap →
        connectInputs trapping H params checks nHeight view nFees tx = .ok nFees' ∧
          nFees'.toInt = nFees.toInt + (valueIn view tx - valueSum tx.vout)) := by
  obtain ⟨nFeesIn, hin, h⟩ := bind_eq_ok.mp h
  obtain ⟨valueOut, hout, h⟩ := bind_eq_ok.mp h
  obtain ⟨nFeesOut, hsub, h⟩ := bind_eq_ok.mp h
  cases hsub
  obtain ⟨hlocks, h⟩ := ite_throw_eq_ok.mp h
  obtain ⟨u, hcheck, h⟩ := bind_eq_ok.mp h
  cases h
  obtain ⟨htrapCheck, hchecked⟩ := checkInputs_ok hcheck
  obtain ⟨htrapOut, hsumOut, hrangeOut, -⟩ := getValueOut_ok hout
  refine ⟨hchecked, fun hpos hcap => ?_⟩
  have hout₁ := hrangeOut.2
  have hin₀ := hchecked.total.1
  unfold feeCap at hcap
  have hvalueIn : (tx.vin.map fun inp => (view.accessCoin inp.prevout).out.nValue.toInt).sum =
      valueIn view tx := rfl
  obtain ⟨htrapIn, hsumIn⟩ := addInputFees_ok hin hchecked.values hpos (by omega)
  have hexact : (nFeesIn - valueOut).toInt = nFeesIn.toInt - valueOut.toInt :=
    toInt_sub_of_bounds (by omega) (by omega)
  refine ⟨?_, by omega⟩
  refine bind_eq_ok.mpr ⟨nFeesIn, htrapIn, bind_eq_ok.mpr ⟨valueOut, htrapOut, ?_⟩⟩
  refine bind_eq_ok.mpr ⟨_, trapping_sub hexact, ?_⟩
  rw [if_neg hlocks]
  exact bind_eq_ok.mpr ⟨u, htrapCheck, rfl⟩

/-- A transaction of the second pass: it spends at least what it pays, takes away what it
spends, and adds the difference to the fees. -/
lemma connectTx_ok {tx : CTransaction × ℕ} (hcb : tx.1.isCoinBase = false) (hchecked : Checked tx.1)
    (hb : Bounded base φ state.view b)
    (h : connectTx wrapping H params checks nHeight state tx = .ok state') :
    ∃ fee, 0 ≤ fee ∧ Bounded base φ state'.view (b - fee - valueSum tx.1.vout) ∧
      (0 ≤ state.nFees.toInt → state.nFees.toInt + fee ≤ feeCap →
        connectTx trapping H params checks nHeight state tx = .ok state' ∧
          state'.nFees.toInt = state.nFees.toInt + fee) := by
  obtain ⟨nFees, hfees, h⟩ := bind_eq_ok.mp h
  cases h
  have hnot : ¬ tx.1.isCoinBase = true := by simp [hcb]
  rw [connectFees, if_neg hnot] at hfees
  obtain ⟨hinputs, htrap⟩ := connectInputs_ok hfees
  have hcover := hinputs.covers
  refine ⟨valueIn state.view tx.1 - valueSum tx.1.vout, by omega, ?_, fun hpos hcap => ?_⟩
  · have hspent := hb.spendInputs (hchecked.prevouts hcb)
    have hsum : (tx.1.vin.map fun inp => coinWeight (state.view.accessCoin inp.prevout)).sum =
        valueIn state.view tx.1 := by
      congr 1
      exact map_congr_left fun inp hinp => coinWeight_of_inRange (hinputs.values inp hinp)
    simp only [spendCoins, if_neg hnot]
    exact hspent.mono (by omega)
  · obtain ⟨hrun, hexact⟩ := htrap hpos hcap
    refine ⟨bind_eq_ok.mpr ⟨nFees, ?_, rfl⟩, hexact⟩
    rw [connectFees, if_neg hnot]
    exact hrun

/-- The second pass over transactions that are no coinbases. -/
lemma connectTxs_ok {txs : List (CTransaction × ℕ)}
    (htxs : ∀ tx ∈ txs, tx.1.isCoinBase = false ∧ Checked tx.1) (hb : Bounded base φ state.view b)
    (h : txs.foldlM (connectTx wrapping H params checks nHeight) state = .ok state') :
    ∃ fees, 0 ≤ fees ∧ Bounded base φ state'.view (b - fees - outputSum (txs.map Prod.fst)) ∧
      (0 ≤ state.nFees.toInt → state.nFees.toInt + fees ≤ feeCap →
        txs.foldlM (connectTx trapping H params checks nHeight) state = .ok state' ∧
          state'.nFees.toInt = state.nFees.toInt + fees) := by
  induction txs generalizing state b with
  | nil =>
    cases h
    exact ⟨0, le_refl 0, by simpa [outputSum] using hb, fun _ _ => ⟨rfl, by simp⟩⟩
  | cons tx txs ih =>
    obtain ⟨mid, hmid, h⟩ := foldlM_cons_eq_ok.mp h
    obtain ⟨hcb, hchecked⟩ := htxs tx (by simp)
    obtain ⟨fee, hfee, hbmid, htrap⟩ := connectTx_ok hcb hchecked hb hmid
    obtain ⟨fees, hfees, hbend, htraps⟩ := ih (fun t ht => htxs t (by simp [ht])) hbmid h
    refine ⟨fee + fees, by omega, ?_, fun hpos hcap => ?_⟩
    · refine hbend.mono (le_of_eq ?_)
      simp only [outputSum, map_cons, sum_cons]
      ring
    · obtain ⟨hstep, hexact⟩ := htrap hpos (by omega)
      obtain ⟨hrun, hexacts⟩ := htraps (by omega) (by omega)
      exact ⟨foldlM_cons_eq_ok.mpr ⟨mid, hstep, hrun⟩, by omega⟩

/-- The transactions of a checked block: one coinbase, then transactions that are none. -/
lemma checkBlock_ok (h : checkBlock wrapping checks block = .ok ()) :
    checkBlock trapping checks block = .ok () ∧
      ∃ coinbase txs, block.vtx = coinbase :: txs ∧ coinbase.isCoinBase = true ∧
        Checked coinbase ∧ ∀ tx ∈ txs, tx.isCoinBase = false ∧ Checked tx := by
  unfold checkBlock at h ⊢
  obtain ⟨hheader, h⟩ := ite_throw_eq_ok.mp h
  obtain ⟨hempty, h⟩ := ite_throw_eq_ok.mp h
  rw [forM_eq_ok] at h
  have htx : ∀ tx ∈ block.vtx.zipIdx, checkBlockTx trapping checks tx = .ok () ∧
      Checked tx.1 ∧ (tx.2 = 0 ↔ tx.1.isCoinBase = true) := by
    intro tx hmem
    have hcheck := h tx hmem
    unfold checkBlockTx at hcheck ⊢
    obtain ⟨hmissing, hcheck⟩ := ite_throw_eq_ok.mp hcheck
    obtain ⟨hmultiple, hcheck⟩ := ite_throw_eq_ok.mp hcheck
    obtain ⟨htrap, hchecked⟩ := checkTransaction_ok hcheck
    rw [if_neg hmissing, if_neg hmultiple]
    exact ⟨htrap, hchecked, by tauto⟩
  constructor
  · rw [if_neg hheader, if_neg hempty]
    exact forM_eq_ok.mpr fun tx hmem => (htx tx hmem).1
  · cases hvtx : block.vtx with
    | nil => simp [hvtx] at hempty
    | cons coinbase txs =>
      rw [hvtx] at htx
      have hfirst := htx (coinbase, 0) (by simp [zipIdx_cons])
      refine ⟨coinbase, txs, rfl, hfirst.2.2.mp rfl, hfirst.2.1, fun tx hmem => ?_⟩
      obtain ⟨i, hi, rfl⟩ := getElem_of_mem hmem
      have hother := htx (txs[i], i + 1) (mk_mem_zipIdx_iff_getElem?.mpr (by simp [hi]))
      refine ⟨Bool.eq_false_iff.mpr fun hcb => ?_, hother.2.1⟩
      exact absurd (hother.2.2.mpr hcb) (Nat.succ_ne_zero i)

lemma connectTxs_coinbase {A : Arithmetic} (hvtx : block.vtx = coinbase :: txs)
    (hcb : coinbase.isCoinBase = true) :
    block.vtx.zipIdx.foldlM (connectTx A H params checks nHeight) state =
      (txs.zipIdx 1).foldlM (connectTx A H params checks nHeight) state := by
  rw [hvtx, zipIdx_cons]
  simp [connectTx, connectFees, hcb, spendCoins, bind, Except.bind, pure, Except.pure]

lemma connectBlockCanonicalOrdering_ok (hvtx : block.vtx = coinbase :: txs)
    (hcb : coinbase.isCoinBase = true) (hchecked : Checked coinbase)
    (htxs : ∀ tx ∈ txs, tx.isCoinBase = false ∧ Checked tx) (hb : Bounded base φ view b)
    (hsmall : b + valueSum coinbase.vout ≤ feeCap)
    (h : connectBlockCanonicalOrdering wrapping H params checks block nHeight view = .ok state) :
    connectBlockCanonicalOrdering trapping H params checks block nHeight view = .ok state ∧
      0 ≤ state.nFees.toInt ∧ state.nFees.toInt ≤ b + valueSum coinbase.vout ∧
      Bounded base φ state.view (b + valueSum coinbase.vout - state.nFees.toInt) := by
  obtain ⟨added, hadded, h⟩ := bind_eq_ok.mp h
  obtain ⟨last, hlast, h⟩ := bind_eq_ok.mp h
  obtain ⟨hsig, h⟩ := ite_throw_eq_ok.mp h
  cases h
  have hall : ∀ tx ∈ block.vtx.zipIdx, Checked tx.1 := by
    intro tx hmem
    have hfst := fst_mem_of_mem_zipIdx hmem
    rw [hvtx] at hfst
    rcases mem_cons.mp hfst with heq | hrest
    · rw [heq]
      exact hchecked
    · exact (htxs _ hrest).2
  have hbadded := Bounded.addBlock hb hall hadded
  rw [zipIdx_map_fst, hvtx] at hbadded
  rw [connectTxs_coinbase hvtx hcb] at hlast
  obtain ⟨fees, hfees, hbend, htrap⟩ := connectTxs_ok
    (fun tx hmem => htxs tx.1 (fst_mem_of_mem_zipIdx hmem)) hbadded hlast
  have hbound : b + outputSum (coinbase :: txs) - fees - outputSum ((txs.zipIdx 1).map Prod.fst) =
      b + valueSum coinbase.vout - fees := by
    rw [zipIdx_map_fst]
    simp only [outputSum, map_cons, sum_cons]
    ring
  rw [hbound] at hbend
  have hle := hbend.nonneg
  have hzero : (0 : CAmount).toInt = 0 := by decide
  obtain ⟨hrun, hexact⟩ := htrap (by simp [hzero]) (by simp only [hzero]; omega)
  simp only [hzero, zero_add] at hexact
  rw [hexact]
  refine ⟨bind_eq_ok.mpr ⟨added, hadded, bind_eq_ok.mpr ⟨state, ?_, ?_⟩⟩, hfees, by omega, hbend⟩
  · rw [connectTxs_coinbase hvtx hcb]
    exact hrun
  · rw [if_neg hsig]
    rfl

/-- The coinbase pays at most the fees and the subsidy, exactly added. -/
lemma checkReward_ok (hvtx : block.vtx = coinbase :: txs) (hpos : 0 ≤ nFees.toInt)
    (hcap : nFees.toInt ≤ feeCap) (hsubsidy : InRange (getBlockSubsidy nHeight params).toInt)
    (h : checkReward wrapping params nHeight nFees block = .ok ()) :
    checkReward trapping params nHeight nFees block = .ok () ∧
      valueSum coinbase.vout ≤ nFees.toInt + (getBlockSubsidy nHeight params).toInt := by
  obtain ⟨hsub₀, hsub₁⟩ := hsubsidy
  unfold feeCap at hcap
  have hexact : (nFees + getBlockSubsidy nHeight params).toInt =
      nFees.toInt + (getBlockSubsidy nHeight params).toInt :=
    toInt_add_of_bounds (by omega) (by omega)
  obtain ⟨reward, hreward, h⟩ := bind_eq_ok.mp h
  cases hreward
  rw [hvtx] at h
  obtain ⟨valueOut, hout, h⟩ := bind_eq_ok.mp h
  obtain ⟨hpays, -⟩ := ite_throw_eq_ok.mp h
  obtain ⟨htrap, hsum, -⟩ := getValueOut_ok hout
  constructor
  · refine bind_eq_ok.mpr ⟨_, trapping_add hexact, ?_⟩
    rw [hvtx]
    exact bind_eq_ok.mpr ⟨valueOut, htrap, h⟩
  · rw [Int64.lt_iff_toInt_lt] at hpays
    omega

/-- A connected block adds at most its subsidy to the value of the coins, and no sum on
the way overflows. -/
theorem connectBlock_ok {view' : CCoinsViewCache} {vtxundo : List (List Coin)}
    (hb : Bounded base φ view b) (hmax : b ≤ maxMoney.toInt)
    (hsubsidy : InRange (getBlockSubsidy nHeight params).toInt)
    (h : connectBlock wrapping H params checks block nHeight view = .ok (view', vtxundo)) :
    connectBlock trapping H params checks block nHeight view = .ok (view', vtxundo) ∧
      Bounded base φ view' (b + (getBlockSubsidy nHeight params).toInt) := by
  have hsub₀ := hsubsidy.1
  unfold connectBlock at h ⊢
  by_cases hgenesis : block.hash = params.hashGenesisBlock
  · rw [if_pos hgenesis] at h ⊢
    cases h
    exact ⟨rfl, ⟨hb.coherent, hb.store, hb.covers, (hb.mono (by omega)).sums⟩⟩
  rw [if_neg hgenesis] at h ⊢
  obtain ⟨u, hblock, h⟩ := bind_eq_ok.mp h
  obtain ⟨htip, h⟩ := ite_throw_eq_ok.mp h
  obtain ⟨state, hstate, h⟩ := bind_eq_ok.mp h
  obtain ⟨v, hreward, h⟩ := bind_eq_ok.mp h
  cases h
  obtain ⟨htrapBlock, coinbase, txs, hvtx, hcb, hchecked, htxs⟩ := checkBlock_ok hblock
  have htotal := hchecked.total.2
  have hmoney : maxMoney.toInt = 2100000000000000 := by decide
  have hsmall : b + valueSum coinbase.vout ≤ feeCap := by
    unfold feeCap
    omega
  obtain ⟨htrapState, hpos, hle, hbstate⟩ :=
    connectBlockCanonicalOrdering_ok hvtx hcb hchecked htxs hb hsmall hstate
  obtain ⟨htrapReward, hpays⟩ := checkReward_ok hvtx hpos (hle.trans hsmall) hsubsidy hreward
  constructor
  · refine bind_eq_ok.mpr ⟨u, htrapBlock, ?_⟩
    rw [if_neg htip]
    exact bind_eq_ok.mpr ⟨state, htrapState, bind_eq_ok.mpr ⟨v, htrapReward, rfl⟩⟩
  · exact ⟨hbstate.coherent, hbstate.store, hbstate.covers, (hbstate.mono (by omega)).sums⟩

end Connect

end PyrrhaNode.BlockSupply
