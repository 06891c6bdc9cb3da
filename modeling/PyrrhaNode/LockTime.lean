import PyrrhaNode.Difficulty
import PyrrhaNode.SpendVerify

/-!
# Lock times

A transaction can be locked until a height or a time, as a whole by its lock time and for
each input by the age of the coin that it spends. Blocks check the locks of the
transaction; scripts only compare their operand with the fields of the transaction. The
results below put the two together: an opcode that succeeded locks the coin.
-/
namespace PyrrhaNode.LockTime
open Transaction Interpreter ScriptOps SpendVerify
open Serialize Script Difficulty Loop

/-- `IsFinalTx`. -/
def isFinalTx (tx : CTransaction) (nBlockHeight nBlockTime : ℤ) : Bool :=
  if tx.nLockTime = 0 then true
  else if (tx.nLockTime.toNat : ℤ) <
      (if tx.nLockTime.toNat < lockTimeThreshold then nBlockHeight else nBlockTime) then true
  else tx.vin.all fun txin => txin.nSequence == sequenceFinal

/-- The result of an operation on `int`. -/
def int32 (x : ℤ) : Except Failure ℤ :=
  if -2 ^ 31 ≤ x ∧ x < 2 ^ 31 then .ok x else .error .signedOverflow

theorem int32_eq_ok {x y : ℤ} (h : int32 x = .ok y) : y = x := by
  unfold int32 at h
  split at h
  · exact (Except.ok.inj h).symm
  · cases h

/-- `GetMedianTimePast`: the middle of the last eleven block times. -/
def medianTimePast (pindex : Chain) : ℤ :=
  let times := ((pindex.take 11).map fun b => b.nTime.toNat).insertionSort (· ≤ ·)
  times.getD (times.length / 2) 0

def sequenceLockTimeGranularity : ℕ := 9

/-- The variables of the loop in `CalculateSequenceLocks`, with the heights written so far. -/
structure SequenceLockState where
  nMinHeight : ℤ
  nMinTime : ℤ
  prevHeights : List ℤ
  deriving DecidableEq, Repr

/-- One input of `CalculateSequenceLocks`. The times cannot overflow, since block times
have 32 bits. -/
def lockInput (block : Chain) (s : SequenceLockState) (input : CTxIn × ℤ) :
    Except Failure SequenceLockState :=
  let (txin, nCoinHeight) := input
  if txin.nSequence.toNat &&& sequenceLockTimeDisableFlag ≠ 0 then
    return { s with prevHeights := s.prevHeights ++ [0] }
  else if txin.nSequence.toNat &&& sequenceLockTimeTypeFlag ≠ 0 then do
    let before ← int32 (nCoinHeight - 1)
    match getAncestor block (max before 0) with
    | none | some [] => throw .nullPointer
    | some ancestor =>
      let nCoinTime := medianTimePast ancestor
      let lockTime : ℕ :=
        (txin.nSequence.toNat &&& sequenceLockTimeMask) <<< sequenceLockTimeGranularity
      return { s with
        nMinTime := max s.nMinTime (nCoinTime + lockTime - 1)
        prevHeights := s.prevHeights ++ [nCoinHeight] }
  else do
    let unlocked ← int32 (nCoinHeight + (txin.nSequence.toNat &&& sequenceLockTimeMask : ℕ))
    let last ← int32 (unlocked - 1)
    return { s with
      nMinHeight := max s.nMinHeight last
      prevHeights := s.prevHeights ++ [nCoinHeight] }

/-- `CalculateSequenceLocks`: the last height and time at which the transaction is locked,
and the heights that matter for them. -/
def calculateSequenceLocks (tx : CTransaction) (prevHeights : List ℤ) (block : Chain) :
    Except Failure SequenceLockState :=
  if prevHeights.length ≠ tx.vin.length then
    throw (.assertion "prevHeights->size() == tx->vin.size()")
  else (tx.vin.zip prevHeights).foldlM (lockInput block) ⟨-1, -1, []⟩

/-- `EvaluateSequenceLocks`. -/
def evaluateSequenceLocks (block : Chain) (nMinHeight nMinTime : ℤ) : Except Failure Bool :=
  match block with
  | [] => throw .nullPointer
  | [_] => throw (.assertion "block.pprev")
  | tip :: pprev =>
    return !(decide ((tip.height.toNat : ℤ) ≤ nMinHeight) ||
      decide (medianTimePast pprev ≤ nMinTime))

/-- `SequenceLocks`, with the heights that it leaves in `prevHeights`. -/
def sequenceLocks (tx : CTransaction) (prevHeights : List ℤ) (block : Chain) :
    Except Failure (Bool × List ℤ) := do
  let locks ← calculateSequenceLocks tx prevHeights block
  let holds ← evaluateSequenceLocks block locks.nMinHeight locks.nMinTime
  return (holds, locks.prevHeights)

/-- An input is not locked at the height and time, or only by its disable flag. -/
def Covered (block : Chain) (nMinHeight nMinTime : ℤ) (input : CTxIn × ℤ) : Prop :=
  input.1.nSequence.toNat &&& sequenceLockTimeDisableFlag = 0 →
    (input.1.nSequence.toNat &&& sequenceLockTimeTypeFlag = 0 →
      input.2 + (input.1.nSequence.toNat &&& sequenceLockTimeMask : ℕ) - 1 ≤ nMinHeight) ∧
    (input.1.nSequence.toNat &&& sequenceLockTimeTypeFlag ≠ 0 →
      ∃ ancestor, ancestor ≠ [] ∧ getAncestor block (max (input.2 - 1) 0) = some ancestor ∧
        medianTimePast ancestor +
          512 * (input.1.nSequence.toNat &&& sequenceLockTimeMask : ℕ) - 1 ≤ nMinTime)

section SequenceLocks

variable {block : Chain} {s s' : SequenceLockState} {input : CTxIn × ℤ} {prevHeights : List ℤ}
  {tx : CTransaction}

lemma Covered.mono {nMinHeight nMinTime nMinHeight' nMinTime' : ℤ}
    (h : Covered block nMinHeight nMinTime input) (hheight : nMinHeight ≤ nMinHeight')
    (htime : nMinTime ≤ nMinTime') : Covered block nMinHeight' nMinTime' input := by
  intro henabled
  obtain ⟨hblocks, htimes⟩ := h henabled
  constructor
  · intro htype
    exact (hblocks htype).trans hheight
  · intro htype
    obtain ⟨ancestor, hne, hancestor, hle⟩ := htimes htype
    exact ⟨ancestor, hne, hancestor, hle.trans htime⟩

/-- What one input does: the locks only grow, and they cover the input. -/
lemma lockInput_covers (h : lockInput block s input = .ok s') :
    s.nMinHeight ≤ s'.nMinHeight ∧ s.nMinTime ≤ s'.nMinTime ∧
      Covered block s'.nMinHeight s'.nMinTime input := by
  unfold lockInput at h
  dsimp only at h
  split_ifs at h with hdisabled htype
  · cases h
    exact ⟨le_rfl, le_rfl, fun henabled => absurd henabled hdisabled⟩
  · obtain ⟨before, hbefore, h⟩ := bind_eq_ok.mp h
    obtain rfl := int32_eq_ok hbefore
    split at h
    · cases h
    · cases h
    · rename_i ancestor hne hancestor
      cases h
      refine ⟨le_rfl, le_max_left _ _, fun _ => ⟨fun hblocks => absurd hblocks htype, fun _ => ?_⟩⟩
      refine ⟨ancestor, hne, hancestor, ?_⟩
      simp only [sequenceLockTimeGranularity]
      omega
  · obtain ⟨unlocked, hunlocked, h⟩ := bind_eq_ok.mp h
    obtain rfl := int32_eq_ok hunlocked
    obtain ⟨last, hlast, h⟩ := bind_eq_ok.mp h
    obtain rfl := int32_eq_ok hlast
    cases h
    exact ⟨le_max_left _ _, le_rfl, fun _ => ⟨fun _ => le_max_right _ _,
      fun htimes => absurd htimes htype⟩⟩

theorem calculateSequenceLocks_covers (h : calculateSequenceLocks tx prevHeights block = .ok s) :
    ∀ input ∈ tx.vin.zip prevHeights, Covered block s.nMinHeight s.nMinTime input := by
  obtain ⟨-, hrun⟩ := ite_throw_eq_ok.mp h
  refine foldlM_invariant
    (fun done s => ∀ input ∈ done, Covered block s.nMinHeight s.nMinTime input) ?_ hrun (by simp)
  intro done a s s' _ hdone hstep
  obtain ⟨hheight, htime, hcovered⟩ := lockInput_covers hstep
  refine List.forall_mem_append.mpr ⟨fun input hinput => ?_, List.forall_mem_singleton.mpr hcovered⟩
  exact (hdone input hinput).mono hheight htime

/-- A block on which the locks of a transaction hold is higher and later than the locks
of each input. -/
theorem covered_of_sequenceLocks {heights : List ℤ}
    (h : sequenceLocks tx prevHeights block = .ok (true, heights)) :
    ∃ tip parents, block = tip :: parents ∧ parents ≠ [] ∧ ∀ input ∈ tx.vin.zip prevHeights,
      Covered block (tip.height.toNat - 1) (medianTimePast parents - 1) input := by
  obtain ⟨locks, hlocks, h⟩ := bind_eq_ok.mp h
  obtain ⟨holds, hholds, h⟩ := bind_eq_ok.mp h
  cases h
  unfold evaluateSequenceLocks at hholds
  split at hholds
  · cases hholds
  · cases hholds
  · rename_i tip pprev hne _
    refine ⟨tip, pprev, rfl, hne, fun input hinput => ?_⟩
    have hlt := Except.ok.inj hholds
    rw [Bool.not_eq_true', Bool.or_eq_false_iff, decide_eq_false_iff_not, decide_eq_false_iff_not]
      at hlt
    apply (calculateSequenceLocks_covers hlocks input hinput).mono <;> omega

end SequenceLocks

def scriptVerifyDersig : BitVec 32 := 1#32 <<< 2
def scriptVerifyLowS : BitVec 32 := 1#32 <<< 3
def scriptEnableCheckDataSig : BitVec 32 := 1#32 <<< 18

/-- `GetBlockScriptFlags`: the flags that the scripts of every block are run with. -/
def getBlockScriptFlags : BitVec 32 :=
  scriptVerifyP2sh ||| scriptVerifyCheckLockTimeVerify ||| scriptVerifyDersig |||
    scriptVerifyCheckSequenceVerify ||| scriptVerifyMinimalData ||| scriptVerifyLowS |||
    scriptVerifyNullFail ||| scriptVerifyStrictEnc ||| scriptEnableSigHashForkId |||
    scriptVerifySigPushOnly ||| scriptVerifyCleanStack ||| scriptEnableCheckDataSig

/-- Blocks enforce both kinds of locks, with and without the flag that the main network
drops. -/
lemma getBlockScriptFlags_locks :
    getBlockScriptFlags &&& scriptVerifyCheckLockTimeVerify ≠ 0 ∧
    getBlockScriptFlags &&& scriptVerifyCheckSequenceVerify ≠ 0 ∧
    getBlockScriptFlags &&& ~~~scriptVerifyP2sh &&& scriptVerifyCheckLockTimeVerify ≠ 0 ∧
    getBlockScriptFlags &&& ~~~scriptVerifyP2sh &&& scriptVerifyCheckSequenceVerify ≠ 0 := by
  decide

/-- A run of the script from `m` executes the opcode, which finds the machine `before` and
does not fail. The rest of the script does not matter. -/
structure Executes (env : ScriptEnv ScriptImportedState) (ops : Opcodes ScriptImportedState)
    (m : ScriptMachine) (script : CScript) (opcode : UInt8) (before : ScriptMachine) : Prop where
  reached : ∃ done i rest after, (instructions script).1 = done ++ i :: rest ∧
    i.opcode = opcode ∧ done.foldlM (ScriptMachine.step env ops) (m.beginStep script) = .ok before ∧
    before.step env ops i = .ok after
  taken : before.vfExec.all id = true

/-- The number on the top of the stack. -/
def operand (m : ScriptMachine) : Option ℤ :=
  match m.stack.getLast? with
  | some (.vch data) => some (setVch data)
  | _ => none

section Executed

variable {env : ScriptEnv ScriptImportedState} {m before : ScriptMachine} {script : CScript}
  {R : ScriptRules} {tx : CTransaction} {nIn : UInt32} {n : ℤ}
  {checker : BaseSignatureChecker} {after : ScriptMachine}

@[simp] lemma operand_countOp (m : ScriptMachine) (opcode : UInt8) :
    operand (m.countOp opcode) = operand m := by
  unfold ScriptMachine.countOp
  split_ifs <;> rfl

lemma Executes.exec {ops : Opcodes ScriptImportedState} {opcode : UInt8} (hop : op16 < opcode)
    (h : Executes env ops m script opcode before) :
    ∃ i after, i.opcode = opcode ∧ ops env i (before.countOp opcode) = .ok after := by
  obtain ⟨done, i, rest, after, -, rfl, -, hstep⟩ := h.reached
  obtain ⟨-, hstep⟩ := ite_throw_eq_ok.mp hstep
  obtain ⟨-, hstep⟩ := ite_throw_eq_ok.mp hstep
  obtain ⟨-, hstep⟩ := ite_throw_eq_ok.mp hstep
  obtain ⟨after', hexec, -⟩ := bind_eq_ok.mp hstep
  have htaken : (before.countOp i.opcode).vfExec.all id = true := by
    unfold ScriptMachine.countOp
    rw [if_pos hop]
    exact h.taken
  have hlarge : ¬ i.opcode ≤ op16 := UInt8.not_le.mpr hop
  have hdata : ¬ i.opcode ≤ opPushData4 := fun hle => hlarge (UInt8.le_trans hle (by decide))
  unfold ScriptMachine.execOp at hexec
  rw [if_neg fun hboth => hdata hboth.2, if_pos (.inl htaken)] at hexec
  obtain ⟨-, hexec⟩ := ite_throw_eq_ok.mp hexec
  rw [if_neg hlarge] at hexec
  exact ⟨i, after', rfl, hexec⟩

/-- The operand that a lock-time opcode reads is the number on the top of the stack, and it
is not negative. -/
lemma lockTimeOperand_eq_ok (h : lockTimeOperand env m = .ok n) : operand m = some n ∧ 0 ≤ n := by
  obtain ⟨⟨item, m'⟩, hpop, h⟩ := bind_eq_ok.mp h
  obtain ⟨data, hdata, h⟩ := bind_eq_ok.mp h
  obtain ⟨k, hnum, h⟩ := bind_eq_ok.mp h
  obtain ⟨hneg, h⟩ := ite_throw_eq_ok.mp h
  cases h
  obtain ⟨-, hnum⟩ := ite_throw_eq_ok.mp hnum
  obtain ⟨-, hnum⟩ := ite_throw_eq_ok.mp hnum
  refine ⟨?_, not_lt.mp hneg⟩
  unfold popItem at hpop
  split at hpop
  · cases hpop
  rename_i top htop
  cases hpop
  cases item with
  | bigNum k => cases hdata
  | vch bytes =>
    cases hdata
    rw [operand, htop]
    exact congrArg some (Except.ok.inj hnum)

/-- A lock-time opcode that succeeds has asked the checker about its operand. -/
lemma execCheckLockTimeVerify_eq_ok (hflag : env.flags &&& scriptVerifyCheckLockTimeVerify ≠ 0)
    (hchecker : env.sis.checker = some checker) (hn : operand m = some n)
    (h : execCheckLockTimeVerify env m = .ok after) :
    0 ≤ n ∧ checker.checkLockTime n = true := by
  unfold execCheckLockTimeVerify at h
  rw [if_neg hflag] at h
  obtain ⟨k, hk, h⟩ := bind_eq_ok.mp h
  obtain ⟨htop, hnonneg⟩ := lockTimeOperand_eq_ok hk
  obtain rfl := Option.some.inj (hn.symm.trans htop)
  rw [hchecker] at h
  obtain ⟨hchecked, -⟩ := ite_throw_eq_ok.mp h
  exact ⟨hnonneg, by simpa using hchecked⟩

lemma execCheckSequenceVerify_eq_ok (hflag : env.flags &&& scriptVerifyCheckSequenceVerify ≠ 0)
    (hchecker : env.sis.checker = some checker) (hn : operand m = some n)
    (hclear : n.toNat &&& sequenceLockTimeDisableFlag = 0)
    (h : execCheckSequenceVerify env m = .ok after) :
    0 ≤ n ∧ checker.checkSequence n = true := by
  unfold execCheckSequenceVerify at h
  rw [if_neg hflag] at h
  obtain ⟨k, hk, h⟩ := bind_eq_ok.mp h
  obtain ⟨htop, hnonneg⟩ := lockTimeOperand_eq_ok hk
  obtain rfl := Option.some.inj (hn.symm.trans htop)
  rw [if_neg (not_not.mpr hclear), hchecker] at h
  obtain ⟨hchecked, -⟩ := ite_throw_eq_ok.mp h
  exact ⟨hnonneg, by simpa using hchecked⟩

/-- The lock time of the transaction is of the kind of the operand and not below it, and
the input is not final. -/
lemma checkLockTime_eq_true (h : checkLockTime tx nIn n = true) :
    (tx.nLockTime.toNat < lockTimeThreshold ↔ n < lockTimeThreshold) ∧ n ≤ tx.nLockTime.toNat ∧
      ∃ txin ∈ tx.vin, txin.nSequence ≠ sequenceFinal := by
  unfold checkLockTime at h
  split_ifs at h with hkind hle
  split at h
  · cases h
  · rename_i txin htxin
    exact ⟨by omega, by omega, txin, List.mem_of_getElem? htxin, of_decide_eq_true h⟩

/-- A final transaction with an input that is not final has a lock time of zero or in the
past. -/
lemma lockTime_lt_of_isFinalTx {nBlockHeight nBlockTime : ℤ}
    (h : isFinalTx tx nBlockHeight nBlockTime = true)
    (hinput : ∃ txin ∈ tx.vin, txin.nSequence ≠ sequenceFinal) :
    tx.nLockTime.toNat = 0 ∨
      (tx.nLockTime.toNat < lockTimeThreshold ∧ (tx.nLockTime.toNat : ℤ) < nBlockHeight) ∨
      (lockTimeThreshold ≤ tx.nLockTime.toNat ∧ (tx.nLockTime.toNat : ℤ) < nBlockTime) := by
  unfold isFinalTx at h
  by_cases hzero : tx.nLockTime = 0
  · exact .inl (by rw [hzero]; rfl)
  right
  by_cases hkind : tx.nLockTime.toNat < lockTimeThreshold
  · split_ifs at h with hpast
    · exact .inl ⟨hkind, hpast⟩
    · obtain ⟨txin, hmem, hnot⟩ := hinput
      exact absurd (beq_iff_eq.mp (List.all_eq_true.mp h txin hmem)) hnot
  · split_ifs at h with hpast
    · exact .inr ⟨not_lt.mp hkind, hpast⟩
    · obtain ⟨txin, hmem, hnot⟩ := hinput
      exact absurd (beq_iff_eq.mp (List.all_eq_true.mp h txin hmem)) hnot

/-- A script that executed `OP_CHECKLOCKTIMEVERIFY` without failing locks the transaction
until its operand is in the past. -/
theorem checkLockTimeVerify_locks {nBlockHeight nBlockTime : ℤ}
    (hflag : env.flags &&& scriptVerifyCheckLockTimeVerify ≠ 0)
    (hchecker : env.sis.checker = some (transactionSignatureChecker R tx nIn))
    (hexec : Executes env (ops R) m script opCheckLockTimeVerify before)
    (hn : operand before = some n) (hfinal : isFinalTx tx nBlockHeight nBlockTime = true)
    (hheight : 0 < nBlockHeight) :
    (n < 500000000 → n < nBlockHeight) ∧ (500000000 ≤ n → n < nBlockTime) := by
  obtain ⟨i, after, hi, hop⟩ := hexec.exec (by decide)
  have hcltv : execCheckLockTimeVerify env (before.countOp opCheckLockTimeVerify) = .ok after := by
    rw [← hop, ops, standardOps, hi]
    rfl
  obtain ⟨hnonneg, hchecked⟩ :=
    execCheckLockTimeVerify_eq_ok hflag hchecker ((operand_countOp _ _).trans hn) hcltv
  obtain ⟨hkind, hle, hinput⟩ := checkLockTime_eq_true hchecked
  have hthreshold : lockTimeThreshold = 500000000 := rfl
  rcases lockTime_lt_of_isFinalTx hfinal hinput with hzero | ⟨hblocks, hpast⟩ | ⟨htimes, hpast⟩
  all_goals constructor <;> intro <;> omega

/-- Rules without further opcodes, under which no signature verifies. -/
def lockRules : ScriptRules :=
  ⟨lengthHash, fun _ _ _ => false, fun _ _ _ => throw .badOpcode, false⟩

/-- A transaction with one input. -/
def lockedTx (nLockTime nSequence : UInt32) : CTransaction :=
  ⟨0, [⟨0, ⟨lengthHash.sha256 []⟩, [], nSequence, 0⟩], [], nLockTime⟩

def lockEnv (tx : CTransaction) : ScriptEnv ScriptImportedState :=
  templateEnv (transactionSignatureChecker lockRules tx 0) getBlockScriptFlags

/-- The machine after the first opcode of a script that starts with `OP_5`. -/
def machineFive (opcode : UInt8) : ScriptMachine :=
  (ScriptMachine.init.beginStep [0x55, opcode]).push [5]

lemma executes_five (tx : CTransaction) (opcode : UInt8)
    (hread : (instructions [0x55, opcode]).1 = [⟨0x55, [], [opcode]⟩, ⟨opcode, [], []⟩])
    (hstep : (machineFive opcode).step (lockEnv tx) (ops lockRules) ⟨opcode, [], []⟩ = .ok after) :
    Executes (lockEnv tx) (ops lockRules) ScriptMachine.init [0x55, opcode] opcode
      (machineFive opcode) := by
  have hnum : serializeNum (((0x55 : UInt8).toNat : ℤ) - 0x50) = [5] := by decide +kernel
  have hdata : pushedData ⟨0x55, [], [opcode]⟩ = [5] :=
    (if_neg (by decide : ¬ (0x55 : UInt8) ≤ opPushData4)).trans hnum
  have hfirst : (ScriptMachine.init.beginStep [0x55, opcode]).step (lockEnv tx) (ops lockRules)
      ⟨0x55, [], [opcode]⟩ = .ok (machineFive opcode) := by
    rw [machineFive, ← hdata]
    rfl
  exact ⟨⟨[⟨0x55, [], [opcode]⟩], _, [], after, hread, rfl,
    foldlM_cons_eq_ok.mpr ⟨_, hfirst, rfl⟩, hstep⟩, rfl⟩

theorem checkLockTimeVerify_locks_five : isFinalTx (lockedTx 5 4) 6 0 = true ∧ (5 : ℤ) < 6 := by
  have hexec := executes_five (lockedTx 5 4) opCheckLockTimeVerify (by decide +kernel) rfl
  have hfinal : isFinalTx (lockedTx 5 4) 6 0 = true := by decide
  have hlocks := checkLockTimeVerify_locks getBlockScriptFlags_locks.1 rfl hexec
    (rfl) hfinal (by decide)
  exact ⟨hfinal, hlocks.1 (by decide)⟩

lemma maskSequence_eq (x : ℕ) : maskSequence x = (x.testBit 22).toNat * 2 ^ 22 + x % 65536 := by
  have hmask : sequenceLockTimeMask = 2 ^ 16 - 1 := rfl
  rw [maskSequence, Nat.and_or_distrib_left, hmask, Nat.and_two_pow_sub_one_eq_mod,
    sequenceLockTimeTypeFlag, Nat.and_two_pow]
  cases x.testBit 22 with
  | false => simp
  | true =>
    have hlow : x % 2 ^ 16 < 2 ^ 22 := by omega
    have hor := Nat.two_pow_add_eq_or_of_lt hlow 1
    rw [mul_one] at hor
    rw [Bool.toNat_true, one_mul, ← hor]
    rfl

lemma and_twoPow_eq_zero {x i : ℕ} : x &&& 2 ^ i = 0 ↔ x.testBit i = false := by
  rw [Nat.and_two_pow]
  cases x.testBit i <;> simp

/-- The sequence number of the input is enabled, of the kind of the operand and not below
it. -/
lemma checkSequence_eq_true (h : checkSequence tx nIn n = true) :
    ∃ txin, tx.vin[nIn.toNat]? = some txin ∧
      txin.nSequence.toNat &&& sequenceLockTimeDisableFlag = 0 ∧
      txin.nSequence.toNat.testBit 22 = n.toNat.testBit 22 ∧
      n.toNat % 65536 ≤ txin.nSequence.toNat % 65536 := by
  unfold checkSequence at h
  split at h
  · cases h
  rename_i txin htxin
  split_ifs at h with hdisabled hkind hless
  rw [maskSequence_eq, maskSequence_eq, sequenceLockTimeTypeFlag] at hkind
  rw [maskSequence_eq, maskSequence_eq] at hless
  refine ⟨txin, htxin, not_not.mp hdisabled, ?_⟩
  cases hseq : txin.nSequence.toNat.testBit 22 <;> cases hop : n.toNat.testBit 22 <;>
    simp only [hseq, hop, Bool.toNat_true, Bool.toNat_false] at hkind hless
  · exact ⟨rfl, by omega⟩
  · omega
  · omega
  · exact ⟨rfl, by omega⟩

/-- A script that executed `OP_CHECKSEQUENCEVERIFY` without failing locks its input until
the coin has the age of the operand. -/
theorem checkSequenceVerify_ages {prevHeights heights : List ℤ} {nCoinHeight : ℤ} {block : Chain}
    (hflag : env.flags &&& scriptVerifyCheckSequenceVerify ≠ 0)
    (hchecker : env.sis.checker = some (transactionSignatureChecker R tx nIn))
    (hexec : Executes env (ops R) m script opCheckSequenceVerify before)
    (hn : operand before = some n) (hclear : n.toNat.testBit 31 = false)
    (hcoin : prevHeights[nIn.toNat]? = some nCoinHeight)
    (hlocks : sequenceLocks tx prevHeights block = .ok (true, heights)) :
    ∃ tip parents, block = tip :: parents ∧ parents ≠ [] ∧
      (n.toNat.testBit 22 = false → nCoinHeight + n % 65536 ≤ tip.height.toNat) ∧
      (n.toNat.testBit 22 = true → ∃ beforeCoin, beforeCoin ≠ [] ∧
        getAncestor block (max (nCoinHeight - 1) 0) = some beforeCoin ∧
        medianTimePast beforeCoin + 512 * (n % 65536) ≤ medianTimePast parents) := by
  obtain ⟨i, after, hi, hop⟩ := hexec.exec (by decide)
  have hcsv : execCheckSequenceVerify env (before.countOp opCheckSequenceVerify) = .ok after := by
    rw [← hop, ops, standardOps, hi]
    rfl
  obtain ⟨hnonneg, hchecked⟩ := execCheckSequenceVerify_eq_ok hflag hchecker
    ((operand_countOp _ _).trans hn) (and_twoPow_eq_zero.mpr hclear) hcsv
  obtain ⟨txin, htxin, henabled, hkind, hle⟩ := checkSequence_eq_true hchecked
  obtain ⟨tip, parents, hblock, hne, hcovered⟩ := covered_of_sequenceLocks hlocks
  have hmem : (txin, nCoinHeight) ∈ tx.vin.zip prevHeights := by
    apply List.mem_of_getElem?
    rw [List.getElem?_zip_eq_some]
    exact ⟨htxin, hcoin⟩
  obtain ⟨hblocks, htimes⟩ := hcovered _ hmem henabled
  have hmask : txin.nSequence.toNat &&& sequenceLockTimeMask = txin.nSequence.toNat % 65536 :=
    Nat.and_two_pow_sub_one_eq_mod _ 16
  refine ⟨tip, parents, hblock, hne, fun hbit => ?_, fun hbit => ?_⟩
  · have htype := and_twoPow_eq_zero.mpr (hkind.trans hbit)
    have hlast := hblocks htype
    rw [hmask] at hlast
    omega
  · have htype : txin.nSequence.toNat &&& sequenceLockTimeTypeFlag ≠ 0 := by
      intro hzero
      rw [and_twoPow_eq_zero.mp hzero, hbit] at hkind
      cases hkind
    obtain ⟨ancestor, hancestor, hget, htime⟩ := htimes htype
    refine ⟨ancestor, hancestor, hget, ?_⟩
    rw [hmask] at htime
    omega

/-- A chain whose heights count up to the given one, with one time for all blocks. -/
def flatChain (nTime : UInt32) : ℕ → Chain
  | 0 => [⟨nTime, 0, 0⟩]
  | height + 1 => ⟨nTime, UInt32.ofNat (height + 1), 0⟩ :: flatChain nTime height

theorem checkSequenceVerify_ages_five :
    sequenceLocks (lockedTx 0 5) [2] (flatChain 0 7) = .ok (true, [2]) ∧
      (2 : ℤ) + 5 % 65536 ≤ 7 := by
  have hexec := executes_five (lockedTx 0 5) opCheckSequenceVerify (by decide +kernel) rfl
  have hlocks : sequenceLocks (lockedTx 0 5) [2] (flatChain 0 7) = .ok (true, [2]) := by rfl
  obtain ⟨tip, parents, hblock, -, hages, -⟩ := checkSequenceVerify_ages
    getBlockScriptFlags_locks.2.1 rfl hexec (rfl) (by decide)
    (rfl) hlocks
  obtain ⟨rfl, -⟩ := List.cons.inj hblock
  exact ⟨hlocks, hages (by decide)⟩

end Executed

end PyrrhaNode.LockTime
