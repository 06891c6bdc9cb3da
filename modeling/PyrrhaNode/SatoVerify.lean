import PyrrhaNode.ScriptOps

/-!
# Spending outputs without a template

The script of the spend and the script of the output run one after the other on one
stack, which has to end with a true value. An output that pays to the hash of a public
key accepts exactly the spends that bring the key and a signature of it.
-/
namespace PyrrhaNode.SatoVerify
open List Serialize Transaction Script
open Interpreter ScriptOps Loop

def maxSatoScriptOps : ℕ := 201

def isPayToScriptHash (script : CScript) : Bool :=
  script.length == 23 && script.take 2 == [opHash160, 0x14] && script.drop 22 == [opEqual]

/-- The stack has a true value on top. -/
def checkTop (m : ScriptMachine) : ScriptResult :=
  match m.stack.getLast? with
  | none => throw scriptErrEvalFalse
  | some item => if !itemBool item then throw scriptErrEvalFalse else return m

/-- A spend of a pay-to-script-hash output has a script on top of its stack, which is run
on the rest of that stack. -/
def evalRedeemScript (env : ScriptEnv ScriptImportedState) (ops : Opcodes ScriptImportedState)
    (scriptSig scriptPubKey : CScript) (stackCopy : List StackItem) (m : ScriptMachine) :
    ScriptResult :=
  if env.flags &&& scriptVerifyP2sh = 0 ∨ isPayToScriptHash scriptPubKey = false then return m
  else if !isPushOnly scriptSig then throw .sigPushOnly
  else do
    let (item, m) ← popItem { m with stack := stackCopy, altstack := [] }
    let pubKey2 ← itemData item
    let m ← m.eval env ops pubKey2
    checkTop m

def verifySatoScript (env : ScriptEnv ScriptImportedState) (ops : Opcodes ScriptImportedState)
    (scriptSig scriptPubKey : CScript) : ScriptResult :=
  if env.flags &&& scriptVerifySigPushOnly ≠ 0 ∧ !isPushOnly scriptSig then throw .sigPushOnly
  else do
    let sm ← ScriptMachine.init.eval env ops scriptSig
    let m ← { sm with altstack := [] }.eval env ops scriptPubKey
    let m ← checkTop m
    let m ← evalRedeemScript env ops scriptSig scriptPubKey sm.stack m
    if env.flags &&& scriptVerifyCleanStack ≠ 0 ∧ m.stack.length ≠ 1 then throw .cleanStack
    else return m

section Steps
variable {σ : Type} {env : ScriptEnv σ} {ops : Opcodes σ} {m : ScriptMachine} {b a : Bytes}

def checkStackSize (m : ScriptMachine) : ScriptResult :=
  if maxStackSize < m.stack.length + m.altstack.length then throw .stackSize else return m

lemma step_op {opcode : UInt8} {next : Bytes} (hop : op16 < opcode)
    (hdisabled : isOpcodeDisabled opcode = false) (hexec : m.vfExec = [])
    (hcount : m.stats.nOpCount < env.maxOps) :
    m.step env ops ⟨opcode, [], next⟩ =
      ops env ⟨opcode, [], next⟩ (m.countOp opcode) >>= checkStackSize := by
  have hreserved : opcode ≠ opReserved := by
    rintro rfl
    exact absurd hop (by decide)
  have hpush : ¬ opcode ≤ opPushData4 := fun h =>
    absurd (UInt8.lt_of_lt_of_le hop h) (by decide)
  have hexec' : (m.countOp opcode).vfExec = [] := by
    rw [ScriptMachine.countOp, if_pos hop]
    exact hexec
  have hcount' : ¬ env.maxOps < (m.countOp opcode).stats.nOpCount := by
    rw [ScriptMachine.countOp, if_pos hop]
    exact Nat.not_lt.mpr hcount
  have hexecOp : (m.countOp opcode).execOp env ops ⟨opcode, [], next⟩ =
      ops env ⟨opcode, [], next⟩ (m.countOp opcode) := by
    rw [ScriptMachine.execOp, if_neg fun h => hpush h.2, if_pos (.inl (by simp [hexec'])),
      if_neg hreserved, if_neg (UInt8.not_le.mpr hop)]
  unfold ScriptMachine.step
  dsimp only [length_nil]
  rw [if_neg (Nat.not_lt_zero _), if_neg fun h => hcount' h.2, hdisabled,
    hexecOp]
  rfl

/-- An opcode that pushes data, in a form that is short enough for the flags. -/
lemma step_pushes {i : Instruction} (hi : Pushes i b) (hb : b.length ≤ maxScriptElementSize)
    (hminimal : env.flags &&& scriptVerifyMinimalData = 0 ∨ checkMinimalPush i.data i.opcode = true)
    (hexec : m.vfExec = []) (hstack : m.stack.length + m.altstack.length < maxStackSize) :
    m.step env ops i = .ok (m.push b) := by
  have hop : ¬ op16 < i.opcode := UInt8.not_lt.mpr hi.push
  have hcount : m.countOp i.opcode = m := if_neg hop
  have hdisabled : isOpcodeDisabled i.opcode = false := by
    have hle := hi.push
    by_contra h
    rw [Bool.not_eq_false] at h
    simp only [isOpcodeDisabled, Bool.or_eq_true, beq_iff_eq] at h
    rcases h with (h | h) | h <;> rw [h] at hle <;> exact absurd hle (by decide)
  have hexecOp : m.execOp env ops i = .ok (m.push b) := by
    unfold ScriptMachine.execOp
    rw [hi.data]
    by_cases hdata : i.opcode ≤ opPushData4
    · have hshort : ¬ (env.flags &&& scriptVerifyMinimalData ≠ 0 ∧
          (!checkMinimalPush i.data i.opcode) = true) := by
        rintro ⟨hflag, hlong⟩
        rcases hminimal with h | h
        · exact hflag h
        · simp [h] at hlong
      rw [if_pos ⟨by simp [hexec], hdata⟩, if_neg hshort]
      rfl
    · rw [if_neg fun h => hdata h.2, if_pos (.inl (by simp [hexec])), if_neg hi.notReserved,
        if_pos hi.push]
      rfl
  have hsize : ¬ maxStackSize < (m.push b).stack.length + (m.push b).altstack.length := by
    simp only [ScriptMachine.push, length_append, length_singleton]
    omega
  rw [ScriptMachine.step, if_neg (Nat.not_lt.mpr (hi.length.trans hb)), if_neg fun h => hop h.1,
    hdisabled, hcount, hexecOp]
  exact if_neg hsize

lemma instructions_pushTwo (hfits : (a ++ pushVector b).length < 2 ^ 32) :
    ∃ i j, instructions (pushVector a ++ pushVector b) = ([i, j], true) ∧ Pushes i a ∧
      Pushes j b := by
  obtain ⟨opA, dataA, hopA, hpushA⟩ := getOp_pushVector hfits
  have hb : (b ++ []).length < 2 ^ 32 := by
    have hle := (length_pushVector b).1
    rw [length_append] at hfits
    rw [append_nil]
    omega
  obtain ⟨opB, dataB, hopB, hpushB⟩ := getOp_pushVector hb
  rw [append_nil] at hopB
  refine ⟨_, _, ?_, hpushA, hpushB⟩
  rw [instructions_of_getOp hopA, instructions_of_getOp hopB, instructions_nil]

lemma eval_pushTwo (ha : a.length ≤ maxScriptElementSize) (hb : b.length ≤ maxScriptElementSize)
    (hminimal : env.flags &&& scriptVerifyMinimalData = 0) :
    ScriptMachine.init.eval env ops (pushVector a ++ pushVector b) =
      .ok (((ScriptMachine.init.beginStep (pushVector a ++ pushVector b)).push a).push b) := by
  have hla := (length_pushVector a).2
  have hlb := (length_pushVector b).2
  unfold maxScriptElementSize at ha hb
  obtain ⟨i, j, hinstructions, hi, hj⟩ := instructions_pushTwo
    (by rw [length_append]; omega : (a ++ pushVector b).length < 2 ^ 32)
  rw [ScriptMachine.eval_eq_ok, hinstructions]
  refine ⟨?_, rfl, rfl, ?_⟩
  · simp only [ScriptMachine.init, Script.maxScriptSize, length_append]
    omega
  · refine foldlM_cons_eq_ok.mpr
      ⟨_, step_pushes hi ha (.inl hminimal) rfl (show 0 + 0 < 1000 by omega), ?_⟩
    exact foldlM_cons_eq_ok.mpr
      ⟨_, step_pushes hj hb (.inl hminimal) rfl (show 1 + 0 < 1000 by omega), rfl⟩

end Steps

def payToPubKeyHash (pubKeyHash : Bytes) : CScript :=
  [opDup, opHash160, 20] ++ (pubKeyHash ++ [opEqualVerify, opCheckSig])

lemma instructions_payToPubKeyHash {pubKeyHash : Bytes} (hlen : pubKeyHash.length = 20) :
    instructions (payToPubKeyHash pubKeyHash) =
      ([⟨opDup, [], [opHash160, 20] ++ (pubKeyHash ++ [opEqualVerify, opCheckSig])⟩,
        ⟨opHash160, [], [20] ++ (pubKeyHash ++ [opEqualVerify, opCheckSig])⟩,
        ⟨20, pubKeyHash, [opEqualVerify, opCheckSig]⟩, ⟨opEqualVerify, [], [opCheckSig]⟩,
        ⟨opCheckSig, [], []⟩], true) := by
  have hpush : getOp (20 :: (pubKeyHash ++ [opEqualVerify, opCheckSig])) =
      some (20, pubKeyHash, [opEqualVerify, opCheckSig]) := by
    refine getOp_of_pushSize (by decide) ?_ (by simp [hlen])
    rw [pushSize, hlen]
    rfl
  have hdup := getOp_of_lt (by decide : opPushData4 < opDup)
    ([opHash160, 20] ++ (pubKeyHash ++ [opEqualVerify, opCheckSig]))
  have hhash := getOp_of_lt (by decide : opPushData4 < opHash160)
    ([20] ++ (pubKeyHash ++ [opEqualVerify, opCheckSig]))
  have hequal := getOp_of_lt (by decide : opPushData4 < opEqualVerify) [opCheckSig]
  have hcheck := getOp_of_lt (by decide : opPushData4 < opCheckSig) []
  show instructions (opDup :: ([opHash160, 20] ++ (pubKeyHash ++ [opEqualVerify, opCheckSig]))) = _
  rw [instructions_of_getOp hdup]
  show (_ :: (instructions (opHash160 :: ([20] ++ (pubKeyHash ++ _)))).1,
    (instructions (opHash160 :: ([20] ++ (pubKeyHash ++ _)))).2) = _
  rw [instructions_of_getOp hhash]
  show (_ :: _ :: (instructions (20 :: (pubKeyHash ++ _))).1,
    (instructions (20 :: (pubKeyHash ++ _))).2) = _
  rw [instructions_of_getOp hpush, instructions_of_getOp hequal, instructions_of_getOp hcheck,
    instructions_nil]

section PubKeyHash
variable {H : HashFns} {rest : Opcodes ScriptImportedState} {env : ScriptEnv ScriptImportedState}
  {m m' : ScriptMachine} {opcode : UInt8} {script : CScript} {stack : List StackItem} {n : ℕ}
  {next : CScript} {key pubKeyHash sig : Bytes} {scriptSig : CScript}

/-- A machine in the middle of a script without conditionals, after `n` counted opcodes. -/
def running (m : ScriptMachine) (script : CScript) (n : ℕ) (stack : List StackItem) :
    ScriptMachine :=
  { m with
    vfExec := []
    stats := { m.stats with nOpCount := n }
    codeHash := script
    stack := stack }

lemma step_running {σ : Type} {env : ScriptEnv σ} {ops : Opcodes σ} {next : Bytes}
    (hop : op16 < opcode) (hdisabled : isOpcodeDisabled opcode = false) (hcount : n < env.maxOps) :
    (running m script n stack).step env ops ⟨opcode, [], next⟩ =
      ops env ⟨opcode, [], next⟩ (running m script (n + 1) stack) >>= checkStackSize := by
  have hrun : (running m script n stack).countOp opcode = running m script (n + 1) stack :=
    if_pos hop
  rw [step_op hop hdisabled rfl hcount, hrun]

lemma checkStackSize_running (halt : m.altstack = []) (hstack : stack.length ≤ maxStackSize) :
    checkStackSize (running m script n stack) = .ok (running m script n stack) := by
  refine if_neg ?_
  simpa [running, halt] using hstack

lemma step_dup {a b : StackItem} (halt : m.altstack = []) (hcount : n < env.maxOps) :
    (running m script n [a, b]).step env (standardOps H rest) ⟨opDup, [], next⟩ =
      .ok (running m script (n + 1) [a, b, b]) := by
  rw [step_running (by decide) (by decide) hcount]
  exact checkStackSize_running halt (show 3 ≤ 1000 by omega)

lemma step_hash160 {a b : StackItem} (halt : m.altstack = []) (hcount : n < env.maxOps) :
    (running m script n [a, b, .vch key]).step env (standardOps H rest) ⟨opHash160, [], next⟩ =
      .ok (running m script (n + 1) [a, b, .vch (H.hash160 key).data]) := by
  rw [step_running (by decide) (by decide) hcount]
  exact checkStackSize_running halt (show 3 ≤ 1000 by omega)

lemma step_equalVerify {a b c d : StackItem} (halt : m.altstack = []) (hcount : n < env.maxOps) :
    (running m script n [a, b, c, d]).step env (standardOps H rest) ⟨opEqualVerify, [], next⟩ =
      if d = c then .ok (running m script (n + 1) [a, b]) else .error scriptErrEqualVerify := by
  rw [step_running (by decide) (by decide) hcount]
  show pushOrVerify (running m script (n + 1) [a, b]) true (decide (d = c)) _ >>= _ = _
  by_cases h : d = c
  · rw [decide_eq_true h, if_pos h]
    exact checkStackSize_running halt (show 2 ≤ 1000 by omega)
  · rw [decide_eq_false h, if_neg h]
    rfl

lemma step_checkSig (halt : m.altstack = []) (hcount : n < env.maxOps) :
    (running m script n [.vch sig, .vch key]).step env (standardOps H rest)
        ⟨opCheckSig, [], next⟩ =
      checkSigResult env sig key script >>= fun b =>
        .ok (pushItem (countSigCheck (running m script (n + 1) []) sig)
          (if b then vchTrue else vchFalse)) := by
  rw [step_running (by decide) (by decide) hcount]
  show (checkSigResult env sig key script >>= fun b =>
    pushOrVerify (countSigCheck (running m script (n + 1) []) sig) false b _) >>= _ = _
  cases checkSigResult env sig key script with
  | error e => rfl
  | ok b =>
    refine if_neg ?_
    have hstack : (countSigCheck (running m script (n + 1) []) sig).stack = [] := by
      unfold countSigCheck
      split_ifs <;> rfl
    have haltstack : (countSigCheck (running m script (n + 1) []) sig).altstack = [] := by
      unfold countSigCheck
      split_ifs <;> exact halt
    simp [pushItem, hstack, haltstack, maxStackSize]

lemma stack_countSigCheck (m : ScriptMachine) (vchSig : Bytes) :
    (countSigCheck m vchSig).stack = m.stack := by
  unfold countSigCheck
  split_ifs <;> rfl

/-- A pay-to-public-key-hash script compares the hash of the key and checks the signature. -/
lemma eval_payToPubKeyHash (hstack : m.stack = [.vch sig, .vch key]) (halt : m.altstack = [])
    (hmax : m.maxScriptSize = Script.maxScriptSize) (hops : 4 ≤ env.maxOps)
    (hlen : pubKeyHash.length = 20) :
    m.eval env (standardOps H rest) (payToPubKeyHash pubKeyHash) = .ok m' ↔
      (H.hash160 key).data = pubKeyHash ∧
      ∃ b, checkSigResult env sig key (payToPubKeyHash pubKeyHash) = .ok b ∧
        m' = pushItem (countSigCheck (running m (payToPubKeyHash pubKeyHash) 4 []) sig)
          (if b then vchTrue else vchFalse) := by
  have hbegin : m.beginStep (payToPubKeyHash pubKeyHash) =
      running m (payToPubKeyHash pubKeyHash) 0 [.vch sig, .vch key] := by
    rw [← hstack]
    rfl
  have hsize : (payToPubKeyHash pubKeyHash).length ≤ m.maxScriptSize := by
    rw [hmax]
    simp [payToPubKeyHash, hlen, Script.maxScriptSize]
  have hminimal : checkMinimalPush pubKeyHash 20 = true := by
    have hne : pubKeyHash ≠ [0x81] := by
      rintro rfl
      cases hlen
    simp [checkMinimalPush, hlen, hne]
  have hpush : (running m (payToPubKeyHash pubKeyHash) 2
      [.vch sig, .vch key, .vch (H.hash160 key).data]).step env (standardOps H rest)
        ⟨20, pubKeyHash, [opEqualVerify, opCheckSig]⟩ =
      .ok (running m (payToPubKeyHash pubKeyHash) 2
        [.vch sig, .vch key, .vch (H.hash160 key).data, .vch pubKeyHash]) := by
    refine step_pushes (pushes_data (by decide) _ _) (hlen.trans_le (by decide))
      (.inr hminimal) rfl ?_
    simp [running, halt, maxStackSize]
  rw [ScriptMachine.eval_eq_ok, instructions_payToPubKeyHash hlen, hbegin]
  simp only [foldlM_cons_eq_ok, step_dup halt (by omega : 0 < env.maxOps),
    step_hash160 halt (by omega : 0 + 1 < env.maxOps), hpush, Except.ok.injEq, exists_eq_left',
    step_equalVerify halt (by omega : 2 < env.maxOps)]
  by_cases hhash : (H.hash160 key).data = pubKeyHash
  · rw [if_pos (congrArg StackItem.vch hhash.symm)]
    simp only [Except.ok.injEq, exists_eq_left', step_checkSig halt (by omega : 2 + 1 < env.maxOps),
      bind_eq_ok]
    constructor
    · rintro ⟨-, -, -, n, ⟨b, hb, rfl⟩, hn⟩
      exact ⟨hhash, b, hb, (Except.ok.inj hn).symm⟩
    · rintro ⟨-, b, hb, rfl⟩
      refine ⟨hsize, trivial, ?_, _, ⟨b, hb, rfl⟩, rfl⟩
      unfold pushItem countSigCheck
      split_ifs <;> rfl
  · rw [if_neg fun h => hhash (StackItem.vch.inj h).symm]
    constructor
    · rintro ⟨-, -, -, n, hn, -⟩
      cases hn
    · rintro ⟨h, -⟩
      exact absurd h hhash

lemma popItem_running {item : StackItem} (h : popItem (running m script n stack) = .ok (item, m')) :
    ∃ below, m' = running m script n below ∧ stack = below ++ [item] := by
  unfold popItem at h
  cases hlast : (running m script n stack).stack.getLast? with
  | none =>
    rw [hlast] at h
    cases h
  | some top =>
    rw [hlast] at h
    cases h
    exact ⟨stack.dropLast, rfl, (dropLast_append_getLast? _ hlast).symm⟩

lemma exec_of_step (hop : op16 < opcode) (hdisabled : isOpcodeDisabled opcode = false)
    (hcount : n < env.maxOps)
    (h : (running m script n stack).step env (standardOps H rest) ⟨opcode, [], next⟩ = .ok m') :
    standardOps H rest env ⟨opcode, [], next⟩ (running m script (n + 1) stack) = .ok m' := by
  rw [step_running hop hdisabled hcount] at h
  obtain ⟨m₁, hexec, h⟩ := bind_eq_ok.mp h
  obtain ⟨-, h⟩ := ite_throw_eq_ok.mp h
  cases h
  exact hexec

section Lengths
variable {script : CScript} {n : ℕ} {stack : List StackItem}

lemma execDup_length (h : execDup (running m script n stack) = .ok m') :
    ∃ stack', m' = running m script n stack' ∧ stack'.length = stack.length + 1 := by
  obtain ⟨⟨item, m₁⟩, -, h⟩ := bind_eq_ok.mp h
  cases h
  exact ⟨stack ++ [item], rfl, by simp⟩

lemma execHash160_length (h : execHash160 H (running m script n stack) = .ok m') :
    ∃ stack', m' = running m script n stack' ∧ stack'.length = stack.length := by
  obtain ⟨⟨item, m₁⟩, hpop, h⟩ := bind_eq_ok.mp h
  obtain ⟨data, -, h⟩ := bind_eq_ok.mp h
  cases h
  obtain ⟨below, rfl, rfl⟩ := popItem_running hpop
  exact ⟨below ++ [_], rfl, by simp⟩

lemma execEqualVerify_length (h : execEqual true (running m script n stack) = .ok m') :
    ∃ stack', m' = running m script n stack' ∧ stack'.length + 2 = stack.length := by
  obtain ⟨⟨a, m₁⟩, hpopA, hrest⟩ := bind_eq_ok.mp h
  obtain ⟨below, rfl, rfl⟩ := popItem_running hpopA
  obtain ⟨⟨b, m₂⟩, hpopB, hverify⟩ := bind_eq_ok.mp hrest
  obtain ⟨below', rfl, rfl⟩ := popItem_running hpopB
  refine ⟨below', ?_, by simp⟩
  simp only [pushOrVerify, Bool.not_true, Bool.false_eq_true, if_false] at hverify
  split_ifs at hverify
  exact (Except.ok.inj hverify).symm

/-- A signature check that does not fail takes a signature and a key from the stack. -/
lemma execCheckSig_eq_ok {verify : Bool}
    (h : execCheckSig env verify (running m script n stack) = .ok m') :
    ∃ below sig key b, stack = below ++ [.vch sig] ++ [.vch key] ∧
      checkSigResult env sig key script = .ok b ∧
      pushOrVerify (countSigCheck (running m script n below) sig) verify b
        scriptErrCheckSigVerify = .ok m' := by
  obtain ⟨⟨keyItem, m₁⟩, hpopKey, hrest⟩ := bind_eq_ok.mp h
  obtain ⟨below, rfl, rfl⟩ := popItem_running hpopKey
  obtain ⟨⟨sigItem, m₂⟩, hpopSig, hcheck⟩ := bind_eq_ok.mp hrest
  obtain ⟨below', rfl, rfl⟩ := popItem_running hpopSig
  obtain ⟨sig, hsig, hcheck⟩ := bind_eq_ok.mp hcheck
  obtain ⟨key, hkey, hcheck⟩ := bind_eq_ok.mp hcheck
  obtain ⟨b, hb, hcheck⟩ := bind_eq_ok.mp hcheck
  exact ⟨below', sig, key, b, by rw [itemData_eq_ok hsig, itemData_eq_ok hkey], hb, hcheck⟩

end Lengths

/-- A pay-to-public-key-hash script leaves one item less than it finds. -/
lemma eval_payToPubKeyHash_length (hops : 4 ≤ env.maxOps) (hlen : pubKeyHash.length = 20)
    (h : m.eval env (standardOps H rest) (payToPubKeyHash pubKeyHash) = .ok m') :
    2 ≤ m.stack.length ∧ m.stack.length = m'.stack.length + 1 := by
  obtain ⟨-, -, -, hrun⟩ := ScriptMachine.eval_eq_ok.mp h
  rw [instructions_payToPubKeyHash hlen] at hrun
  have hbegin : m.beginStep (payToPubKeyHash pubKeyHash) =
      running m (payToPubKeyHash pubKeyHash) 0 m.stack := rfl
  obtain ⟨m₁, h₁, hrun⟩ := foldlM_cons_eq_ok.mp hrun
  obtain ⟨l₁, rfl, hl₁⟩ := execDup_length (exec_of_step (by decide) (by decide) (by omega) h₁)
  obtain ⟨m₂, h₂, hrun⟩ := foldlM_cons_eq_ok.mp hrun
  obtain ⟨l₂, rfl, hl₂⟩ := execHash160_length (exec_of_step (by decide) (by decide) (by omega) h₂)
  obtain ⟨m₃, h₃, hrun⟩ := foldlM_cons_eq_ok.mp hrun
  obtain rfl : m₃ = running m (payToPubKeyHash pubKeyHash) 2 (l₂ ++ [StackItem.vch
    (pushedData ⟨20, pubKeyHash, [opEqualVerify, opCheckSig]⟩)]) :=
    step_push (show 20 ≤ op16 by decide) rfl h₃
  obtain ⟨m₄, h₄, hrun⟩ := foldlM_cons_eq_ok.mp hrun
  obtain ⟨l₄, rfl, hl₄⟩ :=
    execEqualVerify_length (exec_of_step (by decide) (by decide) (by omega) h₄)
  obtain ⟨m₅, h₅, hrun⟩ := foldlM_cons_eq_ok.mp hrun
  cases hrun
  obtain ⟨below, sig, key, b, rfl, -, hfinal⟩ :=
    execCheckSig_eq_ok (exec_of_step (by decide) (by decide) (by omega) h₅)
  cases hfinal
  simp only [pushItem, stack_countSigCheck, running, length_append,
    length_singleton] at hl₁ hl₂ hl₄ ⊢
  omega

lemma verifySatoScript_eq_ok {ops : Opcodes ScriptImportedState} {scriptPubKey : CScript}
    (hp2sh : isPayToScriptHash scriptPubKey = false) :
    verifySatoScript env ops scriptSig scriptPubKey = .ok m' ↔
      ¬ (env.flags &&& scriptVerifySigPushOnly ≠ 0 ∧ (!isPushOnly scriptSig) = true) ∧
      ∃ sm, ScriptMachine.init.eval env ops scriptSig = .ok sm ∧
      ∃ m₁, { sm with altstack := [] }.eval env ops scriptPubKey = .ok m₁ ∧
        checkTop m₁ = .ok m' ∧
        ¬ (env.flags &&& scriptVerifyCleanStack ≠ 0 ∧ m'.stack.length ≠ 1) := by
  have hredeem : ∀ stackCopy m,
      evalRedeemScript env ops scriptSig scriptPubKey stackCopy m = .ok m :=
    fun _ _ => if_pos (.inr hp2sh)
  unfold verifySatoScript
  rw [ite_throw_eq_ok, bind_eq_ok]
  refine and_congr_right fun _ => exists_congr fun sm => and_congr_right fun _ => ?_
  rw [bind_eq_ok]
  refine exists_congr fun m₁ => and_congr_right fun _ => ?_
  constructor
  · intro h
    obtain ⟨m₂, htop, h⟩ := bind_eq_ok.mp h
    obtain ⟨m₃, hm₃, h⟩ := bind_eq_ok.mp h
    obtain ⟨hclean, h⟩ := ite_throw_eq_ok.mp h
    rw [hredeem] at hm₃
    cases hm₃
    cases h
    exact ⟨htop, hclean⟩
  · rintro ⟨htop, hclean⟩
    exact bind_eq_ok.mpr ⟨m', htop, bind_eq_ok.mpr ⟨m', hredeem _ _,
      ite_throw_eq_ok.mpr ⟨hclean, rfl⟩⟩⟩

lemma not_isPayToScriptHash_payToPubKeyHash (hlen : pubKeyHash.length = 20) :
    isPayToScriptHash (payToPubKeyHash pubKeyHash) = false := by
  simp [isPayToScriptHash, payToPubKeyHash, hlen]

lemma eq_of_checkTop (h : checkTop m = .ok m') : m' = m := by
  unfold checkTop at h
  split at h
  · cases h
  · obtain ⟨-, h⟩ := ite_throw_eq_ok.mp h
    exact (Except.ok.inj h).symm

lemma checkTop_pushItem {b : Bool} :
    checkTop (pushItem m (if b then vchTrue else vchFalse)) = .ok m' ↔
      b = true ∧ m' = pushItem m vchTrue := by
  cases b with
  | false => simp [checkTop, pushItem, vchFalse, itemBool]
  | true =>
    have htop : checkTop (pushItem m vchTrue) = .ok (pushItem m vchTrue) := by
      simp [checkTop, pushItem]
      rfl
    rw [if_pos rfl, htop, Except.ok.injEq]
    exact ⟨fun h => ⟨rfl, h.symm⟩, fun h => h.2.symm⟩

/-- A spend that pushes a signature and a key is accepted if the key has the hash and the
signature is accepted for the key. -/
theorem verifySatoScript_payToPubKeyHash {sm : ScriptMachine} (hops : 4 ≤ env.maxOps)
    (hlen : pubKeyHash.length = 20) (hpush : isPushOnly scriptSig = true)
    (hpushes : pushes scriptSig = [.vch sig, .vch key])
    (heval : ScriptMachine.init.eval env (standardOps H rest) scriptSig = .ok sm) :
    (∃ m', verifySatoScript env (standardOps H rest) scriptSig (payToPubKeyHash pubKeyHash) =
        .ok m') ↔
      (H.hash160 key).data = pubKeyHash ∧
        checkSigResult env sig key (payToPubKeyHash pubKeyHash) = .ok true := by
  have hsm := eval_pushOnly hpush heval
  rw [hpushes] at hsm
  have hp2sh := not_isPayToScriptHash_payToPubKeyHash hlen
  constructor
  · rintro ⟨m', h⟩
    obtain ⟨-, sm', heval', m₁, hm₁, htop, -⟩ := (verifySatoScript_eq_ok hp2sh).mp h
    obtain rfl := Except.ok.inj (heval.symm.trans heval')
    obtain ⟨hhash, b, hb, rfl⟩ := (eval_payToPubKeyHash (by rw [hsm]; rfl) rfl (by rw [hsm]; rfl)
      hops hlen).mp hm₁
    obtain ⟨rfl, -⟩ := checkTop_pushItem.mp htop
    exact ⟨hhash, hb⟩
  · rintro ⟨hhash, hb⟩
    have hm₁ : { sm with altstack := [] }.eval env (standardOps H rest)
        (payToPubKeyHash pubKeyHash) = .ok _ :=
      (eval_payToPubKeyHash (by rw [hsm]; rfl) rfl (by rw [hsm]; rfl) hops hlen).mpr
        ⟨hhash, true, hb, rfl⟩
    refine ⟨_, (verifySatoScript_eq_ok hp2sh).mpr ⟨fun h => by simp [hpush] at h, sm, heval, _, hm₁,
      checkTop_pushItem.mpr ⟨rfl, rfl⟩, fun h => h.2 ?_⟩⟩
    simp [pushItem, stack_countSigCheck, running]

/-- A spend that has to leave a clean stack brings nothing but a signature and a key. -/
theorem pushes_of_verifySatoScript (hops : 4 ≤ env.maxOps) (hlen : pubKeyHash.length = 20)
    (hpushFlag : env.flags &&& scriptVerifySigPushOnly ≠ 0)
    (hcleanFlag : env.flags &&& scriptVerifyCleanStack ≠ 0)
    (h : verifySatoScript env (standardOps H rest) scriptSig (payToPubKeyHash pubKeyHash) =
      .ok m') :
    isPushOnly scriptSig = true ∧
      (∃ sm, ScriptMachine.init.eval env (standardOps H rest) scriptSig = .ok sm) ∧
      ∃ sig key, pushes scriptSig = [.vch sig, .vch key] := by
  obtain ⟨hpush, sm, heval, m₁, hm₁, htop, hclean⟩ :=
    (verifySatoScript_eq_ok (not_isPayToScriptHash_payToPubKeyHash hlen)).mp h
  have hpushOnly : isPushOnly scriptSig = true := by
    by_contra hnot
    exact hpush ⟨hpushFlag, by simpa using hnot⟩
  refine ⟨hpushOnly, ⟨sm, heval⟩, ?_⟩
  have hone : m'.stack.length = 1 := by
    by_contra hnot
    exact hclean ⟨hcleanFlag, hnot⟩
  have hm' : m' = m₁ := eq_of_checkTop htop
  have hlength := (eval_payToPubKeyHash_length hops hlen hm₁).2
  have hsm := eval_pushOnly hpushOnly heval
  have htwo : (pushes scriptSig).length = 2 := by
    rw [hsm, ← hm', hone] at hlength
    simpa [ScriptMachine.init] using hlength
  unfold pushes at htwo ⊢
  match hi : (instructions scriptSig).1, htwo with
  | [i, j], _ => exact ⟨pushedData i, pushedData j, rfl⟩

end PubKeyHash

end PyrrhaNode.SatoVerify
