import PyrrhaNode.ExecExact

/-!
# What every opcode keeps

Whatever an opcode of the table does, it counts nothing but the keys of a multisignature check, and
items that are within their limits stay within them.  There is one lemma for each way in which
opcodes handle the stack, and the table is checked row by row.
-/
namespace PyrrhaNode.OpcodeSpecs

open List ByteCodec Serialize Transaction Script Interpreter ScriptOps BigNum MultiSig
open NumericOps BigNumTruth StackOps ByteOps Introspection DataSig OpcodeTable OpExec Fallible
open PushTxState (TxState evalNth evalGroup evalPushTxState execPushTxState)

/-- An item is small enough. -/
def ItemOk : StackItem → Prop
  | .vch data => data.length ≤ maxScriptElementSize
  | .bigNum n => (n.natAbs : ℤ) < bigNumUpperLimit

/-- All items are small enough, and so is the modulus. -/
structure WithinLimits (m : ScriptMachine) : Prop where
  stack : ∀ x ∈ m.stack, ItemOk x
  altstack : ∀ x ∈ m.altstack, ItemOk x
  modulo_pos : 0 < m.bigNumModulo
  modulo_le : m.bigNumModulo ≤ bigNumUpperLimit

/-- The covenants of groups that a script can push fit into an item. -/
def CovenantsOk (sis : TxState) : Prop :=
  ∀ groupState, sis.groupState = some groupState → ∀ grpId : ScriptAttributes.CGroupTokenID,
    32 ≤ grpId.length →
    (groupState.get grpId).covenant.length ≤ maxScriptElementSize

/-- A machine after another one: only `keys` were counted, and limits are kept. -/
structure Keeps (sis : TxState) (keys : ℕ) (m m' : ScriptMachine) : Prop where
  nOpCount : m'.stats.nOpCount = m.stats.nOpCount + keys
  nOpExec : m'.stats.nOpExec = m.stats.nOpExec
  maxScriptSize : m'.maxScriptSize = m.maxScriptSize
  limits : CovenantsOk sis → WithinLimits m → WithinLimits m'

section Items

lemma length_magnitudeBytes_le (v : ℕ) : (magnitudeBytes v).length ≤ 8 := by
  rw [magnitudeBytes, length_reverse]
  refine (dropWhile_sublist _).length_le.trans_eq ?_
  rw [length_reverse, length_leBytes]

lemma length_serializeNum_le (n : ℤ) : (serializeNum n).length ≤ 9 := by
  have hmag := length_magnitudeBytes_le n.natAbs
  unfold serializeNum
  cases hlast : (magnitudeBytes n.natAbs).getLast? with
  | none => simp
  | some last =>
    dsimp only
    split_ifs
    iterate 2
      rw [length_append, length_singleton]
      omega
    · rw [length_append, length_dropLast, length_singleton]
      omega
    · omega

lemma itemOk_num (n : ℤ) : ItemOk (.vch (serializeNum n)) :=
  (length_serializeNum_le n).trans (by decide)

lemma itemOk_bool (b : Bool) : ItemOk (if b then vchTrue else vchFalse) := by
  cases b
  · exact Nat.zero_le _
  · exact Nat.one_le_iff_ne_zero.mpr (by decide)

lemma itemOk_uint160 (h : Uint160) : ItemOk (.vch h.data) := by
  rw [ItemOk, h.size_eq]
  decide

lemma itemOk_uint256 (h : Uint256) : ItemOk (.vch h.data) := by
  rw [ItemOk, h.size_eq]
  decide

lemma itemOk_tmod {m : ScriptMachine} (h : WithinLimits m) (n : ℤ) :
    ItemOk (.bigNum (n.tmod m.bigNumModulo)) := by
  refine lt_of_lt_of_le ?_ h.modulo_le
  have hpos := h.modulo_pos
  have hlt : n.natAbs % m.bigNumModulo.natAbs < m.bigNumModulo.natAbs :=
    Nat.mod_lt _ (by omega)
  rw [Int.natAbs_tmod]
  omega

lemma itemOk_data {item : StackItem} {vch : Bytes} (hitem : ItemOk item)
    (h : itemData item = .ok vch) : ItemOk (.vch vch) := by
  rw [itemData_eq_ok h] at hitem
  exact hitem

end Items

namespace Keeps

variable {sis : TxState} {m m₁ m₂ : ScriptMachine} {keys : ℕ}

lemma refl (sis : TxState) (m : ScriptMachine) : Keeps sis 0 m m := ⟨rfl, rfl, rfl, fun _ h => h⟩

lemma push {item : StackItem} (h : Keeps sis keys m m₁)
    (hitem : CovenantsOk sis → WithinLimits m → ItemOk item) :
    Keeps sis keys m (pushItem m₁ item) where
  nOpCount := h.nOpCount
  nOpExec := h.nOpExec
  maxScriptSize := h.maxScriptSize
  limits hsis hlim :=
    { h.limits hsis hlim with
      stack := by
        intro x hx
        rcases mem_append.mp hx with hx | hx
        · exact (h.limits hsis hlim).stack x hx
        · rw [mem_singleton.mp hx]
          exact hitem hsis hlim }

lemma shrink {stack : List StackItem} (h : Keeps sis keys m m₁) (hstack : stack ⊆ m₁.stack) :
    Keeps sis keys m { m₁ with stack := stack } where
  nOpCount := h.nOpCount
  nOpExec := h.nOpExec
  maxScriptSize := h.maxScriptSize
  limits hsis hlim :=
    { h.limits hsis hlim with stack := fun x hx => (h.limits hsis hlim).stack x (hstack hx) }

lemma pop (h : Keeps sis keys m m₁) :
    Ensures (popItem m₁) fun r =>
      Keeps sis keys m r.2 ∧ (CovenantsOk sis → WithinLimits m → ItemOk r.1) := by
  unfold popItem
  cases hlast : m₁.stack.getLast? with
  | none => exact .error
  | some item =>
    refine .ok ⟨h.shrink (dropLast_subset _), fun hsis hlim => ?_⟩
    exact (h.limits hsis hlim).stack item (mem_of_getLast? hlast)

lemma pushOrVerify (h : Keeps sis keys m m₁) {verify success : Bool} {err : ScriptError} :
    Ensures (pushOrVerify m₁ verify success err) (Keeps sis keys m) := by
  unfold ScriptOps.pushOrVerify
  refine .ite (fun _ => .ok (h.push fun _ _ => itemOk_bool success)) fun _ => ?_
  exact .ite (fun _ => .ok h) fun _ => .error

lemma countSigCheck (h : Keeps sis keys m m₁) {vchSig : Bytes} :
    Keeps sis keys m (countSigCheck m₁ vchSig) := by
  unfold ScriptOps.countSigCheck
  split_ifs
  · exact ⟨h.nOpCount, h.nOpExec, h.maxScriptSize, fun hsis hlim => { h.limits hsis hlim with }⟩
  · exact h

end Keeps

variable {sis : TxState} {m : ScriptMachine} {e : ScriptError} {flags : BitVec 32}
  {memory : BitVec 64} {H : HashFns} {verify : Bool} {α : Type} {view : TxView}
  {spec : UInt8} {args : Bytes} {opcode : UInt8} {env : ScriptEnv ExecContext} {i : Instruction}
  {x : Except ScriptError α} {Q : α → Prop} {op : NumOp} {n : ℕ}

/-- Opcodes that replace items at the top. -/
lemma keeps_replaceTop {f : List StackItem → Except ScriptError (List StackItem)}
    (hf : ∀ xs, CovenantsOk sis → WithinLimits m → (∀ x ∈ xs, ItemOk x) →
      Ensures (f xs) fun ys => ∀ y ∈ ys, ItemOk y) :
    Ensures (replaceTop n f m) (Keeps sis 0 m) := by
  refine .guard fun _ => .bind_of_forall fun ys hys => .ok ?_
  refine ⟨rfl, rfl, rfl, fun hsis hlim => { hlim with stack := fun y hy => ?_ }⟩
  rcases mem_append.mp hy with hy | hy
  · exact hlim.stack y (mem_of_mem_take hy)
  · exact hf _ hsis hlim (fun x hx => hlim.stack x (mem_of_mem_drop hx)) ys hys y hy

lemma keeps_shuffle {out : List ℕ} : Ensures (shuffle n out m) (Keeps sis 0 m) := by
  refine keeps_replaceTop fun xs _ _ hxs => .ok fun y hy => ?_
  obtain ⟨k, -, hk⟩ := mem_filterMap.mp hy
  exact hxs y (mem_of_getElem? hk)

lemma keeps_one {g : StackItem → Except ScriptError (List StackItem)}
    (hg : ∀ x, WithinLimits m → ItemOk x → Ensures (g x) fun ys => ∀ y ∈ ys, ItemOk y) :
    Ensures (replaceTop 1 (fun | [x] => g x | _ => throw e) m) (Keeps sis 0 m) := by
  refine keeps_replaceTop fun xs _ hlim hxs => ?_
  rcases xs with - | ⟨x, - | ⟨y, xs⟩⟩
  · exact .error
  · exact hg x hlim (hxs x (mem_singleton_self x))
  · exact .error

lemma keeps_two {g : StackItem → StackItem → Except ScriptError (List StackItem)}
    (hg : ∀ x y, WithinLimits m → ItemOk x → ItemOk y →
      Ensures (g x y) fun ys => ∀ y ∈ ys, ItemOk y) :
    Ensures (replaceTop 2 (fun | [x, y] => g x y | _ => throw e) m) (Keeps sis 0 m) := by
  refine keeps_replaceTop fun xs _ hlim hxs => ?_
  rcases xs with - | ⟨x, - | ⟨y, - | ⟨z, xs⟩⟩⟩
  · exact .error
  · exact .error
  · exact hg x y hlim (hxs x (by simp)) (hxs y (by simp))
  · exact .error

lemma forall_mem_one {P : StackItem → Prop} {x : StackItem} (h : P x) : ∀ y ∈ [x], P y := by
  simpa using h

lemma keeps_execIf {notIf : Bool} : Ensures (execIf notIf m) (Keeps sis 0 m) := by
  refine .ite (fun _ => ?_) fun _ => .ok ⟨rfl, rfl, rfl, fun _ h => { h with }⟩
  cases m.stack.getLast? with
  | none => exact .error
  | some item =>
    refine .bind_of_forall fun vch _ => .ok ⟨rfl, rfl, rfl, fun _ h => ?_⟩
    exact { h with stack := fun x hx => h.stack x (dropLast_subset _ hx) }

lemma keeps_execElse : Ensures (execElse m) (Keeps sis 0 m) := by
  unfold execElse
  cases m.vfExec.getLast? with
  | none => exact .error
  | some fValue => exact .ok ⟨rfl, rfl, rfl, fun _ h => { h with }⟩

lemma keeps_execEndIf : Ensures (execEndIf m) (Keeps sis 0 m) :=
  .guard fun _ => .ok ⟨rfl, rfl, rfl, fun _ h => { h with }⟩

lemma keeps_execVerify : Ensures (execVerify m) (Keeps sis 0 m) :=
  keeps_one fun _ _ _ => .bind_of_forall fun _ _ =>
    .ite (fun _ => .ok (by simp)) fun _ => .error

lemma keeps_execUpgradableNop :
    Ensures (execUpgradableNop flags m) (Keeps sis 0 m) :=
  .guard fun _ => .ok (Keeps.refl sis m)

lemma keeps_execCheckLockTimeVerify {env : ScriptEnv ScriptImportedState} :
    Ensures (execCheckLockTimeVerify env m) (Keeps sis 0 m) := by
  refine .ite (fun _ => .ok (Keeps.refl sis m)) fun _ => ?_
  refine .bind_of_forall fun n _ => ?_
  cases env.sis.checker with
  | none => exact .error
  | some checker => exact .guard fun _ => .ok (Keeps.refl sis m)

lemma keeps_execCheckSequenceVerify {env : ScriptEnv ScriptImportedState} :
    Ensures (execCheckSequenceVerify env m) (Keeps sis 0 m) := by
  refine .ite (fun _ => .ok (Keeps.refl sis m)) fun _ => ?_
  refine .bind_of_forall fun n _ => ?_
  refine .ite (fun _ => .ok (Keeps.refl sis m)) fun _ => ?_
  cases env.sis.checker with
  | none => exact .error
  | some checker => exact .guard fun _ => .ok (Keeps.refl sis m)

lemma keeps_execToAltStack : Ensures (execToAltStack m) (Keeps sis 0 m) := by
  unfold execToAltStack
  cases hlast : m.stack.getLast? with
  | none => exact .error
  | some item =>
    refine .ok ⟨rfl, rfl, rfl, fun _ h => { h with stack := ?_, altstack := ?_ }⟩
    · exact fun x hx => h.stack x (dropLast_subset _ hx)
    · intro x hx
      rcases mem_append.mp hx with hx | hx
      · exact h.altstack x hx
      · rw [mem_singleton.mp hx]
        exact h.stack item (mem_of_getLast? hlast)

lemma keeps_execFromAltStack : Ensures (execFromAltStack m) (Keeps sis 0 m) := by
  unfold execFromAltStack
  cases hlast : m.altstack.getLast? with
  | none => exact .error
  | some item =>
    refine .ok (Keeps.push ⟨rfl, rfl, rfl, fun _ h => ?_⟩ fun _ h => ?_)
    · exact { h with altstack := fun x hx => h.altstack x (dropLast_subset _ hx) }
    · exact h.altstack item (mem_of_getLast? hlast)

lemma keeps_execDup : Ensures (execDup m) (Keeps sis 0 m) :=
  (Keeps.refl sis m).pop.bind fun _ ha => .ok ((Keeps.refl sis m).push ha.2)

lemma keeps_execIfDup : Ensures (execIfDup m) (Keeps sis 0 m) := by
  refine keeps_one fun x _ hx => .bind_of_forall fun vch hvch => .ok ?_
  have hvch' := itemOk_data hx hvch
  split_ifs
  · simp [hx, hvch']
  · simp [hx]

lemma keeps_execDepth : Ensures (execDepth m) (Keeps sis 0 m) :=
  .ok ((Keeps.refl sis m).push fun _ _ => itemOk_num _)

lemma keeps_execSize : Ensures (execSize m) (Keeps sis 0 m) := by
  refine keeps_one fun x _ hx => .bind_of_forall fun vch _ => .ok ?_
  have hsize : ItemOk (numItem vch.length) := itemOk_num _
  simp [hx, hsize]

lemma keeps_execPick {roll : Bool} :
    Ensures (execPick flags roll m) (Keeps sis 0 m) := by
  refine .guard fun _ => (Keeps.refl sis m).pop.bind fun r hr => ?_
  refine .bind_of_forall fun n _ => ?_
  refine .guard fun _ => ?_
  dsimp only
  cases hitem : r.2.stack[r.2.stack.length - n.toNat - 1]? with
  | none => exact .error
  | some item =>
    refine .ok (Keeps.push (hr.1.shrink ?_) fun hsis hlim => ?_)
    · cases roll
      · exact List.Subset.refl _
      · exact eraseIdx_subset
    · exact (hr.1.limits hsis hlim).stack item (mem_of_getElem? hitem)

lemma keeps_execPlace :
    Ensures (execPlace flags memory m) (Keeps sis 0 m) := by
  refine .guard fun _ => (Keeps.refl sis m).pop.bind fun r hr => ?_
  refine .bind_of_forall fun n _ => ?_
  refine hr.1.pop.bind fun r' hr' => ?_
  have hset : ∀ i, Keeps sis 0 m { r.2 with stack := r.2.stack.set i r'.1 } := by
    intro i
    refine ⟨hr.1.nOpCount, hr.1.nOpExec, hr.1.maxScriptSize, fun hsis hlim => ?_⟩
    refine { hr.1.limits hsis hlim with stack := fun x hx => ?_ }
    rcases mem_or_eq_of_mem_set hx with hx | rfl
    · exact (hr.1.limits hsis hlim).stack x hx
    · exact hr'.2 hsis hlim
  refine .ite (fun _ => .guard fun _ => .ok (hset _)) fun _ => ?_
  exact .ite (fun _ => .guard fun _ => .ok (hset _)) fun _ => .ok hr.1

lemma keeps_execBitwise {f : UInt8 → UInt8 → UInt8} :
    Ensures (execBitwise f m) (Keeps sis 0 m) := by
  refine keeps_two fun x y _ hx hy => .bind_of_forall fun vch1 h1 =>
    .bind_of_forall fun vch2 _ => .guard fun _ => .ok (forall_mem_one ?_)
  have hvch1 : vch1.length ≤ maxScriptElementSize := itemOk_data hx h1
  rw [ItemOk, length_zipWith]
  omega

lemma keeps_execCat : Ensures (execCat m) (Keeps sis 0 m) := by
  refine keeps_two fun x y _ _ _ => .bind_of_forall fun vch1 _ =>
    .bind_of_forall fun vch2 _ => .guard fun hsize =>
      .ok (forall_mem_one ?_)
  rw [ItemOk, length_append]
  omega

lemma keeps_execSplit : Ensures (execSplit flags m) (Keeps sis 0 m) := by
  refine keeps_two fun x y _ hx _ => .bind_of_forall fun data hdata =>
    .bind_of_forall fun position _ => .guard fun _ => .ok ?_
  have hlength : data.length ≤ maxScriptElementSize := itemOk_data hx hdata
  simp only [forall_mem_cons, not_mem_nil, false_imp_iff, implies_true, and_true, ItemOk,
    length_take, length_drop]
  omega

lemma keeps_execReverseBytes : Ensures (execReverseBytes m) (Keeps sis 0 m) := by
  refine keeps_one fun x _ hx => .bind_of_forall fun data hdata =>
    .ok (forall_mem_one ?_)
  have hlength := itemOk_data hx hdata
  rwa [ItemOk, length_reverse]

lemma keeps_execHash {hash : Bytes → Bytes} (hhash : ∀ vch, ItemOk (.vch (hash vch))) :
    Ensures (execHash hash m) (Keeps sis 0 m) :=
  keeps_one fun _ _ _ => .bind_of_forall fun vch _ => .ok (forall_mem_one (hhash vch))

lemma keeps_execHash160 : Ensures (execHash160 H m) (Keeps sis 0 m) :=
  (Keeps.refl sis m).pop.bind fun _ ha => .bind_of_forall fun data _ =>
    .ok (ha.1.push fun _ _ => itemOk_uint160 (H.hash160 data))

lemma keeps_execEqual : Ensures (execEqual verify m) (Keeps sis 0 m) :=
  (Keeps.refl sis m).pop.bind fun _ ha => ha.1.pop.bind fun _ hb => hb.1.pushOrVerify

lemma keeps_execUnaryNum {op : UnaryOp} :
    Ensures (execUnaryNum flags op m) (Keeps sis 0 m) :=
  keeps_one fun _ _ _ => .bind_of_forall fun _ _ => .bind_of_forall fun _ _ =>
    .ok (forall_mem_one (itemOk_num _))

lemma keeps_execWithin : Ensures (execWithin flags m) (Keeps sis 0 m) := by
  refine keeps_replaceTop fun xs _ _ _ => ?_
  rcases xs with - | ⟨x, - | ⟨y, - | ⟨z, - | ⟨w, xs⟩⟩⟩⟩
  all_goals try exact .error
  exact .bind_of_forall fun _ _ => .bind_of_forall fun _ _ =>
    .bind_of_forall fun _ _ => .ok (forall_mem_one (itemOk_bool _))

lemma keeps_execLShift :
    Ensures (execLShift flags memory m) (Keeps sis 0 m) := by
  refine keeps_two fun b a hlim _ _ => .bind_of_forall fun _ _ => ?_
  cases b with
  | vch data => exact .error
  | bigNum n =>
    exact .bind_of_forall fun amt _ => .bind_of_forall fun ret _ =>
      .ok (forall_mem_one (itemOk_tmod hlim ret))

lemma keeps_execRShift :
    Ensures (execRShift flags memory m) (Keeps sis 0 m) := by
  refine keeps_replaceTop fun xs _ hlim _ => ?_
  rcases xs with - | ⟨b, - | ⟨a, - | ⟨z, xs⟩⟩⟩
  · exact .error
  · cases b <;> exact .error
  · cases b with
    | vch data => exact .error
    | bigNum n =>
      exact .bind_of_forall fun ret _ => .ok (forall_mem_one (itemOk_tmod hlim ret))
  · cases b <;> exact .error

lemma keeps_execSetBmd : Ensures (execSetBmd m) (Keeps sis 0 m) := by
  refine (Keeps.refl sis m).pop.bind fun r hr => .guard fun hle => .guard fun hpos =>
    .ok ⟨hr.1.nOpCount, hr.1.nOpExec, hr.1.maxScriptSize, fun hsis hlim => ?_⟩
  exact { hr.1.limits hsis hlim with modulo_pos := not_le.mp hpos, modulo_le := not_lt.mp hle }

lemma keeps_execBin2BigNum : Ensures (execBin2BigNum m) (Keeps sis 0 m) := by
  refine (Keeps.refl sis m).pop.bind fun r hr => .ok (hr.1.push fun _ hlim => ?_)
  cases r.1 with
  | vch | bigNum => exact itemOk_tmod hlim _

/-- The result of a binary operation is within the limits, whatever the operands are. -/
lemma itemOk_binaryNum {second top : StackItem} (hlim : WithinLimits m) :
    Ensures (binaryNum flags op m.bigNumModulo second top) ItemOk := by
  have hbig : ∀ bn1 bn2, Ensures (bigNumScriptOp op bn1 bn2 m.bigNumModulo >>= fun ret =>
      (return .bigNum ret : Except ScriptError StackItem)) ItemOk := by
    intro bn1 bn2
    have hreduced : Ensures (bigNumScriptOp op bn1 bn2 m.bigNumModulo)
        fun ret => ItemOk (.bigNum ret) := by
      cases op with
      | div | mod => exact .guard fun _ => .ok (itemOk_tmod hlim _)
      | _ => exact .ok (itemOk_tmod hlim _)
    exact hreduced.bind fun ret hret => .ok hret
  cases second with
  | bigNum n => exact hbig _ _
  | vch data1 =>
    cases top with
    | bigNum n => exact hbig _ _
    | vch data2 =>
      exact .bind_of_forall fun _ _ => .bind_of_forall fun _ _ =>
        .bind_of_forall fun bn _ => .ok (itemOk_num bn)

lemma keeps_execBinaryNum :
    Ensures (execBinaryNum flags op m) (Keeps sis 0 m) := by
  refine (Keeps.refl sis m).pop.bind fun r hr => hr.1.pop.bind fun r' hr' =>
    .bind_of_forall fun result hresult => ?_
  refine .ite (fun _ => ?_) fun _ => .ok (hr'.1.push fun _ hlim => ?_)
  · exact .ite (fun _ => .ok hr'.1) fun _ => .error
  · exact itemOk_binaryNum hlim result hresult

lemma length_minimallyEncode_le (data : Bytes) : (minimallyEncode data).length ≤ data.length := by
  unfold minimallyEncode
  cases hlast : data.getLast? with
  | none => exact le_rfl
  | some last =>
    dsimp only
    refine if hb : last &&& 0x7f ≠ 0 then by rw [if_pos hb] else ?_
    rw [if_neg hb]
    cases hnext : data.dropLast.getLast? with
    | none => exact Nat.zero_le _
    | some next =>
      dsimp only
      refine if hsign : next &&& 0x80 ≠ 0 then by rw [if_pos hsign] else ?_
      rw [if_neg hsign]
      have hdrop : (data.dropLast.reverse.dropWhile (· == 0)).reverse.length ≤ data.length - 1 := by
        rw [length_reverse]
        refine (dropWhile_sublist _).length_le.trans_eq ?_
        rw [length_reverse, length_dropLast]
      cases htrim : (data.dropLast.reverse.dropWhile (· == 0)).reverse.getLast? with
      | none => exact Nat.zero_le _
      | some b =>
        have htrimPos := length_pos_of_mem (mem_of_getLast? htrim)
        dsimp only
        split_ifs
        · rw [length_append, length_singleton]
          omega
        · rw [length_append, length_dropLast, length_singleton]
          omega

lemma magSize_le {n : ℤ} (h : ItemOk (.bigNum n)) : magSize n ≤ maxBigNumMagnitudeSize := by
  have hlog : Nat.log2 n.natAbs < 4096 := by
    by_cases hzero : n.natAbs = 0
    · rw [hzero]
      decide
    · rw [Nat.log2_lt hzero]
      have hlt : (n.natAbs : ℤ) < 2 ^ 4096 := h
      exact_mod_cast hlt
  rw [magSize, sizeInBase2, maxBigNumMagnitudeSize]
  omega

lemma itemOk_num2Bin {size : ℕ} {item : StackItem} (hitem : ItemOk item) :
    Ensures (num2Bin size item) ItemOk := by
  cases item with
  | bigNum n =>
    refine .guard fun hsize => .ok ?_
    have hmag := magSize_le hitem
    rw [maxBigNumMagnitudeSize] at hsize hmag
    rw [ItemOk, serializeBigNum, length_append, length_append, length_leBytes,
      length_replicate, length_singleton, maxScriptElementSize]
    by_cases hzero : n = 0
    · have hone : magSize n = 1 := by rw [hzero]; decide
      omega
    · rw [if_neg hzero]
      omega
  | vch data =>
    refine .guard fun hsize => .guard fun hshort => ?_
    rw [not_lt] at hsize hshort
    refine .ite (fun _ => .ok (hshort.trans hsize)) fun hne => .ok ?_
    rw [ItemOk, padNum]
    cases hlast : (minimallyEncode data).getLast? with
    | none =>
      rw [length_append, length_replicate, length_singleton]
      omega
    | some last =>
      have hpos := length_pos_of_mem (mem_of_getLast? hlast)
      simp only [length_append, length_dropLast, length_replicate,
        length_singleton]
      omega

lemma keeps_execNum2Bin :
    Ensures (execNum2Bin flags memory m) (Keeps sis 0 m) :=
  keeps_two fun _ _ _ hx _ => .bind_of_forall fun _ _ =>
    (itemOk_num2Bin hx).bind fun _ hresult => .ok (forall_mem_one hresult)

lemma keeps_execBin2Num : Ensures (execBin2Num flags m) (Keeps sis 0 m) := by
  refine keeps_one fun x _ hx => .bind_of_forall fun data hdata => .guard fun _ =>
    .ok (forall_mem_one ?_)
  exact (length_minimallyEncode_le data).trans (itemOk_data hx hdata)

lemma keeps_execCheckSig {env : ScriptEnv ScriptImportedState} :
    Ensures (execCheckSig env verify m) (Keeps sis 0 m) :=
  (Keeps.refl sis m).pop.bind fun _ hkey => hkey.1.pop.bind fun _ hsig =>
    .bind_of_forall fun _ _ => .bind_of_forall fun _ _ =>
      .bind_of_forall fun _ _ => hsig.1.countSigCheck.pushOrVerify

lemma keeps_execCheckDataSig {checker : Option VerifySignature} :
    Ensures (execCheckDataSig H flags checker verify m) (Keeps sis 0 m) :=
  (Keeps.refl sis m).pop.bind fun _ hkey => hkey.1.pop.bind fun _ hmessage =>
    hmessage.1.pop.bind fun _ hsig => .bind_of_forall fun _ _ =>
      .bind_of_forall fun _ _ => .bind_of_forall fun _ _ =>
        .bind_of_forall fun _ _ => hsig.1.countSigCheck.pushOrVerify

lemma ensures_mapError {ε ε' : Type} {f : ε → ε'} {x : Except ε α}
    (h : Ensures x Q) : Ensures (x.mapError f) Q := by
  cases x with
  | error e => exact .error
  | ok a => exact .ok (h a rfl)

lemma ensures_liftError (h : Ensures x Q) :
    Ensures (liftError x) Q := by
  cases x with
  | error e => exact .error
  | ok a => exact .ok (h a rfl)

lemma liftError_eq_ok {a : α} (h : liftError x = .ok a) :
    x = .ok a := by
  cases x with
  | error e => cases h
  | ok b => exact congrArg Except.ok (Except.ok.inj h)

lemma keeps_execCheckMultiSig {env : ScriptEnv ExecContext} :
    Ensures ((execCheckMultiSig (signatureEnv env) verify m).mapError MultiSigExit.scriptError)
      (Keeps sis (multiSigKeys env m) m) := by
  refine ensures_mapError (.bind_of_forall fun args hargs =>
    .bind_of_forall fun fSuccess _ => ensures_liftError (Keeps.pushOrVerify ?_))
  have hkeys : multiSigKeys env m = args.1 := by
    rw [multiSigKeys, liftError_eq_ok hargs]
  rw [hkeys]
  refine ⟨rfl, rfl, rfl, fun _ hlim => { hlim with stack := fun x hx => ?_ }⟩
  exact hlim.stack x (mem_of_mem_take hx)

lemma itemOk_scriptItem {script : CScript} : Ensures (scriptItem script) ItemOk :=
  .guard fun h => .ok (not_lt.mp h)

lemma itemOk_amountItem {nValue : CAmount} : Ensures (amountItem nValue) ItemOk :=
  .guard fun _ => .ok (itemOk_num _)

lemma keeps_execNullary {q : NullaryQuery} :
    Ensures (execNullary flags view q m) (Keeps sis 0 m) := by
  refine .bind_of_forall fun tx _ => ?_
  have hitem : Ensures (nullaryItem tx view m.codeHash q) ItemOk := by
    cases q with
    | activeBytecode => exact itemOk_scriptItem
    | _ => exact .ok (itemOk_num _)
  exact hitem.bind fun item h => .ok ((Keeps.refl sis m).push fun _ _ => h)

lemma keeps_execIndexed {elems : List α} {err : ScriptError}
    {f : ℕ → α → Except ScriptError StackItem} (hf : ∀ idx elem, Ensures (f idx elem) ItemOk) :
    Ensures (execIndexed flags elems err f m) (Keeps sis 0 m) := by
  refine keeps_one fun x _ _ => .bind_of_forall fun top _ => .guard fun _ => ?_
  cases elems[(getInt32 top).toNat]? with
  | none => exact .error
  | some elem => exact (hf _ elem).bind fun item h => .ok (forall_mem_one h)

lemma keeps_execInput {q : InputQuery} :
    Ensures (execInput flags view q m) (Keeps sis 0 m) := by
  refine .bind_of_forall fun tx _ => keeps_execIndexed fun idx input => ?_
  unfold inputItem
  cases q with
  | utxoValue =>
    cases view.state.spentCoins[idx]? with
    | none => exact .error
    | some coin => exact itemOk_amountItem
  | utxoBytecode =>
    cases view.state.spentCoins[idx]? with
    | none => exact .error
    | some coin => exact itemOk_scriptItem
  | outpointHash => exact .ok (itemOk_uint256 _)
  | inputBytecode => exact itemOk_scriptItem
  | inputSequenceNumber => exact .ok (itemOk_num _)

lemma keeps_execOutput {q : OutputQuery} :
    Ensures (execOutput flags view q m) (Keeps sis 0 m) := by
  refine .bind_of_forall fun tx _ => keeps_execIndexed fun idx output => ?_
  cases q with
  | outputValue => exact itemOk_amountItem
  | outputBytecode => exact itemOk_scriptItem

lemma itemOk_evalNth {tx : CTransaction} :
    Ensures (evalNth tx sis spec args) ItemOk := by
  refine .guard fun _ => .bind_of_forall fun nth _ => .guard fun _ =>
    .guard fun _ => ?_
  dsimp only
  cases PushTxState.scanNth (args.drop 2)
      (if spec = PushTxState.specGroupNthOutput then tx.vout else sis.spentCoins) 0 nth.toNat with
  | none => exact .error
  | some vIdx => exact .ok (itemOk_num _)

/-- The one place where the context decides how large an item is. -/
lemma itemOk_evalGroup (hsis : CovenantsOk sis) :
    Ensures (evalGroup sis spec args) ItemOk := by
  unfold evalGroup
  cases hstate : sis.groupState with
  | none => exact .error
  | some groupState =>
    refine .guard fun hlength => .ite (fun _ => ?_) fun _ => ?_
    · refine .ite (fun _ => .ok (itemOk_num _)) fun _ => ?_
      refine .ite (fun _ => .ok (itemOk_num _)) fun _ => ?_
      refine .ite (fun _ => .ok (itemOk_num _)) fun _ => ?_
      refine .ite (fun _ => .ok (itemOk_num _)) fun _ => ?_
      exact .ok (hsis groupState hstate args (not_lt.mp hlength))
    · exact .ite (fun _ => .ok (Nat.zero_le _)) fun _ => .ok (itemOk_num _)

lemma itemsOk_evalPushTxState {specifier : Bytes} {stack : List StackItem} (hsis : CovenantsOk sis)
    (hstack : ∀ x ∈ stack, ItemOk x) :
    Ensures (evalPushTxState H specifier sis stack) fun ys => ∀ y ∈ ys, ItemOk y := by
  unfold evalPushTxState
  cases specifier with
  | nil => exact .error
  | cons spec args =>
    cases sis.tx with
    | none => exact .error
    | some tx =>
      have hpush : ∀ item, ItemOk item → ∀ y ∈ stack ++ [item], ItemOk y := by
        intro item hitem y hy
        rcases mem_append.mp hy with hy | hy
        · exact hstack y hy
        · rw [mem_singleton.mp hy]
          exact hitem
      refine .ite (fun _ => .ok (hpush _ (itemOk_uint256 _))) fun _ => ?_
      refine .ite (fun _ => .ok (hpush _ (itemOk_uint256 _))) fun _ => ?_
      refine .ite (fun _ => .ok (hpush _ (itemOk_num _))) fun _ => ?_
      refine .ite (fun _ => .ok (hpush _ (itemOk_num _))) fun _ => ?_
      refine .ite (fun _ => itemOk_evalNth.bind fun _ h => .ok (hpush _ h)) fun _ => ?_
      exact .ite (fun _ => (itemOk_evalGroup hsis).bind fun _ h => .ok (hpush _ h))
        fun _ => .error

lemma keeps_execPushTxState :
    Ensures (execPushTxState H sis m) (Keeps sis 0 m) := by
  refine (Keeps.refl sis m).pop.bind fun r hr => .bind_of_forall fun specifier _ =>
    .bind_of_forall fun stack hstack => .ok
      ⟨hr.1.nOpCount, hr.1.nOpExec, hr.1.maxScriptSize, fun hsis hlim => ?_⟩
  have hpopped := hr.1.limits hsis hlim
  exact { hpopped with stack := itemsOk_evalPushTxState hsis hpopped.stack stack hstack }

/-- The keys that an opcode counts. -/
def keysOf (opcode : UInt8) (env : ScriptEnv ExecContext) (m : ScriptMachine) : ℕ :=
  if opcode = opCheckMultiSig ∨ opcode = opCheckMultiSigVerify then multiSigKeys env m else 0

/-- The opcode of a row does so. -/
def RowKeeps (row : UInt8 × Handler) : Prop :=
  ∀ env next m, Ensures (row.2 env next m) (Keeps env.sis.view.state (keysOf row.1 env m) m)

lemma rowKeeps {f : Handler} (hne : ¬(opcode = opCheckMultiSig ∨ opcode = opCheckMultiSigVerify))
    (h : ∀ env next m, Ensures (f env next m) (Keeps env.sis.view.state 0 m)) :
    RowKeeps (opcode, f) := by
  intro env next m
  rw [keysOf, if_neg hne]
  exact h env next m

/-- A table without multisignature checks. -/
lemma rowsKeep {table : List (UInt8 × Handler)}
    (hne : ∀ row ∈ table, ¬(row.1 = opCheckMultiSig ∨ row.1 = opCheckMultiSigVerify))
    (h : ∀ row ∈ table, ∀ env next m, Ensures (row.2 env next m) (Keeps env.sis.view.state 0 m)) :
    ∀ row ∈ table, RowKeeps row :=
  fun row hrow => rowKeeps (hne row hrow) (h row hrow)

lemma rowKeeps_multiSig (heq : opcode = opCheckMultiSig ∨ opcode = opCheckMultiSigVerify) :
    RowKeeps (opcode, fun env _ m =>
      (execCheckMultiSig (signatureEnv env) verify m).mapError MultiSigExit.scriptError) := by
  intro env next m
  rw [keysOf, if_pos heq]
  exact keeps_execCheckMultiSig

lemma controlTable_keeps : ∀ row ∈ controlTable, RowKeeps row := by
  simp only [controlTable, forall_mem_cons, not_mem_nil, false_imp_iff, implies_true,
    and_true]
  refine ⟨fun _ _ m => .ok (Keeps.refl _ m), fun _ _ _ => keeps_execIf,
    fun _ _ _ => keeps_execIf, fun _ _ _ => keeps_execElse, fun _ _ _ => keeps_execEndIf,
    fun _ _ _ => keeps_execVerify, fun _ _ _ => .error,
    fun _ _ _ => keeps_execUpgradableNop, fun _ _ _ => keeps_execCheckLockTimeVerify,
    fun _ _ _ => keeps_execCheckSequenceVerify, ?_⟩
  refine ⟨?_, ?_, ?_, ?_, ?_, ?_, ?_⟩
  all_goals exact fun _ _ _ => keeps_execUpgradableNop

lemma stackTable_keeps : ∀ row ∈ stackTable, RowKeeps row := by
  simp only [stackTable, forall_mem_cons, not_mem_nil, false_imp_iff, implies_true,
    and_true]
  refine ⟨fun _ _ _ => keeps_execToAltStack, fun _ _ _ => keeps_execFromAltStack, ?_, ?_, ?_, ?_,
    ?_, ?_, fun _ _ _ => keeps_execIfDup, fun _ _ _ => keeps_execDepth, ?_,
    fun _ _ _ => keeps_execDup, ?_, ?_, fun _ _ _ => keeps_execPick, fun _ _ _ => keeps_execPick,
    ?_, ?_, ?_, fun _ _ _ => keeps_execSize, fun _ _ _ => keeps_execPlace⟩
  all_goals exact fun _ _ _ => keeps_shuffle

lemma byteTable_keeps : ∀ row ∈ byteTable, RowKeeps row := by
  simp only [byteTable, forall_mem_cons, not_mem_nil, false_imp_iff, implies_true,
    and_true]
  exact ⟨fun _ _ _ => keeps_execCat, fun _ _ _ => keeps_execSplit, fun _ _ _ => keeps_execNum2Bin,
    fun _ _ _ => keeps_execBin2Num, fun _ _ _ => keeps_execBitwise, fun _ _ _ => keeps_execBitwise,
    fun _ _ _ => keeps_execBitwise, fun _ _ _ => keeps_execEqual, fun _ _ _ => keeps_execEqual,
    fun _ _ _ => keeps_execReverseBytes⟩

lemma numericTable_keeps : ∀ row ∈ numericTable, RowKeeps row := by
  simp only [numericTable, forall_mem_append, forall_mem_map]
  refine ⟨rowsKeep (by decide) ?_, fun op _ =>
    rowKeeps (by cases op <;> decide) fun _ _ _ => keeps_execBinaryNum⟩
  simp only [forall_mem_cons, not_mem_nil, false_imp_iff, implies_true, and_true]
  refine ⟨?_, ?_, ?_, ?_, ?_, ?_, fun _ _ _ => keeps_execLShift, fun _ _ _ => keeps_execRShift,
    fun _ _ _ => keeps_execWithin, fun _ _ _ => keeps_execSetBmd,
    fun _ _ _ => keeps_execBin2BigNum⟩
  all_goals exact fun _ _ _ => keeps_execUnaryNum

lemma cryptoTable_keeps : ∀ row ∈ cryptoTable, RowKeeps row := by
  simp only [cryptoTable, forall_mem_cons, not_mem_nil, false_imp_iff, implies_true,
    and_true]
  refine ⟨?_, ?_, ?_, ?_, ?_, ?_, ?_, ?_, rowKeeps_multiSig (by decide),
    rowKeeps_multiSig (by decide), ?_, ?_⟩
  all_goals refine rowKeeps (by decide) fun _ _ _ => ?_
  iterate 2 exact keeps_execHash fun _ => itemOk_uint160 _
  · exact keeps_execHash fun _ => itemOk_uint256 _
  · exact keeps_execHash160
  · exact keeps_execHash fun _ => itemOk_uint256 _
  · exact .ok ⟨rfl, rfl, rfl, fun _ h => { h with }⟩
  · exact keeps_execCheckSig
  · exact keeps_execCheckSig
  · exact keeps_execCheckDataSig
  · exact keeps_execCheckDataSig

lemma introspectionTable_keeps : ∀ row ∈ introspectionTable, RowKeeps row := by
  simp only [introspectionTable, forall_mem_cons, not_mem_nil, false_imp_iff, implies_true,
    and_true]
  refine ⟨?_, ?_, ?_, ?_, ?_, ?_, ?_, ?_, ?_, ?_, ?_, fun _ _ _ => keeps_execOutput,
    fun _ _ _ => keeps_execOutput, fun _ _ _ => keeps_execPushTxState⟩
  iterate 6 exact fun _ _ _ => keeps_execNullary
  all_goals exact fun _ _ _ => keeps_execInput

theorem opcodeTable_keeps : ∀ row ∈ opcodeTable, RowKeeps row := by
  simp only [opcodeTable, forall_mem_append]
  exact ⟨⟨⟨⟨⟨controlTable_keeps, stackTable_keeps⟩, byteTable_keeps⟩, numericTable_keeps⟩,
    cryptoTable_keeps⟩, introspectionTable_keeps⟩

theorem keeps_plainOps :
    Ensures (plainOps env i m) (Keeps env.sis.view.state (keysOf i.opcode env m) m) := by
  unfold plainOps
  cases hrow : opcodeTable.find? fun row => row.1 == i.opcode with
  | none => exact .error
  | some row =>
    have hopcode : row.1 = i.opcode := by simpa using List.find?_some hrow
    rw [← hopcode]
    exact opcodeTable_keeps row (List.mem_of_find?_eq_some hrow) env i.next m

/-- The keys that an instruction counts; none in a branch that is not taken. -/
def keysCounted (env : ScriptEnv ExecContext) (i : Instruction) (m : ScriptMachine) : ℕ :=
  if m.vfExec.all id ∧ (i.opcode = opCheckMultiSig ∨ i.opcode = opCheckMultiSigVerify) then
    multiSigKeys env m
  else 0

/-- What an instruction does, whether its branch is taken or not. -/
theorem keeps_execOp (hdata : i.data.length ≤ maxScriptElementSize) :
    Ensures (m.execOp env plainOps i)
      (Keeps env.sis.view.state (keysCounted env i m) m) := by
  have hpush : i.opcode ≤ op16 →
      Keeps env.sis.view.state (keysCounted env i m) m (m.push (pushedData i)) := by
    intro hle
    rw [keysCounted, if_neg (by rintro ⟨-, h | h⟩ <;> exact absurd (h ▸ hle) (by decide))]
    refine (Keeps.refl _ m).push fun _ _ => ?_
    change (pushedData i).length ≤ maxScriptElementSize
    unfold pushedData
    split_ifs
    · exact hdata
    · exact (length_serializeNum_le _).trans (by decide)
  refine .ite (fun htaken => .guard fun _ => .ok (hpush ?_)) fun _ => ?_
  · exact UInt8.le_trans htaken.2 (by decide)
  · refine .ite (fun hexec => .guard fun _ => ?_) fun hexec => .ok ?_
    · refine .ite (fun hle => .ok (hpush hle)) fun _ => ?_
      have hkeys : keysCounted env i m = keysOf i.opcode env m := by
        rw [keysCounted, keysOf]
        rcases hexec with htaken | ⟨-, hle⟩
        · simp only [htaken, true_and]
        · have hne : ¬(i.opcode = opCheckMultiSig ∨ i.opcode = opCheckMultiSigVerify) := by
            rintro (h | h) <;> rw [h] at hle <;> exact absurd hle (by decide)
          rw [if_neg hne, if_neg fun h => hne h.2]
      rw [hkeys]
      exact keeps_plainOps
    · rw [keysCounted, if_neg fun h => hexec (Or.inl h.1)]
      exact Keeps.refl _ m

section Nested

variable {nested : Evaluator} {execDepth : ℕ} {s : Run} {Q : Unit → Run → Prop}
  {E : ScriptError → Run → Prop}

/-- What is moved for a nested run comes from the stack. -/
structure TakenFrom (stack rest smStk : List StackItem) : Prop where
  rest_subset : rest ⊆ stack
  smStk_subset : smStk ⊆ stack
  length_le : rest.length + smStk.length ≤ stack.length

lemma takenFrom_moveParams {n : ℕ} {stack rest smStk : List StackItem}
    (h : moveParams n stack.dropLast.dropLast [] = .ok (rest, smStk)) :
    TakenFrom stack rest.dropLast smStk := by
  obtain ⟨hrest, hsmStk⟩ := ExecExact.moveParams_params h
  rw [hrest, hsmStk]
  refine ⟨fun x hx => mem_of_mem_take hx, fun x hx => ?_, ?_⟩
  · exact mem_of_mem_take (mem_of_mem_drop (mem_reverse.mp hx))
  · rw [ExecExact.paramsOf, length_reverse, length_drop, length_take,
      length_take]
    omega

/-- The opcode fails before it changes anything but the list of its sums, or it runs code with items
that it took from the stack. -/
lemma wp_execOpExec (hfail : ∀ e sums, E e { s with sums := sums })
    (hexec : execDepth < maxExecDepth → s.machine.stats.nOpExec < maxOpExec →
      ∀ r code rest smStk sums, TakenFrom s.machine.stack rest smStk →
        wp (execCode nested env execDepth r code rest smStk) Q E { s with sums := sums }) :
    wp (execOpExec nested env execDepth) Q E s := by
  have hsame : ∀ e, E e s := fun e => hfail e s.sums
  simp only [execOpExec, execArgs, signed64, wp_bind, wp_get, wp_ite, wp_throw, wp_ofExcept,
    wp_modify, wp_pure, not_le]
  refine ⟨fun _ => hsame _, fun hdepth => ⟨fun _ => hsame _, fun hcount => ⟨fun _ => hsame _,
    fun _ => ⟨fun r _ => ⟨fun p _ => ⟨fun _ => hsame _, fun _ => ⟨fun _ => hfail _ _,
      fun _ => ⟨fun item _ => ⟨fun code _ => ⟨fun moved hmoved => ?_, fun _ _ => hfail _ _⟩,
        fun _ _ => hfail _ _⟩, fun _ _ => hfail _ _⟩⟩⟩, fun _ _ => hsame _⟩, fun _ _ => hsame _⟩⟩⟩⟩
  exact hexec hdepth hcount r code _ _ _ (takenFrom_moveParams hmoved)

end Nested

end PyrrhaNode.OpcodeSpecs
