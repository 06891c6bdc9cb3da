import PyrrhaNode.CapdQuery
import PyrrhaNode.CompactTarget
import PyrrhaNode.PriorityIndex

/-!
# Priorities in the CAPD message pool

The priority of a message is its proof of work per content, and it declines linearly to zero over
ten minutes.  The pool keeps its messages in an index that is ordered by the priorities at the
times of the insertions, and evicts from the front of it.  Messages of higher initial priority
decline faster, so the priorities of two messages can cross; here they are exact rationals.
-/
namespace PyrrhaNode.CapdPriority

open ByteCodec CompactTarget PriorityIndex
open CapdQuery (asInt)

/-- What the pool uses of a message. -/
structure CapdMsg extends CapdQuery.CapdMsg where
  difficultyBits : UInt32
  createTime : UInt64
  /-- Seconds after the creation; the greatest value means never. -/
  expiration : UInt16
  deriving DecidableEq

/-- `MIN_LOCAL_MSG_DIFFICULTY` -/
def minLocalMsgDifficulty : ℕ := 2 ^ 248 - 1

def nominalMsgSize : ℕ := 100

def msgLifetimeSec : ℕ := 600

def priority (hashTarget msgContentSize age : ℕ) : ℚ :=
  let ret : ℚ := minLocalMsgDifficulty / hashTarget
  let ret := if nominalMsgSize < msgContentSize then ret / msgContentSize * nominalMsgSize else ret
  let penaltyPerSec := ret / msgLifetimeSec
  let totalPenalty := penaltyPerSec * age
  ret - totalPenalty

def minLocalPriority : ℚ := priority minLocalMsgDifficulty nominalMsgSize 0

namespace CapdMsg

def getPowTarget (m : CapdMsg) : ℕ := (setCompact m.difficultyBits).1

def doesPowMeetTarget (m : CapdMsg) : Bool := decide (ofLeBytes m.hash.data < m.getPowTarget)

/-- The 64-bit difference of the clock and the creation time. -/
def age (m : CapdMsg) (now : ℕ) : ℕ := ((now - m.createTime.toNat : ℤ) % 2 ^ 64).toNat

def priority (m : CapdMsg) (now : ℕ) : ℚ :=
  CapdPriority.priority m.getPowTarget m.data.length (m.age now)

def initialPriority (m : CapdMsg) : ℚ :=
  CapdPriority.priority m.getPowTarget m.data.length 0

/-- The last second at which the message is unexpired: its lifetime has not passed, after which
its priority is negative, nor has the expiration it states. -/
def lastSecond (m : CapdMsg) : ℕ :=
  m.createTime.toNat + min msgLifetimeSec m.expiration.toNat

/-- The message is created and not expired. -/
def Live (m : CapdMsg) (now : ℕ) : Prop := m.createTime.toNat ≤ now ∧ now ≤ m.lastSecond

/-- `RamSize`; `sizeofMsg` is the size of the message object. -/
def ramSize (sizeofMsg : ℕ) (m : CapdMsg) : ℕ := sizeofMsg + m.data.length

end CapdMsg

/-- Once the priority of `m₁` is at least that of `m₂`, it stays so while both are unexpired. -/
def NeverCross (m₁ m₂ : CapdMsg) : Prop :=
  ∀ t t', m₁.createTime.toNat ≤ t → m₂.createTime.toNat ≤ t → t ≤ t' →
    t' ≤ m₁.lastSecond → t' ≤ m₂.lastSecond →
    m₂.priority t ≤ m₁.priority t → m₂.priority t' ≤ m₁.priority t'

/-- The later of the two creations and the earlier of the two expirations. -/
def bothCreated (m₁ m₂ : CapdMsg) : ℕ := max m₁.createTime.toNat m₂.createTime.toNat
def firstExpiry (m₁ m₂ : CapdMsg) : ℕ := min m₁.lastSecond m₂.lastSecond

/-- If both messages are ever in the pool together and `m₁` starts at or above `m₂`, it ends
there. -/
def EndsAbove (m₁ m₂ : CapdMsg) : Prop :=
  bothCreated m₁ m₂ ≤ firstExpiry m₁ m₂ →
    m₂.priority (bothCreated m₁ m₂) ≤ m₁.priority (bothCreated m₁ m₂) →
    m₂.priority (firstExpiry m₁ m₂) ≤ m₁.priority (firstExpiry m₁ m₂)

variable {m : CapdMsg} {t : ℕ}

lemma age_eq (hcreated : m.createTime.toNat ≤ t) (hlast : t ≤ m.lastSecond) :
    m.age t = t - m.createTime.toNat := by
  have hle : t ≤ m.createTime.toNat + 600 := hlast.trans (Nat.add_le_add_left (min_le_left _ _) _)
  rw [CapdMsg.age]
  omega

lemma priority_eq (hcreated : m.createTime.toNat ≤ t) (hlast : t ≤ m.lastSecond) :
    m.priority t =
      m.initialPriority - m.initialPriority / msgLifetimeSec * (t - m.createTime.toNat) := by
  rw [CapdMsg.priority, age_eq hcreated hlast]
  simp only [CapdMsg.initialPriority, priority]
  push_cast [Nat.cast_sub hcreated]
  ring

lemma lead_eq (m₁ m₂ : CapdMsg) : ∃ start rate : ℚ, ∀ t, m₁.createTime.toNat ≤ t →
    m₂.createTime.toNat ≤ t → t ≤ m₁.lastSecond → t ≤ m₂.lastSecond →
    m₁.priority t - m₂.priority t = start + rate * t := by
  refine ⟨m₁.initialPriority + m₁.initialPriority / msgLifetimeSec * m₁.createTime.toNat
      - (m₂.initialPriority + m₂.initialPriority / msgLifetimeSec * m₂.createTime.toNat),
    m₂.initialPriority / msgLifetimeSec - m₁.initialPriority / msgLifetimeSec, ?_⟩
  intro t h₁ h₂ hl₁ hl₂
  rw [priority_eq h₁ hl₁, priority_eq h₂ hl₂]
  ring

/-- A linear function that is not negative at the start of a period and at its end, or that is
negative at the start, does not turn negative within it. -/
lemma linear_stays_nonneg {start rate a t t' b : ℚ} (hat : a ≤ t) (htt : t ≤ t') (htb : t' ≤ b)
    (hends : 0 ≤ start + rate * a → 0 ≤ start + rate * b) (ht : 0 ≤ start + rate * t) :
    0 ≤ start + rate * t' := by
  rcases le_total 0 rate with hrate | hrate
  · have := mul_le_mul_of_nonneg_left htt hrate
    linarith
  · have hstart := mul_le_mul_of_nonpos_left hat hrate
    have hend := mul_le_mul_of_nonpos_left htb hrate
    have := hends (by linarith)
    linarith

lemma neverCross_iff_endsAbove (m₁ m₂ : CapdMsg) : NeverCross m₁ m₂ ↔ EndsAbove m₁ m₂ := by
  obtain ⟨start, rate, hlead⟩ := lead_eq m₁ m₂
  constructor
  · intro h hperiod hstart
    exact h _ _ (le_max_left _ _) (le_max_right _ _) hperiod (min_le_left _ _) (min_le_right _ _)
      hstart
  · intro h t t' h₁ h₂ htt hl₁ hl₂ ht
    have hperiod : bothCreated m₁ m₂ ≤ t := max_le h₁ h₂
    have hexpiry : t' ≤ firstExpiry m₁ m₂ := le_min hl₁ hl₂
    have hcreated := hlead (bothCreated m₁ m₂) (le_max_left _ _) (le_max_right _ _)
      (hperiod.trans (htt.trans hl₁)) (hperiod.trans (htt.trans hl₂))
    have hexpired := hlead (firstExpiry m₁ m₂) (h₁.trans (htt.trans hexpiry))
      (h₂.trans (htt.trans hexpiry)) (min_le_left _ _) (min_le_right _ _)
    have hnow := hlead t h₁ h₂ (htt.trans hl₁) (htt.trans hl₂)
    have hthen := hlead t' (h₁.trans htt) (h₂.trans htt) hl₁ hl₂
    have hends : 0 ≤ start + rate * (bothCreated m₁ m₂ : ℕ) →
        0 ≤ start + rate * (firstExpiry m₁ m₂ : ℕ) := by
      intro hstart
      have := h (hperiod.trans (htt.trans hexpiry)) (by linarith)
      linarith
    have hstays := linear_stays_nonneg (Nat.cast_le.mpr hperiod) (Nat.cast_le.mpr htt)
      (Nat.cast_le.mpr hexpiry) hends (by linarith)
    linarith

structure Pool where
  /-- The messages in the order of the priority index. -/
  index : List CapdMsg
  size : UInt64
  maxSize : UInt64
  deriving DecidableEq

/-- The loop of `_pare`: the messages that stay and the size that remains. -/
def pareLoop (sizeofMsg : ℕ) : ℤ → List CapdMsg → UInt64 → List CapdMsg × UInt64
  | _, [], size => ([], size)
  | len, m :: ms, size =>
    if 0 < len then
      pareLoop sizeofMsg (asInt (len - m.ramSize sizeofMsg)) ms
        (size - UInt64.ofNat (m.ramSize sizeofMsg))
    else (m :: ms, size)

namespace Pool

variable (sizeofMsg : ℕ)

/-- `_pare` -/
def pare (pool : Pool) (len : ℤ) : Pool :=
  let len := asInt (len - (pool.maxSize - pool.size).toNat)
  let kept := pareLoop sizeofMsg len pool.index pool.size
  { pool with index := kept.1, size := kept.2 }

/-- `_GetLocalPriority` -/
def getLocalPriority (pool : Pool) (now : ℕ) : ℚ :=
  if pool.size < pool.maxSize * 8 / 10 then minLocalPriority
  else
    match pool.index with
    | [] => minLocalPriority
    | m :: _ => if m.priority now < minLocalPriority then minLocalPriority else m.priority now

def setMaxSize (pool : Pool) (newSize : UInt64) : Pool :=
  if newSize = pool.maxSize then pool
  else if newSize < pool.size then pare sizeofMsg { pool with maxSize := newSize } 0
  else { pool with maxSize := newSize }

/-- The pool with the message, in the order `index`. -/
def withMsg (pool : Pool) (m : CapdMsg) (index : List CapdMsg) : Pool :=
  { pool with index := index, size := pool.size + UInt64.ofNat (m.ramSize sizeofMsg) }

/-- What changes the pool at a time; a message that `add` refuses or knows does not. -/
inductive Step (now : ℕ) : Pool → Pool → Prop
  | add {pool : Pool} {m : CapdMsg} {index : List CapdMsg} (pow : m.doesPowMeetTarget = true)
      (high : pool.getLocalPriority now ≤ m.priority now)
      (new : ∀ x ∈ pool.index, x.hash ≠ m.hash)
      (inserted : Inserted (fun x => CapdMsg.priority x now) m
        (pool.pare sizeofMsg (asInt (m.ramSize sizeofMsg))).index index) :
      Step now pool ((pool.pare sizeofMsg (asInt (m.ramSize sizeofMsg))).withMsg sizeofMsg m index)
  | setMaxSize {pool : Pool} (newSize : UInt64) : Step now pool (pool.setMaxSize sizeofMsg newSize)
  | pare {pool : Pool} (len : ℤ) : Step now pool (pool.pare sizeofMsg len)
  | clear {pool : Pool} : Step now pool { pool with index := [], size := 0 }

/-- The pools of the runs whose steps are made at times at which the pools before and after them
are `ok`; the time is that of the last step. -/
inductive Run (ok : List CapdMsg → ℕ → Prop) : ℕ → Pool → Prop
  | empty (now : ℕ) (maxSize : UInt64) : Run ok now ⟨[], 0, maxSize⟩
  | step {now later : ℕ} {pool pool' : Pool} (run : Run ok now pool) (le : now ≤ later)
      (before : ok pool.index later) (change : Step sizeofMsg later pool pool')
      (after : ok pool'.index later) : Run ok later pool'

end Pool

/-- All messages are unexpired. -/
def AllLive (index : List CapdMsg) (now : ℕ) : Prop := ∀ m ∈ index, m.Live now

/-- All messages are unexpired and of any two the one that starts above ends above. -/
def Parallel (index : List CapdMsg) (now : ℕ) : Prop :=
  AllLive index now ∧ ∀ a ∈ index, ∀ b ∈ index, EndsAbove a b

/-- The index lists the messages in the order of their current priorities. -/
def InOrder (index : List CapdMsg) (now : ℕ) : Prop :=
  index.Pairwise fun a b => a.priority now ≤ b.priority now

lemma pareLoop_isSuffix (sizeofMsg : ℕ) (len : ℤ) (index : List CapdMsg) (size : UInt64) :
    (pareLoop sizeofMsg len index size).1 <:+ index := by
  induction index generalizing len size with
  | nil => exact List.suffix_refl []
  | cons m ms ih =>
    rw [pareLoop]
    split_ifs
    · exact (ih _ _).trans (List.suffix_cons m ms)
    · exact List.suffix_refl _

variable {pool : Pool} {now sizeofMsg : ℕ} {ok : List CapdMsg → ℕ → Prop}

lemma InOrder.later {index : List CapdMsg} {later : ℕ} (h : InOrder index now)
    (hparallel : Parallel index now) (hlater : AllLive index later) (hle : now ≤ later) :
    InOrder index later := by
  apply List.Pairwise.imp_of_mem _ h
  intro a b ha hb hab
  have hcross := (neverCross_iff_endsAbove b a).mpr (hparallel.2 b hb a ha)
  exact hcross now later (hparallel.1 b hb).1 (hparallel.1 a ha).1 hle (hlater b hb).2
    (hlater a ha).2 hab

lemma Pool.Step.inOrder {pool' : Pool} (h : Pool.Step sizeofMsg now pool pool')
    (horder : InOrder pool.index now) :
    InOrder pool'.index now := by
  have hpare : ∀ (pool : Pool) (len : ℤ), InOrder pool.index now →
      InOrder (pool.pare sizeofMsg len).index now := by
    intro pool len h
    exact h.sublist (pareLoop_isSuffix _ _ _ _).sublist
  cases h with
  | add pow high new inserted => exact inserted.sorted (hpare pool _ horder)
  | setMaxSize newSize =>
    rw [Pool.setMaxSize]
    split_ifs
    · exact horder
    · exact hpare _ 0 horder
    · exact horder
  | pare len => exact hpare pool len horder
  | clear => exact List.Pairwise.nil

lemma Pool.Run.inOrder (h : Pool.Run sizeofMsg Parallel now pool) :
    InOrder pool.index now ∧ Parallel pool.index now := by
  induction h with
  | empty now maxSize => exact ⟨List.Pairwise.nil, by simp [Parallel, AllLive]⟩
  | step run le before change after ih =>
    exact ⟨change.inOrder (ih.1.later ih.2 before.1 le), after⟩

/-- An empty message of one number as hash; `bits` is its target, `created` its time. -/
def emptyMsg (number : UInt8) (bits : UInt32) (created : UInt64) : CapdMsg :=
  ⟨⟨[], .ofByte number⟩, bits, created, 65535⟩

/-- A message, and one of half its initial priority that is created 200 seconds later. -/
def olderMsg : CapdMsg := emptyMsg 0 0x1e010000 1000
def youngerMsg : CapdMsg := emptyMsg 1 0x1e020000 1200

/-- A pool with both; a message takes 100 bytes and there is room for two. -/
def crossingPool : Pool := ⟨[youngerMsg, olderMsg], 200, 220⟩

lemma Pool.Run.add (run : Pool.Run sizeofMsg ok now pool) (m : CapdMsg) (later : ℕ) (pool' : Pool)
    (le : now ≤ later) (before : ok pool.index later) (after : ok pool'.index later)
    (pow : m.doesPowMeetTarget = true) (high : pool.getLocalPriority later ≤ m.priority later)
    (new : ∀ x ∈ pool.index, x.hash ≠ m.hash)
    (inserted : Inserted (fun x => CapdMsg.priority x later) m
      (pool.pare sizeofMsg (asInt (m.ramSize sizeofMsg))).index pool'.index) (result : pool' =
      (pool.pare sizeofMsg (asInt (m.ramSize sizeofMsg))).withMsg sizeofMsg m pool'.index) :
    Pool.Run sizeofMsg ok later pool' := by
  apply run.step le before _ after
  rw [result]
  exact Pool.Step.add pow high new inserted

lemma run_olderMsg (hempty : ok [] 1000)
    (hone : ok [olderMsg] 1000) : Pool.Run 100 ok 1000 ⟨[olderMsg], 100, 220⟩ := by
  apply (Pool.Run.empty 1000 220).add olderMsg 1000
  · exact le_refl 1000
  · exact hempty
  · exact hone
  · decide +kernel
  · decide +kernel
  · simp
  · exact ⟨.leaf, rfl, rfl⟩
  · decide +kernel

/-- A message of half the initial priority that is created with the older message. -/
def twinMsg : CapdMsg := emptyMsg 1 0x1e020000 1000

def twinPool : Pool := ⟨[twinMsg, olderMsg], 200, 220⟩

lemma parallel_twins (hge : 1000 ≤ now) (hle : now ≤ 1600) :
    Parallel [twinMsg, olderMsg] now := by
  have hlive : ∀ m ∈ [twinMsg, olderMsg], m.createTime.toNat = 1000 ∧ m.lastSecond = 1600 := by
    decide +kernel
  have hends : ∀ a ∈ [twinMsg, olderMsg], ∀ b ∈ [twinMsg, olderMsg],
      bothCreated a b ≤ firstExpiry a b →
      b.priority (bothCreated a b) ≤ a.priority (bothCreated a b) →
      b.priority (firstExpiry a b) ≤ a.priority (firstExpiry a b) := by
    decide +kernel
  refine ⟨?_, hends⟩
  intro m hm
  rw [CapdMsg.Live, (hlive m hm).1, (hlive m hm).2]
  exact ⟨hge, hle⟩

lemma run_twinPool : Pool.Run 100 Parallel 1000 twinPool := by
  have htwins : Parallel [twinMsg, olderMsg] 1000 := parallel_twins (by decide) (by decide)
  have hone : Parallel [olderMsg] 1000 := by
    constructor
    · intro m hm
      exact htwins.1 m (List.mem_cons_of_mem _ hm)
    · intro a ha b hb
      exact htwins.2 a (List.mem_cons_of_mem _ ha) b (List.mem_cons_of_mem _ hb)
  have hrun : Pool.Run 100 Parallel 1000 ⟨[olderMsg], 100, 220⟩ :=
    run_olderMsg (by simp [Parallel, AllLive]) hone
  apply hrun.add twinMsg 1000
  · exact le_refl 1000
  · exact hone
  · exact htwins
  · decide +kernel
  · decide +kernel
  · decide +kernel
  · refine ⟨.node .leaf olderMsg .leaf, by decide +kernel, ?_⟩
    rw [SearchTree.insert, if_pos (by decide +kernel)]
    rfl
  · decide +kernel

/-- Priorities never cross exactly if the message that starts above ends above; and in a run of
the pool in which all messages are of that kind, the index is in the current order at all times at
which they are unexpired, and what is evicted then has the lowest current priorities. -/
theorem neverCross_iff (sizeofMsg : ℕ) :
    (∀ m₁ m₂, NeverCross m₁ m₂ ↔ EndsAbove m₁ m₂) ∧
      ∀ now pool, Pool.Run sizeofMsg Parallel now pool →
        ∀ later, now ≤ later → AllLive pool.index later →
          InOrder pool.index later ∧ ∀ len, ∃ evicted,
            pool.index = evicted ++ (pool.pare sizeofMsg len).index ∧
            ∀ a ∈ evicted, ∀ b ∈ (pool.pare sizeofMsg len).index,
              a.priority later ≤ b.priority later := by
  refine ⟨neverCross_iff_endsAbove, ?_⟩
  intro now pool hrun later hle hlive
  obtain ⟨horder, hparallel⟩ := hrun.inOrder
  have hlater := horder.later hparallel hlive hle
  refine ⟨hlater, fun len => ?_⟩
  obtain ⟨evicted, hsplit⟩ := pareLoop_isSuffix sizeofMsg
    (asInt (len - (pool.maxSize - pool.size).toNat)) pool.index pool.size
  rw [InOrder, ← hsplit, List.pairwise_append] at hlater
  exact ⟨evicted, hsplit.symm, hlater.2.2⟩

theorem neverCross_iff_twinPool :
    (NeverCross olderMsg twinMsg ↔ EndsAbove olderMsg twinMsg) ∧ InOrder twinPool.index 1500 ∧
      ∃ evicted, twinPool.index = evicted ++ (twinPool.pare 100 100).index ∧
        ∀ a ∈ evicted, ∀ b ∈ (twinPool.pare 100 100).index, a.priority 1500 ≤ b.priority 1500 := by
  have h := neverCross_iff 100
  have hpool := h.2 1000 twinPool run_twinPool 1500 (by decide)
    (parallel_twins (by decide) (by decide)).1
  exact ⟨h.1 olderMsg twinMsg, hpool.1, hpool.2 100⟩

lemma run_crossingPool : Pool.Run 100 AllLive 1200 crossingPool := by
  have hone : Pool.Run 100 AllLive 1000 ⟨[olderMsg], 100, 220⟩ := by
    apply run_olderMsg
    · simp [AllLive]
    · simp [AllLive, CapdMsg.Live, CapdMsg.lastSecond, olderMsg, emptyMsg]
  apply hone.add youngerMsg 1200
  · decide
  · simp [AllLive, CapdMsg.Live, CapdMsg.lastSecond, olderMsg, emptyMsg, msgLifetimeSec]
  · simp [AllLive, CapdMsg.Live, CapdMsg.lastSecond, crossingPool, olderMsg, youngerMsg, emptyMsg,
      msgLifetimeSec]
  · decide +kernel
  · decide +kernel
  · decide +kernel
  · refine ⟨.node .leaf olderMsg .leaf, by decide +kernel, ?_⟩
    rw [SearchTree.insert, if_pos (by decide +kernel)]
    rfl
  · decide +kernel

/-- The younger message is the lower one when it arrives and the higher one 300 seconds later,
when the pool still lists it first and evicts it. -/
theorem crossingPool_evicts_higher :
    Pool.Run 100 AllLive 1200 crossingPool ∧
      youngerMsg.priority 1200 ≤ olderMsg.priority 1200 ∧
      AllLive crossingPool.index 1500 ∧
      olderMsg.priority 1500 < youngerMsg.priority 1500 ∧
      crossingPool.index = [youngerMsg, olderMsg] ∧
      (crossingPool.pare 100 100).index = [olderMsg] := by
  refine ⟨run_crossingPool, by decide +kernel, ?_, by decide +kernel, rfl, by decide +kernel⟩
  simp [AllLive, CapdMsg.Live, CapdMsg.lastSecond, crossingPool, olderMsg, youngerMsg, emptyMsg,
    msgLifetimeSec]

end PyrrhaNode.CapdPriority
