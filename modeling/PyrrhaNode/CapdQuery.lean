import Mathlib.Data.List.TakeWhile
import PyrrhaNode.ListWrites
import PyrrhaNode.Serialize

/-!
# Queries of the CAPD message pool

A `capdq` request searches the pool for messages that begin with its content and asks for
one page of them, as messages or as hashes. Start and quantity are 32-bit numbers of the
peer's choice; the two kinds of reply compute the end of the page in different ways.
-/
namespace PyrrhaNode.CapdQuery

open List Serialize
open ListWrites

/-- What the search and the replies use of a message. -/
structure CapdMsg where
  data : Bytes
  hash : Uint256
  deriving DecidableEq

namespace CapdMsg

/-- The four `matches` functions, for search arrays of 2, 4, 8 and 16 bytes. -/
def matchesSrch (m : CapdMsg) (srch : Bytes) : Bool :=
  decide (srch.length ≤ m.data.length) && m.data.take srch.length == srch

/-- The key of the index for `n` bytes: a shorter message is filled up with zeroes. -/
def lookupKey (n : ℕ) (m : CapdMsg) : Bytes :=
  m.data.take n ++ List.replicate (n - m.data.length) 0

variable {srch : Bytes} {m : CapdMsg}

theorem lookupKey_of_matchesSrch (h : m.matchesSrch srch) :
    m.lookupKey srch.length = srch := by
  simp only [matchesSrch, Bool.and_eq_true, decide_eq_true_eq, beq_iff_eq] at h
  simp [lookupKey, h.2, Nat.sub_eq_zero_of_le h.1]

theorem matchesSrch_iff : m.matchesSrch srch ↔ srch <+: m.data := by
  rw [prefix_iff_eq_take, matchesSrch]
  grind

end CapdMsg

/-- The pool with the iteration order of its hashed indexes. No two messages have the same
hash, each index goes through all the messages, and messages of equal key follow each
other. -/
structure CapdMsgPool where
  msgs : List CapdMsg
  index : ℕ → List CapdMsg
  unique : (msgs.map CapdMsg.hash).Nodup
  perm : ∀ n, (index n).Perm msgs
  grouped : ∀ n a b c, [a, b, c].Sublist (index n) → a.lookupKey n = c.lookupKey n →
    b.lookupKey n = a.lookupKey n

namespace CapdMsgPool

/-- The content search: from the first message with this key on, as long as they match. -/
def find (pool : CapdMsgPool) (v : Bytes) : List CapdMsg :=
  if v.length = 2 ∨ v.length = 4 ∨ v.length = 8 ∨ v.length = 16 then
    ((pool.index v.length).dropWhile fun m => m.lookupKey v.length != v).takeWhile
      fun m => m.matchesSrch v
  else []

/-- The messages of the pool that match, in the order of the index. -/
def matching (pool : CapdMsgPool) (v : Bytes) : List CapdMsg :=
  (pool.index v.length).filter fun m => m.matchesSrch v

/-- The matching messages in front of the first message that has the key without matching: a
message shorter than the search whose missing bytes are filled up. -/
def reachable (pool : CapdMsgPool) (v : Bytes) : List CapdMsg :=
  ((pool.index v.length).takeWhile fun m => m.lookupKey v.length != v || m.matchesSrch v).filter
    fun m => m.matchesSrch v

end CapdMsgPool

structure NotificationInfo where
  cookie : UInt32
  maxMsgsAtOnce : UInt32
  type : UInt8

structure CapdNode where
  notifications : Bytes → Option NotificationInfo

def CapdNode.installNotification (cn : CapdNode) (cookie maxQuantityPerMessage : UInt32)
    (type : UInt8) (content : Bytes) : CapdNode :=
  ⟨Function.update cn.notifications content (some ⟨cookie, maxQuantityPerMessage, type⟩)⟩

def capdQueryTypeMsg : UInt8 := 1
def capdQueryTypeMsgHash : UInt8 := 2
def capdQueryTypeError : UInt8 := 3
def capdQueryNotify : UInt8 := 0x80
def capdQueryMaxMsgs : ℕ := 200
def capdQueryMaxInvs : ℕ := 2000

structure Query where
  cookie : UInt32
  type : UInt8
  start : UInt32
  quantity : UInt32
  content : Bytes

/-- The replies: the count is that of all messages found. -/
inductive QueryReply where
  | msgs (cookie : UInt32) (type : UInt8) (count : UInt32) (page : List CapdMsg)
  | hashes (cookie : UInt32) (type : UInt8) (count : UInt32) (page : List Uint256)
  | error (cookie : UInt32) (type size : UInt8)
  deriving DecidableEq

/-- The conversion to `int`. -/
def asInt (z : ℤ) : ℤ := z.bmod (2 ^ 32)

lemma asInt_toNat (x : UInt32) :
    asInt x.toNat = if x.toNat < 2 ^ 31 then (x.toNat : ℤ) else x.toNat - 2 ^ 32 := by
  have := x.toNat_lt
  rw [asInt, Int.bmod_def]
  split_ifs <;> omega

/-- The conversion of an `int` to `unsigned int`. -/
def asUnsigned (z : ℤ) : UInt32 := UInt32.ofNat (z % 2 ^ 32).toNat

/-- The part of a vector that `PtrVectorSpan` serializes. -/
def ptrVectorSpan {α : Type} (v : List α) (start count : ℕ) : List α :=
  let sz := if v.length ≤ start then 0 else v.length - start
  let sz := if count < sz then count else sz
  (v.drop start).take sz

/-- `std::min((int)CAPD_QUERY_MAX_MSGS, (int)quantity)`, converted back to unsigned. -/
def msgQuantity (quantity : UInt32) : UInt32 :=
  asUnsigned (min capdQueryMaxMsgs (asInt quantity.toNat))

/-- The end of the loop over the hashes. The sums and the difference mix `int` with
`unsigned int` and are therefore unsigned. -/
def hashStop (start quantity : UInt32) (size : ℕ) : ℤ :=
  asInt (min (min (UInt32.ofNat capdQueryMaxInvs + start) (start + quantity))
    (UInt32.ofNat size - start)).toNat

/-- `msgs[i]` for an `int`, with nothing outside the vector. -/
def entryAt (msgs : List CapdMsg) (i : ℤ) : Option CapdMsg :=
  if i < 0 then none else msgs[i.toNat]?

/-- The loop `for (int i = first; i < stop; i++)` over the hashes. -/
def readHashes (msgs : List CapdMsg) (first stop : ℤ) : Option (List Uint256) :=
  (List.range (stop - first).toNat).mapM fun d : ℕ => (entryAt msgs (first + d)).map CapdMsg.hash

/-- The type of a query without its notification bit. -/
def Query.replyType (q : Query) : UInt8 :=
  if 0 < q.type &&& capdQueryNotify then q.type &&& ~~~capdQueryNotify else q.type

/-- The peer with the notification installed that the query asks for. -/
def CapdNode.notified (cn : CapdNode) (q : Query) : CapdNode :=
  if 0 < q.type &&& capdQueryNotify then
    cn.installNotification q.cookie q.quantity q.replyType q.content
  else cn

/-- The content sizes that have an index. -/
def Query.Searchable (q : Query) : Prop :=
  q.content.length = 2 ∨ q.content.length = 4 ∨ q.content.length = 8 ∨ q.content.length = 16

instance (q : Query) : Decidable q.Searchable := inferInstanceAs (Decidable (_ ∨ _))

/-- The handling of `CAPDQUERY`, with nothing where the loop reads outside the vector. -/
def handleQuery (pool : CapdMsgPool) (cn : CapdNode) (q : Query) :
    Option (CapdNode × List QueryReply) := do
  let type := q.replyType
  if q.Searchable then
    let cn := cn.notified q
    let msgs := pool.find q.content
    if type = capdQueryTypeMsg then
      return (cn, [.msgs q.cookie type (UInt32.ofNat msgs.length)
        (ptrVectorSpan msgs q.start.toNat (msgQuantity q.quantity).toNat)])
    else if type = capdQueryTypeMsgHash then
      let hashes ← readHashes msgs (asInt q.start.toNat) (hashStop q.start q.quantity msgs.length)
      return (cn, [.hashes q.cookie type (UInt32.ofNat msgs.length) hashes])
    else return (cn, [])
  else return (cn, [.error q.cookie capdQueryTypeError (UInt8.ofNat q.content.length)])

/-- The entries with positions `start ≤ i < min (start + min quantity cap) n`. -/
def page {α : Type} (found : List α) (start quantity cap : ℕ) : List α :=
  (found.take (min (start + min quantity cap) found.length)).drop start

/-- The replies with the exact page of the matching messages. A query of another type has
no reply, and content that cannot be searched for has an error reply. -/
def exactReply (pool : CapdMsgPool) (q : Query) (count : UInt32) : List QueryReply :=
  if q.Searchable then
    if q.replyType = capdQueryTypeMsg then
      [.msgs q.cookie q.replyType count
        (page (pool.matching q.content) q.start.toNat q.quantity.toNat capdQueryMaxMsgs)]
    else if q.replyType = capdQueryTypeMsgHash then
      [.hashes q.cookie q.replyType count
        ((page (pool.matching q.content) q.start.toNat q.quantity.toNat
          capdQueryMaxInvs).map CapdMsg.hash)]
    else []
  else [.error q.cookie capdQueryTypeError (UInt8.ofNat q.content.length)]

/-- The query is answered with the exact page. -/
def AnsweredExactly (pool : CapdMsgPool) (cn : CapdNode) (q : Query) : Prop :=
  ∃ cn' count, handleQuery pool cn q = some (cn', exactReply pool q count)

/-- All of the page is among the messages found, or the page is empty. -/
def PageFound (found n start quantity cap : ℕ) : Prop :=
  min (start + min quantity cap) n ≤ max found start

/-- A quantity that is not negative as an `int`, or few enough messages that it does not
matter that such a quantity is not clamped. -/
def MsgPageExact (found n start quantity : ℕ) : Prop :=
  PageFound found n start quantity capdQueryMaxMsgs ∧
    (quantity < 2 ^ 31 ∨ found ≤ start + capdQueryMaxMsgs)

/-- The loop over the hashes lists the page. A page with entries must not wrap around, and unless
it starts at 0 it must end at or before the number of messages less the start, which is where the
loop ends. An empty page is listed unless the loop runs all the same: it does for most starts behind
the last message. -/
def HashPageExact (found n start quantity : ℕ) : Prop :=
  if 0 < quantity ∧ start < n then
    start + quantity < 2 ^ 32 ∧
      ((start = 0 ∧ found = n ∧ n < 2 ^ 32) ∨
        (start + min quantity capdQueryMaxInvs < 2 ^ 31 ∧
          start + min quantity capdQueryMaxInvs ≤ (found - start) % 2 ^ 32))
  else if start < 2 ^ 31 then
    quantity = 0 ∨ found = start ∨ 2 ^ 32 ≤ start + quantity ∨
      2 ^ 31 ≤ start + min quantity capdQueryMaxInvs
  else
    -- the start is negative as an `int`, and so must be the end of the loop
    start + capdQueryMaxInvs < 2 ^ 32 ∧
      (start + quantity < 2 ^ 32 ∨ 2 ^ 32 + 2 ^ 31 ≤ start + quantity) ∧
      2 ^ 31 ≤ (found + (2 ^ 32 - start)) % 2 ^ 32 ∧
      (quantity = 0 ∨ 2 ^ 32 ≤ start + quantity ∨ (found + (2 ^ 32 - start)) % 2 ^ 32 ≤ start)

/-- The condition on a query for an exact reply. -/
def QueryExact (pool : CapdMsgPool) (q : Query) : Prop :=
  let found := (pool.reachable q.content).length
  let n := (pool.matching q.content).length
  q.Searchable →
    (q.replyType = capdQueryTypeMsg → MsgPageExact found n q.start.toNat q.quantity.toNat) ∧
    (q.replyType = capdQueryTypeMsgHash →
      HashPageExact found n q.start.toNat q.quantity.toNat)

instance (found n start quantity : ℕ) : Decidable (MsgPageExact found n start quantity) :=
  inferInstanceAs (Decidable ((_ ≤ _) ∧ _))

instance (found n start quantity : ℕ) : Decidable (HashPageExact found n start quantity) := by
  unfold HashPageExact
  infer_instance

section Find

variable {α : Type} {p : α → Bool} {l : List α} {pool : CapdMsgPool} {v : Bytes}

theorem takeWhile_isPrefix_filter (p : α → Bool) (l : List α) :
    l.takeWhile p <+: l.filter p := by
  induction l with
  | nil => simp
  | cons a l ih =>
    by_cases ha : p a
    · simpa [ha] using ih
    · simp [ha]

theorem takeWhile_eq_filter_iff :
    l.takeWhile p = l.filter p ↔ l.Pairwise fun a b => p b → p a := by
  induction l with
  | nil => simp
  | cons a l ih =>
    by_cases ha : p a
    · simp [ha, ih]
    · rw [takeWhile_cons_of_neg ha, filter_cons_of_neg ha, pairwise_cons, eq_comm,
        filter_eq_nil_iff]
      refine ⟨fun hnone => ⟨fun b hb hpb => absurd hpb (hnone b hb), ?_⟩,
        fun h b hb hpb => ha (h.1 b hb hpb)⟩
      exact pairwise_of_forall_mem_list fun _ _ b hb hpb => absurd hpb (hnone b hb)

theorem filter_dropWhile_lookupKey (pool : CapdMsgPool) (v : Bytes) :
    ((pool.index v.length).dropWhile fun m => m.lookupKey v.length != v).filter
      (fun m => m.matchesSrch v) = pool.matching v := by
  rw [CapdMsgPool.matching]
  induction pool.index v.length with
  | nil => rfl
  | cons m msgs ih =>
    by_cases hkey : m.lookupKey v.length = v
    · simp [hkey]
    · have hmatch : ¬ m.matchesSrch v := fun h => hkey (CapdMsg.lookupKey_of_matchesSrch h)
      simpa [hkey, hmatch] using ih

/-- The search finds the first of the matching messages, in their order. -/
theorem find_isPrefix_matching : pool.find v <+: pool.matching v := by
  rw [CapdMsgPool.find]
  split
  · rw [← filter_dropWhile_lookupKey]
    exact takeWhile_isPrefix_filter _ _
  · exact nil_prefix

theorem length_find_le : (pool.find v).length ≤ (pool.matching v).length :=
  find_isPrefix_matching.length_le

theorem take_find {e : ℕ} (he : e ≤ (pool.find v).length) :
    (pool.find v).take e = (pool.matching v).take e := by
  rw [prefix_iff_eq_take.mp find_isPrefix_matching, take_take, Nat.min_eq_left he]

/-- The search stops early where a message that only has the padded key comes first. -/
theorem find_eq_matching_iff
    (hsize : v.length = 2 ∨ v.length = 4 ∨ v.length = 8 ∨ v.length = 16) :
    pool.find v = pool.matching v ↔ (pool.index v.length).Pairwise fun a b =>
      a.lookupKey v.length = v → v <+: b.data → v <+: a.data := by
  simp only [← CapdMsg.matchesSrch_iff]
  rw [CapdMsgPool.find, if_pos hsize, ← filter_dropWhile_lookupKey, takeWhile_eq_filter_iff]
  have hgrouped := pool.grouped v.length
  revert hgrouped
  induction pool.index v.length with
  | nil => simp
  | cons m msgs ih =>
    intro hgrouped
    by_cases hkey : m.lookupKey v.length = v
    · have hkeys : ∀ a b, [a, b].Sublist msgs → b.matchesSrch v → a.lookupKey v.length = v :=
        fun a b hab hb => (hgrouped m a b (hab.cons_cons m)
          (hkey.trans (CapdMsg.lookupKey_of_matchesSrch hb).symm)).trans hkey
      rw [dropWhile_cons_of_neg (by simp [hkey])]
      simp only [pairwise_iff_forall_sublist]
      grind
    · have hrest := ih fun a b c hsub => hgrouped a b c (hsub.cons m)
      simpa [hkey] using hrest

/-- Where `q` holds of all that comes before an element with `p`, reading on up to the first
element with `q` and without `p` finds no more of `p`. -/
theorem takeWhile_eq_filter_takeWhile {q : α → Bool} (h : l.Pairwise fun a b => p b → q a) :
    l.takeWhile p = (l.takeWhile fun a => !q a || p a).filter p := by
  induction h with
  | nil => rfl
  | @cons a l ha _ ih =>
    by_cases hp : p a
    · simp [hp, ih]
    · rw [takeWhile_cons_of_neg hp, eq_comm, filter_eq_nil_iff]
      intro b hb hpb
      cases hq : q a with
      | true => simp [hp, hq] at hb
      | false =>
        rcases mem_cons.mp (takeWhile_sublist _ |>.subset hb) with rfl | hb
        · exact hp hpb
        · exact absurd (ha b hb hpb) (by simp [hq])

/-- The search finds the matching messages in front of the first one that only has the key. -/
theorem find_eq_reachable
    (hsize : v.length = 2 ∨ v.length = 4 ∨ v.length = 8 ∨ v.length = 16) :
    pool.find v = pool.reachable v := by
  rw [CapdMsgPool.find, if_pos hsize, CapdMsgPool.reachable]
  have hgrouped := pool.grouped v.length
  revert hgrouped
  induction pool.index v.length with
  | nil => intro _; rfl
  | cons m msgs ih =>
    intro hgrouped
    by_cases hkey : m.lookupKey v.length = v
    · rw [dropWhile_cons_of_neg (by simp [hkey])]
      refine takeWhile_eq_filter_takeWhile (pairwise_cons.mpr ⟨fun _ _ _ => by simp [hkey], ?_⟩)
      refine pairwise_iff_forall_sublist.mpr fun {a b} hab hb => ?_
      have hlast := CapdMsg.lookupKey_of_matchesSrch hb
      simp [hgrouped m a b (hab.cons_cons m) (hkey.trans hlast.symm), hkey]
    · have hmatch : ¬ m.matchesSrch v := fun h => hkey (CapdMsg.lookupKey_of_matchesSrch h)
      simpa [hkey, hmatch] using ih fun a b c hsub => hgrouped a b c (hsub.cons m)

theorem mem_matching {m : CapdMsg} : m ∈ pool.matching v ↔ m ∈ pool.msgs ∧ v <+: m.data := by
  rw [CapdMsgPool.matching, mem_filter, (pool.perm _).mem_iff, CapdMsg.matchesSrch_iff]

/-- The search finds the messages that begin with the prefix, each once, exactly if in the
order of the index none of them comes after a shorter message with the same padded key. -/
theorem find_exact_iff (pool : CapdMsgPool) (v : Bytes)
    (hsize : v.length = 2 ∨ v.length = 4 ∨ v.length = 8 ∨ v.length = 16) :
    ((pool.find v).Nodup ∧ ∀ m, m ∈ pool.find v ↔ m ∈ pool.msgs ∧ v <+: m.data) ↔
      (pool.index v.length).Pairwise fun a b =>
        a.lookupKey v.length = v → v <+: b.data → v <+: a.data := by
  have hnodup : (pool.matching v).Nodup :=
    ((pool.perm _).nodup_iff.mpr (Nodup.of_map _ pool.unique)).filter _
  rw [← find_eq_matching_iff hsize]
  constructor
  · rintro ⟨hfound, hmem⟩
    refine find_isPrefix_matching.eq_of_length (Perm.length_eq ?_)
    exact (perm_ext_iff_of_nodup hfound hnodup).mpr fun m => (hmem m).trans mem_matching.symm
  · intro heq
    rw [heq]
    exact ⟨hnodup, fun _ => mem_matching⟩

end Find

/-- A pool of two messages with indexes in this order. -/
def pairPool (a b : CapdMsg) (h : a.hash ≠ b.hash) : CapdMsgPool where
  msgs := [a, b]
  index _ := [a, b]
  unique := by simpa using h
  perm _ := .refl _
  grouped _ _ _ _ hsub := absurd hsub.length_le (by simp)

/-- The key of two bytes of this message is that of `longMsg`. -/
def shortMsg : CapdMsg := ⟨[97], .ofByte 1⟩

def longMsg : CapdMsg := ⟨[97, 0, 98], .ofByte 2⟩

/-- With the shorter message in front, the message that begins with the prefix is not found. -/
theorem find_misses_longMsg :
    let pool := pairPool shortMsg longMsg (by decide)
    longMsg ∈ pool.msgs ∧ [97, 0] <+: longMsg.data ∧ pool.find [97, 0] = [] := by
  decide

theorem find_exact_longMsg :
    let pool := pairPool longMsg shortMsg (by decide)
    (pool.find [97, 0]).Nodup ∧
      ∀ m, m ∈ pool.find [97, 0] ↔ m ∈ pool.msgs ∧ [97, 0] <+: m.data :=
  (find_exact_iff (pairPool longMsg shortMsg (by decide)) [97, 0] (by decide)).mpr (by decide)

section Paging

variable {α : Type} {l : List α} {e e' start : ℕ} {msgs : List CapdMsg}

/-- Two parts of a list from the same start are equal if they end at the same place or
both end before they start. -/
theorem drop_take_eq_iff (he : e ≤ l.length) (he' : e' ≤ l.length) :
    (l.take e).drop start = (l.take e').drop start ↔ e = e' ∨ (e ≤ start ∧ e' ≤ start) := by
  constructor
  · intro h
    have := congrArg List.length h
    simp only [length_drop, length_take] at this
    omega
  · rintro (rfl | ⟨h, h'⟩)
    · rfl
    · rw [drop_eq_nil_of_le (by simp; omega), drop_eq_nil_of_le (by simp; omega)]

theorem ptrVectorSpan_eq (v : List α) (start count : ℕ) :
    ptrVectorSpan v start count = (v.take (min (start + count) v.length)).drop start := by
  rw [ptrVectorSpan, drop_take]
  by_cases hstart : v.length ≤ start
  · simp [drop_eq_nil_of_le hstart]
  · simp only [if_neg hstart]
    congr 1
    split <;> omega

theorem toNat_msgQuantity (quantity : UInt32) :
    (msgQuantity quantity).toNat =
      if quantity.toNat < 2 ^ 31 then min quantity.toNat capdQueryMaxMsgs
      else quantity.toNat := by
  have hlt := quantity.toNat_lt
  rw [msgQuantity, asUnsigned, UInt32.toNat_ofNat', asInt_toNat]
  split <;> omega

theorem readHashes_eq_some_iff {first stop : ℤ} {hashes : List Uint256} (h : first < stop) :
    readHashes msgs first stop = some hashes ↔
      0 ≤ first ∧ stop ≤ msgs.length ∧
        hashes = ((msgs.take stop.toNat).drop first.toNat).map CapdMsg.hash := by
  have hread : 0 ≤ first → stop ≤ msgs.length → readHashes msgs first stop =
      some (((msgs.take stop.toNat).drop first.toNat).map CapdMsg.hash) := by
    intro hfirst hstop
    have hentry : ∀ d ∈ List.range (stop - first).toNat,
        (entryAt msgs (first + d)).map CapdMsg.hash =
          some (msgs.getD (first.toNat + d) msgs[first.toNat]).hash := by
      intro d hd
      have hd := mem_range.mp hd
      have hindex : (first + d).toNat = first.toNat + d := by omega
      have hin : first.toNat + d < msgs.length := by omega
      rw [entryAt, if_neg (by omega), hindex]
      simp [List.getElem?_eq_getElem hin]
    rw [readHashes, mapM_eq_some_map hentry]
    congr 1
    refine ext_getElem (by simp; omega) fun d hd _ => ?_
    have hd : d < (stop - first).toNat := by simpa using hd
    have hin : first.toNat + d < msgs.length := by omega
    simp [List.getElem?_eq_getElem hin]
  constructor
  · intro hsome
    have hin : ∀ d < (stop - first).toNat, (entryAt msgs (first + d)).isSome := fun d hd => by
      simpa using isSome_of_mapM_eq_some hsome d (mem_range.mpr hd)
    have hfirst : 0 ≤ first := by
      by_contra hneg
      have := hin 0 (by omega)
      simp [entryAt, show first < 0 by omega] at this
    have hstop : stop ≤ msgs.length := by
      have hlast := hin ((stop - first).toNat - 1) (by omega)
      rw [entryAt, if_neg (by omega)] at hlast
      have : (first + ((stop - first).toNat - 1 : ℕ)).toNat < msgs.length := by
        simpa using hlast
      omega
    exact ⟨hfirst, hstop, Option.some_inj.mp (hsome.symm.trans (hread hfirst hstop))⟩
  · rintro ⟨hfirst, hstop, rfl⟩
    exact hread hfirst hstop

theorem readHashes_of_le {first stop : ℤ} (h : stop ≤ first) :
    readHashes msgs first stop = some [] := by
  have : (stop - first).toNat = 0 := by omega
  simp [readHashes, this]

end Paging

section Exact

variable {pool : CapdMsgPool} {v : Bytes} {cn : CapdNode} {q : Query}

/-- The loop over the hashes stays within the messages and ends where the page ends, or neither
has an entry, exactly under the condition. -/
theorem hashLoop_iff {found n : ℕ} (start quantity : UInt32) (hle : found ≤ n) :
    (if asInt start.toNat < hashStop start quantity found then
      0 ≤ asInt start.toNat ∧ hashStop start quantity found ≤ found ∧
        hashStop start quantity found =
          (min (start.toNat + min quantity.toNat capdQueryMaxInvs) n : ℕ)
    else min (start.toNat + min quantity.toNat capdQueryMaxInvs) n ≤ start.toNat) ↔
      HashPageExact found n start.toNat quantity.toNat := by
  have hstart := start.toNat_lt
  have hquantity := quantity.toNat_lt
  simp only [HashPageExact, hashStop, asInt_toNat]
  simp only [UInt32.toNat_min, UInt32.toNat_add, UInt32.toNat_sub, UInt32.toNat_ofNat']
  unfold capdQueryMaxInvs
  generalize start.toNat = s at *
  generalize quantity.toNat = k at *
  split_ifs <;> omega

theorem readHashes_find_eq_page_iff (start quantity : UInt32) :
    readHashes (pool.find v) (asInt start.toNat)
        (hashStop start quantity (pool.find v).length) =
        some ((page (pool.matching v) start.toNat quantity.toNat capdQueryMaxInvs).map
          CapdMsg.hash) ↔
      HashPageExact (pool.find v).length (pool.matching v).length start.toNat
        quantity.toNat := by
  have hle : (pool.find v).length ≤ (pool.matching v).length := length_find_le
  have hlength : (page (pool.matching v) start.toNat quantity.toNat capdQueryMaxInvs).length =
      min (start.toNat + min quantity.toNat capdQueryMaxInvs) (pool.matching v).length -
        start.toNat := by
    simp [page]
  rw [← hashLoop_iff start quantity hle]
  generalize hashStop start quantity (pool.find v).length = stop
  split
  case isTrue hloop =>
    rw [readHashes_eq_some_iff hloop]
    refine and_congr_right fun hfirst => and_congr_right fun hstop => ?_
    have hstart : asInt start.toNat = start.toNat := by
      rw [asInt_toNat] at hfirst ⊢
      have := start.toNat_lt
      split <;> omega
    rw [take_find (by omega), hstart, Int.toNat_natCast]
    constructor
    · intro hpage
      have hlengths := congrArg List.length hpage
      rw [length_map, length_map, length_drop, length_take]
        at hlengths
      omega
    · intro hend
      rw [page, hend, Int.toNat_natCast]
  case isFalse hloop =>
    rw [readHashes_of_le (by omega), Option.some_inj, eq_comm, map_eq_nil_iff,
      ← length_eq_zero_iff]
    omega

theorem answeredExactly_msg_iff (hsize : q.Searchable) (htype : q.replyType = capdQueryTypeMsg) :
    AnsweredExactly pool cn q ↔ MsgPageExact (pool.reachable q.content).length
      (pool.matching q.content).length q.start.toNat q.quantity.toNat := by
  rw [← find_eq_reachable hsize]
  have hle : (pool.find q.content).length ≤ (pool.matching q.content).length := length_find_le
  simp only [AnsweredExactly, handleQuery, exactReply, if_pos hsize, if_pos htype,
    Option.pure_def, Option.some_inj, Prod.mk.injEq, List.cons.injEq, and_true,
    QueryReply.msgs.injEq, true_and, exists_and_left, exists_and_right, exists_eq']
  rw [ptrVectorSpan_eq, toNat_msgQuantity, page, take_find (by omega),
    drop_take_eq_iff (by omega) (by omega)]
  unfold MsgPageExact PageFound capdQueryMaxMsgs
  split <;> omega

/-- A query for hashes is answered with the exact page exactly if the loop lists it. -/
theorem answeredExactly_hash_iff (hsize : q.Searchable)
    (htype : q.replyType = capdQueryTypeMsgHash) :
    AnsweredExactly pool cn q ↔ HashPageExact (pool.reachable q.content).length
      (pool.matching q.content).length q.start.toNat q.quantity.toNat := by
  have hne : q.replyType ≠ capdQueryTypeMsg := by rw [htype]; decide
  rw [← find_eq_reachable hsize, ← readHashes_find_eq_page_iff]
  simp only [AnsweredExactly, handleQuery, exactReply, if_pos hsize, if_neg hne, if_pos htype,
    Option.pure_def, Option.bind_eq_bind, Option.bind_eq_some_iff, Option.some_inj,
    Prod.mk.injEq, List.cons.injEq, and_true, QueryReply.hashes.injEq, true_and]
  constructor
  · rintro ⟨_, _, hashes, hread, _, _, rfl⟩
    exact hread
  · intro hread
    exact ⟨_, _, _, hread, rfl, rfl, rfl⟩

/-- A query is answered with the exact page exactly under the condition. -/
theorem answeredExactly_iff (pool : CapdMsgPool) (cn : CapdNode) (q : Query) :
    AnsweredExactly pool cn q ↔ QueryExact pool q := by
  by_cases hsize : q.Searchable
  case neg => simp [AnsweredExactly, handleQuery, exactReply, QueryExact, hsize]
  by_cases hmsg : q.replyType = capdQueryTypeMsg
  case pos =>
    have hne : q.replyType ≠ capdQueryTypeMsgHash := by rw [hmsg]; decide
    rw [answeredExactly_msg_iff hsize hmsg]
    exact ⟨fun h _ => ⟨fun _ => h, fun heq => absurd heq hne⟩, fun h => (h hsize).1 hmsg⟩
  by_cases hhash : q.replyType = capdQueryTypeMsgHash
  case pos =>
    rw [answeredExactly_hash_iff hsize hhash]
    exact ⟨fun h _ => ⟨fun heq => absurd heq hmsg, fun _ => h⟩, fun h => (h hsize).2 hhash⟩
  case neg => simp [AnsweredExactly, handleQuery, exactReply, QueryExact, hsize, hmsg, hhash]

end Exact

/-- A pool of messages with the same data and these hashes. -/
def poolOf (data : Bytes) (hashes : List Uint256) (h : hashes.Nodup) : CapdMsgPool where
  msgs := hashes.map (CapdMsg.mk data)
  index _ := hashes.map (CapdMsg.mk data)
  unique := by simpa [Function.comp_def] using h
  perm _ := .refl _
  grouped := by
    intro n a b c hsub _
    have hdata : ∀ m ∈ [a, b, c], m.data = data := fun m hm => by
      obtain ⟨hash, -, rfl⟩ := mem_map.mp (hsub.subset hm)
      rfl
    rw [CapdMsg.lookupKey, CapdMsg.lookupKey, hdata a (by simp), hdata b (by simp)]

/-- Three messages that begin with `ab`. -/
def threeMsgs : CapdMsgPool :=
  poolOf [97, 98] [Uint256.ofByte 1, Uint256.ofByte 2, Uint256.ofByte 3] (by decide)

def noNotifications : CapdNode := ⟨fun _ => none⟩

/-- A query for the hashes of the messages that begin with `ab`. -/
def hashQuery (start quantity : UInt32) : Query :=
  ⟨7, capdQueryTypeMsgHash, start, quantity, [97, 98]⟩

/-- Of three matching messages, those from position 1 on are two, but the reply lists one;
from position 4 on there are none, but the loop reads outside the vector. -/
theorem hashQuery_not_exact :
    (handleQuery threeMsgs noNotifications (hashQuery 1 5)).map Prod.snd =
      some [.hashes 7 capdQueryTypeMsgHash 3 [Uint256.ofByte 2]] ∧
    exactReply threeMsgs (hashQuery 1 5) 3 =
      [.hashes 7 capdQueryTypeMsgHash 3 [Uint256.ofByte 2, Uint256.ofByte 3]] ∧
    (handleQuery threeMsgs noNotifications (hashQuery 4 5)).map Prod.snd = none ∧
    ¬ AnsweredExactly threeMsgs noNotifications (hashQuery 1 5) ∧
    ¬ AnsweredExactly threeMsgs noNotifications (hashQuery 4 5) := by
  refine ⟨by decide, by decide, by decide, ?_, ?_⟩
  all_goals
    rw [answeredExactly_hash_iff (by decide) (by decide)]
    decide

end PyrrhaNode.CapdQuery
