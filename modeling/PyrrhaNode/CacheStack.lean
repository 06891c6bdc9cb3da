import Mathlib
import PyrrhaNode.CacheContents

/-!
# Stacks of write-back caches

Caches lie on top of each other over a store. Reading through copies a value into every
cache on the way. The stack stands for one partial map of live values, which is what the
entries show over what the caches below show. The entries of a cache only have to agree
with the live values below it, so a dead value may be there or not. Reading, dropping
clean entries and writing a cache back to the one below it leave the map as it is.
-/
namespace PyrrhaNode.CacheStack
open Option Function List Loop WriteBackCache

abbrev Entries (κ β : Type) [DecidableEq κ] := DefaultMap κ (Option (Entry β))

variable {κ β : Type} [DecidableEq κ]

/-- The value that is seen through caches over a store. -/
def read (store : κ → Option β) : List (Entries κ β) → κ → Option β
  | [] => store
  | es :: below => (Cache.mk (read store below) es).get

/-- The top cache of a stack. -/
def topCache (store : κ → Option β) (es : Entries κ β) (below : List (Entries κ β)) : Cache κ β :=
  ⟨read store below, es⟩

/-- Reads a value through into all caches above the place where it is found. -/
def fetch (dead : β → Bool) (store : κ → Option β) (k : κ) :
    List (Entries κ β) → List (Entries κ β)
  | [] => []
  | es :: below =>
    if (es.get k).isSome then es :: below
    else ((topCache store es below).fetch dead k).entries :: fetch dead store k below

/-- The entries that are left when all dirty ones have been moved to another cache. -/
def dropDirty (es : Entries κ β) : Entries κ β where
  keys := es.keys
  get k := (es.get k).filter fun e => !e.dirty
  nodup := es.nodup
  get_of_notMem k hk := by
    rw [es.get_of_notMem k hk]
    rfl

/-- Writes the dirty entries of a cache to the store. -/
def storeAll (dead : β → Bool) (keep : κ → Bool) (c : Cache κ β) : Cache κ β :=
  c.entries.keys.foldl (fun c k => c.store dead (keep k) k) c

/-- Writes the top cache of a stack to the one below it, or to the store. -/
def flush (dead : β → Bool) (keep : κ → Bool) (store : κ → Option β) :
    List (Entries κ β) → Except String (List (Entries κ β) × (κ → Option β))
  | [] => return ([], store)
  | [es] =>
    let c := storeAll dead keep ⟨store, es⟩
    return ([c.entries], c.base)
  | es :: us :: below => do
      let c ← Cache.batchWrite dead (topCache store es (us :: below)) (topCache store us below)
      return (dropDirty es :: c.entries :: below, store)

section Contents
variable (dead : β → Bool) (store : κ → Option β)

/-- A value counts if it is not dead. -/
def liveValue (v : β) : Option β := (some v).filter fun v => !dead v

/-- The live values that are seen through entries. -/
def overlay (m : κ → Option β) (es : Entries κ β) : κ → Option β := fun k =>
  match es.get k with
  | some e => liveValue dead e.value
  | none => m k

/-- The map that a stack stands for. -/
def contents : List (Entries κ β) → κ → Option β
  | [] => store
  | es :: below => overlay dead (contents below) es

/-- What an entry says about the value below it. -/
structure EntryAgrees (below : Option β) (e : Entry β) : Prop where
  clean : e.dirty = false → below = liveValue dead e.value
  fresh : e.fresh = true → below = none

def Agrees (m : κ → Option β) (es : Entries κ β) : Prop :=
  ∀ k e, es.get k = some e → EntryAgrees dead (m k) e

/-- The store has live values only, and every cache agrees with what is below it. -/
def Valid : List (Entries κ β) → Prop
  | [] => ∀ k v, store k = some v → dead v = false
  | es :: below => Agrees dead (contents dead store below) es ∧ Valid below

end Contents

section Lemmas
variable {dead : β → Bool} {store m : κ → Option β} {es es' : Entries κ β}
variable {below layers rest above rest' : List (Entries κ β)} {k : κ} {e : Entry β} {v : β}
  {store' : κ → Option β}
  {r : Option (Entry β)} {c : Cache κ β}

lemma liveValue_of_dead (h : dead v = true) : liveValue dead v = none := by
  simp [liveValue, h]

lemma liveValue_of_live (h : dead v = false) : liveValue dead v = some v := by
  simp [liveValue, h]

lemma EntryAgrees.of_dirty {below : Option β} (hdirty : e.dirty = true)
    (hfresh : e.fresh = true → below = none) : EntryAgrees dead below e where
  clean hclean := by
    rw [hdirty] at hclean
    cases hclean
  fresh := hfresh

lemma overlay_of_some (h : es.get k = some e) : overlay dead m es k = liveValue dead e.value := by
  simp [overlay, h]

lemma overlay_of_none (h : es.get k = none) : overlay dead m es k = m k := by
  simp [overlay, h]

theorem filter_read (h : Valid dead store layers) (k : κ) :
    (read store layers k).filter (fun v => !dead v) = contents dead store layers k := by
  induction layers with
  | nil =>
    show (store k).filter (fun v => !dead v) = store k
    cases hk : store k with
    | none => rfl
    | some v => simp [h k v hk]
  | cons es below ih =>
    show ((Cache.mk (read store below) es).get k).filter _ = overlay dead _ es k
    cases he : es.get k with
    | none =>
      rw [overlay_of_none he, Cache.get, he]
      exact ih h.2
    | some e =>
      rw [overlay_of_some he, Cache.get, he]
      rfl

lemma Agrees.modify (h : Agrees dead m es)
    (hk : ∀ e, r = some e → EntryAgrees dead (m k) e) : Agrees dead m (es.modify k fun _ => r) := by
  intro j e he
  by_cases hjk : j = k
  · subst hjk
    rw [es.get_modify_self] at he
    exact hk e he
  · rw [es.get_modify_of_ne hjk] at he
    exact h j e he

lemma overlay_modify (r : Option (Entry β)) :
    overlay dead m (es.modify k fun _ => r) =
      update (overlay dead m es) k (r.elim (m k) fun e => liveValue dead e.value) := by
  ext1 j
  by_cases hjk : j = k
  · subst hjk
    rw [update_self]
    cases r with
    | none => exact overlay_of_none (es.get_modify_self j _)
    | some e => exact overlay_of_some (es.get_modify_self j _)
  · rw [update_of_ne hjk, overlay, overlay, es.get_modify_of_ne hjk]

lemma overlay_modify_same
    (h : (r.elim (m k) fun e => liveValue dead e.value) = overlay dead m es k) :
    overlay dead m (es.modify k fun _ => r) = overlay dead m es := by
  rw [overlay_modify, h, update_eq_self]

theorem Valid.fetch (h : Valid dead store layers) (k : κ) :
    Valid dead store (fetch dead store k layers) ∧
      contents dead store (fetch dead store k layers) = contents dead store layers := by
  induction layers with
  | nil => exact ⟨h, rfl⟩
  | cons es below ih =>
    obtain ⟨hvalid, hsame⟩ := ih h.2
    rw [CacheStack.fetch]
    split_ifs with hk
    · exact ⟨h, rfl⟩
    have hnone : es.get k = none := by simpa using hk
    have hread := filter_read h.2 k
    cases hbase : read store below k with
    | none =>
      have hfetch : ((topCache store es below).fetch dead k).entries = es := by
        simp [Cache.fetch, topCache, hnone, hbase]
      rw [hfetch]
      refine ⟨⟨by rw [hsame]; exact h.1, hvalid⟩, ?_⟩
      rw [contents, contents, hsame]
    | some v =>
      have hfetch : ((topCache store es below).fetch dead k).entries =
          es.modify k fun _ => some ⟨v, false, dead v⟩ := by
        simp [Cache.fetch, topCache, hnone, hbase, Cache.setEntry]
      have hlive : contents dead store below k = liveValue dead v := by
        rw [← hread, hbase, liveValue]
      rw [hfetch]
      refine ⟨⟨?_, hvalid⟩, ?_⟩
      · rw [hsame]
        refine h.1.modify ?_
        rintro e ⟨⟩
        exact ⟨fun _ => hlive, fun hdead => hlive.trans (liveValue_of_dead hdead)⟩
      · rw [contents, contents, hsame]
        refine overlay_modify_same ?_
        rw [overlay_of_none hnone, hlive]
        rfl

lemma length_fetch (k : κ) (layers : List (Entries κ β)) :
    (fetch dead store k layers).length = layers.length := by
  induction layers with
  | nil => rfl
  | cons es below ih =>
    rw [fetch]
    split_ifs
    · rfl
    · rw [length_cons, length_cons, ih]

lemma fetch_cons (dead : β → Bool) (store : κ → Option β) (k : κ) (es : Entries κ β)
    (below : List (Entries κ β)) : fetch dead store k (es :: below) =
      ((topCache store es below).fetch dead k).entries ::
        (fetch dead store k (es :: below)).tail := by
  rw [fetch]
  split_ifs with hk
  · obtain ⟨e, he⟩ := isSome_iff_exists.mp hk
    have hfetch : (topCache store es below).fetch dead k = topCache store es below := by
      simp [Cache.fetch, topCache, he]
    rw [hfetch]
    rfl
  · rfl

section

variable (h : Valid dead store (es :: below))
include h

lemma contents_of_fetch_none
    (hnone : ((topCache store es below).fetch dead k).entries.get k = none) :
    contents dead store (es :: below) k = none := by
  have hget : (topCache store es below).get k = none := Cache.get_eq_none_of_fetch hnone
  rw [← filter_read h]
  show ((topCache store es below).get k).filter _ = none
  rw [hget]
  rfl

/-- A write that is not said to overwrite has to be for a key without a live value. -/
theorem Valid.put {overwrite : Bool}
    (hnew : overwrite = false → contents dead store (es :: below) k = none)
    (hlive : dead v = false) :
    Valid dead store (((topCache store es below).put k v overwrite).entries :: below) ∧
      contents dead store (((topCache store es below).put k v overwrite).entries :: below) =
        update (contents dead store (es :: below)) k (some v) := by
  obtain ⟨r, hput, hdirty, hvalue, hfresh⟩ : ∃ r : Entry β,
      ((topCache store es below).put k v overwrite).entries = es.modify k (fun _ => some r) ∧
      r.dirty = true ∧ r.value = v ∧
      (r.fresh = true → (∃ e, es.get k = some e ∧ e.fresh = true) ∨
        overwrite = false ∧ ∀ e, es.get k = some e → e.dirty = false) := by
    unfold Cache.put topCache
    cases he : es.get k with
    | none =>
      exact ⟨⟨v, true, !overwrite⟩, rfl, rfl, rfl, fun hf => .inr ⟨by simpa using hf, by simp⟩⟩
    | some e =>
      refine ⟨⟨v, true, e.fresh || !overwrite && !e.dirty⟩, rfl, rfl, rfl, fun hf => ?_⟩
      simp only [Bool.or_eq_true, Bool.and_eq_true, Bool.not_eq_true'] at hf
      rcases hf with hf | hf
      · exact .inl ⟨e, rfl, hf⟩
      · refine .inr ⟨hf.1, ?_⟩
        rintro _ ⟨⟩
        exact hf.2
  rw [hput]
  refine ⟨⟨h.1.modify ?_, h.2⟩, ?_⟩
  · rintro _ ⟨⟩
    refine .of_dirty hdirty fun hf => ?_
    rcases hfresh hf with ⟨e, he, hef⟩ | ⟨hover, hclean⟩
    · exact (h.1 k e he).fresh hef
    have hnone := hnew hover
    cases he : es.get k with
    | none => rwa [contents, overlay_of_none he] at hnone
    | some e =>
      rw [contents, overlay_of_some he] at hnone
      rw [(h.1 k e he).clean (hclean e he), hnone]
  · rw [contents, overlay_modify, contents, elim_some, hvalue, liveValue_of_live hlive]

theorem Valid.remove {nil : β} (hnil : dead nil = true)
    (hfound : es.get k = none → contents dead store (es :: below) k = none) :
    Valid dead store (((topCache store es below).remove nil k).entries :: below) ∧
      contents dead store (((topCache store es below).remove nil k).entries :: below) =
        update (contents dead store (es :: below)) k none := by
  unfold Cache.remove topCache
  cases he : es.get k with
  | none => exact ⟨h, by rw [← hfound he, update_eq_self]⟩
  | some e =>
    dsimp only
    split_ifs with hfresh
    · refine ⟨⟨h.1.modify (by simp), h.2⟩, ?_⟩
      rw [Cache.setEntry, contents, overlay_modify, contents, elim_none,
        (h.1 k e he).fresh hfresh]
    refine ⟨⟨h.1.modify ?_, h.2⟩, ?_⟩
    · rintro _ ⟨⟩
      refine .of_dirty rfl fun hf => ?_
      cases hf
    · rw [Cache.setEntry, contents, overlay_modify, contents, elim_some,
        liveValue_of_dead hnil]

theorem Valid.uncache (k : κ) :
    Valid dead store (((topCache store es below).uncache k).entries :: below) ∧
      contents dead store (((topCache store es below).uncache k).entries :: below) =
        contents dead store (es :: below) := by
  unfold Cache.uncache topCache
  cases he : es.get k with
  | none => exact ⟨h, rfl⟩
  | some e =>
    dsimp only
    split_ifs with hclean
    · simp only [Bool.and_eq_true, Bool.not_eq_true'] at hclean
      refine ⟨⟨h.1.modify (by simp), h.2⟩, overlay_modify_same ?_⟩
      rw [overlay_of_some he]
      exact (h.1 k e he).clean hclean.1
    · exact ⟨h, rfl⟩

end

@[simp] lemma get_dropDirty (es : Entries κ β) (k : κ) :
    (dropDirty es).get k = (es.get k).filter fun e => !e.dirty := rfl

/-- What one entry over another becomes when it is written back: the new lower entry agrees
with what is below and shows what was seen, and a clean entry stays. -/
lemma flushEntry_spec {below : Option β} {us it : Option (Entry β)}
    (hus : ∀ u, us = some u → EntryAgrees dead below u) (hit : ∀ e, it = some e →
      EntryAgrees dead (us.elim below fun u => liveValue dead u.value) e) :
    ∃ r, Cache.flushEntry dead us it = .ok r ∧ (∀ u, r = some u → EntryAgrees dead below u) ∧
      (r.elim below fun u => liveValue dead u.value) =
        it.elim (us.elim below fun u => liveValue dead u.value)
          fun e => liveValue dead e.value := by
  unfold Cache.flushEntry
  cases it with
  | none => exact ⟨us, rfl, hus, rfl⟩
  | some e =>
    have he := hit e rfl
    dsimp only
    by_cases hdirty : e.dirty = true
    · rw [if_neg (by simp [hdirty])]
      cases us with
      | none =>
        split_ifs with hdrop
        · obtain ⟨hfresh, hdead⟩ := Bool.and_eq_true_iff.mp hdrop
          refine ⟨none, rfl, by simp, ?_⟩
          rw [elim_some, liveValue_of_dead hdead]
          exact he.fresh hfresh
        · refine ⟨_, rfl, ?_, rfl⟩
          rintro _ ⟨⟩
          exact .of_dirty rfl he.fresh
      | some u =>
        have hmis : ¬ ((e.fresh && !dead u.value) = true) := by
          intro hmis
          simp only [Bool.and_eq_true, Bool.not_eq_true'] at hmis
          have hnone := he.fresh hmis.1
          rw [elim_some, liveValue_of_live hmis.2] at hnone
          cases hnone
        dsimp only
        split_ifs with hdrop
        · obtain ⟨hfresh, hdead⟩ := Bool.and_eq_true_iff.mp hdrop
          refine ⟨none, rfl, by simp, ?_⟩
          rw [elim_some, liveValue_of_dead hdead]
          exact (hus u rfl).fresh hfresh
        · refine ⟨_, rfl, ?_, rfl⟩
          rintro _ ⟨⟩
          exact .of_dirty rfl (hus u rfl).fresh
    · rw [if_pos (by simpa using hdirty)]
      refine ⟨us, rfl, hus, ?_⟩
      exact he.clean (by simpa using hdirty)

lemma exists_batchWrite {child parent : Cache κ β}
    (h : ∀ k, ∃ r, Cache.flushEntry dead (parent.entries.get k) (child.entries.get k) = .ok r) :
    ∃ parent', Cache.batchWrite dead child parent = .ok parent' := by
  have hrun : ∀ (l : List κ) (p : Cache κ β), l.Nodup →
      (∀ k ∈ l, p.entries.get k = parent.entries.get k) →
      ∃ parent', l.foldlM (Cache.batchWriteStep dead child) p = .ok parent' := by
    intro l
    induction l with
    | nil => exact fun p _ _ => ⟨p, rfl⟩
    | cons a l ih =>
      intro p hnodup hsame
      obtain ⟨ha, hl⟩ := nodup_cons.mp hnodup
      obtain ⟨r, hr⟩ := h a
      rw [← hsame a (mem_cons_self ..)] at hr
      obtain ⟨parent', hparent⟩ := ih (p.setEntry a r) hl fun k hk => by
        rw [Cache.get_entries_setEntry_of_ne p k a r (ne_of_mem_of_not_mem hk ha)]
        exact hsame k (mem_cons_of_mem _ hk)
      exact ⟨parent', foldlM_cons_eq_ok.mpr ⟨_, bind_eq_ok.mpr ⟨r, hr, rfl⟩, hparent⟩⟩
  exact hrun _ parent child.entries.nodup fun _ _ => rfl

lemma overlay_eq_elim (m : κ → Option β) (es : Entries κ β) (k : κ) :
    overlay dead m es k = (es.get k).elim (m k) fun e => liveValue dead e.value := by
  cases he : es.get k with
  | none => exact overlay_of_none he
  | some e => exact overlay_of_some he

lemma overlay_of_clean (h : Agrees dead m es)
    (hclean : ∀ k e, es.get k = some e → e.dirty = false) :
    overlay dead m es = m := by
  ext1 k
  cases he : es.get k with
  | none => exact overlay_of_none he
  | some e => rw [overlay_of_some he, (h k e he).clean (hclean k e he)]

/-- The clean entries that are left agree with what was seen before. -/
lemma agrees_dropDirty (h : Agrees dead m es) : Agrees dead (overlay dead m es) (dropDirty es) := by
  intro k e he
  rw [get_dropDirty, filter_eq_some_iff] at he
  obtain ⟨he, hclean⟩ := he
  rw [overlay_of_some he]
  refine ⟨fun _ => rfl, fun hfresh => ?_⟩
  rw [← (h k e he).clean (by simpa using hclean), (h k e he).fresh hfresh]

/-- Writing a cache back to the one below it: that one now shows what was seen. -/
lemma Valid.batchWrite {us : Entries κ β} (h : Valid dead store (es :: us :: below)) :
    ∃ c, Cache.batchWrite dead (topCache store es (us :: below)) (topCache store us below) = .ok c ∧
      Valid dead store (dropDirty es :: c.entries :: below) ∧
      contents dead store (c.entries :: below) = contents dead store (es :: us :: below) ∧
      contents dead store (dropDirty es :: c.entries :: below) =
        contents dead store (es :: us :: below) := by
  have hflush : ∀ k, ∃ r, Cache.flushEntry dead (us.get k) (es.get k) = .ok r ∧
      (∀ u, r = some u → EntryAgrees dead (contents dead store below k) u) ∧
      (r.elim (contents dead store below k) fun u => liveValue dead u.value) =
        contents dead store (es :: us :: below) k := by
    intro k
    obtain ⟨r, hr, hagrees, hshown⟩ := flushEntry_spec (h.2.1 k) (by
      rw [← overlay_eq_elim]
      exact h.1 k)
    exact ⟨r, hr, hagrees, by rw [hshown, ← overlay_eq_elim, ← overlay_eq_elim]; rfl⟩
  have hwrite : ∃ c, Cache.batchWrite dead (topCache store es (us :: below))
      (topCache store us below) = .ok c :=
    exists_batchWrite fun k => (hflush k).imp fun r hr => hr.1
  obtain ⟨c, hc⟩ := hwrite
  have hentries : ∀ k, (∀ u, c.entries.get k = some u →
        EntryAgrees dead (contents dead store below k) u) ∧
      overlay dead (contents dead store below) c.entries k =
        contents dead store (es :: us :: below) k := by
    intro k
    obtain ⟨r, hr, hagrees, hshown⟩ := hflush k
    obtain rfl : r = c.entries.get k := Except.ok.inj (hr.symm.trans ((Cache.batchWrite_eq hc).2 k))
    exact ⟨hagrees, by rw [overlay_eq_elim, hshown]⟩
  have hshown : contents dead store (c.entries :: below) =
      contents dead store (es :: us :: below) :=
    funext fun k => (hentries k).2
  have hdropped : Agrees dead (contents dead store (c.entries :: below)) (dropDirty es) := by
    rw [hshown]
    exact agrees_dropDirty h.1
  refine ⟨c, hc, ⟨hdropped, fun k => (hentries k).1, h.2.2⟩, hshown, ?_⟩
  rw [contents, overlay_of_clean hdropped ?_, hshown]
  intro k e he
  rw [get_dropDirty, filter_eq_some_iff] at he
  simpa using he.2

lemma Valid.storeEntry (h : Valid dead c.base [c.entries]) (keep : Bool) (k : κ) :
    Valid dead (c.store dead keep k).base [(c.store dead keep k).entries] ∧
      contents dead (c.store dead keep k).base [(c.store dead keep k).entries] =
        contents dead c.base [c.entries] := by
  obtain heq | ⟨e, he, v, r, heq, hcase⟩ := Cache.store_cases dead keep c k
  · rw [heq]
    exact ⟨h, rfl⟩
  · have hv : v = liveValue dead e.value := by
      rcases hcase with ⟨rfl, hdead, -⟩ | ⟨rfl, hlive, -⟩
      · rw [liveValue_of_dead hdead]
      · rw [liveValue_of_live hlive]
    have hr : ∀ u, r = some u → u = ⟨e.value, false, false⟩ := by
      rintro u rfl
      rcases hcase with ⟨-, -, hr⟩ | ⟨-, -, hr | hr⟩
      · cases hr
      · cases hr
      · exact Option.some.inj hr
    rw [heq]
    refine ⟨⟨fun j u hu => ?_, fun j u hu => ?_⟩, ?_⟩
    · show EntryAgrees dead (update c.base k v j) u
      by_cases hjk : j = k
      · subst hjk
        rw [Cache.get_entries_setEntry_self] at hu
        rw [hr u hu, update_self]
        exact ⟨fun _ => hv, nofun⟩
      · rw [Cache.get_entries_setEntry_of_ne c j k r hjk] at hu
        rw [update_of_ne hjk]
        exact h.1 j u hu
    · dsimp only at hu
      by_cases hjk : j = k
      · subst hjk
        rw [update_self, hv, liveValue, filter_eq_some_iff] at hu
        simpa using hu.2
      · rw [update_of_ne hjk] at hu
        exact h.2 j u hu
    · ext1 j
      show overlay dead (update c.base k v) (c.entries.modify k fun _ => r) j =
        overlay dead c.base c.entries j
      by_cases hjk : j = k
      · subst hjk
        rw [overlay_of_some he, overlay_eq_elim, c.entries.get_modify_self, update_self,
          hv]
        cases r with
        | none => rfl
        | some u => rw [hr u rfl, elim_some]
      · rw [overlay_eq_elim, overlay_eq_elim, c.entries.get_modify_of_ne hjk,
          update_of_ne hjk]

lemma store_clean (c : Cache κ β) (keep : Bool) {j k : κ}
    (h : j = k ∨ ∀ e, c.entries.get j = some e → e.dirty = false) :
    ∀ e, (c.store dead keep k).entries.get j = some e → e.dirty = false := by
  intro e he
  by_cases hjk : j = k
  · subst hjk
    unfold Cache.store at he
    split at he
    case h_1 hnone =>
      rw [hnone] at he
      cases he
    case h_2 u hu =>
      split_ifs at he with hclean hdead hkeep
      · rw [hu] at he
        cases he
        simpa using hclean
      · simp at he
      · simp only [Cache.get_entries_setEntry_self, Option.some.injEq] at he
        rw [← he]
      · simp at he
  · obtain heq | ⟨u, -, v, r, heq, -⟩ := Cache.store_cases dead keep c k
    · rw [heq] at he
      exact h.resolve_left hjk e he
    · rw [heq, Cache.get_entries_setEntry_of_ne c j k r hjk] at he
      exact h.resolve_left hjk e he

/-- Writing all entries to the store: the store is what was seen. -/
lemma Valid.storeAll (h : Valid dead c.base [c.entries]) (keep : κ → Bool) :
    Valid dead (storeAll dead keep c).base [(storeAll dead keep c).entries] ∧
      contents dead (storeAll dead keep c).base [(storeAll dead keep c).entries] =
        contents dead c.base [c.entries] ∧
      (storeAll dead keep c).base = contents dead c.base [c.entries] := by
  have hrun : ∀ (l : List κ) (c : Cache κ β), Valid dead c.base [c.entries] →
      Valid dead (l.foldl (fun c k => c.store dead (keep k) k) c).base
          [(l.foldl (fun c k => c.store dead (keep k) k) c).entries] ∧
        contents dead (l.foldl (fun c k => c.store dead (keep k) k) c).base
            [(l.foldl (fun c k => c.store dead (keep k) k) c).entries] =
          contents dead c.base [c.entries] ∧
        ∀ j, (j ∈ l ∨ ∀ e, c.entries.get j = some e → e.dirty = false) →
          ∀ e, (l.foldl (fun c k => c.store dead (keep k) k) c).entries.get j = some e →
            e.dirty = false := by
    intro l
    induction l with
    | nil => exact fun c hc => ⟨hc, rfl, fun j hj => hj.resolve_left (by simp)⟩
    | cons k l ih =>
      intro c hc
      obtain ⟨hvalid, hsame⟩ := hc.storeEntry (keep k) k
      obtain ⟨hvalid', hsame', hclean⟩ := ih _ hvalid
      refine ⟨hvalid', hsame'.trans hsame, fun j hj => hclean j ?_⟩
      rcases hj with hj | hj
      · rcases mem_cons.mp hj with rfl | hj
        · exact .inr (store_clean c (keep j) (.inl rfl))
        · exact .inl hj
      · exact .inr (store_clean c (keep k) (.inr hj))
  obtain ⟨hvalid, hsame, hclean⟩ := hrun c.entries.keys c h
  refine ⟨hvalid, hsame, ?_⟩
  rw [← hsame]
  refine (overlay_of_clean hvalid.1 fun j => hclean j ?_).symm
  by_cases hj : j ∈ c.entries.keys
  · exact .inl hj
  · right
    rw [c.entries.get_of_notMem j hj]
    nofun

/-- Writing the top cache down keeps the contents, and what is below now has them. -/
theorem Valid.flush (h : Valid dead store layers) (keep : κ → Bool) :
    ∃ layers' store', flush dead keep store layers = .ok (layers', store') ∧
      layers'.length = layers.length ∧ Valid dead store' layers' ∧
      contents dead store' layers' = contents dead store layers ∧
      contents dead store' layers'.tail = contents dead store layers := by
  match layers, h with
  | [], h => exact ⟨[], store, rfl, rfl, h, rfl, rfl⟩
  | [es], h =>
    obtain ⟨hvalid, hsame, hstore⟩ :=
      Valid.storeAll (c := ⟨store, es⟩) (show Valid dead store [es] from h) keep
    exact ⟨_, _, rfl, rfl, hvalid, hsame, hstore⟩
  | es :: us :: below, h =>
    obtain ⟨c, hc, hvalid, hshown, hsame⟩ := h.batchWrite
    exact ⟨_, _, bind_eq_ok.mpr ⟨c, hc, rfl⟩, rfl, hvalid, hsame, hshown⟩

/-- No cache of the list has an entry for the key. -/
def Exposed (above : List (Entries κ β)) (k : κ) : Prop := ∀ es ∈ above, es.get k = none

lemma contents_of_exposed (h : Exposed above k) :
    contents dead store (above ++ rest) k = contents dead store rest k := by
  induction above with
  | nil => rfl
  | cons es above ih =>
    rw [cons_append, contents, overlay_of_none (h es (mem_cons_self ..))]
    exact ih fun es' hes' => h es' (mem_cons_of_mem _ hes')

lemma contents_append_congr (above : List (Entries κ β))
    (h : contents dead store' rest' k = contents dead store rest k) :
    contents dead store' (above ++ rest') k = contents dead store (above ++ rest) k := by
  induction above with
  | nil => exact h
  | cons es above ih =>
    rw [cons_append, cons_append, contents, contents, overlay_eq_elim, overlay_eq_elim,
      ih]

/-- Replaces what is below some caches. What they have entries for must not change. -/
theorem Valid.splice (h : Valid dead store (above ++ rest)) (h' : Valid dead store' rest')
    (hsame : ∀ k, ¬ Exposed above k → contents dead store' rest' k = contents dead store rest k) :
    Valid dead store' (above ++ rest') := by
  induction above with
  | nil => exact h'
  | cons es above ih =>
    refine ⟨fun k e he => ?_, ih h.2 fun k hk => hsame k fun hex => hk fun es' hes' =>
      hex es' (mem_cons_of_mem _ hes')⟩
    have hshadowed : ¬ Exposed (es :: above) k := by
      intro hex
      rw [hex es (mem_cons_self ..)] at he
      cases he
    have hcontents : contents dead store' (above ++ rest') k =
        contents dead store (above ++ rest) k :=
      contents_append_congr above (hsame k hshadowed)
    exact hcontents ▸ h.1 k e he

/-- Replaces what is below some caches by something that stands for the same map. -/
theorem Valid.splice_same (h : Valid dead store (above ++ rest)) (h' : Valid dead store' rest')
    (hsame : contents dead store' rest' = contents dead store rest) :
    Valid dead store' (above ++ rest') ∧
      contents dead store' (above ++ rest') = contents dead store (above ++ rest) :=
  ⟨h.splice h' fun k _ => congrFun hsame k,
    funext fun k => contents_append_congr above (congrFun hsame k)⟩

/-- Changes the value of a key that no cache above has an entry for. -/
theorem Valid.splice_update {r : Option β} (h : Valid dead store (above ++ rest))
    (h' : Valid dead store' rest') (hexposed : Exposed above k)
    (hupdate : contents dead store' rest' = update (contents dead store rest) k r) :
    Valid dead store' (above ++ rest') ∧ contents dead store' (above ++ rest') =
      update (contents dead store (above ++ rest)) k r := by
  have hother : ∀ j, j ≠ k → contents dead store' rest' j = contents dead store rest j := by
    intro j hj
    rw [hupdate, update_of_ne hj]
  refine ⟨h.splice h' fun j hj => hother j (by rintro rfl; exact hj hexposed), ?_⟩
  ext1 j
  by_cases hjk : j = k
  · subst hjk
    rw [contents_of_exposed hexposed, hupdate, update_self, update_self]
  · rw [update_of_ne hjk]
    exact contents_append_congr above (hother j hjk)

end Lemmas

end PyrrhaNode.CacheStack
