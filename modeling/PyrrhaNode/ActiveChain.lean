import PyrrhaNode.BlockTree

/-!
# The vector of the active chain

`SetTip` resizes the vector and overwrites it from the new tip downwards, as far as the first
entry that is there already. What is below such an entry is its ancestry, since the vector was
the ancestry of the last tip.
-/
namespace PyrrhaNode.ActiveChain
open List BlockTree

variable {α : Type*} [DecidableEq α]

/-- Blocks are nodes of the tree; `[]` is the null pointer. -/
structure CChain (α : Type*) where
  vChain : List (List α)
  tip : List α

/-- The loop of `SetTip`: the height of `b :: p` is the length of `p`. -/
def overwrite (vChain : List (List α)) : List α → List (List α)
  | [] => vChain
  | b :: p =>
    if vChain.getD p.length [] = b :: p then vChain
    else overwrite (vChain.set p.length (b :: p)) p

def resize (vChain : List (List α)) (n : ℕ) : List (List α) :=
  vChain.take n ++ replicate (n - vChain.length) []

def CChain.setTip (c : CChain α) (pindex : List α) : CChain α :=
  if pindex = [] then ⟨[], []⟩ else ⟨overwrite (resize c.vChain pindex.length) pindex, pindex⟩

def CChain.contains (c : CChain α) (pindex : List α) : Bool :=
  c.vChain.getD (pindex.length - 1) [] = pindex

def ancestor (p : List α) (h : ℕ) : List α := p.drop (p.length - (h + 1))

/-- The entry at each height is the ancestor of the tip at this height. -/
def CChain.Exact (c : CChain α) : Prop :=
  ∀ h, c.vChain[h]? = if h < c.tip.length then some (ancestor c.tip h) else none

variable {p q : List α} {v : List (List α)} {h : ℕ}

omit [DecidableEq α] in
lemma ancestor_eq_iff (hh : h < p.length) : ancestor p h = q ↔ q <:+ p ∧ q.length = h + 1 := by
  have hlen : (ancestor p h).length = h + 1 := by
    rw [ancestor, length_drop]
    omega
  constructor
  · rintro rfl
    exact ⟨drop_suffix _ _, hlen⟩
  · rintro ⟨hq, hlength⟩
    have hsuffix := suffix_of_suffix_length_le (drop_suffix _ p) hq (hlen.trans hlength.symm).le
    exact hsuffix.eq_of_length (hlen.trans hlength.symm)

omit [DecidableEq α] in
lemma ancestor_congr (hq : q <:+ p) (hh : h < q.length) : ancestor p h = ancestor q h := by
  obtain ⟨hsuffix, hlen⟩ := (ancestor_eq_iff hh).mp rfl
  exact (ancestor_eq_iff (hh.trans_le hq.length_le)).mpr ⟨hsuffix.trans hq, hlen⟩

lemma getElem?_overwrite (hlen : p.length ≤ v.length)
    (hv : ∀ h < p.length, ∀ q ≠ [], v[h]? = some q → ∀ k ≤ h, v[k]? = some (ancestor q k)) (k : ℕ) :
    (overwrite v p)[k]? = if k < p.length then some (ancestor p k) else v[k]? := by
  induction p generalizing v with
  | nil => rfl
  | cons b p ih =>
    have hp : p.length < v.length := hlen
    rw [overwrite, length_cons]
    by_cases hfound : v.getD p.length [] = b :: p
    · rw [if_pos hfound]
      rw [getD_eq_getElem?_getD, getElem?_eq_getElem hp, Option.getD_some] at hfound
      split_ifs with hk
      · exact hv p.length (by simp) _ (cons_ne_nil b p) (hfound ▸ getElem?_eq_getElem hp) k
          (Nat.le_of_lt_succ hk)
      · rfl
    · -- the entries below the one that is overwritten are those of the old vector
      have hlow : ∀ k < p.length, (v.set p.length (b :: p))[k]? = v[k]? :=
        fun k hk => getElem?_set_ne hk.ne'
      rw [if_neg hfound, ih (by rw [length_set]; exact hp.le)]
      · rcases lt_trichotomy k p.length with hk | rfl | hk
        · rw [if_pos hk, if_pos (by omega), ancestor_congr (suffix_cons b p) hk]
        · rw [if_neg (by omega), if_pos (by omega), getElem?_set_self hp,
            (ancestor_eq_iff (by simp)).mpr ⟨suffix_rfl, rfl⟩]
        · rw [if_neg (by omega), if_neg (by omega), getElem?_set_ne hk.ne]
      · intro h hh q hq hsome k hk
        rw [hlow h hh] at hsome
        rw [hlow k (by omega)]
        exact hv h (Nat.lt_succ_of_lt hh) q hq hsome k hk

omit [DecidableEq α] in
lemma getElem?_resize {n : ℕ} (hh : h < n) :
    (resize v n)[h]? = if h < v.length then v[h]? else some [] := by
  rw [resize, getElem?_append, length_take, getElem?_take_of_lt hh, getElem?_replicate]
  split_ifs <;> first | rfl | omega

lemma exact_setTip {c : CChain α} (hc : c.Exact) (pindex : List α) : (c.setTip pindex).Exact := by
  rw [CChain.setTip]
  split_ifs with hnull
  · exact fun h => rfl
  have hlen : (resize c.vChain pindex.length).length = pindex.length := by
    rw [resize, length_append, length_take, length_replicate]
    omega
  intro k
  dsimp only
  rw [getElem?_overwrite hlen.ge]
  · split_ifs with hk
    · rfl
    · exact getElem?_eq_none (by omega)
  · intro h hh q hq hsome k hk
    rw [getElem?_resize hh] at hsome
    split_ifs at hsome with hold
    · rw [hc] at hsome
      split_ifs at hsome with htip
      obtain ⟨hsuffix, hlength⟩ := (ancestor_eq_iff htip).mp (Option.some.inj hsome)
      rw [getElem?_resize (by omega), if_pos (by omega), hc, if_pos (by omega),
        ancestor_congr hsuffix (by omega)]
    · exact absurd (Option.some.inj hsome).symm hq

/-- After any calls of `SetTip`. -/
theorem chain_of_setTips (tips : List (List α)) (h : ℕ) (q : List α) :
    let c : CChain α := tips.foldl CChain.setTip ⟨[], []⟩
    c.tip = tips.getLastD [] ∧ c.vChain.length = c.tip.length ∧
      (c.vChain[h]? = some q ↔ q <:+ c.tip ∧ q.length = h + 1) ∧
      (q ≠ [] → (c.contains q = true ↔ q <:+ c.tip)) := by
  intro c
  have hexact : c.Exact :=
    foldlRecOn tips CChain.setTip (fun h => rfl) fun c hc p _ => exact_setTip hc p
  have htip : c.tip = tips.getLastD [] := by
    rcases eq_nil_or_concat tips with hnil | ⟨l, p, hl⟩
    · rw [show c = ⟨[], []⟩ by simp [c, hnil], hnil]
      rfl
    · simp only [c, hl, foldl_concat, CChain.setTip, concat_eq_append, getLastD_concat]
      split_ifs with hp
      · exact hp.symm
      · rfl
  have hentry : ∀ h q, c.vChain[h]? = some q ↔ q <:+ c.tip ∧ q.length = h + 1 := by
    intro h q
    rw [hexact]
    split_ifs with hh
    · rw [Option.some_inj, ancestor_eq_iff hh]
    · refine iff_of_false (by simp) ?_
      rintro ⟨hq, hlen⟩
      have := hq.length_le
      omega
  refine ⟨htip, ?_, hentry h q, ?_⟩
  · refine le_antisymm ?_ (le_of_not_gt fun hlt => ?_)
    · exact getElem?_eq_none_iff.mp (by rw [hexact, if_neg (lt_irrefl _)])
    · have hnone : c.vChain[c.vChain.length]? = none := getElem?_eq_none le_rfl
      rw [hexact, if_pos hlt] at hnone
      cases hnone
  · intro hq
    have hpos := length_pos_iff.mpr hq
    rw [CChain.contains, decide_eq_true_iff, getD_eq_getElem?_getD]
    constructor
    · intro hget
      cases hsome : c.vChain[q.length - 1]? with
      | none => exact absurd (hsome ▸ hget).symm hq
      | some r =>
        rw [hsome, Option.getD_some] at hget
        exact ((hentry _ q).mp (hget ▸ hsome)).1
    · intro hsuffix
      rw [(hentry _ q).mpr ⟨hsuffix, by omega⟩, Option.getD_some]

end PyrrhaNode.ActiveChain
