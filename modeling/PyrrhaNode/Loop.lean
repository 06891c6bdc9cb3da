import Mathlib.Data.List.Basic
import Mathlib.Tactic

/-!
# Loops that can fail

A loop over a list that stops at the first error is a monadic fold into `Except`.
A completed loop satisfies every invariant that holds at its start and that each
completed iteration carries from the elements done so far to one element more.
-/
namespace PyrrhaNode.Loop

/-- How a call can end other than by returning: an exception or a failed `assert` with its text, or
an operation whose effect is undefined. -/
inductive Failure where
  | runtimeError (what : String)
  | assertion (what : String)
  | signedOverflow
  | divisionByZero
  | nullPointer
  | outOfBounds
  deriving DecidableEq, Repr

variable {ε σ α β : Type} {step : σ → α → Except ε σ} {l : List α} {x : Except ε α} {a : α}
  {s s' : σ}

theorem exists_eq_ok : x.isOk = true ↔ ∃ a, x = .ok a := by
  cases x with
  | error | ok => simp [Except.toBool]

theorem bind_eq_ok {f : α → Except ε β} {b : β} :
    (x >>= f) = .ok b ↔ ∃ a, x = .ok a ∧ f a = .ok b := by
  cases x with
  | error | ok => simp [Bind.bind, Except.bind]

theorem ite_throw_eq_ok {p : Prop} [Decidable p] {e : ε} :
    (if p then throw e else x) = .ok a ↔ ¬ p ∧ x = .ok a := by
  by_cases hp : p
  · simp [hp]
  · simp [hp]

theorem foldlM_cons_eq_ok :
    (a :: l).foldlM step s = .ok s' ↔ ∃ t, step s a = .ok t ∧ l.foldlM step t = .ok s' := by
  rw [List.foldlM_cons, bind_eq_ok]

theorem foldlM_append_eq_ok {l' : List α} :
    (l ++ l').foldlM step s = .ok s' ↔
      ∃ t, l.foldlM step s = .ok t ∧ l'.foldlM step t = .ok s' := by
  rw [List.foldlM_append, bind_eq_ok]

/-- The invariant rule for loops: `inv done t` speaks about the elements done so far, and each
iteration is known to start in a state that the loop reaches. -/
theorem foldlM_reaches (inv : List α → σ → Prop) (hinit : inv [] s)
    (hstep : ∀ done a rest t t', l = done ++ a :: rest → done.foldlM step s = .ok t → inv done t →
      step t a = .ok t' → inv (done ++ [a]) t') (done rest : List α) (t : σ) (hl : l = done ++ rest)
    (ht : done.foldlM step s = .ok t) :
    inv done t := by
  induction done using List.reverseRecOn generalizing rest t with
  | nil =>
    cases ht
    exact hinit
  | append_singleton done a ih =>
    obtain ⟨r, hr, ha⟩ := foldlM_append_eq_ok.mp ht
    obtain ⟨t', ha, hlast⟩ := foldlM_cons_eq_ok.mp ha
    cases hlast
    have hsplit : l = done ++ a :: rest := by simpa using hl
    exact hstep done a rest r t hsplit hr (ih (a :: rest) r hsplit hr) ha

theorem foldlM_invariant (inv : List α → σ → Prop)
    (hstep : ∀ done a t t', a ∈ l → inv done t → step t a = .ok t' → inv (done ++ [a]) t')
    (hrun : l.foldlM step s = .ok s') (hinit : inv [] s) : inv l s' := by
  refine foldlM_reaches inv hinit ?_ l [] s' (List.append_nil l).symm hrun
  exact fun done a rest t t' hl _ => hstep done a t t' (by simp [hl])

theorem forM_eq_ok {f : α → Except ε PUnit} :
    l.forM f = .ok () ↔ ∀ a ∈ l, f a = .ok () := by
  induction l with
  | nil => simp [pure, Except.pure]
  | cons a l ih =>
    rw [List.forM, bind_eq_ok]
    constructor
    · rintro ⟨u, ha, hl⟩ b hb
      rcases List.mem_cons.mp hb with rfl | hb
      · exact ha
      · exact ih.mp hl b hb
    · intro h
      exact ⟨(), h a (by simp), ih.mpr fun b hb => h b (by simp [hb])⟩

end PyrrhaNode.Loop
