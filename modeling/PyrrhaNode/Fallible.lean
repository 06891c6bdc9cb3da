import Mathlib.Tactic

/-!
# Computations that change a state and can fail

The state of a computation stays as it was when it fails.  The weakest precondition of a computation
says what has to hold before it so that a property holds if it returns and another one if it fails.
The rules below are equivalences: rewriting with them executes a computation symbolically.
-/
namespace PyrrhaNode.Fallible

variable {ε σ α β : Type}

abbrev FallibleM (ε σ : Type) := ExceptT ε (StateM σ)

/-- How a computation ends: its result or its error, and the state. -/
def outcome (x : FallibleM ε σ α) (s : σ) : Except ε α × σ := x.run.run s

/-- The computation ends in `Q` or fails in `E`. -/
def wp (x : FallibleM ε σ α) (Q : α → σ → Prop) (E : ε → σ → Prop) (s : σ) : Prop :=
  match outcome x s with
  | (.ok a, s') => Q a s'
  | (.error e, s') => E e s'

section Rules

variable {Q Q' : α → σ → Prop} {E E' : ε → σ → Prop} {s : σ} {x : FallibleM ε σ α} {a : α} {e : ε}

@[simp] theorem wp_pure : wp (pure a : FallibleM ε σ α) Q E s ↔ Q a s := Iff.rfl

@[simp] theorem wp_throw : wp (throw e : FallibleM ε σ α) Q E s ↔ E e s := Iff.rfl

@[simp] theorem wp_bind {f : α → FallibleM ε σ β} {Q : β → σ → Prop} :
    wp (x >>= f) Q E s ↔ wp x (fun a t => wp (f a) Q E t) E s := by
  have hbind : outcome (x >>= f) s =
      match outcome x s with
      | (.ok a, s') => outcome (f a) s'
      | (.error e, s') => (.error e, s') := by
    change StateT.run (ExceptT.run x >>= ExceptT.bindCont f) s = _
    rw [StateT.run_bind]
    unfold outcome
    cases h : StateT.run (ExceptT.run x) s with
    | mk r s' => cases r <;> rfl
  unfold wp
  rw [hbind]
  rcases outcome x s with ⟨r | r, s'⟩ <;> rfl

@[simp] theorem wp_get {Q : σ → σ → Prop} : wp (get : FallibleM ε σ σ) Q E s ↔ Q s s := Iff.rfl

@[simp] theorem wp_set {t : σ} {Q : PUnit → σ → Prop} :
    wp (set t : FallibleM ε σ PUnit) Q E s ↔ Q ⟨⟩ t := Iff.rfl

@[simp] theorem wp_modify {f : σ → σ} {Q : PUnit → σ → Prop} :
    wp (modify f : FallibleM ε σ PUnit) Q E s ↔ Q ⟨⟩ (f s) := Iff.rfl

@[simp] theorem wp_ofExcept {r : Except ε α} :
    wp (ofExcept r : FallibleM ε σ α) Q E s ↔
      (∀ a, r = .ok a → Q a s) ∧ ∀ e, r = .error e → E e s := by
  cases r with
  | ok | error => simp [ofExcept]

theorem wp_ite {p : Prop} [Decidable p] {x y : FallibleM ε σ α} :
    wp (if p then x else y) Q E s ↔ (p → wp x Q E s) ∧ (¬p → wp y Q E s) := by
  by_cases hp : p <;> simp [hp]

theorem wp_mono (hQ : ∀ a t, Q a t → Q' a t) (hE : ∀ e t, E e t → E' e t)
    (h : wp x Q E s) : wp x Q' E' s := by
  unfold wp at h ⊢
  revert h
  rcases outcome x s with ⟨r | r, s'⟩
  · exact hE r s'
  · exact hQ r s'

theorem wp_of_forall (hQ : ∀ a t, Q a t) (hE : ∀ e t, E e t) :
    wp x Q E s := by
  unfold wp
  rcases outcome x s with ⟨r | r, s'⟩
  · exact hE r s'
  · exact hQ r s'

theorem of_outcome_ok (h : wp x Q E s) (hok : (outcome x s).1 = .ok a) : Q a (outcome x s).2 := by
  unfold wp at h
  revert h hok
  rcases outcome x s with ⟨r | r, s'⟩
  · rintro - ⟨⟩
  · rintro h ⟨⟩
    exact h

theorem of_outcome_error (h : wp x Q E s)
    (herr : (outcome x s).1 = .error e) : E e (outcome x s).2 := by
  unfold wp at h
  revert h herr
  rcases outcome x s with ⟨r | r, s'⟩
  · rintro h ⟨⟩
    exact h
  · rintro - ⟨⟩

theorem of_outcome {P : σ → Prop} (h : wp x (fun _ => P) (fun _ => P) s) :
    P (outcome x s).2 := by
  unfold wp at h
  revert h
  rcases outcome x s with ⟨r | r, s'⟩ <;> exact id

end Rules

/-- Every result that is returned has the property. -/
def Ensures (x : Except ε α) (Q : α → Prop) : Prop := ∀ a, x = .ok a → Q a

namespace Ensures

variable {Q : α → Prop} {x : Except ε α} {f : α → Except ε β} {R : β → Prop} {p : Prop} {e : ε}

theorem ok {a : α} (h : Q a) : Ensures (.ok a : Except ε α) Q := by
  rintro b ⟨⟩
  exact h

theorem error : Ensures (.error e : Except ε α) Q := nofun

theorem bind (hx : Ensures x Q) (hf : ∀ a, Q a → Ensures (f a) R) : Ensures (x >>= f) R := by
  cases x with
  | error e => exact error
  | ok a => exact hf a (hx a rfl)

/-- A result about which nothing is known is passed on. -/
theorem bind_of_forall (hf : ∀ a, x = .ok a → Ensures (f a) R) :
    Ensures (x >>= f) R :=
  bind (fun _ ha => ha) hf

theorem ite [Decidable p] {y : Except ε α} (hx : p → Ensures x Q)
    (hy : ¬p → Ensures y Q) : Ensures (if p then x else y) Q := by
  by_cases hp : p
  · rw [if_pos hp]
    exact hx hp
  · rw [if_neg hp]
    exact hy hp

theorem guard [Decidable p] (hx : ¬p → Ensures x Q) :
    Ensures (if p then throw e else x) Q :=
  ite (fun _ => error) hx

end Ensures

end PyrrhaNode.Fallible
