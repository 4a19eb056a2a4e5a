import Mathlib.Tactic.Ring

/-!
# Stateful computations that throw

`Throws ε σ α` is a computation on a state `σ` that returns an `α` or throws an `ε`. What it did to the state
before it threw stays, as in a language with exceptions and mutable objects.
-/

namespace ShadPS4

abbrev Throws (ε σ α : Type) : Type := ExceptT ε (StateM σ) α

section Runs

variable {ε σ α β : Type} {x : Throws ε σ α} {s : σ} {P P' : α → σ → Prop} {Q Q' : ε → σ → Prop}

/-- The outcome of a run: a result or an exception, and the state after it. -/
def outcome (x : Throws ε σ α) (s : σ) : Except ε α × σ := x.run.run s

/-- A run returns with `P`, or throws with `Q`. -/
def Runs (x : Throws ε σ α) (s : σ) (P : α → σ → Prop) (Q : ε → σ → Prop) : Prop :=
  match outcome x s with
  | (.ok a, t) => P a t
  | (.error e, t) => Q e t

theorem Runs.pure {a : α} (h : P a s) : Runs (pure a) s P Q := h

theorem Runs.throw {e : ε} (h : Q e s) : Runs (throw e : Throws ε σ α) s P Q := h

theorem Runs.get {P : σ → σ → Prop} (h : P s s) : Runs (get : Throws ε σ σ) s P Q := h

theorem Runs.modify {f : σ → σ} {P : Unit → σ → Prop} (h : P () (f s)) : Runs (modify f : Throws ε σ Unit) s P Q := h

theorem Runs.bind {f : α → Throws ε σ β} {P' : β → σ → Prop} (hx : Runs x s P Q)
    (hf : ∀ a t, P a t → Runs (f a) t P' Q) : Runs (x >>= f) s P' Q := by
  unfold Runs at hx
  unfold Runs
  have hstep : outcome (x >>= f) s = match outcome x s with
      | (.ok a, t) => outcome (f a) t
      | (.error e, t) => (.error e, t) := by
    unfold outcome
    simp only [ExceptT.run_bind, StateT.run_bind]
    rcases StateT.run (ExceptT.run x) s with ⟨_ | _, _⟩ <;> rfl
  rw [hstep]
  revert hx
  rcases outcome x s with ⟨e | a, t⟩
  · exact id
  · intro h
    exact hf a t h

theorem Runs.ite {condition : Prop} [Decidable condition] {x y : Throws ε σ α}
    (hx : condition → Runs x s P Q) (hy : ¬ condition → Runs y s P Q) : Runs (if condition then x else y) s P Q := by
  by_cases hc : condition
  · rw [if_pos hc]
    exact hx hc
  · rw [if_neg hc]
    exact hy hc

theorem Runs.mono (hx : Runs x s P Q) (hP : ∀ a t, P a t → P' a t) (hQ : ∀ e t, Q e t → Q' e t) : Runs x s P' Q' := by
  unfold Runs at hx ⊢
  revert hx
  rcases outcome x s with ⟨e | a, t⟩
  · exact hQ e t
  · exact hP a t

theorem Runs.of_ok (hx : Runs x s P Q) {a : α} {t : σ} (h : outcome x s = (.ok a, t)) : P a t := by
  unfold Runs at hx
  rw [h] at hx
  exact hx

theorem Runs.of_error (hx : Runs x s P Q) {e : ε} {t : σ} (h : outcome x s = (.error e, t)) : Q e t := by
  unfold Runs at hx
  rw [h] at hx
  exact hx

end Runs

end ShadPS4
