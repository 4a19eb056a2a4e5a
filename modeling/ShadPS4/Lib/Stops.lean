import Mathlib.Tactic.Ring

/-!
# Computations that may stop

A computation with a state that may stop on the way keeps the state that it stopped in.
-/

namespace ShadPS4

variable {σ α β : Type} {ok : σ → Prop}

/-- A computation with a state that may stop without a result. -/
abbrev Stopping (σ α : Type) : Type := OptionT (StateM σ) α

/-- What a computation leaves: its result, if there is one, and the state. -/
def Stopping.leaves (x : Stopping σ α) (s : σ) : Option α × σ := x.run.run s

/-- The state that is left is in order, and the result has a property. -/
structure Ends (ok : σ → Prop) (x : Stopping σ α) (s : σ) (Q : α → σ → Prop) : Prop where
  ok : ok (x.leaves s).2
  result : ∀ a, (x.leaves s).1 = some a → Q a (x.leaves s).2

variable {x : Stopping σ α} {s : σ} {Q R : α → σ → Prop}

theorem Ends.mono (h : Ends ok x s Q) (hQ : ∀ a s', ok s' → Q a s' → R a s') : Ends ok x s R :=
  ⟨h.ok, fun a ha => hQ a _ h.ok (h.result a ha)⟩

theorem Ends.pure {a : α} (hs : ok s) (hQ : Q a s) : Ends ok (pure a) s Q := by
  refine ⟨hs, fun b hb => ?_⟩
  obtain rfl := Option.some.inj hb
  exact hQ

theorem Ends.failure (hs : ok s) : Ends ok (failure : Stopping σ α) s Q := ⟨hs, nofun⟩

theorem Ends.modify {Q : PUnit → σ → Prop} {f : σ → σ} (hs : ok (f s)) (hQ : Q ⟨⟩ (f s)) :
    Ends ok (modify f : Stopping σ PUnit) s Q := ⟨hs, fun _ _ => hQ⟩

theorem Ends.get_bind {f : σ → Stopping σ β} {R : β → σ → Prop} (h : Ends ok (f s) s R) :
    Ends ok (MonadState.get >>= f) s R := ⟨h.ok, h.result⟩

theorem Ends.modify_bind {g : σ → σ} {f : PUnit → Stopping σ β} {R : β → σ → Prop}
    (h : Ends ok (f ⟨⟩) (g s) R) : Ends ok (MonadState.modifyGet (fun s => (⟨⟩, g s)) >>= f) s R :=
  ⟨h.ok, h.result⟩

theorem Stopping.leaves_bind (x : Stopping σ α) (f : α → Stopping σ β) (s : σ) :
    (x >>= f).leaves s = (x.leaves s).1.elim (none, (x.leaves s).2) fun a => (f a).leaves (x.leaves s).2 := by
  unfold leaves
  rw [OptionT.run_bind, Option.elimM, StateT.run_bind]
  show StateT.run ((x.leaves s).1.elim _ _) (x.leaves s).2 = (x.leaves s).1.elim _ _
  cases (x.leaves s).1 <;> rfl

theorem Ends.bind {f : α → Stopping σ β} {R : β → σ → Prop} (hx : Ends ok x s Q)
    (hf : ∀ a s', ok s' → Q a s' → Ends ok (f a) s' R) : Ends ok (x >>= f) s R := by
  have hresult := hx.result
  rcases hleft : x.leaves s with ⟨_ | a, s'⟩
  · have hok := hx.ok
    have hleaves : (x >>= f).leaves s = (none, s') := by rw [x.leaves_bind, hleft]; rfl
    rw [hleft] at hok
    exact ⟨by rw [hleaves]; exact hok, fun b hb => by rw [hleaves] at hb; cases hb⟩
  · have hok := hx.ok
    have hleaves : (x >>= f).leaves s = (f a).leaves s' := by rw [x.leaves_bind, hleft]; rfl
    rw [hleft] at hok hresult
    have hrest := hf a s' hok (hresult a rfl)
    exact ⟨by rw [hleaves]; exact hrest.ok, fun b hb => by
      rw [hleaves] at hb ⊢
      exact hrest.result b hb⟩

theorem Ends.forM {f : α → Stopping σ PUnit} {I : List α → σ → Prop}
    (hstep : ∀ x rest s, ok s → I (x :: rest) s → Ends ok (f x) s fun _ s' => I rest s')
    {xs : List α} (hs : ok s) (hI : I xs s) : Ends ok (forM xs f) s fun _ s' => I [] s' := by
  induction xs generalizing s with
  | nil => exact .pure hs hI
  | cons x rest ih =>
    exact (hstep x rest s hs hI).bind fun _ s' hs' hI' => ih hs' hI'

end ShadPS4
