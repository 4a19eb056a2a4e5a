import Mathlib.Tactic.Ring

/-!
# Computations that keep an invariant

A computation with a state keeps an invariant if it leads from each state with it to a state with it, whatever its
result is.
-/

namespace ShadPS4

variable {σ α β : Type} {I : σ → Prop}

/-- The computation leads from each state with the invariant to one with it. -/
def Keeps (I : σ → Prop) (x : StateM σ α) : Prop := ∀ s, I s → I (x s).2

theorem Keeps.pure (a : α) : Keeps I (pure a : StateM σ α) := fun _ hs => hs

theorem Keeps.bind {x : StateM σ α} {f : α → StateM σ β} (hx : Keeps I x) (hf : ∀ a, Keeps I (f a)) :
    Keeps I (x >>= f) := fun s hs => hf _ _ (hx s hs)

theorem Keeps.ite {condition : Prop} [Decidable condition] {x y : StateM σ α} (hx : Keeps I x)
    (hy : Keeps I y) : Keeps I (if condition then x else y) := by
  split
  · exact hx
  · exact hy

theorem Keeps.foldlM {f : β → α → StateM σ β} {xs : List α} (h : ∀ b, ∀ x ∈ xs, Keeps I (f b x))
    (b : β) : Keeps I (xs.foldlM f b) := by
  induction xs generalizing b with
  | nil => exact Keeps.pure b
  | cons x rest ih =>
    exact (h b x (by simp)).bind fun b' => ih (fun b y hy => h b y (List.mem_cons_of_mem _ hy)) b'

end ShadPS4
