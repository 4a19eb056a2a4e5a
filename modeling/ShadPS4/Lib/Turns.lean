import Mathlib.Data.Nat.Notation

/-!
# Loops with enough turns

A loop that need not end is given the number of turns that it may take. It returns a value when it does with any
number of turns that is large enough.
-/

namespace ShadPS4

variable {α β : Type} {f : ℕ → Option α} {g : ℕ → α → Option β} {a : α} {b : β}

def Returns (f : ℕ → Option α) (a : α) : Prop := ∃ n, ∀ turns, n ≤ turns → f turns = some a

theorem Returns.pure (a : α) : Returns (fun _ => some a) a := ⟨0, fun _ _ => rfl⟩

theorem Returns.step {f' : ℕ → Option α} (hstep : ∀ turns, f (turns + 1) = f' turns) (h : Returns f' a) :
    Returns f a := by
  obtain ⟨n, hn⟩ := h
  refine ⟨n + 1, fun turns hturns => ?_⟩
  obtain ⟨turns, rfl⟩ := Nat.exists_eq_add_of_le' (Nat.le_trans (Nat.le_add_left 1 n) hturns)
  rw [hstep, hn turns (Nat.le_of_succ_le_succ hturns)]

theorem Returns.bind (h : Returns f a) (h' : Returns (fun turns => g turns a) b) :
    Returns (fun turns => (f turns).bind (g turns)) b := by
  obtain ⟨n, hn⟩ := h
  obtain ⟨n', hn'⟩ := h'
  refine ⟨max n n', fun turns hturns => ?_⟩
  dsimp only
  rw [hn turns (Nat.le_trans (Nat.le_max_left n n') hturns)]
  exact hn' turns (Nat.le_trans (Nat.le_max_right n n') hturns)

end ShadPS4
