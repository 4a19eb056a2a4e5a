import Mathlib.Tactic.Ring

/-!
# Linear search

The first number of a range with a property, or the end of the range. Loops that count up until a
test succeeds compute it, and so do the instructions that count trailing bits of a word.
-/

namespace ShadPS4

/-- The first number from `start` on with the property, and `start + count` if none of the `count`
numbers has it. -/
def firstFrom (p : ℕ → Bool) (start : ℕ) : ℕ → ℕ
  | 0 => start
  | count + 1 => if p start then start else firstFrom p (start + 1) count

theorem firstFrom_bounds (p : ℕ → Bool) (start count : ℕ) :
    start ≤ firstFrom p start count ∧ firstFrom p start count ≤ start + count := by
  induction count generalizing start with
  | zero => exact ⟨Nat.le_refl _, Nat.le_refl _⟩
  | succ count ih =>
    unfold firstFrom
    split_ifs
    · omega
    · have := ih (start + 1)
      omega

theorem firstFrom_before {p : ℕ → Bool} {start count i : ℕ} (hi : start ≤ i) (h : i < firstFrom p start count) :
    p i = false := by
  induction count generalizing start with
  | zero =>
    unfold firstFrom at h
    omega
  | succ count ih =>
    unfold firstFrom at h
    split_ifs at h with hp
    · omega
    · rcases Nat.eq_or_lt_of_le hi with rfl | hlt
      · simpa using hp
      · exact ih hlt h

theorem firstFrom_spec {p : ℕ → Bool} {start count : ℕ} (h : firstFrom p start count < start + count) :
    p (firstFrom p start count) = true := by
  induction count generalizing start with
  | zero =>
    unfold firstFrom at h
    omega
  | succ count ih =>
    unfold firstFrom at h ⊢
    split_ifs at h ⊢ with hp
    · exact hp
    · exact ih (by omega)

end ShadPS4
