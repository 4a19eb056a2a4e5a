import Mathlib.Data.List.Forall2
import Mathlib.Tactic.Ring

/-!
# 64-bit words and computations that can fault

Machine words are natural numbers below `2^64`. `add64` and `sub64` are the wrapping sum and difference of two
words, and agree with the exact ones where those are words.
-/

namespace ShadPS4

variable {a : ℕ}

def uint64Max : ℕ := 2^64 - 1

/-- The wrapping sum of two words. -/
def add64 (a b : ℕ) : ℕ := (a + b) % 2^64

/-- The wrapping difference of two words. -/
def sub64 (a b : ℕ) : ℕ := (a + (2^64 - b)) % 2^64

theorem add64_of_lt {b : ℕ} (h : a + b < 2^64) : add64 a b = a + b := Nat.mod_eq_of_lt h

theorem sub64_of_le {b : ℕ} (h : b ≤ a) (ha : a < 2^64) : sub64 a b = a - b := by
  unfold sub64
  omega

theorem add64_lt (a b : ℕ) : add64 a b < 2^64 := Nat.mod_lt _ (by decide)

theorem sub64_lt (a b : ℕ) : sub64 a b < 2^64 := Nat.mod_lt _ (by decide)

theorem sub64_zero (ha : a < 2^64) : sub64 a 0 = a := sub64_of_le (Nat.zero_le a) ha

theorem add64_zero (ha : a < 2^64) : add64 a 0 = a := add64_of_lt ha

theorem sub64_sub64 {b c : ℕ} (h : b + c ≤ 2^64) : sub64 (sub64 a b) c = sub64 a (b + c) := by
  unfold sub64
  omega

theorem add64_add64 (a b c : ℕ) : add64 (add64 a b) c = add64 a (b + c) := by
  unfold add64
  omega

section Except

variable {ε α β : Type} {x : Except ε α} {f : α → Except ε β} {b : β}

theorem bind_eq_ok : x >>= f = .ok b ↔ ∃ a, x = .ok a ∧ f a = .ok b := by
  cases x <;> simp [bind, Except.bind]

theorem bind_eq_error {e : ε} : x >>= f = .error e ↔ x = .error e ∨ ∃ a, x = .ok a ∧ f a = .error e := by
  cases x <;> simp [bind, Except.bind]

theorem pure_eq_ok {a a' : α} : (pure a : Except ε α) = .ok a' ↔ a = a' := by
  simp [pure, Except.pure]

theorem pure_ne_error {a : α} {e : ε} : (pure a : Except ε α) ≠ .error e := by
  simp [pure, Except.pure]

theorem map_eq_ok {g : α → β} : g <$> x = .ok b ↔ ∃ a, x = .ok a ∧ g a = b := by
  cases x <;> simp [Functor.map, Except.map]

theorem mapM_eq_ok {f : α → Except ε β} {xs : List α} {ys : List β} :
    xs.mapM f = .ok ys ↔ List.Forall₂ (fun x y => f x = .ok y) xs ys := by
  induction xs generalizing ys with
  | nil =>
    rw [List.mapM_nil, pure_eq_ok, List.forall₂_nil_left_iff, eq_comm]
  | cons x xs ih =>
    rw [List.mapM_cons, bind_eq_ok, List.forall₂_cons_left_iff]
    constructor
    · rintro ⟨y, hy, hrest⟩
      obtain ⟨rest, hrest, heq⟩ := bind_eq_ok.mp hrest
      exact ⟨y, rest, hy, ih.mp hrest, (pure_eq_ok.mp heq).symm⟩
    · rintro ⟨y, rest, hy, hrest, rfl⟩
      exact ⟨y, hy, bind_eq_ok.mpr ⟨rest, ih.mpr hrest, rfl⟩⟩

theorem exists_mapM_ok {f : α → Except ε β} {R : α → β → Prop} {xs : List α}
    (h : ∀ x ∈ xs, ∃ y, f x = .ok y ∧ R x y) : ∃ ys, xs.mapM f = .ok ys ∧ List.Forall₂ R xs ys := by
  induction xs with
  | nil => exact ⟨[], mapM_eq_ok.mpr .nil, .nil⟩
  | cons x xs ih =>
    obtain ⟨y, hy, hxy⟩ := h x (by simp)
    obtain ⟨ys, hys, hall⟩ := ih fun x hx => h x (by simp [hx])
    exact ⟨y :: ys, mapM_eq_ok.mpr (.cons hy (mapM_eq_ok.mp hys)), .cons hxy hall⟩

end Except

section Sat

variable {ε α β : Type} {x : Except ε α} {f : α → Except ε β} {P P' : α → Prop} {Q : β → Prop}
  {F : ε → Prop}

/-- The computation either returns a result in `P` or faults with a fault in `F`. -/
def Sat (x : Except ε α) (P : α → Prop) (F : ε → Prop) : Prop :=
  (∀ a, x = .ok a → P a) ∧ ∀ e, x = .error e → F e

theorem Sat.pure {a : α} (h : P a) : Sat (pure a : Except ε α) P F :=
  ⟨fun _ hb => pure_eq_ok.mp hb ▸ h, fun _ he => absurd he pure_ne_error⟩

theorem Sat.bind (hx : Sat x P F) (hf : ∀ a, P a → Sat (f a) Q F) : Sat (x >>= f) Q F := by
  refine ⟨fun b hb => ?_, fun e he => ?_⟩
  · obtain ⟨a, ha, hb⟩ := bind_eq_ok.mp hb
    exact (hf a (hx.1 a ha)).1 b hb
  · rcases bind_eq_error.mp he with he | ⟨a, ha, he⟩
    · exact hx.2 e he
    · exact (hf a (hx.1 a ha)).2 e he

theorem Sat.mono (hx : Sat x P F) (h : ∀ a, P a → P' a) : Sat x P' F :=
  ⟨fun a ha => h a (hx.1 a ha), hx.2⟩

end Sat

end ShadPS4
