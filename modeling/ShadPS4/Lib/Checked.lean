import ShadPS4.Lib.Machine

/-!
# Early returns, checked accesses and their loops

A function that builds a result record `R` stops early in two ways.
-/

namespace ShadPS4

/-- Why a body that builds an `R` stops before its end. -/
inductive Stop (R : Type) where
  | fault
  | fail (result : R)

section Stop

variable {R S α β σ : Type}

/-- Return `result` now, if the condition holds. -/
def failIf (condition : Prop) [Decidable condition] (result : R) : Except (Stop R) Unit :=
  if condition then .error (.fail result) else .ok ()

/-- What a caller sees: the record returned, early or at the end. -/
def returns : Except (Stop R) R → Option R
  | .ok result => some result
  | .error (.fail result) => some result
  | .error .fault => none

/-- Call another function: an early return of its body is a result here. -/
def call (body : Except (Stop R) R) : Except (Stop S) R :=
  match returns body with
  | some result => .ok result
  | none => .error .fault

/-- The element at an index, which must lie in the list. -/
def fetch (xs : List α) (i : ℕ) : Except (Stop R) α :=
  match xs[i]? with
  | some x => .ok x
  | none => .error .fault

/-- Store an element at an index, which must lie in the list. -/
def put (xs : List α) (i : ℕ) (x : α) : Except (Stop R) (List α) :=
  if i < xs.length then .ok (xs.set i x) else .error .fault

/-- The body never faults, and what it returns early is in `Q`. -/
def Fails (Q : R → Prop) : Stop R → Prop
  | .fault => False
  | .fail result => Q result

variable {F : Stop R → Prop} {Q : R → Prop}

theorem call_of_returns {x : Except (Stop S) S} {r : S} (h : returns x = some r) : call (S := R) x = .ok r := by
  unfold call
  rw [h]

theorem failIf_neg {condition : Prop} [Decidable condition] {result : R} (h : ¬ condition) :
    failIf condition result = .ok () := by
  unfold failIf
  rw [if_neg h]

theorem failIf_pos {condition : Prop} [Decidable condition] {result : R} (h : condition) :
    failIf condition result = .error (.fail result) := by
  unfold failIf
  rw [if_pos h]

theorem failIf_congr {p q : Prop} [Decidable p] [Decidable q] {result : R} (h : p ↔ q) :
    failIf p result = failIf q result := if_congr h rfl rfl

theorem Sat.failIf {condition : Prop} [Decidable condition] {result : R} (h : condition → F (.fail result)) :
    Sat (failIf condition result) (fun _ => ¬ condition) F := by
  unfold ShadPS4.failIf
  by_cases hc : condition
  · rw [if_pos hc]
    refine ⟨fun _ he => ?_, fun e he => ?_⟩
    · cases he
    · cases he
      exact h hc
  · rw [if_neg hc]
    exact Sat.pure hc

theorem Sat.call {x : Except (Stop S) S} {P Q' : S → Prop} (h : Sat x P (Fails Q')) :
    Sat (call x) (fun r => returns x = some r ∧ (P r ∨ Q' r)) F := by
  match x, h with
  | .ok r, h => exact Sat.pure ⟨rfl, .inl (h.1 r rfl)⟩
  | .error (.fail r), h => exact Sat.pure ⟨rfl, .inr (h.2 _ rfl)⟩
  | .error .fault, h => exact absurd (h.2 _ rfl) id

theorem Sat.exists_returns {x : Except (Stop R) R} {P : R → Prop} (h : Sat x P (Fails Q)) :
    ∃ r, returns x = some r ∧ (P r ∨ Q r) := by
  match x, h with
  | .ok r, h => exact ⟨r, rfl, .inl (h.1 r rfl)⟩
  | .error (.fail r), h => exact ⟨r, rfl, .inr (h.2 _ rfl)⟩
  | .error .fault, h => exact absurd (h.2 _ rfl) id

theorem Sat.fetch {xs : List α} {i : ℕ} (h : i < xs.length) : Sat (fetch xs i) (fun x => xs[i]? = some x) F := by
  unfold ShadPS4.fetch
  rw [List.getElem?_eq_getElem h]
  exact Sat.pure rfl

theorem Sat.put {xs : List α} {i : ℕ} {x : α} (h : i < xs.length) :
    Sat (put xs i x) (fun ys => ys = xs.set i x) F := by
  unfold ShadPS4.put
  rw [if_pos h]
  exact Sat.pure rfl

theorem Sat.fetch_ok {xs : List α} {i : ℕ} :
    Sat (ShadPS4.fetch (R := R) xs i) (fun x => xs[i]? = some x) fun _ => True := by
  refine ⟨fun x h => ?_, fun _ _ => trivial⟩
  unfold ShadPS4.fetch at h
  cases hget : xs[i]? with
  | none => simp [hget] at h
  | some y =>
    rw [hget] at h
    exact congrArg some (Except.ok.inj h)

theorem Sat.error {ε : Type} {e : ε} {P : α → Prop} : Sat (.error e : Except ε α) P fun _ => True :=
  ⟨nofun, fun _ _ => trivial⟩

theorem Sat.mono_fault {ε : Type} {x : Except ε α} {P : α → Prop} {F F' : ε → Prop}
    (h : Sat x P F) (hF : ∀ e, F e → F' e) : Sat x P F' :=
  ⟨h.1, fun e he => hF e (h.2 e he)⟩

theorem Sat.ite {ε : Type} {condition : Prop} [Decidable condition] {x y : Except ε α}
    {P : α → Prop} {F : ε → Prop} (hx : condition → Sat x P F) (hy : ¬ condition → Sat y P F) :
    Sat (if condition then x else y) P F := by
  by_cases hc : condition
  · rw [if_pos hc]
    exact hx hc
  · rw [if_neg hc]
    exact hy hc

theorem Sat.foldlM {ε : Type} {F : ε → Prop} {f : σ → α → Except ε σ} {I : List α → σ → Prop}
    {xs : List α} {s : σ} (h0 : I [] s) (hstep : ∀ done x rest s, xs = done ++ x :: rest → I done s →
      Sat (f s x) (I (done ++ [x])) F) : Sat (xs.foldlM f s) (I xs) F := by
  suffices h : ∀ todo done s, xs = done ++ todo → I done s → Sat (todo.foldlM f s) (I xs) F from
    h xs [] s rfl h0
  intro todo
  induction todo with
  | nil =>
    intro done s hxs hinv
    rw [List.append_nil] at hxs
    exact Sat.pure (hxs ▸ hinv)
  | cons x rest ih =>
    intro done s hxs hinv
    refine Sat.bind (hstep done x rest s hxs hinv) fun s' hs' => ?_
    exact ih (done ++ [x]) s' (by rw [hxs, List.append_assoc, List.singleton_append]) hs'

theorem Sat.foldlM_range {ε : Type} {F : ε → Prop} {f : σ → ℕ → Except ε σ} {I : ℕ → σ → Prop}
    {n : ℕ} {s : σ} (h0 : I 0 s) (hstep : ∀ i < n, ∀ s, I i s → Sat (f s i) (I (i + 1)) F) :
    Sat ((List.range n).foldlM f s) (I n) F := by
  have hfold : Sat ((List.range n).foldlM f s) (fun s => I (List.range n).length s) F := by
    refine Sat.foldlM (I := fun done => I done.length) h0 fun done x rest s hxs hinv => ?_
    -- The elements done are the numbers below the next one.
    have hlen : done.length < n := by
      have := congrArg List.length hxs
      rw [List.length_range, List.length_append, List.length_cons] at this
      omega
    have hx : x = done.length := by
      have h1 : (List.range n)[done.length]? = some x := by
        rw [hxs, List.getElem?_append_right (Nat.le_refl _), Nat.sub_self, List.getElem?_cons_zero]
      rw [List.getElem?_range hlen] at h1
      exact (Option.some.inj h1).symm
    rw [List.length_append, List.length_singleton, hx]
    exact hstep _ hlen s hinv
  rw [List.length_range] at hfold
  exact hfold

theorem foldlM_range_eq {ε : Type} {f : σ → ℕ → Except ε σ} {g : ℕ → σ} {n : ℕ}
    (hstep : ∀ k < n, f (g k) k = .ok (g (k + 1))) : (List.range n).foldlM f (g 0) = .ok (g n) := by
  induction n with
  | zero => rfl
  | succ n ih =>
    rw [List.range_succ, List.foldlM_append, ih fun k hk => hstep k (Nat.lt_succ_of_lt hk)]
    show [n].foldlM f (g n) = _
    rw [List.foldlM_cons, hstep n (Nat.lt_succ_self n)]
    rfl

end Stop

end ShadPS4
