import Mathlib.Tactic.Ring

/-!
# Runs of a machine

A machine takes operations, each of which leads from a state to another when it completes.
-/

namespace ShadPS4

variable {σ ω : Type} {start : σ → Prop} {step : σ → ω → σ → Prop} {guard guard' : σ → ω → Prop}

/-- The states that are reached from a starting state by operations that each meet the guard. -/
inductive Run (start : σ → Prop) (step : σ → ω → σ → Prop) (guard : σ → ω → Prop) : σ → Prop
  | start {s : σ} (h : start s) : Run start step guard s
  | step {s s' : σ} {o : ω} (h : Run start step guard s) (hg : guard s o) (hs : step s o s') :
    Run start step guard s'

/-- A property that holds at the start, and that each operation keeps, holds in every state that is
reached. -/
theorem Run.invariant {P : σ → Prop} {s : σ} (h : Run start step guard s) (h0 : ∀ s, start s → P s)
    (hstep : ∀ s o s', P s → guard s o → step s o s' → P s') : P s := by
  induction h with
  | start h => exact h0 _ h
  | step _ hg hs ih => exact hstep _ _ _ ih hg hs

theorem Run.mono {s : σ} (h : Run start step guard s) (hg : ∀ s o, guard s o → guard' s o) :
    Run start step guard' s := by
  induction h with
  | start h => exact .start h
  | step _ hgs hs ih => exact .step ih (hg _ _ hgs) hs

/-- A machine whose steps are computed reaches what a list of operations leads to, when each is seen to
meet the guard. -/
theorem Run.ofGuarded {next : σ → ω → Option σ} {meets : σ → ω → Bool}
    (hmeets : ∀ s o, meets s o = true → guard s o) {s s' : σ} (os : List ω)
    (h : Run start (fun s o s' => next s o = some s') guard s)
    (hos : os.foldlM (fun s o => if meets s o then next s o else none) s = some s') :
    Run start (fun s o s' => next s o = some s') guard s' := by
  induction os generalizing s with
  | nil =>
    obtain rfl := Option.some.inj hos
    exact h
  | cons o os ih =>
    rw [List.foldlM_cons] at hos
    obtain ⟨s1, hs1, hrest⟩ := Option.bind_eq_some_iff.mp hos
    split at hs1
    next hguard => exact ih (.step h (hmeets s o hguard) hs1) hrest
    next => cases hs1

theorem Run.ofList {next : σ → ω → Option σ} {s s' : σ} (os : List ω)
    (h : Run start (fun s o s' => next s o = some s') (fun _ _ => True) s) (hos : os.foldlM next s = some s') :
    Run start (fun s o s' => next s o = some s') (fun _ _ => True) s' :=
  Run.ofGuarded (fun _ _ (_ : true = true) => trivial) os h hos

/-! ## Loops that raise a flag

The steps of a loop may leave what is promised of them. Each that does raises a flag, and none lowers it:
when the flag is down in the end, every step kept the promise. -/

/-- A loop over a list keeps an invariant of the elements that are left and the state, when its flag is down
in the end. -/
theorem foldlM_keeps {α : Type} {f : σ → α → Option σ} {c : σ → Prop} {I : List α → σ → Prop}
    (hstep : ∀ x rest s s', f s x = some s' → c s' → c s ∧ (I (x :: rest) s → I rest s'))
    {xs : List α} {s s' : σ} (h : xs.foldlM f s = some s') (hc : c s') : c s ∧ (I xs s → I [] s') := by
  induction xs generalizing s with
  | nil =>
    obtain rfl := Option.some.inj h
    exact ⟨hc, id⟩
  | cons x rest ih =>
    obtain ⟨s1, hs1, hrest⟩ := Option.bind_eq_some_iff.mp h
    obtain ⟨hc1, hkeep⟩ := ih hrest
    obtain ⟨hc0, hfirst⟩ := hstep x rest s s1 hs1 hc1
    exact ⟨hc0, fun hinv => hkeep (hfirst hinv)⟩

/-- A loop over a list whose turns complete and keep an invariant of the elements that are left and the state
completes, and keeps it. -/
theorem foldlM_completes {α : Type} {f : σ → α → Option σ} {I : List α → σ → Prop}
    (hstep : ∀ x rest s, I (x :: rest) s → ∃ s', f s x = some s' ∧ I rest s') {xs : List α} {s : σ}
    (h : I xs s) : ∃ s', xs.foldlM f s = some s' ∧ I [] s' := by
  induction xs generalizing s with
  | nil => exact ⟨s, rfl, h⟩
  | cons x rest ih =>
    obtain ⟨s1, hs1, h1⟩ := hstep x rest s h
    obtain ⟨s', hs', h'⟩ := ih h1
    refine ⟨s', ?_, h'⟩
    rw [List.foldlM_cons, hs1]
    exact hs'

end ShadPS4
