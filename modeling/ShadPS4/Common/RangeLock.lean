import Mathlib.Tactic.Ring

/-!
# Locking a range

`LockRange` waits for one lock and tries the others. Where it fails it releases what it has, and goes on from the
lock that it could not get. Iterators are numbers, and a step is one operation on one lock.
-/

namespace ShadPS4.Common.RangeLock

open Function
open Option (some.inj)

inductive Pc
  | lockBegin
  | trying (limit cur : ℕ)
  /-- The guards of `TryLockRange` are destroyed, from the last one down. -/
  | undoing (limit cur failed : ℕ)
  /-- The `RangeLockGuard` is destroyed, and then `begin_lock`. -/
  | dropping (cur failed : ℕ)
  | dropBegin (failed : ℕ)
  /-- `begin_lock.try_lock()`, when the guard has the locks from `next` on -/
  | tryBegin (next : ℕ)
  /-- The `RangeLockGuard` is destroyed, as `begin_lock` was not free. -/
  | dropGuard (cur : ℕ)

/-- A call of `LockRange`, with the first locks of the calls that it was made by for their guards. -/
structure Call where
  first : ℕ
  callers : List ℕ
  stop : ℕ
  pc : Pc

inductive Event
  | lock (i : ℕ)
  | tryLock (i : ℕ)
  | unlock (i : ℕ)

namespace Call

variable (c : Call)

def event : Event :=
  match c.pc with
  | .lockBegin => .lock c.first
  | .trying _ cur => .tryLock cur
  | .undoing _ cur _ => .unlock (cur - 1)
  | .dropping cur _ => .unlock cur
  | .dropBegin _ => .unlock c.first
  | .tryBegin _ => .tryLock c.first
  | .dropGuard cur => .unlock cur

/-- The call returns. A guard that it was made for is constructed then. -/
def return' : Option Call :=
  match c.callers with
  | [] => none
  | caller :: callers => some ⟨caller, callers, c.stop, .tryBegin c.first⟩

/-- `TryLockRange` goes on at a lock, or returns `limit`. -/
def goTry (limit cur : ℕ) : Option Call :=
  if cur = limit then c.return' else some { c with pc := .trying limit cur }

/-- What is left of a failed turn when the guard has the locks from `cur` on. -/
def goDrop (cur failed : ℕ) : Call :=
  { c with pc := if cur = c.stop then .dropBegin failed else .dropping cur failed }

/-- `TryLockRange` returns the lock that it could not get, once its guards are destroyed. -/
def goUndo (limit cur failed : ℕ) : Call :=
  if cur = c.first + 1 then c.goDrop limit failed else { c with pc := .undoing limit cur failed }

/-- What follows the next operation; `ok` is what a `try_lock` returns. -/
def next (ok : Bool) : Option Call :=
  match c.pc with
  | .lockBegin => c.goTry c.stop (c.first + 1)
  | .trying limit cur => if ok then c.goTry limit (cur + 1) else c.goUndo limit cur cur
  | .undoing limit cur failed => c.goUndo limit (cur - 1) failed
  | .dropping cur failed => c.goDrop (cur + 1) failed
  | .dropBegin failed => some ⟨failed, c.first :: c.callers, c.stop, .lockBegin⟩
  | .tryBegin next => if ok then c.goTry next (c.first + 1) else some { c with pc := .dropGuard next }
  | .dropGuard cur => some { c with pc := if cur + 1 = c.stop then .lockBegin else .dropGuard (cur + 1) }

def Holds (i : ℕ) : Prop :=
  match c.pc with
  | .lockBegin => False
  | .trying limit cur | .undoing limit cur _ => c.first ≤ i ∧ i < cur ∨ limit ≤ i ∧ i < c.stop
  | .dropping cur _ => i = c.first ∨ cur ≤ i ∧ i < c.stop
  | .dropBegin _ => i = c.first
  | .tryBegin next => next ≤ i ∧ i < c.stop
  | .dropGuard cur => cur ≤ i ∧ i < c.stop

end Call

def outermost : ℕ → List ℕ → ℕ
  | first, [] => first
  | _, caller :: callers => outermost caller callers

/-- Each call is made for a later lock than its caller. -/
def Nested : ℕ → List ℕ → Prop
  | _, [] => True
  | first, caller :: callers => caller < first ∧ Nested caller callers

def Call.Covers (c : Call) (i : ℕ) : Prop := outermost c.first c.callers ≤ i ∧ i < c.stop

structure Call.Wf (c : Call) : Prop where
  nested : Nested c.first c.callers
  lt : c.first < c.stop
  place : match c.pc with
    | .lockBegin => True
    | .trying limit cur => c.first < cur ∧ cur < limit ∧ limit ≤ c.stop
    | .undoing limit cur failed => c.first + 1 < cur ∧ cur ≤ failed ∧ failed < limit ∧ limit ≤ c.stop
    | .dropping cur failed => c.first < failed ∧ failed < cur ∧ cur < c.stop
    | .dropBegin failed => c.first < failed ∧ failed < c.stop
    | .tryBegin next => c.first < next ∧ next < c.stop
    | .dropGuard cur => c.first < cur ∧ cur < c.stop

/-! ## One call -/

theorem Nested.le (h : Nested first callers) : outermost first callers ≤ first := by
  induction callers generalizing first with
  | nil => exact Nat.le_refl _
  | cons caller callers ih => exact Nat.le_trans (ih h.2) (Nat.le_of_lt h.1)

/-- The locks that an operation leaves to its thread. -/
def Event.After (e : Event) (ok : Bool) (held : ℕ → Prop) (i : ℕ) : Prop :=
  match e with
  | .lock j => held i ∨ i = j
  | .tryLock j => held i ∨ ok = true ∧ i = j
  | .unlock j => held i ∧ i ≠ j

/-- What follows an operation is in order, and has the locks that it leaves. -/
def Call.Leads (c : Call) (after : ℕ → Prop) : Option Call → Prop
  | none => ∀ i, after i ↔ c.Covers i
  | some c' => c'.Wf ∧ (∀ i, c'.Covers i ↔ c.Covers i) ∧ ∀ i, after i ↔ c'.Holds i

namespace Call

variable {c : Call} {after : ℕ → Prop} {limit cur failed : ℕ}

section

variable (hnested : Nested c.first c.callers)

include hnested

theorem leads_return (hlt : c.first < c.stop)
    (h : ∀ i, after i ↔ c.first ≤ i ∧ i < c.stop) : c.Leads after c.return' := by
  unfold return'
  cases hcallers : c.callers with
  | nil =>
    intro i
    rw [h, Covers, hcallers]
    rfl
  | cons caller callers =>
    rw [hcallers] at hnested
    refine ⟨⟨hnested.2, Nat.lt_trans hnested.1 hlt, hnested.1, hlt⟩, fun i => ?_, h⟩
    rw [Covers, Covers, hcallers]
    rfl

theorem leads_goTry (hcur : c.first < cur) (hlimit : cur ≤ limit)
    (hstop : limit ≤ c.stop) (h : ∀ i, after i ↔ c.first ≤ i ∧ i < cur ∨ limit ≤ i ∧ i < c.stop) :
    c.Leads after (c.goTry limit cur) := by
  unfold goTry
  split_ifs with heq
  · exact leads_return hnested (by omega) fun i => (h i).trans (by omega)
  · exact ⟨⟨hnested, by dsimp only; omega, hcur, by omega, hstop⟩, fun _ => Iff.rfl, h⟩

theorem leads_goDrop (hfailed : c.first < failed) (hcur : failed < cur)
    (hstop : cur ≤ c.stop) (h : ∀ i, after i ↔ i = c.first ∨ cur ≤ i ∧ i < c.stop) :
    c.Leads after (some (c.goDrop cur failed)) := by
  unfold goDrop
  split_ifs with heq
  · exact ⟨⟨hnested, by dsimp only; omega, hfailed, by dsimp only; omega⟩, fun _ => Iff.rfl,
      fun i => (h i).trans (by unfold Holds; dsimp only; omega)⟩
  · exact ⟨⟨hnested, by dsimp only; omega, hfailed, hcur, by dsimp only; omega⟩, fun _ => Iff.rfl, h⟩

theorem leads_goUndo (hcur : c.first < cur) (hfailed : cur ≤ failed)
    (hlimit : failed < limit) (hstop : limit ≤ c.stop)
    (h : ∀ i, after i ↔ c.first ≤ i ∧ i < cur ∨ limit ≤ i ∧ i < c.stop) :
    c.Leads after (some (c.goUndo limit cur failed)) := by
  unfold goUndo
  split_ifs with heq
  · exact leads_goDrop hnested (by omega) hlimit hstop fun i => (h i).trans (by omega)
  · exact ⟨⟨hnested, by dsimp only; omega, by dsimp only; omega, hfailed, hlimit, hstop⟩, fun _ => Iff.rfl, h⟩

end

/-- What an operation asks of the locks that the call holds: a call waits for a lock only while it has none. -/
def Fits (c : Call) : Prop :=
  match c.event with
  | .lock i => c.Covers i ∧ ∀ j, ¬ c.Holds j
  | .tryLock i => c.Covers i ∧ ¬ c.Holds i
  | .unlock i => c.Holds i

theorem Wf.holds_covers (h : c.Wf) (hi : c.Holds i) : c.Covers i := by
  have hle := h.nested.le
  obtain ⟨first, callers, stop, pc⟩ := c
  obtain ⟨-, hlt, hplace⟩ := h
  unfold Holds at hi
  unfold Covers
  cases pc with
  | lockBegin => cases hi
  | _ => dsimp only at *; omega

theorem Wf.fits (h : c.Wf) : c.Fits := by
  have hle := h.nested.le
  obtain ⟨first, callers, stop, pc⟩ := c
  obtain ⟨-, hlt, hplace⟩ := h
  unfold Fits event Covers Holds
  cases pc with
  | lockBegin => exact ⟨⟨hle, hlt⟩, fun _ => id⟩
  | dropBegin failed => exact rfl
  | _ => dsimp only at *; omega

theorem Wf.leads (h : c.Wf) (ok : Bool) : c.Leads (c.event.After ok c.Holds) (c.next ok) := by
  obtain ⟨first, callers, stop, pc⟩ := c
  obtain ⟨hnested, hlt, hplace⟩ := h
  unfold next event Event.After Holds
  dsimp only at *
  cases pc with
  | lockBegin =>
    refine leads_goTry hnested (Nat.lt_succ_self _) hlt (Nat.le_refl _) fun i => ?_
    dsimp only
    rw [false_or]
    omega
  | trying limit cur =>
    obtain ⟨hcur, hlimit, hstop⟩ := hplace
    cases ok with
    | true =>
      refine leads_goTry hnested (Nat.lt_succ_of_lt hcur) hlimit hstop fun i => ?_
      simp only [true_and]
      omega
    | false =>
      refine leads_goUndo hnested hcur (Nat.le_refl _) hlimit hstop fun i => ?_
      simp
  | undoing limit cur failed =>
    obtain ⟨hcur, hfailed, hlimit, hstop⟩ := hplace
    refine leads_goUndo hnested (by dsimp only; omega) (by omega) hlimit hstop fun i => ?_
    dsimp only
    omega
  | dropping cur failed =>
    obtain ⟨hfailed, hcur, hstop⟩ := hplace
    refine leads_goDrop hnested hfailed (Nat.lt_succ_of_lt hcur) hstop fun i => ?_
    dsimp only
    omega
  | dropBegin failed =>
    refine ⟨⟨⟨hplace.1, hnested⟩, hplace.2, trivial⟩, fun _ => Iff.rfl, fun i => ?_⟩
    exact iff_of_false (fun h => h.2 h.1) id
  | tryBegin next =>
    obtain ⟨hnext, hstop⟩ := hplace
    cases ok with
    | true =>
      refine leads_goTry hnested (Nat.lt_succ_self _) hnext (Nat.le_of_lt hstop) fun i => ?_
      simp only [true_and]
      omega
    | false => exact ⟨⟨hnested, hlt, hnext, hstop⟩, fun _ => Iff.rfl, fun i => by unfold Holds; simp⟩
  | dropGuard cur =>
    by_cases heq : cur + 1 = stop
    · refine ⟨⟨hnested, hlt, by dsimp only; rw [if_pos heq]; trivial⟩, fun _ => Iff.rfl, fun i => ?_⟩
      rw [if_pos heq]
      exact iff_of_false (by omega) id
    · refine ⟨⟨hnested, hlt, by dsimp only; rw [if_neg heq]; dsimp only; omega⟩, fun _ => Iff.rfl, fun i => ?_⟩
      unfold Holds
      dsimp only
      rw [if_neg heq]
      omega

end Call

/-! ## Threads -/

/-- The locks, the calls of the threads, and the locks that the guards of a thread will unlock. -/
structure Locks (T : Type) where
  owner : ℕ → Option T
  calls : T → Option Call
  kept : T → ℕ → Prop

def free {T : Type} : Locks T := ⟨fun _ => none, fun _ => none, fun _ _ => False⟩

section Threads

variable {T : Type} {s s' : Locks T} {t : T}

structure Kept (s : Locks T) : Prop where
  owner : ∀ t i, s.owner i = some t ↔ s.kept t i ∨ ∃ c, s.calls t = some c ∧ c.Holds i
  wf : ∀ t c, s.calls t = some c → c.Wf
  apart : ∀ t c, s.calls t = some c → ∀ i, c.Covers i → ¬ s.kept t i

/-- What the call holds is its thread's. -/
theorem Kept.holds (h : Kept s) (hc : s.calls t = some c) (hi : c.Holds i) :
    s.owner i = some t := (h.owner t i).mpr (.inr ⟨c, hc, hi⟩)

/-- Of its range, the thread has only what the call holds. -/
theorem Kept.not_owner (h : Kept s) (hc : s.calls t = some c) (hcovers : c.Covers i)
    (hi : ¬ c.Holds i) : s.owner i ≠ some t := by
  intro howner
  rcases (h.owner t i).mp howner with hkept | ⟨c', hc', hholds⟩
  · exact h.apart t c hc i hcovers hkept
  · exact hi (some.inj (hc.symm.trans hc') ▸ hholds)

theorem Kept.unlock (h : Kept s) (hc : s.calls t = some c) (hi : c.event = .unlock i) : s.owner i = some t := by
  have hfits := (h.wf t c hc).fits
  unfold Call.Fits at hfits
  rw [hi] at hfits
  exact h.holds hc hfits

variable [DecidableEq T]

/-- A thread waits until a lock is free, and a `try_lock` can succeed only then. -/
def Event.Enabled (e : Event) (ok : Bool) (owner : ℕ → Option T) : Prop :=
  match e with
  | .lock i => owner i = none
  | .tryLock i => ok = true → owner i = none
  | .unlock _ => True

def Event.apply (e : Event) (t : T) (ok : Bool) (owner : ℕ → Option T) : ℕ → Option T :=
  match e with
  | .lock i => update owner i (some t)
  | .tryLock i => if ok then update owner i (some t) else owner
  | .unlock i => update owner i none

/-- A thread calls `LockRange`, makes the next operation of its call, or unlocks a lock of a guard. -/
inductive Step (s : Locks T) : Locks T → Prop
  | call {t : T} {first stop : ℕ} (h : s.calls t = none) (hlt : first < stop)
    (hkept : ∀ i, first ≤ i → i < stop → ¬ s.kept t i) :
    Step s { s with calls := update s.calls t (some ⟨first, [], stop, .lockBegin⟩) }
  | act {t : T} {c : Call} {ok : Bool} (h : s.calls t = some c) (henabled : c.event.Enabled ok s.owner) :
    Step s {
      owner := c.event.apply t ok s.owner
      calls := update s.calls t (c.next ok)
      kept := if (c.next ok).isNone then update s.kept t (fun i => s.kept t i ∨ c.Covers i) else s.kept }
  | release {t : T} {i : ℕ} (h : s.calls t = none) (hi : s.kept t i) :
    Step s { s with
      owner := update s.owner i none
      kept := update s.kept t fun j => s.kept t j ∧ j ≠ i }

theorem Event.apply_iff {e : Event} {ok : Bool} {owner : ℕ → Option T} {i : ℕ} {u : T}
    (henabled : e.Enabled ok owner) (howner : ∀ j, e = .unlock j → owner j = some t) :
    e.apply t ok owner i = some u ↔ if u = t then e.After ok (owner · = some t) i else owner i = some u := by
  unfold Event.Enabled at henabled
  unfold Event.apply Event.After
  cases e with
  | lock j =>
    dsimp only at *
    rw [update_apply]
    split_ifs with hi hu hu <;> simp_all [eq_comm]
  | tryLock j =>
    dsimp only at *
    cases ok with
    | false => split_ifs <;> simp_all
    | true =>
      rw [if_pos rfl, update_apply]
      split_ifs with hi hu hu <;> simp_all [eq_comm]
  | unlock j =>
    dsimp only at *
    rw [update_apply]
    split_ifs with hi hu hu <;> simp_all [eq_comm]

theorem Kept.apply_iff (h : Kept s) {c : Call} (hc : s.calls t = some c) {ok : Bool}
    (henabled : c.event.Enabled ok s.owner) {i : ℕ} {u : T} : c.event.apply t ok s.owner i = some u ↔
      if u = t then s.kept t i ∨ c.event.After ok c.Holds i else s.owner i = some u := by
  rw [Event.apply_iff henabled fun j hj => h.unlock hc hj]
  by_cases hu : u = t
  swap
  · rw [if_neg hu, if_neg hu]
  rw [if_pos hu, if_pos hu]
  have howner (j : ℕ) : s.owner j = some t ↔ s.kept t j ∨ c.Holds j := by
    rw [h.owner]
    refine or_congr_right ⟨?_, fun hj => ⟨c, hc, hj⟩⟩
    rintro ⟨c', hc', hj⟩
    exact some.inj (hc.symm.trans hc') ▸ hj
  unfold Event.After
  cases he : c.event with
  | lock j => exact (or_congr_left (howner i)).trans or_assoc
  | tryLock j => exact (or_congr_left (howner i)).trans or_assoc
  | unlock j =>
    -- A lock of a guard is none of the range.
    have hj : c.Holds j := by
      have hfits := (h.wf t c hc).fits
      unfold Call.Fits at hfits
      rwa [he] at hfits
    have hne : s.kept t i → i ≠ j := fun hkept heq =>
      h.apart t c hc j ((h.wf t c hc).holds_covers hj) (heq ▸ hkept)
    dsimp only
    rw [howner]
    tauto

theorem Kept.step (h : Kept s) (hs : Step s s') : Kept s' := by
  cases hs with
  | @call t first stop hnone hlt hkept =>
    constructor
    · intro u i
      dsimp only
      rw [h.owner, update_apply]
      split_ifs with hu
      · rw [hu, hnone]
        simp [Call.Holds]
      · rfl
    · intro u c hc
      dsimp only at hc
      rw [update_apply] at hc
      split_ifs at hc with hu
      · obtain rfl := some.inj hc
        exact ⟨trivial, hlt, trivial⟩
      · exact h.wf u c hc
    · intro u c hc i hi
      dsimp only at hc
      rw [update_apply] at hc
      split_ifs at hc with hu
      · obtain rfl := some.inj hc
        exact hu ▸ hkept i hi.1 hi.2
      · exact h.apart u c hc i hi
  | @act t c ok hc henabled =>
    have hleads := (h.wf t c hc).leads ok
    constructor
    · intro u i
      dsimp only
      rw [h.apply_iff hc henabled, update_apply]
      by_cases hu : u = t
      · rw [if_pos hu, if_pos hu, hu]
        cases hnext : c.next ok with
        | none =>
          rw [hnext] at hleads
          rw [hleads i]
          simp
        | some c' =>
          rw [hnext] at hleads
          rw [hleads.2.2 i, if_neg (by simp)]
          simp
      · rw [if_neg hu, if_neg hu, h.owner]
        split_ifs
        · rw [update_of_ne hu]
        · rfl
    · intro u c' hc'
      dsimp only at hc'
      rw [update_apply] at hc'
      split_ifs at hc' with hu
      · rw [hc'] at hleads
        exact hleads.1
      · exact h.wf u c' hc'
    · intro u c' hc' i hi
      dsimp only at hc' ⊢
      rw [update_apply] at hc'
      split_ifs at hc' with hu
      · rw [hc'] at hleads ⊢
        rw [if_neg (by simp), hu]
        exact h.apart t c hc i ((hleads.2.1 i).mp hi)
      · split_ifs
        · rw [update_of_ne hu]
          exact h.apart u c' hc' i hi
        · exact h.apart u c' hc' i hi
  | @release t i hnone hi =>
    constructor
    · intro u j
      dsimp only
      rw [update_apply, update_apply]
      split_ifs with hj hu hu
      · rw [hu, hnone]
        simp [hj]
      · -- No other thread has the lock.
        refine iff_of_false nofun fun hother => hu ?_
        have howner := ((h.owner u i).mpr (hj ▸ hother)).symm.trans ((h.owner t i).mpr (.inl hi))
        exact some.inj howner
      · rw [h.owner, hu]
        simp [hj]
      · exact h.owner u j
    · exact h.wf
    · intro u c hc j hj
      dsimp only
      rw [update_apply]
      split_ifs with hu
      · exact fun hkept => h.apart u c hc j hj (hu ▸ hkept.1)
      · exact h.apart u c hc j hj

theorem kept_run (h : Relation.ReflTransGen Step free s) : Kept s := by
  induction h with
  | refl => exact ⟨fun t i => by simp [free], nofun, nofun⟩
  | tail _ hs ih => exact ih.step hs

end Threads

/-- A thread has called `LockRange(0, 2)`. -/
def called : Locks ℕ := { free with calls := update (fun _ => none) 0 (some ⟨0, [], 2, .lockBegin⟩) }

end ShadPS4.Common.RangeLock
