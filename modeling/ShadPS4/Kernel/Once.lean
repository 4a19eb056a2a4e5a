import ShadPS4.Lib.Transition

/-!
# `posix_pthread_once`

The calls on a control block share one atomic word. A step of a call is one access of it, or the run
of `init_routine`, which ends or is cancelled.
-/

namespace ShadPS4.Kernel

open Function
open Option (some.inj)

inductive PthreadOnceState
  | NeverDone
  | Done
  | InProgress
  | Wait
  | invalid
deriving DecidableEq

inductive OncePc
  | load
  /-- `NeverDone` was read, and is to be exchanged for `InProgress` -/
  | claim
  /-- `InProgress` was read, and is to be exchanged for `Wait` -/
  | join
  | wait
  | blocked
  /-- in `init_routine`, with the cleanup handler on the thread's list -/
  | init
  /-- `InProgress` is to be exchanged, after `init_routine` or in `once_cancel_handler` -/
  | exchange (cancelled : Bool)
  | store (cancelled : Bool)
  | notify (cancelled : Bool)
  | returned (result : ℕ)
  | exited

/-- A control block, with the calls on it. -/
structure PthreadOnce where
  state : PthreadOnceState
  calls : ℕ → OncePc
  /-- how often `init_routine` ran to its end -/
  completed : ℕ := 0

def POSIX_EINVAL : ℕ := 22

/-- What the word becomes when the call is through with it. -/
def released (cancelled : Bool) : PthreadOnceState := if cancelled then .NeverDone else .Done

def OncePc.left (cancelled : Bool) : OncePc := if cancelled then .exited else .returned 0

namespace PthreadOnce

variable (o : PthreadOnce)

/-- A call goes to a place. -/
def goTo (t : ℕ) (pc : OncePc) : PthreadOnce :=
  { o with calls := update o.calls t pc }

/-- `compare_exchange_strong`, with the places where the call goes on. -/
def exchange (t : ℕ) (expected desired : PthreadOnceState) (done failed : OncePc) : PthreadOnce :=
  if o.state = expected then { o.goTo t done with state := desired } else o.goTo t failed

/-- `notify_all`: the blocked calls read the word again. -/
def notifyAll : PthreadOnce :=
  { o with calls := fun t => match o.calls t with
    | .blocked => .wait
    | pc => pc }

def run (t : ℕ) : Option PthreadOnce :=
  match o.calls t with
  | .load => match o.state with
    | .Done => some (o.goTo t (.returned 0))
    | .NeverDone => some (o.goTo t .claim)
    | .InProgress => some (o.goTo t .join)
    | .Wait => some (o.goTo t .wait)
    | .invalid => some (o.goTo t (.returned POSIX_EINVAL))
  | .claim => some (o.exchange t .NeverDone .InProgress .init .load)
  | .join => some (o.exchange t .InProgress .Wait .wait .load)
  | .wait => some (o.goTo t (if o.state = .Wait then .blocked else .load))
  | .init => some { o.goTo t (.exchange false) with completed := o.completed + 1 }
  | .exchange cancelled =>
    some (o.exchange t .InProgress (released cancelled) (.left cancelled) (.store cancelled))
  | .store cancelled => some { o.goTo t (.notify cancelled) with state := released cancelled }
  | .notify cancelled => some (o.notifyAll.goTo t (.left cancelled))
  | _ => none

/-- `init_routine` is cancelled, and its cleanup handler runs. -/
def cancel (t : ℕ) : Option PthreadOnce :=
  match o.calls t with
  | .init => some (o.goTo t (.exchange true))
  | _ => none

/-- A blocked call wakes without having been notified. -/
def wakeSpuriously (t : ℕ) : Option PthreadOnce :=
  match o.calls t with
  | .blocked => some (o.goTo t .wait)
  | _ => none

end PthreadOnce

inductive OnceOp
  | run (t : ℕ)
  | cancel (t : ℕ)
  | wakeSpuriously (t : ℕ)

def PthreadOnce.step (o : PthreadOnce) : OnceOp → Option PthreadOnce
  | .run t => o.run t
  | .cancel t => o.cancel t
  | .wakeSpuriously t => o.wakeSpuriously t

/-- The control block is `PTHREAD_ONCE_INIT`, and no call has begun. -/
def PthreadOnce.IsNew (o : PthreadOnce) : Prop :=
  o.state = .NeverDone ∧ (∀ t, o.calls t = .load) ∧ o.completed = 0

/-! ## The invariant -/

/-- The call has the word, from its claim to its release. -/
def OncePc.Holds : OncePc → Prop
  | .init => True
  | .exchange _ => True
  | .store _ => True
  | _ => False

/-- The run of `init_routine` has ended, and the word is not yet `Done`. -/
def OncePc.Finishes (pc : OncePc) : Prop := pc = .exchange false ∨ pc = .store false

def OncePc.Fits (state : PthreadOnceState) (completed : ℕ) : OncePc → Prop
  | .init => state = .InProgress ∨ state = .Wait
  | .exchange cancelled => (state = .InProgress ∨ state = .Wait) ∧ (cancelled = false → completed = 1)
  | .store cancelled => state = .Wait ∧ (cancelled = false → completed = 1)
  | .notify cancelled => cancelled = false → completed = 1
  | .returned result => result = 0 → completed = 1
  | _ => True

/-- What holds between the steps. -/
structure PthreadOnce.Kept (o : PthreadOnce) : Prop where
  fits : ∀ t, (o.calls t).Fits o.state o.completed
  alone : ∀ t u, (o.calls t).Holds → (o.calls u).Holds → t = u
  blocked : ∀ t, o.calls t = .blocked → o.state = .Wait ∨ ∃ u, ∃ cancelled, o.calls u = .notify cancelled
  ended : o.completed = 0 ∨ o.completed = 1 ∧ (o.state = .Done ∨ ∃ t, (o.calls t).Finishes)
  done : o.state = .Done → o.completed = 1

namespace PthreadOnce

variable {o o' : PthreadOnce} {t u : ℕ} {pc : OncePc}

theorem Kept.held (h : o.Kept) (ht : (o.calls t).Holds) : o.state = .InProgress ∨ o.state = .Wait := by
  have hfits := h.fits t
  cases hpc : o.calls t <;> rw [hpc] at ht hfits
  case init => exact hfits
  case exchange => exact hfits.1
  case store => exact .inr hfits.1
  all_goals exact ht.elim

theorem goTo_self (o : PthreadOnce) (t : ℕ) (pc : OncePc) : (o.goTo t pc).calls t = pc :=
  update_self ..

theorem goTo_of_ne (h : u ≠ t) : (o.goTo t pc).calls u = o.calls u := update_of_ne h ..

theorem forall_goTo {P : ℕ → OncePc → Prop} (hpc : P t pc) (h : ∀ u ≠ t, P u (o.calls u)) :
    ∀ u, P u ((o.goTo t pc).calls u) := by
  intro u
  rcases eq_or_ne u t with rfl | hu
  · rwa [goTo_self]
  · rw [goTo_of_ne hu]
    exact h u hu

theorem exists_goTo {P : OncePc → Prop} (h : ∃ u, P (o.calls u)) (hpc : P (o.calls t) → P pc) :
    ∃ u, P ((o.goTo t pc).calls u) := by
  obtain ⟨u, hu⟩ := h
  rcases eq_or_ne u t with rfl | hne
  · exact ⟨u, by rw [goTo_self]; exact hpc hu⟩
  · exact ⟨u, by rwa [goTo_of_ne hne]⟩

theorem Kept.update (h : o.Kept) {state : PthreadOnceState} {completed : ℕ}
    (hothers : ∀ u ≠ t, (o.calls u).Fits state completed) (hfits : pc.Fits state completed)
    (hholds : pc.Holds → (o.calls t).Holds ∨ ∀ u, ¬ (o.calls u).Holds)
    (hblocked : (pc = .blocked → state = .Wait) ∧ (o.state = .Wait → state = .Wait ∨
      ∃ cancelled, pc = .notify cancelled))
    (hnotify : (∀ cancelled, o.calls t ≠ .notify cancelled) ∨ ∀ u, o.calls u ≠ .blocked)
    (hended : completed = 0 ∨ completed = 1 ∧ (state = .Done ∨
      ∃ u, ((o.goTo t pc).calls u).Finishes)) (hdone : state = .Done → completed = 1) :
    Kept ⟨state, (o.goTo t pc).calls, completed⟩ := by
  have hfree (u : ℕ) (hu : u ≠ t) (hpc : pc.Holds) : ¬ (o.calls u).Holds := by
    rcases hholds hpc with ht | hnone
    · exact fun hheld => hu (h.alone u t hheld ht)
    · exact hnone u
  constructor
  case fits =>
    exact forall_goTo (P := fun _ pc => pc.Fits state completed) hfits hothers
  case alone =>
    intro u v (hu : ((o.goTo t pc).calls u).Holds) (hv : ((o.goTo t pc).calls v).Holds)
    rcases eq_or_ne u t with rfl | hut
    · rcases eq_or_ne v u with rfl | hvu
      · rfl
      · rw [goTo_self] at hu
        rw [goTo_of_ne hvu] at hv
        exact absurd hv (hfree v hvu hu)
    · rw [goTo_of_ne hut] at hu
      rcases eq_or_ne v t with rfl | hvt
      · rw [goTo_self] at hv
        exact absurd hu (hfree u hut hv)
      · rw [goTo_of_ne hvt] at hv
        exact h.alone u v hu hv
  case blocked =>
    intro u (hu : (o.goTo t pc).calls u = .blocked)
    rcases eq_or_ne u t with rfl | hut
    · exact .inl (hblocked.1 ((goTo_self ..).symm.trans hu))
    rw [goTo_of_ne hut] at hu
    rcases h.blocked u hu with hwait | ⟨v, cancelled, hv⟩
    · exact (hblocked.2 hwait).imp_right fun ⟨cancelled, hpc⟩ =>
        ⟨t, cancelled, (goTo_self ..).trans hpc⟩
    · have hvt : v ≠ t := by
        rintro rfl
        exact hnotify.elim (fun hn => hn cancelled hv) fun hn => hn u hu
      exact .inr ⟨v, cancelled, (goTo_of_ne hvt).trans hv⟩
  case ended => exact hended
  case done => exact hdone

theorem Kept.move (h : o.Kept) (hfits : pc.Fits o.state o.completed)
    (hholds : pc.Holds → (o.calls t).Holds) (hblocked : pc = .blocked → o.state = .Wait)
    (hnotify : (∀ cancelled, o.calls t ≠ .notify cancelled) ∨ ∀ u, o.calls u ≠ .blocked)
    (hfinishes : (o.calls t).Finishes → pc.Finishes) : (o.goTo t pc).Kept :=
  h.update (fun u _ => h.fits u) hfits (fun hpc => .inl (hholds hpc)) ⟨hblocked, .inl⟩ hnotify
    (h.ended.imp_right (And.imp_right (Or.imp_right fun he => exists_goTo he hfinishes))) h.done

theorem fits_of_not_holds {state state' : PthreadOnceState} {completed completed' : ℕ}
    (h : pc.Fits state completed) (hpc : ¬ pc.Holds) (hcount : completed = 1 → completed' = 1) :
    pc.Fits state' completed' := by
  cases pc with
  | init => exact (hpc trivial).elim
  | exchange => exact (hpc trivial).elim
  | store => exact (hpc trivial).elim
  | notify => exact fun hc => hcount (h hc)
  | returned => exact fun hr => hcount (h hr)
  | _ => trivial

theorem holds_of_finishes (h : pc.Finishes) : pc.Holds := by
  rcases h with rfl | rfl <;> trivial

theorem Kept.completed_eq_zero (h : o.Kept) (ht : (o.calls t).Holds) (hnot : ¬ (o.calls t).Finishes) :
    o.completed = 0 := by
  rcases h.ended with hzero | ⟨-, hdone | ⟨u, hu⟩⟩
  · exact hzero
  · rcases h.held ht with hstate | hstate <;> rw [hdone] at hstate <;> cases hstate
  · obtain rfl := h.alone u t (holds_of_finishes hu) ht
    exact absurd hu hnot

theorem Kept.claim (h : o.Kept) (hpc : o.calls t = .claim) (hstate : o.state = .NeverDone) :
    { o.goTo t .init with state := .InProgress }.Kept := by
  have hnone (u : ℕ) : ¬ (o.calls u).Holds := by
    intro hu
    rcases h.held hu with hheld | hheld <;> rw [hstate] at hheld <;> cases hheld
  apply h.update fun u _ => fits_of_not_holds (h.fits u) (hnone u) id
  case hfits => exact .inl rfl
  case hholds => exact fun _ => .inr hnone
  case hblocked => exact ⟨nofun, fun hwait => by rw [hstate] at hwait; cases hwait⟩
  case hnotify => exact .inl fun _ => by rw [hpc]; exact nofun
  case hended =>
    refine h.ended.imp_right (And.imp_right fun hor => ?_)
    rcases hor with hdone | ⟨u, hu⟩
    · rw [hstate] at hdone
      cases hdone
    · exact absurd (holds_of_finishes hu) (hnone u)
  case hdone => exact nofun

theorem Kept.join (h : o.Kept) (hpc : o.calls t = .join) (hstate : o.state = .InProgress) :
    { o.goTo t .wait with state := .Wait }.Kept := by
  apply h.update
  case hothers =>
    intro u _
    have hfits := h.fits u
    cases hu : o.calls u <;> rw [hu] at hfits
    case init => exact .inr rfl
    case exchange => exact ⟨.inr rfl, hfits.2⟩
    case store => exact ⟨rfl, hfits.2⟩
    all_goals exact hfits
  case hfits => trivial
  case hholds => exact fun hwait => hwait.elim
  case hblocked => exact ⟨nofun, fun _ => .inl rfl⟩
  case hnotify => exact .inl fun _ => by rw [hpc]; exact nofun
  case hended =>
    refine h.ended.imp_right (And.imp_right fun hor => .inr ?_)
    rcases hor with hdone | he
    · rw [hstate] at hdone
      cases hdone
    · refine exists_goTo he fun hfin => ?_
      rw [hpc] at hfin
      exact hfin.elim nofun nofun
  case hdone => exact nofun

theorem Kept.complete (h : o.Kept) (hpc : o.calls t = .init) :
    { o.goTo t (.exchange false) with completed := o.completed + 1 }.Kept := by
  have ht : (o.calls t).Holds := hpc ▸ trivial
  have hzero := h.completed_eq_zero ht (by rw [hpc]; exact fun hfin => hfin.elim nofun nofun)
  have hone : o.completed + 1 = 1 := by rw [hzero]
  apply h.update
  case hfits => exact ⟨h.held ht, fun _ => hone⟩
  case hothers =>
    intro u hu
    exact fits_of_not_holds (h.fits u) (fun hheld => hu (h.alone u t hheld ht)) fun _ => hone
  case hholds => exact fun _ => .inl ht
  case hblocked => exact ⟨nofun, .inl⟩
  case hnotify => exact .inl fun _ => by rw [hpc]; exact nofun
  case hended => exact .inr ⟨hone, .inr ⟨t, .inl (goTo_self ..)⟩⟩
  case hdone => exact fun _ => hone

theorem Kept.release (h : o.Kept) {cancelled : Bool} (ht : (o.calls t).Holds)
    (hcompleted : cancelled = false → o.completed = 1)
    (hfinishes : cancelled = true → ¬ (o.calls t).Finishes) (hfits : pc.Fits (released cancelled) o.completed)
    (hholds : ¬ pc.Holds) (hblocked : pc ≠ .blocked) (hwait : o.state = .Wait → ∃ cancelled, pc = .notify cancelled) :
    { o.goTo t pc with state := released cancelled }.Kept := by
  apply h.update
  case hfits => exact hfits
  case hothers =>
    intro u hu
    exact fits_of_not_holds (h.fits u) (fun hheld => hu (h.alone u t hheld ht)) id
  case hholds => exact fun hpc => absurd hpc hholds
  case hblocked => exact ⟨fun hpc => absurd hpc hblocked, fun hw => .inr (hwait hw)⟩
  case hnotify => exact .inl fun _ hpc => by rw [hpc] at ht; exact ht
  case hended =>
    cases cancelled with
    | false => exact .inr ⟨hcompleted rfl, .inl rfl⟩
    | true => exact .inl (h.completed_eq_zero ht (hfinishes rfl))
  case hdone =>
    cases cancelled with
    | false => exact fun _ => hcompleted rfl
    | true => exact nofun

theorem notifyAll_calls (o : PthreadOnce) (u : ℕ) : o.notifyAll.calls u = o.calls u ∧ o.calls u ≠ .blocked ∨
      o.notifyAll.calls u = .wait ∧ o.calls u = .blocked := by
  unfold notifyAll
  dsimp only
  cases o.calls u <;> simp

theorem Kept.notifyAll (h : o.Kept) : o.notifyAll.Kept ∧ ∀ u, o.notifyAll.calls u ≠ .blocked := by
  have hnone (u : ℕ) : o.notifyAll.calls u ≠ .blocked := by
    rcases notifyAll_calls o u with ⟨hu, hne⟩ | ⟨hu, -⟩ <;> rw [hu]
    · exact hne
    · exact nofun
  have hholds (u : ℕ) (hu : (o.notifyAll.calls u).Holds) : (o.calls u).Holds := by
    rcases notifyAll_calls o u with ⟨hsame, -⟩ | ⟨hwait, -⟩
    · rwa [hsame] at hu
    · rw [hwait] at hu
      exact hu.elim
  refine ⟨?_, hnone⟩
  constructor
  case fits =>
    intro u
    rcases notifyAll_calls o u with ⟨hu, -⟩ | ⟨hu, -⟩ <;> rw [hu]
    · exact h.fits u
    · trivial
  case alone => exact fun u v hu hv => h.alone u v (hholds u hu) (hholds v hv)
  case blocked => exact fun u hu => absurd hu (hnone u)
  case ended =>
    refine h.ended.imp_right (And.imp_right (Or.imp_right fun ⟨u, hu⟩ => ⟨u, ?_⟩))
    rcases notifyAll_calls o u with ⟨hsame, -⟩ | ⟨-, hblocked⟩
    · rwa [hsame]
    · rw [hblocked] at hu
      exact hu.elim nofun nofun
  case done => exact h.done

theorem Kept.go (h : o.Kept) (hpc : o.calls t = before)
    (hquiet : ¬ before.Holds ∧ ∀ cancelled, before ≠ .notify cancelled)
    (hfits : pc.Fits o.state o.completed) (hholds : ¬ pc.Holds)
    (hblocked : pc = .blocked → o.state = .Wait) : (o.goTo t pc).Kept := by
  subst hpc
  exact h.move hfits (fun hp => absurd hp hholds) hblocked (.inl hquiet.2)
    fun hfin => absurd (holds_of_finishes hfin) hquiet.1

theorem Kept.run (h : o.Kept) (hstep : o.run t = some o') : o'.Kept := by
  have hfits := h.fits t
  unfold PthreadOnce.run at hstep
  cases hpc : o.calls t <;> rw [hpc] at hstep hfits
  case load =>
    cases hstate : o.state <;> rw [hstate] at hstep <;> obtain rfl := some.inj hstep
    case Done => exact h.go hpc ⟨id, nofun⟩ (fun _ => h.done hstate) id nofun
    case invalid => exact h.go hpc ⟨id, nofun⟩ (nofun : POSIX_EINVAL = 0 → _) id nofun
    all_goals exact h.go hpc ⟨id, nofun⟩ trivial id nofun
  case claim =>
    obtain rfl := some.inj hstep
    unfold exchange
    split_ifs with hstate
    · exact h.claim hpc hstate
    · exact h.go hpc ⟨id, nofun⟩ trivial id nofun
  case join =>
    obtain rfl := some.inj hstep
    unfold exchange
    split_ifs with hstate
    · exact h.join hpc hstate
    · exact h.go hpc ⟨id, nofun⟩ trivial id nofun
  case wait =>
    obtain rfl := some.inj hstep
    split_ifs with hstate
    · exact h.go hpc ⟨id, nofun⟩ trivial id fun _ => hstate
    · exact h.go hpc ⟨id, nofun⟩ trivial id nofun
  case init => exact some.inj hstep ▸ h.complete hpc
  case exchange cancelled =>
    obtain rfl := some.inj hstep
    have ht : (o.calls t).Holds := hpc ▸ trivial
    unfold exchange
    split_ifs with hstate
    · apply h.release ht hfits.2
      case hfinishes =>
        rintro rfl
        rw [hpc]
        exact fun hfin => by rcases hfin with hfin | hfin <;> cases hfin
      case hwait => exact fun hwait => by rw [hstate] at hwait; cases hwait
      case hfits => cases cancelled with
        | false => exact fun _ => hfits.2 rfl
        | true => trivial
      all_goals cases cancelled
      all_goals first | exact id | exact nofun
    · have hwait := (h.held ht).resolve_left hstate
      have hpc' : (OncePc.store cancelled).Fits o.state o.completed := ⟨hwait, hfits.2⟩
      apply h.move hpc' (fun _ => ht) nofun (.inl fun _ hp => by rw [hpc] at hp; cases hp)
      rw [hpc]
      rintro (hfin | hfin) <;> cases hfin
      exact .inr rfl
  case store cancelled =>
    obtain rfl := some.inj hstep
    have ht : (o.calls t).Holds := hpc ▸ trivial
    have hpc' : (OncePc.notify cancelled).Fits (released cancelled) o.completed := hfits.2
    apply h.release ht hfits.2 _ hpc' id nofun fun _ => ⟨cancelled, rfl⟩
    rintro rfl
    rw [hpc]
    exact fun hfin => by rcases hfin with hfin | hfin <;> cases hfin
  case notify cancelled =>
    obtain rfl := some.inj hstep
    obtain ⟨hkept, hnone⟩ := h.notifyAll
    have hsame : o.notifyAll.calls t = .notify cancelled := by
      rcases notifyAll_calls o t with ⟨hsame, -⟩ | ⟨-, hblocked⟩
      · rw [hsame, hpc]
      · rw [hpc] at hblocked
        cases hblocked
    apply hkept.move _ _ _ (.inr hnone)
    · rw [hsame]
      exact fun hfin => by rcases hfin with hfin | hfin <;> cases hfin
    · cases cancelled with
      | false => exact fun _ => hfits rfl
      | true => trivial
    all_goals cases cancelled
    all_goals first | exact False.elim | exact nofun
  all_goals cases hstep

theorem Kept.step (h : o.Kept) (hstep : o.step op = some o') : o'.Kept := by
  cases op with
  | run t => exact h.run hstep
  | cancel t =>
    change o.cancel t = some o' at hstep
    unfold cancel at hstep
    split at hstep <;> cases hstep
    rename_i hpc
    have ht : (o.calls t).Holds := hpc ▸ trivial
    have hfits : (OncePc.exchange true).Fits o.state o.completed := ⟨h.held ht, nofun⟩
    apply h.move hfits (fun _ => ht) nofun (.inl fun _ hp => by rw [hpc] at hp; cases hp)
    rw [hpc]
    exact fun hfin => by rcases hfin with hfin | hfin <;> cases hfin
  | wakeSpuriously t =>
    change o.wakeSpuriously t = some o' at hstep
    unfold wakeSpuriously at hstep
    split at hstep <;> cases hstep
    rename_i hpc
    exact h.go hpc ⟨id, nofun⟩ trivial id nofun

theorem Kept.isNew (h : o.IsNew) : o.Kept := by
  obtain ⟨hstate, hcalls, hcompleted⟩ := h
  constructor
  case fits => exact fun t => hcalls t ▸ trivial
  case alone => exact fun t _ ht => by rw [hcalls t] at ht; exact ht.elim
  case blocked => exact fun t ht => by rw [hcalls t] at ht; cases ht
  case ended => exact .inl hcompleted
  case done => exact fun hdone => by rw [hstate] at hdone; cases hdone

/-- In every run at most one call is in `init_routine`, which runs to its end at most once and before any call
returns 0. -/
theorem once_run (h : Run IsNew (fun o op o' => o.step op = some o') (fun _ _ => True) o) :
    (∀ t u, o.calls t = .init → o.calls u = .init → t = u) ∧ o.completed ≤ 1 ∧
      (∀ t, o.calls t = .returned 0 → o.completed = 1) ∧
      (∀ t, o.calls t = .blocked → o.state = .Wait ∨ ∃ u, ∃ cancelled, o.calls u = .notify cancelled) ∧
      ∀ u cancelled, o.calls u = .notify cancelled → ∃ o', o.run u = some o' ∧ ∀ t, o'.calls t ≠ .blocked := by
  have hkept : o.Kept := h.invariant (fun _ => Kept.isNew) fun _ _ _ hk _ hstep => hk.step hstep
  refine ⟨?_, ?_, ?_, hkept.blocked, ?_⟩
  · exact fun t u ht hu => hkept.alone t u (ht ▸ trivial) (hu ▸ trivial)
  · rcases hkept.ended with hzero | ⟨hone, -⟩ <;> omega
  · intro t ht
    have hfits := hkept.fits t
    rw [ht] at hfits
    exact hfits rfl
  · intro u cancelled hu
    refine ⟨o.notifyAll.goTo u (.left cancelled), by unfold PthreadOnce.run; rw [hu], fun t ht => ?_⟩
    rcases eq_or_ne t u with rfl | hne
    · rw [goTo_self] at ht
      cases cancelled <;> cases ht
    · rw [goTo_of_ne hne] at ht
      exact hkept.notifyAll.2 t ht

theorem once_run_sample : ∃ o : PthreadOnce, o.calls 0 = .returned 0 ∧ o.completed = 1 := by
  have hrun : ∃ o, (List.replicate 4 (.run 0)).foldlM PthreadOnce.step
      ⟨.NeverDone, fun _ => .load, 0⟩ = some o ∧ o.calls 0 = .returned 0 := ⟨_, rfl, rfl⟩
  obtain ⟨o, ho, hreturned⟩ := hrun
  have hstart : IsNew ⟨.NeverDone, fun _ => .load, 0⟩ := ⟨rfl, fun _ => rfl, rfl⟩
  exact ⟨o, hreturned, (once_run (.ofList _ (.start hstart) ho)).2.2.1 0 hreturned⟩

end PthreadOnce

end ShadPS4.Kernel
