import ShadPS4.Kernel.MutexRuns

/-!
# Runs of the condition variables

No wake-up is lost.
-/

namespace ShadPS4.Kernel

open Function List
open Option (some.inj some_ne_none)

variable {st st' s s' : PthreadState} {t m : ℕ}

/-! ## Places -/

/-- The thread is in the part of a wait before its first sleep. -/
def PthreadPc.BeforeSleep : PthreadPc → Prop
  | .unlockRelease _ _ (some call) => call.first_sleep = true
  | .unlockWake _ (some call) => call.first_sleep = true
  | .waitAdd call => call.first_sleep = true
  | .waitClear call => call.first_sleep = true
  | .waitCheck call => call.first_sleep = true
  | .sleep _ => True
  | _ => False

/-- The condition variable whose queue the thread has locked. -/
def PthreadPc.queueLock : PthreadPc → Option ℕ
  | .unlockRelease _ _ call => call.map WaitCall.cond
  | .unlockWake _ call => call.map WaitCall.cond
  | .waitAdd call => some call.cond
  | .waitClear call => some call.cond
  | .waitCheck call => some call.cond
  | _ => none

/-- The thread is about to wake the threads that it has deferred, at the end of `Unlock`. -/
def PthreadPc.Unlocks : PthreadPc → Prop
  | .unlockRelease _ deferred none => deferred = true
  | .unlockWake deferred none => deferred = true
  | _ => False

/-- The thread is before or in `Sleep`. -/
def PthreadPc.Sleeps : PthreadPc → Prop
  | .sleep _ => True
  | .asleep _ => True
  | _ => False

def PthreadPc.sleeping : PthreadPc → Option WaitCall
  | .sleep call => some call
  | .asleep call => some call
  | _ => none

def Pthread.InQueue (thread : Pthread) : Prop :=
  match thread.pc with
  | .waitStart call => call.first_sleep = true
  | .waitLock call => call.first_sleep = true ∧ thread.wchan = none
  | .unlockRelease _ _ (some _) => thread.wchan = none
  | .unlockWake _ (some _) => thread.wchan = none
  | .waitAdd _ => thread.wchan = none
  | .waitClear call => thread.wchan = some call.cond
  | .waitCheck call => thread.wchan = some call.cond
  | .sleep call => thread.wchan = some call.cond ∨ thread.wchan = none
  | .asleep call => thread.wchan = some call.cond ∨ thread.wchan = none
  | .waitLoop call => thread.wchan = some call.cond ∨ thread.wchan = none
  | _ => True

/-- The thread is about to release another one, in `Signal` or `Broadcast`. -/
def PthreadPc.Releases (td : ℕ) : PthreadPc → Prop
  | .signalRelease td' => td = td'
  | .broadcastRelease tds => td ∈ tds
  | _ => False

/-- The thread is about to release another one, or has deferred its wake-up. -/
def Pthread.OwesTo (thread : Pthread) (td : ℕ) : Prop :=
  thread.pc.Releases td ∨ td ∈ thread.defer_waiters

/-- A place where the thread has the queues of no wait locked, and wakes nobody. -/
def PthreadPc.Quiet : PthreadPc → Prop
  | .unlockRelease _ _ _ => False
  | .unlockWake _ _ => False
  | .waitAdd _ => False
  | .waitClear _ => False
  | .waitCheck _ => False
  | .sleep _ => False
  | .signalRelease _ => False
  | .broadcastRelease _ => False
  | _ => True

namespace PthreadState

/-- The thread has a permit, or will get one. -/
def Served (st : PthreadState) (td : ℕ) : Prop :=
  1 ≤ (st.threads td).wake_sema ∨ ∃ u, (st.threads u).OwesTo td

/-- The thread owns a mutex with the `Deferred` flag. -/
def OwnsDeferred (st : PthreadState) (t : ℕ) : Prop :=
  ∃ m, (st.mutexes m).m_owner = some t ∧ (st.mutexes m).deferred = true

end PthreadState

/-- What holds of a thread that has some queues locked, and owns a mutex with the `Deferred` flag or not. -/
structure Pthread.Safe (thread : Pthread) (locked : ℕ → Prop) (owns : Prop) : Prop where
  bound : thread.defer_waiters.length ≤ maxDeferWaiters
  owes : thread.defer_waiters ≠ [] → thread.will_sleep = true ∨ owns ∨ thread.pc.Unlocks
  will : thread.will_sleep = true → thread.pc.BeforeSleep
  lock : ∀ c, thread.pc.queueLock = some c → locked c
  queue : thread.InQueue

/-- What holds between the steps. -/
structure PthreadState.Safe (st : PthreadState) : Prop where
  thread : ∀ u, (st.threads u).Safe (fun c => (st.conds c).sc_lock = some u) (st.OwnsDeferred u)
  blocked : ∀ c td, td ∈ (st.conds c).sq_blocked ↔ (st.threads td).wchan = some c
  woken : ∀ td, (st.threads td).pc.Sleeps → (st.threads td).wchan = none → st.Served td

/-- What another thread does to a thread: it may take it out of a queue, and give it permits. -/
structure Pthread.Touched (thread thread' : Pthread) : Prop where
  pc : thread'.pc = thread.pc
  defer : thread'.defer_waiters = thread.defer_waiters
  will : thread'.will_sleep = thread.will_sleep
  permits : thread.wake_sema ≤ thread'.wake_sema
  wchan : thread'.wchan = thread.wchan ∨ (thread'.wchan = none ∧ thread.pc.queueLock = none)

theorem Pthread.Touched.refl {thread : Pthread} : thread.Touched thread :=
  ⟨rfl, rfl, rfl, le_rfl, .inl rfl⟩

theorem Pthread.Safe.touched {thread thread' : Pthread} {locked locked' : ℕ → Prop} {owns owns' : Prop}
    (h : thread.Safe locked owns) (ht : thread.Touched thread') (hlocked : ∀ c, locked c → locked' c)
    (howns : owns → owns') : thread'.Safe locked' owns' := by
  obtain ⟨hpc, hdefer, hwill, -, hwchan⟩ := ht
  constructor
  case bound => exact hdefer ▸ h.bound
  case owes =>
    intro hne
    rw [hdefer] at hne
    rw [hwill, hpc]
    exact (h.owes hne).imp_right (Or.imp_left howns)
  case will =>
    rw [hwill, hpc]
    exact h.will
  case lock =>
    rw [hpc]
    exact fun c hc => hlocked c (h.lock c hc)
  case queue =>
    have hqueue := h.queue
    unfold InQueue at *
    rw [hpc]
    rcases hwchan with hsame | ⟨hnone, hfree⟩
    · rw [hsame]
      exact hqueue
    · rw [hnone]
      split at hqueue
      all_goals first | exact hqueue | exact rfl | exact .inr rfl | skip
      · exact ⟨hqueue.1, rfl⟩
      · rename_i hpc'
        rw [hpc'] at hfree
        cases hfree
      · rename_i hpc'
        rw [hpc'] at hfree
        cases hfree

namespace PthreadState

theorem Safe.update (h : st.Safe) (t : ℕ) (hothers : ∀ u ≠ t, (st.threads u).Touched (st'.threads u))
    (howns : ∀ u ≠ t, st.OwnsDeferred u → st'.OwnsDeferred u)
    (hlocked : ∀ u ≠ t, ∀ c, (st.conds c).sc_lock = some u → (st'.conds c).sc_lock = some u)
    (hdropped : ∀ td ≠ t, (st.threads td).wchan ≠ none → (st'.threads td).wchan = none → st'.Served td)
    (howed : ∀ td, (st.threads t).OwesTo td → (st'.threads t).OwesTo td ∨ 1 ≤ (st'.threads td).wake_sema)
    (hself : (st'.threads t).Safe (fun c => (st'.conds c).sc_lock = some t) (st'.OwnsDeferred t))
    (hblocked : ∀ c td, td ∈ (st'.conds c).sq_blocked ↔ (st'.threads td).wchan = some c)
    (hwoken : (st'.threads t).pc.Sleeps → (st'.threads t).wchan = none → st'.Served t) : st'.Safe := by
  constructor
  case thread =>
    intro u
    rcases eq_or_ne u t with rfl | hu
    · exact hself
    · exact (h.thread u).touched (hothers u hu) (hlocked u hu) (howns u hu)
  case blocked => exact hblocked
  case woken =>
    intro td hsleeps hnone
    rcases eq_or_ne td t with rfl | htd
    · exact hwoken hsleeps hnone
    have htouched := hothers td htd
    rcases Classical.em ((st.threads td).wchan = none) with hbefore | hbefore
    · rw [htouched.pc] at hsleeps
      rcases h.woken td hsleeps hbefore with hpermit | ⟨u, hu⟩
      · exact .inl (hpermit.trans htouched.permits)
      · rcases eq_or_ne u t with rfl | hne
        · exact (howed td hu).symm.imp_right fun howes => ⟨u, howes⟩
        · refine .inr ⟨u, ?_⟩
          unfold Pthread.OwesTo at *
          rwa [(hothers u hne).pc, (hothers u hne).defer]
    · exact hdropped td htd hbefore hnone

/-! ## Steps that leave the others alone -/

theorem Safe.release (h : st.Safe) (tds : List ℕ) : (st.release tds).Safe := by
  constructor
  case thread =>
    intro u
    apply (h.thread u).touched _ (fun _ => id) id
    exact ⟨rfl, rfl, rfl, Nat.le_add_right _ _, .inl rfl⟩
  case blocked => exact h.blocked
  case woken =>
    intro td hsleeps hnone
    rcases h.woken td hsleeps hnone with hpermit | howes
    · exact .inl (hpermit.trans (Nat.le_add_right _ _))
    · exact .inr howes

theorem permit_of_release (h : td ∈ tds) : 1 ≤ ((st.release tds).threads td).wake_sema := by
  have hcount := count_pos_iff.mpr h
  show 1 ≤ (st.threads td).wake_sema + tds.count td
  omega

theorem Safe.alone (h : st.Safe) (thread : Pthread) (hthreads : st'.threads = Function.update st.threads t thread)
    (howns : ∀ u ≠ t, st.OwnsDeferred u → st'.OwnsDeferred u)
    (hlocked : ∀ u ≠ t, ∀ c, (st.conds c).sc_lock = some u → (st'.conds c).sc_lock = some u)
    (howed : ∀ td, (st.threads t).OwesTo td → thread.OwesTo td ∨ 1 ≤ (st'.threads td).wake_sema)
    (hself : thread.Safe (fun c => (st'.conds c).sc_lock = some t) (st'.OwnsDeferred t))
    (hblocked : ∀ c td, td ∈ (st'.conds c).sq_blocked ↔ (st'.threads td).wchan = some c)
    (hwoken : thread.pc.Sleeps → thread.wchan = none → st'.Served t) : st'.Safe := by
  have hthread : st'.threads t = thread := by rw [hthreads, update_self]
  have hother : ∀ u ≠ t, st'.threads u = st.threads u := fun u hu => by
    rw [hthreads, update_of_ne hu]
  apply h.update t _ howns hlocked
  case hdropped =>
    intro td htd hsome hnone
    rw [hother td htd] at hnone
    exact absurd hnone hsome
  case howed => rwa [hthread]
  case hself => rwa [hthread]
  case hblocked => exact hblocked
  case hwoken => rwa [hthread]
  · intro u hu
    rw [hother u hu]
    exact .refl

section

variable (st : PthreadState)

/-- A thread goes to a place, and nothing else of what is kept changes. -/
def Moves (t : ℕ) (pc : PthreadPc) (st' : PthreadState) : Prop :=
  st'.conds = st.conds ∧ ∃ thread : Pthread, st'.threads = update st.threads t thread ∧
    thread.pc = pc ∧ thread.defer_waiters = (st.threads t).defer_waiters ∧
    thread.wchan = (st.threads t).wchan ∧ thread.will_sleep = (st.threads t).will_sleep

theorem moveTo_moves : st.Moves t pc (st.moveTo t pc) :=
  ⟨rfl, _, rfl, rfl, rfl, rfl, rfl⟩

theorem ret_moves : st.Moves t .idle (st.ret t result) :=
  ⟨rfl, _, rfl, rfl, rfl, rfl, rfl⟩

theorem leave_moves : st.Moves t .idle (st.leave t) :=
  ⟨rfl, _, rfl, rfl, rfl, rfl, rfl⟩

theorem waitReturn_moves {call : WaitCall} : st.Moves t .idle (st.waitReturn t call) := by
  unfold waitReturn
  split_ifs
  · exact leave_moves _
  · exact ret_moves _
  · exact ret_moves _

theorem lockReturn_moves : st.Moves t .idle (st.lockReturn t m kind result) := by
  unfold lockReturn
  cases kind with
  | cv call =>
    dsimp only
    split_ifs
    · exact waitReturn_moves (st.setMutex m { st.mutexes m with m_count := call.recurse })
    · exact waitReturn_moves _
    · exact waitReturn_moves _
  | «try» =>
    split_ifs
    · exact ret_moves (st.addDepth t m 1)
    · exact ret_moves _
  | lock timeout =>
    split_ifs
    · exact ret_moves (st.addDepth t m 1)
    · exact ret_moves _

end

theorem OwnsDeferred.setMutex (h : st.OwnsDeferred u)
    (howner : (st.mutexes m).m_owner = some u → mutex.m_owner = some u)
    (hflags : (st.mutexes m).deferred = true → mutex.deferred = true) : (st.setMutex m mutex).OwnsDeferred u := by
  obtain ⟨q, hq, hdeferred⟩ := h
  refine ⟨q, ?_⟩
  show (update st.mutexes m mutex q).m_owner = some u ∧
    (update st.mutexes m mutex q).deferred = true
  rcases eq_or_ne q m with rfl | hne
  · rw [update_self]
    exact ⟨howner hq, hflags hdeferred⟩
  · rw [update_of_ne hne]
    exact ⟨hq, hdeferred⟩

theorem OwnsDeferred.lockReturn (h : st.OwnsDeferred u) : (st.lockReturn t m kind result).OwnsDeferred u := by
  unfold PthreadState.lockReturn
  cases kind with
  | cv call =>
    dsimp only
    split_ifs
    · have hset : (st.setMutex m { st.mutexes m with m_count := call.recurse }).OwnsDeferred u :=
        h.setMutex id id
      unfold OwnsDeferred at *
      rwa [(waitReturn_mutexes _ _ _).1]
    · unfold OwnsDeferred at *
      rwa [(waitReturn_mutexes _ _ _).1]
    · unfold OwnsDeferred at *
      rwa [(waitReturn_mutexes _ _ _).1]
  | «try» =>
    split_ifs <;> exact h
  | lock timeout =>
    split_ifs <;> exact h

theorem Safe.move (h : st.Safe) (hmoves : st.Moves t pc st') (howns : ∀ u ≠ t, st.OwnsDeferred u → st'.OwnsDeferred u)
    (howed : ∀ td, (st.threads t).pc.Releases td → pc.Releases td ∨ 1 ≤ (st'.threads td).wake_sema)
    (howes : (st.threads t).defer_waiters ≠ [] → (st.threads t).will_sleep = true ∨
      st'.OwnsDeferred t ∨ pc.Unlocks) (hwill : (st.threads t).will_sleep = true → pc.BeforeSleep)
    (hlock : ∀ c, pc.queueLock = some c → (st.conds c).sc_lock = some t)
    (hqueue : ∀ thread : Pthread, thread.pc = pc → thread.wchan = (st.threads t).wchan → thread.InQueue)
    (hsleeps : ¬ pc.Sleeps) : st'.Safe := by
  obtain ⟨hconds, thread, hthreads, hpc, hdefer, hwchan, hwillsleep⟩ := hmoves
  apply h.alone thread hthreads howns
  case hlocked =>
    intro u _ c
    rw [hconds]
    exact id
  case howed =>
    intro td howes
    unfold Pthread.OwesTo at *
    rw [hpc, hdefer]
    rcases howes with hreleases | hin
    · exact (howed td hreleases).imp_left .inl
    · exact .inl (.inr hin)
  case hself =>
    constructor
    case bound => exact hdefer ▸ (h.thread t).bound
    case owes =>
      rw [hdefer, hwillsleep, hpc]
      exact howes
    case will =>
      rw [hwillsleep, hpc]
      exact hwill
    case lock =>
      rw [hpc, hconds]
      exact hlock
    case queue => exact hqueue thread hpc hwchan
  case hblocked =>
    intro c td
    rw [hconds, hthreads, h.blocked c td]
    rcases eq_or_ne td t with rfl | htd
    · rw [update_self, hwchan]
    · rw [update_of_ne htd]
  case hwoken =>
    rw [hpc]
    exact fun hs => absurd hs hsleeps

end PthreadState

theorem Pthread.Safe.quiet {thread : Pthread} {locked : ℕ → Prop} {owns : Prop}
    (h : thread.Safe locked owns) (hquiet : thread.pc.Quiet) : thread.will_sleep = false ∧
      (thread.defer_waiters ≠ [] → owns) ∧ ∀ td, ¬ thread.pc.Releases td := by
  have hbefore : ¬ thread.pc.BeforeSleep := by
    intro hbefore
    cases hpc : thread.pc <;> rw [hpc] at hquiet hbefore <;> first | exact hbefore | exact hquiet
  have hwill : ¬ thread.will_sleep = true := fun hwill => hbefore (h.will hwill)
  have hunlocks : ¬ thread.pc.Unlocks := by
    intro hunlocks
    cases hpc : thread.pc <;> rw [hpc] at hquiet hunlocks <;> first | exact hunlocks | exact hquiet
  refine ⟨by simpa using hwill, ?_, ?_⟩
  · intro hne
    exact ((h.owes hne).resolve_left hwill).resolve_right hunlocks
  · intro td hreleases
    cases hpc : thread.pc <;> rw [hpc] at hquiet hreleases <;> first | exact hreleases | exact hquiet

namespace PthreadState

theorem Safe.quiet (h : st.Safe) {pc : PthreadPc} (hquiet : (st.threads t).pc.Quiet)
    (hmoves : st.Moves t pc st') (howns : ∀ u, st.OwnsDeferred u → st'.OwnsDeferred u)
    (hqueue : ∀ thread : Pthread, thread.pc = pc → thread.wchan = (st.threads t).wchan → thread.InQueue)
    (hlock : pc.queueLock = none) (hsleeps : ¬ pc.Sleeps) : st'.Safe := by
  obtain ⟨hwill, howes, hreleases⟩ := (h.thread t).quiet hquiet
  apply h.move hmoves (fun u _ => howns u) _ _ _ _ hqueue hsleeps
  · exact fun td htd => absurd htd (hreleases td)
  · exact fun hne => .inr (.inl (howns t (howes hne)))
  · exact fun hw => absurd (hwill.symm.trans hw) Bool.false_ne_true
  · exact fun c hc => absurd (hlock.symm.trans hc) (some_ne_none c).symm

theorem Safe.returns (h : st.Safe) (hquiet : (st.threads t).pc.Quiet)
    (hmoves : st.Moves t .idle st') (howns : ∀ u, st.OwnsDeferred u → st'.OwnsDeferred u) : st'.Safe := by
  apply h.quiet hquiet hmoves howns _ rfl id
  intro thread hpc _
  unfold Pthread.InQueue
  rw [hpc]
  trivial

/-! ## The steps of the mutexes -/

theorem OwnsDeferred.ofFree (h : st.OwnsDeferred u)
    (hfree : (st.mutexes m).m_owner = none) : (st.setMutex m mutex).OwnsDeferred u := by
  obtain ⟨q, hq, hdeferred⟩ := h
  have hne : q ≠ m := by
    rintro rfl
    rw [hfree] at hq
    cases hq
  refine ⟨q, ?_⟩
  show (update st.mutexes m mutex q).m_owner = some u ∧
    (update st.mutexes m mutex q).deferred = true
  rw [update_of_ne hne]
  exact ⟨hq, hdeferred⟩

variable {kind : LockKind}

theorem Safe.lockLoad (h : st.Safe) (hpc : (st.threads t).pc = .lockLoad m kind)
    (hstep : st.lockLoad t m kind = some st') : st'.Safe := by
  have hquiet : (st.threads t).pc.Quiet := hpc ▸ trivial
  unfold PthreadState.lockLoad at hstep
  dsimp only at hstep
  split_ifs at hstep with howner hspin
  · split at hstep <;> cases hstep
    · exact h.returns hquiet (lockReturn_moves _) fun _ hu => hu.lockReturn
    · apply h.returns hquiet
      · exact lockReturn_moves (st.setMutex m { st.mutexes m with
          m_count := (st.mutexes m).m_count + 1 })
      · intro u hu
        apply OwnsDeferred.lockReturn
        exact hu.setMutex id id
  · cases hstep
    exact h.quiet hquiet (moveTo_moves _) (fun _ => id) (fun _ hpc _ => by
      unfold Pthread.InQueue; rw [hpc]; trivial) rfl id
  · cases hstep
    exact h.quiet hquiet (moveTo_moves _) (fun _ => id) (fun _ hpc _ => by
      unfold Pthread.InQueue; rw [hpc]; trivial) rfl id

theorem Safe.acquire (h : st.Safe) (hquiet : (st.threads t).pc.Quiet) : (st.acquire t m kind).Safe := by
  apply h.quiet hquiet (moveTo_moves (st.setMutex m { st.mutexes m with m_lock := some t }))
  · intro u hu
    exact hu.setMutex id id
  · intro thread hpc _
    unfold Pthread.InQueue
    rw [hpc]
    trivial
  · rfl
  · exact id

theorem Safe.lockSpin (h : st.Safe) {count : ℕ} (hpc : (st.threads t).pc = .lockSpin m kind count) :
    (st.lockSpin t m kind count).Safe := by
  have hquiet : (st.threads t).pc.Quiet := hpc ▸ trivial
  cases count with
  | zero =>
    exact h.quiet hquiet (moveTo_moves _) (fun _ => id) (fun _ hpc _ => by
      unfold Pthread.InQueue; rw [hpc]; trivial) rfl id
  | succ count =>
    unfold PthreadState.lockSpin
    split_ifs
    · exact h.acquire hquiet
    · exact h.quiet hquiet (moveTo_moves _) (fun _ => id) (fun _ hpc _ => by
        unfold Pthread.InQueue; rw [hpc]; trivial) rfl id

theorem Safe.lockBlock (h : st.Safe) (hpc : (st.threads t).pc = .lockBlock m kind)
    (hstep : st.lockBlock t m kind timed_out = some st') : st'.Safe := by
  have hquiet : (st.threads t).pc.Quiet := hpc ▸ trivial
  have hreturns (result : PthreadResult) : (st.lockReturn t m kind result).Safe :=
    h.returns hquiet (lockReturn_moves _) fun _ hu => hu.lockReturn
  unfold PthreadState.lockBlock at hstep
  split_ifs at hstep <;> cases hstep
  · exact hreturns _
  · exact h.acquire hquiet
  · exact hreturns _
  · exact hreturns _

theorem Safe.lockStore (h : st.Safe) (hpc : (st.threads t).pc = .lockStore m kind)
    (hfree : (st.mutexes m).m_owner = none) : (st.lockStore t m kind).Safe := by
  have hquiet : (st.threads t).pc.Quiet := hpc ▸ trivial
  apply h.returns hquiet
  · exact lockReturn_moves (st.setMutex m { st.mutexes m with m_owner := some t })
  · intro u hu
    apply OwnsDeferred.lockReturn
    exact hu.ofFree hfree

theorem OwnsDeferred.clear (h : st.OwnsDeferred u) (mutex : PthreadMutex) (howner : (st.mutexes m).m_owner = some t) :
    (st.setMutex m mutex).OwnsDeferred u ∨ (u = t ∧ (st.mutexes m).deferred = true) := by
  obtain ⟨q, hq, hdeferred⟩ := h
  rcases eq_or_ne q m with rfl | hne
  · rw [howner] at hq
    exact .inr ⟨(some.inj hq).symm, hdeferred⟩
  · refine .inl ⟨q, ?_⟩
    show (update st.mutexes m mutex q).m_owner = some u ∧
      (update st.mutexes m mutex q).deferred = true
    rw [update_of_ne hne]
    exact ⟨hq, hdeferred⟩

theorem Safe.unlockLoad (h : st.Safe) (hpc : (st.threads t).pc = .unlockLoad m) : (st.unlockLoad t m).Safe := by
  have hquiet : (st.threads t).pc.Quiet := hpc ▸ trivial
  unfold PthreadState.unlockLoad unlockOwned
  dsimp only
  split_ifs with howner hrecursive
  · exact h.returns hquiet (ret_moves _) fun _ => id
  · apply h.returns hquiet (ret_moves ((st.addDepth t m (-1)).setMutex m _))
    intro u (hu : (st.addDepth t m (-1)).OwnsDeferred u)
    exact hu.setMutex id id
  · rw [not_not] at howner
    obtain ⟨hwill, howes, hreleases⟩ := (h.thread t).quiet hquiet
    have hclear (u : ℕ) (howns : (st.addDepth t m (-1)).OwnsDeferred u) :=
      howns.clear { st.mutexes m with
        m_flags := (st.mutexes m).m_flags &&& ~~~deferredFlag
        m_owner := none } howner
    apply h.move (moveTo_moves ((st.addDepth t m (-1)).setMutex m _))
    case howns =>
      intro u hu howns
      exact (hclear u howns).resolve_right fun hsame => hu hsame.1
    case howed => exact fun td htd => absurd htd (hreleases td)
    case howes =>
      intro hne
      apply Or.inr
      exact (hclear t (howes hne)).imp_right And.right
    case hwill => exact fun hw => absurd (hwill.symm.trans hw) Bool.false_ne_true
    case hlock => exact fun c hc => by cases hc
    case hqueue =>
      intro thread hpc _
      unfold Pthread.InQueue
      rw [hpc]
      trivial
    case hsleeps => exact id

theorem Safe.unlockRelease (h : st.Safe) {deferred : Bool} {call : Option WaitCall}
    (hpc : (st.threads t).pc = .unlockRelease m deferred call) : (st.unlockRelease t m deferred call).Safe := by
  have howns (u : ℕ) (hu : st.OwnsDeferred u) :
      (st.setMutex m { st.mutexes m with m_lock := none }).OwnsDeferred u := hu.setMutex id id
  have hthread := h.thread t
  apply h.move (moveTo_moves (st.setMutex m { st.mutexes m with m_lock := none }))
  case howns => exact fun u _ => howns u
  case howed =>
    rw [hpc]
    exact fun td htd => htd.elim
  case howes =>
    intro hne
    refine (hthread.owes hne).imp_right (Or.imp (howns t) fun hunlocks => ?_)
    rw [hpc] at hunlocks
    cases call with
    | none => exact hunlocks
    | some call => exact hunlocks
  case hwill =>
    intro hwill
    have hbefore := hthread.will hwill
    rw [hpc] at hbefore
    cases call with
    | none => exact hbefore
    | some call => exact hbefore
  case hlock =>
    have hlock := hthread.lock
    rw [hpc] at hlock
    exact hlock
  case hqueue =>
    intro thread hpc' hwchan
    have hqueue := hthread.queue
    unfold Pthread.InQueue at *
    rw [hpc] at hqueue
    rw [hpc', hwchan]
    cases call with
    | none => trivial
    | some call => exact hqueue
  case hsleeps => exact id

theorem Safe.wakes (h : st.Safe) (thread : Pthread) (hconds : st'.conds = st.conds)
    (hmutexes : st'.mutexes = st.mutexes) (hthreads : st'.threads =
      Function.update (st.release (st.threads t).defer_waiters).threads t thread)
    (hdefer : thread.defer_waiters = []) (hwchan : thread.wchan = (st.threads t).wchan)
    (hpermits : thread.wake_sema = ((st.release (st.threads t).defer_waiters).threads t).wake_sema)
    (hreleases : ∀ td, (st.threads t).pc.Releases td → thread.pc.Releases td)
    (hwill : thread.will_sleep = true → thread.pc.BeforeSleep)
    (hlock : ∀ c, thread.pc.queueLock = some c → (st.conds c).sc_lock = some t)
    (hqueue : thread.InQueue) (hsleeps : thread.pc.Sleeps → (st.threads t).pc.Sleeps) : st'.Safe := by
  have hreleased := h.release (st.threads t).defer_waiters
  have howns (u : ℕ) (hu : st.OwnsDeferred u) : st'.OwnsDeferred u := by
    unfold OwnsDeferred
    rwa [hmutexes]
  have hpermit (td : ℕ) : (st'.threads td).wake_sema =
      ((st.release (st.threads t).defer_waiters).threads td).wake_sema := by
    rw [hthreads]
    rcases eq_or_ne td t with rfl | htd
    · rw [update_self, hpermits]
    · rw [update_of_ne htd]
  -- Who was deferred has a permit, and who is being released still is.
  have howed (td : ℕ) (hin : (st.threads t).OwesTo td) : thread.OwesTo td ∨ 1 ≤ (st'.threads td).wake_sema := by
    rcases hin with hrel | hin
    · exact .inl (.inl (hreleases td hrel))
    · rw [hpermit]
      exact .inr (permit_of_release hin)
  apply hreleased.alone thread hthreads (fun u _ => howns u)
  case hlocked =>
    intro u _ c
    rw [hconds]
    exact id
  case howed => exact howed
  case hself =>
    constructor
    case bound => simp [hdefer]
    case owes => exact fun hne => absurd hdefer hne
    case will => exact hwill
    case lock =>
      rw [hconds]
      exact hlock
    case queue => exact hqueue
  case hblocked =>
    intro c td
    rw [hconds, hthreads, h.blocked c td]
    rcases eq_or_ne td t with rfl | htd
    · rw [update_self, hwchan]
    · rw [update_of_ne htd]
      rfl
  case hwoken =>
    intro hs hnone
    rw [hwchan] at hnone
    rcases h.woken t (hsleeps hs) hnone with hone | ⟨u, hu⟩
    · left
      rw [hpermit]
      exact hone.trans (Nat.le_add_right _ _)
    · rcases eq_or_ne u t with rfl | hne
      · rcases howed u hu with howes | hone
        · right
          refine ⟨u, ?_⟩
          rwa [hthreads, update_self]
        · exact .inl hone
      · right
        refine ⟨u, ?_⟩
        rw [hthreads, update_of_ne hne]
        exact hu

theorem Safe.wakeAll (h : st.Safe) (t : ℕ) : (st.wakeAll t).Safe := by
  have hthread := h.thread t
  exact h.wakes { (st.release (st.threads t).defer_waiters).threads t with
    defer_waiters := [] } rfl rfl rfl rfl rfl rfl (fun _ => id) hthread.will hthread.lock
    hthread.queue id

theorem wakeAll_self (st : PthreadState) (t : ℕ) : ((st.wakeAll t).threads t).pc = (st.threads t).pc ∧
    ((st.wakeAll t).threads t).will_sleep = (st.threads t).will_sleep ∧
    ((st.wakeAll t).threads t).defer_waiters = [] := by
  have hself : (st.wakeAll t).threads t =
      { (st.release (st.threads t).defer_waiters).threads t with defer_waiters := [] } :=
    update_self ..
  rw [hself]
  exact ⟨rfl, rfl, rfl⟩

section

variable (h : st.Safe)

include h

theorem Safe.unlocked {deferred : Bool} {call : Option WaitCall}
    (hpc : (st.threads t).pc = .unlockWake deferred call) (howes : (st.threads t).defer_waiters ≠ [] →
      (st.threads t).will_sleep = true ∨ st.OwnsDeferred t) :
    (call.elim (st.ret t .ok) fun call => st.moveTo t (.waitAdd call)).Safe := by
  have hthread := h.thread t
  have hwill := hthread.will
  have hlock := hthread.lock
  have hqueue := hthread.queue
  unfold Pthread.InQueue at hqueue
  rw [hpc] at hwill hlock hqueue
  have hreleases (td : ℕ) : ¬ (st.threads t).pc.Releases td := by
    rw [hpc]
    exact id
  cases call with
  | none =>
    apply h.move (ret_moves _) (fun _ _ => id) (fun td htd => absurd htd (hreleases td)) _ hwill
    · exact fun c hc => by cases hc
    · intro thread hpc' _
      unfold Pthread.InQueue
      rw [hpc']
      trivial
    · exact id
    · exact fun hne => (howes hne).imp_right .inl
  | some call =>
    have hmoves : st.Moves t (.waitAdd call) (st.moveTo t (.waitAdd call)) := moveTo_moves _
    apply h.move hmoves (fun _ _ => id) (fun td htd => absurd htd (hreleases td)) _ hwill hlock
    · intro thread hpc' hwchan
      unfold Pthread.InQueue
      rw [hpc', hwchan]
      exact hqueue
    · exact id
    · exact fun hne => (howes hne).imp_right .inl

theorem Safe.unlockWake {deferred : Bool} {call : Option WaitCall}
    (hpc : (st.threads t).pc = .unlockWake deferred call) : (st.unlockWake t deferred call).Safe := by
  unfold PthreadState.unlockWake
  split_ifs with hwakes
  · obtain ⟨hpc', -, hempty⟩ := wakeAll_self st t
    exact (h.wakeAll t).unlocked (hpc'.trans hpc) fun hne => absurd hempty hne
  · apply h.unlocked hpc
    intro hne
    rcases (h.thread t).owes hne with hwill | howns | hunlocks
    · exact .inl hwill
    · exact .inr howns
    · rw [hpc] at hunlocks
      cases call with
      | some call => exact hunlocks.elim
      | none =>
        left
        by_contra hwill
        exact hwakes ⟨by simpa using hwill, hunlocks⟩

/-! ## The steps of a wait -/

theorem Safe.waitStart {call : WaitCall} (hpc : (st.threads t).pc = .waitStart call)
    (hstep : st.waitStart t call = some st') : st'.Safe := by
  have hquiet : (st.threads t).pc.Quiet := hpc ▸ trivial
  have hqueue := (h.thread t).queue
  unfold Pthread.InQueue at hqueue
  rw [hpc] at hqueue
  unfold PthreadState.waitStart at hstep
  dsimp only at hstep
  split_ifs at hstep with howner hchan <;> cases hstep
  · exact h.returns hquiet (ret_moves _) fun _ => id
  · exact h.returns hquiet (leave_moves _) fun _ => id
  · rw [not_not] at hchan
    apply h.quiet hquiet (moveTo_moves _) (fun _ => id) _ rfl id
    intro thread hpc' hwchan
    unfold Pthread.InQueue
    rw [hpc']
    exact ⟨hqueue, hwchan.trans hchan⟩

theorem Safe.onQueue (c : ℕ) (thread : Pthread) (hconds : st'.conds = Function.update st.conds c queue)
    (hthreads : st'.threads = Function.update st.threads t thread)
    (hfree : (st.conds c).sc_lock = none ∨ (st.conds c).sc_lock = some t)
    (hothers : ∀ td ≠ t, td ∈ queue.sq_blocked ↔ td ∈ (st.conds c).sq_blocked)
    (hin : t ∈ queue.sq_blocked ↔ thread.wchan = some c)
    (hchan : ∀ q ≠ c, (st.threads t).wchan = some q ↔ thread.wchan = some q)
    (howns : ∀ u ≠ t, st.OwnsDeferred u → st'.OwnsDeferred u)
    (howed : ∀ td, (st.threads t).OwesTo td → thread.OwesTo td)
    (hself : thread.Safe (fun q => (st'.conds q).sc_lock = some t) (st'.OwnsDeferred t))
    (hwoken : thread.pc.Sleeps → thread.wchan ≠ none) : st'.Safe := by
  apply h.alone thread hthreads howns _ (fun td htd => .inl (howed td htd)) hself
  case hblocked =>
    intro q td
    rw [hconds, hthreads]
    rcases eq_or_ne q c with rfl | hq
    · rw [update_self]
      rcases eq_or_ne td t with rfl | hne
      · rw [update_self]
        exact hin
      · rw [update_of_ne hne, hothers td hne]
        exact h.blocked q td
    · rw [update_of_ne hq, h.blocked q td]
      rcases eq_or_ne td t with rfl | hne
      · rw [update_self]
        exact hchan q hq
      · rw [update_of_ne hne]
  case hwoken => exact fun hs hnone => absurd hnone (hwoken hs)
  · intro u hu q hq
    rw [hconds]
    rcases eq_or_ne q c with rfl | hne
    · rcases hfree with hfree | hfree <;> rw [hfree] at hq
      · cases hq
      · exact absurd (some.inj hq).symm hu
    · rwa [update_of_ne hne]

theorem Safe.waitLock {call : WaitCall} (hpc : (st.threads t).pc = .waitLock call)
    (howner : (st.mutexes call.mp).m_owner = some t) (hstep : st.waitLock t call = some st') : st'.Safe := by
  obtain ⟨-, -, hreleases⟩ := (h.thread t).quiet (hpc ▸ trivial)
  have hqueue := (h.thread t).queue
  unfold Pthread.InQueue at hqueue
  rw [hpc] at hqueue
  unfold PthreadState.waitLock at hstep
  dsimp only at hstep
  rw [if_neg (not_not.mpr howner)] at hstep
  split_ifs at hstep with hlock
  rw [not_not] at hlock
  cases hstep
  unfold PthreadState.unlockOwned
  simp only [setMutex_self, setMutex_setMutex]
  rw [if_neg (by simp)]
  apply h.onQueue call.cond { st.threads t with
    will_sleep := true
    pc := .unlockRelease call.mp (st.mutexes call.mp).deferred
      (some { call with recurse := (st.mutexes call.mp).m_count }) } rfl _ (.inl hlock)
  case hothers => exact fun _ _ => Iff.rfl
  case hin => exact h.blocked call.cond t
  case hchan => exact fun _ _ => Iff.rfl
  case howns =>
    intro u hu howns
    exact (howns.clear _ howner).resolve_right fun hsame => hu hsame.1
  case howed => exact fun td howed => .inr (howed.resolve_left (hreleases td))
  case hself =>
    constructor
    case bound => exact (h.thread t).bound
    case owes => exact fun _ => .inl rfl
    case will => exact fun _ => hqueue.1
    case lock =>
      intro c hc
      cases hc
      show (Function.update st.conds _ _ call.cond).sc_lock = some t
      rw [update_self]
    case queue => exact hqueue.2
  case hwoken => exact fun hs => hs.elim
  · show Function.update (Function.update st.threads t _) t _ = _
    rw [update_idem]
    simp only [setMutex, setThread, setCond, update_self]
    rfl

theorem Safe.waitAdd {call : WaitCall} (hpc : (st.threads t).pc = .waitAdd call) : (st.waitAdd t call).Safe := by
  obtain ⟨hbound, howes, hwill, hlock, hqueue⟩ := h.thread t
  unfold Pthread.InQueue at hqueue
  rw [hpc] at howes hwill hlock hqueue
  apply h.onQueue call.cond { st.threads t with
    mutex_obj := some call.mp
    wchan := some call.cond
    pc := .waitClear call } rfl _ (.inr (hlock call.cond rfl))
  case hothers =>
    intro td hne
    rw [mem_append, mem_singleton]
    exact or_iff_left hne
  case hin => exact iff_of_true (mem_append_right _ mem_cons_self) rfl
  case hchan =>
    intro q hq
    rw [hqueue]
    exact iff_of_false (fun hsome => by cases hsome) fun hsome => hq (some.inj hsome).symm
  case howns => exact fun _ _ => id
  case howed =>
    intro td howed
    unfold Pthread.OwesTo at howed
    rw [hpc] at howed
    exact .inr (howed.resolve_left id)
  case hself =>
    constructor
    case bound => exact hbound
    case owes => exact howes
    case will => exact hwill
    case lock =>
      intro c hc
      cases hc
      show (Function.update st.conds _ _ call.cond).sc_lock = some t
      rw [update_self]
      exact hlock call.cond rfl
    case queue => exact rfl
  case hwoken => exact fun hs => hs.elim
  · show Function.update (Function.update (Function.update st.threads t _) t _) t _ = _
    simp only [update_idem, update_self, setThread, setCond, sleepqAdd]

theorem Safe.waitClear {call : WaitCall} (hpc : (st.threads t).pc = .waitClear call) :
    (st.waitClear t call).Safe := by
  obtain ⟨-, howes, hwill, hlock, hqueue⟩ := h.thread t
  unfold Pthread.InQueue at hqueue
  rw [hpc] at howes hwill hlock hqueue
  have hmoves : st.Moves t (.waitCheck call) (st.waitClear t call) :=
    ⟨rfl, _, rfl, rfl, rfl, rfl, rfl⟩
  apply h.move hmoves (fun _ _ => id) _ howes hwill hlock
  · intro thread hpc' hwchan
    unfold Pthread.InQueue
    rw [hpc', hwchan]
    exact hqueue
  · exact id
  · intro td htd
    rw [hpc] at htd
    exact htd.elim

theorem Safe.waitCheck {call : WaitCall} {timed_out : Bool} (hpc : (st.threads t).pc = .waitCheck call)
    (hsleeps : (st.threads t).shouldCancel = true → (st.threads t).will_sleep = false) :
    (st.waitCheck t call timed_out).Safe := by
  obtain ⟨hbound, howes, hwill, hlock, hqueue⟩ := h.thread t
  unfold Pthread.InQueue at hqueue
  rw [hpc] at howes hwill hlock hqueue
  -- The lock of the queue is given back, and the thread goes to a place that is not in the section.
  have hgo (pc : PthreadPc) (hbefore : (st.threads t).will_sleep = true → pc.BeforeSleep)
      (hfree : pc.queueLock = none)
      (hin : ∀ thread : Pthread, thread.pc = pc → thread.wchan = some call.cond → thread.InQueue) :
      ((st.setCond call.cond { st.conds call.cond with sc_lock := none }).moveTo t pc).Safe := by
    apply h.onQueue call.cond { st.threads t with pc } rfl rfl (.inr (hlock call.cond rfl))
    case hothers => exact fun _ _ => Iff.rfl
    case hin => exact h.blocked call.cond t
    case hchan => exact fun _ _ => Iff.rfl
    case howns => exact fun _ _ => id
    case howed =>
      intro td howed
      unfold Pthread.OwesTo at howed
      rw [hpc] at howed
      exact .inr (howed.resolve_left id)
    case hself =>
      constructor
      case bound => exact hbound
      case owes => exact fun hne => (howes hne).imp_right (Or.imp_right fun hunlocks => hunlocks.elim)
      case will => exact hbefore
      case lock => exact fun c hc => absurd (hfree.symm.trans hc) (some_ne_none c).symm
      case queue => exact hin _ rfl hqueue
    case hwoken => exact fun _ hnone => some_ne_none _ (hqueue.symm.trans hnone)
  have hinQueue {pc : PthreadPc} {call' : WaitCall}
      (hplace : pc = .sleep call' ∨ pc = .waitLoop call') (hcond : call'.cond = call.cond)
      (thread : Pthread) (hthread : thread.pc = pc) (hwchan : thread.wchan = some call.cond) :
      thread.InQueue := by
    unfold Pthread.InQueue
    rcases hplace with rfl | rfl <;> rw [hthread, hwchan, ← hcond] <;> exact .inl rfl
  unfold PthreadState.waitCheck
  split_ifs with hcancel htime
  · have hbefore (hw : (st.threads t).will_sleep = true) : False :=
      absurd ((hsleeps hcancel).symm.trans hw) Bool.false_ne_true
    exact hgo _ hbefore rfl (hinQueue (.inr rfl) rfl)
  · have hbefore (hw : (st.threads t).will_sleep = true) : False :=
      absurd ((hwill hw).symm.trans htime.2.1) (by decide)
    exact hgo _ hbefore rfl (hinQueue (.inr rfl) rfl)
  · exact hgo _ (fun _ => trivial) rfl (hinQueue (.inl rfl) rfl)

theorem Safe.sleep {call : WaitCall} (hpc : (st.threads t).pc = .sleep call) : (st.sleep t call).Safe := by
  have hqueue := (h.thread t).queue
  unfold Pthread.InQueue at hqueue
  rw [hpc] at hqueue
  apply h.wakes (t := t) { (st.release (st.threads t).defer_waiters).threads t with
    will_sleep := false
    defer_waiters := []
    pc := .asleep call } _ _ _ rfl rfl rfl
  case hreleases =>
    intro td htd
    rw [hpc] at htd
    exact htd
  case hwill => exact fun hw => absurd hw Bool.false_ne_true
  case hlock => exact fun c hc => by cases hc
  case hqueue => exact hqueue
  case hsleeps =>
    rw [hpc]
    exact fun _ => trivial
  · rfl
  · rfl
  · funext u
    rcases eq_or_ne u t with rfl | hu
    · simp [PthreadState.sleep, moveTo, setThread, PthreadState.wakeAll, PthreadState.release]
    · simp [PthreadState.sleep, moveTo, setThread, PthreadState.wakeAll, PthreadState.release, hu]

theorem Safe.wake {call : WaitCall} {timed_out : Bool}
    (hpc : (st.threads t).pc = .asleep call) (hstep : st.wake t call timed_out = some st') : st'.Safe := by
  have hquiet : (st.threads t).pc.Quiet := hpc ▸ trivial
  have hqueue := (h.thread t).queue
  unfold Pthread.InQueue at hqueue
  rw [hpc] at hqueue
  have hgo (s : PthreadState) (error : PthreadResult)
      (hmoves : st.Moves t (.waitLoop { call with error }) s) (hmutexes : s.mutexes = st.mutexes) :
      s.Safe := by
    apply h.quiet hquiet hmoves _ _ rfl id
    · intro u hu
      unfold OwnsDeferred
      rwa [hmutexes]
    · intro thread hpc' hwchan
      unfold Pthread.InQueue
      rw [hpc', hwchan]
      exact hqueue
  unfold PthreadState.wake at hstep
  dsimp only at hstep
  split_ifs at hstep <;> cases hstep
  · exact hgo _ .etimedout (moveTo_moves _) rfl
  · exact hgo _ .ok ⟨rfl, _, rfl, rfl, rfl, rfl, rfl⟩ rfl

theorem Safe.waitLoop {call : WaitCall} (hpc : (st.threads t).pc = .waitLoop call)
    (hstep : st.waitLoop t call = some st') : st'.Safe := by
  have hquiet : (st.threads t).pc.Quiet := hpc ▸ trivial
  obtain ⟨hwill, howes, hreleases⟩ := (h.thread t).quiet hquiet
  obtain ⟨hbound, -, -, -, hqueue⟩ := h.thread t
  unfold Pthread.InQueue at hqueue
  rw [hpc] at hqueue
  -- A thread that ends its wait takes itself out of the queue.
  have hleave (call' : WaitCall)
      (hlock : (st.conds call.cond).sc_lock = none) (hnone : ¬ (st.threads t).wchan = none) :
      ((st.sleepqRemove call.cond t).waitDone t call').Safe := by
    have hchan := hqueue.resolve_right hnone
    apply h.onQueue (t := t) call.cond { st.threads t with
      wchan := none
      mutex_obj := none
      pc := .lockLoad call'.mp (.cv call') } rfl _ (.inl hlock)
    case hothers =>
      intro td hne
      rw [mem_filter]
      exact and_iff_left (decide_eq_true hne)
    case hin =>
      rw [mem_filter]
      exact iff_of_false (fun hin => of_decide_eq_true hin.2 rfl) fun hsome => by cases hsome
    case hchan =>
      intro q hq
      rw [hchan]
      exact iff_of_false (fun hsome => hq (some.inj hsome).symm) fun hsome => by cases hsome
    case howns => exact fun _ _ => id
    case howed => exact fun td howed => .inr (howed.resolve_left (hreleases td))
    case hself =>
      constructor
      case bound => exact hbound
      case owes => exact fun hne => .inr (.inl (howes hne))
      case will => exact fun hw => absurd (hwill.symm.trans hw) Bool.false_ne_true
      case lock => exact fun c hc => by cases hc
      case queue => trivial
    case hwoken => exact fun hs => hs.elim
    · show Function.update (Function.update st.threads t _) t _ = _
      simp only [update_idem, update_self, setThread, setCond, PthreadState.sleepqRemove]
  unfold PthreadState.waitLoop at hstep
  dsimp only at hstep
  split_ifs at hstep with hlock hnone hcancel hin herror hin
  all_goals cases hstep
  · have hmoves : st.Moves t (.lockLoad call.mp (.cv { call with error := .ok }))
        (st.waitDone t { call with error := .ok }) := ⟨rfl, _, rfl, rfl, rfl, rfl, rfl⟩
    apply h.quiet hquiet hmoves (fun _ => id) _ rfl id
    intro thread hpc' _
    unfold Pthread.InQueue
    rw [hpc']
    trivial
  · exact hleave { call with canceled := true } (not_not.mp hlock) hnone
  · exact hleave call (not_not.mp hlock) hnone
  · rw [not_not] at hlock
    have hchan := hqueue.resolve_right hnone
    apply h.onQueue call.cond { st.threads t with pc := .waitClear call } rfl rfl (.inl hlock)
    case hothers => exact fun _ _ => Iff.rfl
    case hin => exact h.blocked call.cond t
    case hchan => exact fun _ _ => Iff.rfl
    case howns => exact fun _ _ => id
    case howed => exact fun td howed => .inr (howed.resolve_left (hreleases td))
    case hself =>
      constructor
      case bound => exact hbound
      case owes => exact fun hne => .inr (.inl (howes hne))
      case will => exact fun hw => absurd (hwill.symm.trans hw) Bool.false_ne_true
      case lock =>
        intro c hc
        cases hc
        show (Function.update st.conds _ _ call.cond).sc_lock = some t
        rw [update_self]
      case queue => exact hchan
    case hwoken => exact fun hs => hs.elim

end

/-! ## The steps of `Signal` and `Broadcast` -/

/-- A thread that wakes others has come from a state to another one. -/
structure Dropping (st : PthreadState) (t : ℕ) (dropped owed immediate_wakes : List ℕ)
    (s : PthreadState) : Prop where
  pc : ∀ u, (s.threads u).pc = (st.threads u).pc
  will : ∀ u, (s.threads u).will_sleep = (st.threads u).will_sleep
  permits : ∀ u, (st.threads u).wake_sema ≤ (s.threads u).wake_sema
  wchan : ∀ u, (s.threads u).wchan = if u ∈ dropped then none else (st.threads u).wchan
  defer : ∀ u ≠ t, (s.threads u).defer_waiters = (st.threads u).defer_waiters
  bound : (s.threads t).defer_waiters.length ≤ maxDeferWaiters
  owner : ∀ m, (s.mutexes m).m_owner = (st.mutexes m).m_owner
  flags : ∀ m, (st.mutexes m).deferred = true → (s.mutexes m).deferred = true
  owes : (s.threads t).defer_waiters ≠ [] →
    (st.threads t).defer_waiters ≠ [] ∨ s.OwnsDeferred t
  served : ∀ td ∈ owed, td ∈ immediate_wakes ∨ td ∈ (s.threads t).defer_waiters ∨
    1 ≤ (s.threads td).wake_sema

namespace Dropping

variable {dropped owed immediate_wakes : List ℕ}

theorem ownsDeferred (h : Dropping st t dropped owed immediate_wakes s)
    (hu : st.OwnsDeferred u) : s.OwnsDeferred u := by
  obtain ⟨m, hm, hdeferred⟩ := hu
  exact ⟨m, (h.owner m).trans hm, h.flags m hdeferred⟩

theorem refl (hbound : (st.threads t).defer_waiters.length ≤ maxDeferWaiters) :
    Dropping st t [] (st.threads t).defer_waiters [] st where
  pc := fun _ => rfl
  will := fun _ => rfl
  permits := fun _ => le_rfl
  wchan := fun _ => rfl
  defer := fun _ _ => rfl
  bound := hbound
  owner := fun _ => rfl
  flags := fun _ => id
  owes := .inl
  served := fun _ hin => .inr (.inl hin)

section

variable (h : Dropping st t dropped owed immediate_wakes s)

include h

theorem setCond (c : ℕ) (queue : SleepQueue) :
    Dropping st t dropped owed immediate_wakes (s.setCond c queue) := { h with }

theorem unlist (td : ℕ) :
    Dropping st t (td :: dropped) owed immediate_wakes (s.setThread td { s.threads td with wchan := none }) := by
  have hsame (u : ℕ) : ((s.setThread td { s.threads td with wchan := none }).threads u).pc = (s.threads u).pc ∧
      ((s.setThread td { s.threads td with wchan := none }).threads u).will_sleep =
        (s.threads u).will_sleep ∧
      ((s.setThread td { s.threads td with wchan := none }).threads u).wake_sema =
        (s.threads u).wake_sema ∧
      ((s.setThread td { s.threads td with wchan := none }).threads u).defer_waiters =
        (s.threads u).defer_waiters := by
    unfold setThread
    dsimp only
    rcases eq_or_ne u td with rfl | hu
    · rw [update_self]
      exact ⟨rfl, rfl, rfl, rfl⟩
    · rw [update_of_ne hu]
      exact ⟨rfl, rfl, rfl, rfl⟩
  constructor
  case pc => exact fun u => (hsame u).1.trans (h.pc u)
  case will => exact fun u => (hsame u).2.1.trans (h.will u)
  case permits => exact fun u => (h.permits u).trans_eq (hsame u).2.2.1.symm
  case wchan =>
    intro u
    show (update s.threads td _ u).wchan = _
    rcases eq_or_ne u td with rfl | hu
    · rw [update_self, if_pos mem_cons_self]
    · rw [update_of_ne hu, h.wchan u]
      simp only [mem_cons, hu, false_or]
  case defer => exact fun u hu => (hsame u).2.2.2.trans (h.defer u hu)
  case bound => exact (hsame t).2.2.2 ▸ h.bound
  case owner => exact h.owner
  case flags => exact h.flags
  case owes =>
    rw [(hsame t).2.2.2]
    exact h.owes
  case served =>
    intro u hu
    rw [(hsame t).2.2.2, (hsame u).2.2.1]
    exact h.served u hu

theorem now (td : ℕ) : Dropping st t dropped (td :: owed) (immediate_wakes ++ [td]) s := by
  refine { h with served := ?_ }
  intro u hu
  rcases mem_cons.mp hu with rfl | hu
  · exact .inl (mem_append_right _ mem_cons_self)
  · exact (h.served u hu).imp_left (mem_append_left _)

theorem release (tds rest : List ℕ)
    (hrest : ∀ u ∈ immediate_wakes, u ∈ rest ∨ u ∈ tds) : Dropping st t dropped owed rest (s.release tds) := by
  refine { h with permits := ?_, served := ?_ }
  · exact fun u => (h.permits u).trans (Nat.le_add_right _ _)
  · intro u hu
    rcases h.served u hu with hin | hin | hone
    · exact (hrest u hin).imp_right fun hin => .inr (permit_of_release hin)
    · exact .inr (.inl hin)
    · exact .inr (.inr (hone.trans (Nat.le_add_right _ _)))

theorem setDefer (waiters : List ℕ)
    (hthreads : s'.threads = update s.threads t { s.threads t with defer_waiters := waiters })
    (hbound : waiters.length ≤ maxDeferWaiters)
    (howner : ∀ m, (s'.mutexes m).m_owner = (s.mutexes m).m_owner)
    (hflags : ∀ m, (s.mutexes m).deferred = true → (s'.mutexes m).deferred = true)
    (howes : waiters ≠ [] → (s.threads t).defer_waiters ≠ [] ∨ s'.OwnsDeferred t)
    (hserved : ∀ td ∈ owed', td ∈ immediate_wakes ∨ td ∈ waiters ∨ 1 ≤ (s.threads td).wake_sema) :
    Dropping st t dropped owed' immediate_wakes s' := by
  have hself : s'.threads t = { s.threads t with defer_waiters := waiters } := by
    rw [hthreads, update_self]
  have hsame (u : ℕ) : (s'.threads u).pc = (s.threads u).pc ∧ (s'.threads u).will_sleep = (s.threads u).will_sleep ∧
      (s'.threads u).wake_sema = (s.threads u).wake_sema ∧
      (s'.threads u).wchan = (s.threads u).wchan := by
    rcases eq_or_ne u t with rfl | hu
    · rw [hself]
      exact ⟨rfl, rfl, rfl, rfl⟩
    · rw [hthreads, update_of_ne hu]
      exact ⟨rfl, rfl, rfl, rfl⟩
  constructor
  case pc => exact fun u => (hsame u).1.trans (h.pc u)
  case will => exact fun u => (hsame u).2.1.trans (h.will u)
  case permits => exact fun u => (h.permits u).trans_eq (hsame u).2.2.1.symm
  case wchan => exact fun u => (hsame u).2.2.2.trans (h.wchan u)
  case defer =>
    intro u hu
    rw [hthreads, update_of_ne hu]
    exact h.defer u hu
  case bound => rwa [hself]
  case owner => exact fun m => (howner m).trans (h.owner m)
  case flags => exact fun m hm => hflags m (h.flags m hm)
  case owes =>
    rw [hself]
    intro hne
    rcases howes hne with hwaiters | howns
    · refine (h.owes hwaiters).imp_right ?_
      rintro ⟨m, hm, hdeferred⟩
      exact ⟨m, (howner m).trans hm, hflags m hdeferred⟩
    · exact .inr howns
  case served =>
    intro td htd
    rw [hself, (hsame td).2.2.1]
    exact hserved td htd

theorem wakeAll : Dropping st t dropped owed immediate_wakes (s.wakeAll t) := by
  have hreleased := h.release (s.threads t).defer_waiters immediate_wakes fun _ => .inl
  apply hreleased.setDefer []
  case hthreads => rfl
  case hbound => exact Nat.zero_le _
  case howner => exact fun _ => rfl
  case hflags => exact fun _ => id
  case howes => exact fun hne => absurd rfl hne
  case hserved =>
    intro td htd
    rcases h.served td htd with hin | hin | hone
    · exact .inl hin
    · exact .inr (.inr (permit_of_release hin))
    · exact .inr (.inr (hone.trans (Nat.le_add_right _ _)))

end

theorem deferred_set {mutex : PthreadMutex} :
    PthreadMutex.deferred { mutex with m_flags := mutex.m_flags ||| deferredFlag } = true := by
  unfold PthreadMutex.deferred
  simp only [bne_iff_ne, ne_eq]
  intro hzero
  have hbit := congrArg (fun flags => BitVec.getLsbD flags 9) hzero
  simp [deferredFlag] at hbit

section

variable (h : Dropping st t dropped owed immediate_wakes s)

include h

theorem push (td : ℕ) (howner : (s.mutexes m).m_owner = some t)
    (hroom : (s.threads t).defer_waiters.length < maxDeferWaiters) :
    Dropping st t dropped (td :: owed) immediate_wakes ((s.setThread t
      { s.threads t with defer_waiters := (s.threads t).defer_waiters ++ [td] }).setMutex m
      { s.mutexes m with m_flags := (s.mutexes m).m_flags ||| deferredFlag }) := by
  have hmutexes (q : ℕ) : (update s.mutexes m
        { s.mutexes m with m_flags := (s.mutexes m).m_flags ||| deferredFlag } q).m_owner =
        (s.mutexes q).m_owner ∧
      ((s.mutexes q).deferred = true → (update s.mutexes m
        { s.mutexes m with m_flags := (s.mutexes m).m_flags ||| deferredFlag } q).deferred =
        true) := by
    rcases eq_or_ne q m with rfl | hq
    · rw [update_self]
      exact ⟨rfl, fun _ => deferred_set⟩
    · rw [update_of_ne hq]
      exact ⟨rfl, id⟩
  apply h.setDefer ((s.threads t).defer_waiters ++ [td]) rfl
  case hbound =>
    rw [length_append, length_singleton]
    exact hroom
  case howner => exact fun q => (hmutexes q).1
  case hflags => exact fun q => (hmutexes q).2
  case howes =>
    refine fun _ => .inr ⟨m, (hmutexes m).1.trans howner, ?_⟩
    show (update s.mutexes m _ m).deferred = true
    rw [update_self]
    exact deferred_set
  case hserved =>
    intro u hu
    rcases mem_cons.mp hu with rfl | hu
    · exact .inr (.inl (mem_append_right _ mem_cons_self))
    · exact (h.served u hu).imp_right (Or.imp_left (mem_append_left _))

theorem defers (td : ℕ) (howner : (s.mutexes m).m_owner = some t) :
    Dropping st t dropped (td :: owed) immediate_wakes (s.defer t td m) := by
  unfold PthreadState.defer
  split_ifs with hfull
  · apply h.wakeAll.push td howner
    rw [(wakeAll_self _ _).2.2]
    decide
  · exact h.push td howner (not_le.mp hfull)

theorem drop (td : ℕ) : Dropping st t (td :: dropped) (td :: owed) (s.drop t immediate_wakes td).2
      (s.drop t immediate_wakes td).1 := by
  apply elim_cases (P := fun r : PthreadState × List ℕ =>
    Dropping st t (td :: dropped) (td :: owed) r.2 r.1)
  · split_ifs
    · exact ((h.release immediate_wakes [] fun _ => .inr).unlist td).now td
    · exact (h.unlist td).now td
  · intro m
    split_ifs with howner
    · exact (h.defers td howner).unlist td
    · exact ((h.release immediate_wakes [] fun _ => .inr).unlist td).now td
    · exact (h.unlist td).now td

theorem dropAll (tds : List ℕ) : Dropping st t (tds.reverse ++ dropped) (tds.reverse ++ owed)
      (tds.foldl (fun r td => r.1.drop t r.2 td) (s, immediate_wakes)).2
      (tds.foldl (fun r td => r.1.drop t r.2 td) (s, immediate_wakes)).1 := by
  induction tds generalizing s dropped owed immediate_wakes with
  | nil => exact h
  | cons td tds ih =>
    rw [reverse_cons, append_assoc, append_assoc]
    exact ih (h.drop td)

end

end Dropping

theorem defer_conds (td m : ℕ) : (st.defer t td m).conds = st.conds := by
  unfold defer
  split_ifs <;> rfl

theorem drop_conds : (st.drop t immediate_wakes td).1.conds = st.conds := by
  unfold drop
  dsimp only
  apply elim_cases (P := fun r : PthreadState × List ℕ => r.1.conds = st.conds)
  · split_ifs <;> rfl
  · intro m
    split_ifs
    · exact defer_conds td m
    · rfl
    · rfl

theorem dropAll_conds (tds : List ℕ) :
    (tds.foldl (fun r td => r.1.drop t r.2 td) (st, immediate_wakes)).1.conds = st.conds := by
  induction tds generalizing st immediate_wakes with
  | nil => rfl
  | cons td tds ih => exact ih.trans drop_conds

theorem Safe.queueLock_eq_none (h : st.Safe) (hin : u ∈ (st.conds c).sq_blocked)
    (hfree : (st.conds c).sc_lock = none) : (st.threads u).pc.queueLock = none := by
  have hchan := (h.blocked c u).mp hin
  obtain ⟨-, -, -, hlock, hqueue⟩ := h.thread u
  unfold Pthread.InQueue at hqueue
  rw [hchan] at hqueue
  cases hpc : (st.threads u).pc with
  | unlockRelease m deferred call => cases call with
    | none => rfl
    | some call => rw [hpc] at hqueue; cases hqueue
  | unlockWake deferred call => cases call with
    | none => rfl
    | some call => rw [hpc] at hqueue; cases hqueue
  | waitAdd call => rw [hpc] at hqueue; cases hqueue
  | waitClear call =>
    rw [hpc] at hqueue hlock
    rw [hlock c (congrArg some (some.inj hqueue).symm)] at hfree
    cases hfree
  | waitCheck call =>
    rw [hpc] at hqueue hlock
    rw [hlock c (congrArg some (some.inj hqueue).symm)] at hfree
    cases hfree
  | _ => rfl

theorem Safe.dropped (h : st.Safe) {c : ℕ} {dropped owed immediate_wakes : List ℕ}
    {queue : SleepQueue} {pc : PthreadPc} (hquiet : (st.threads t).pc.Quiet)
    (hdropping : Dropping st t dropped owed immediate_wakes s)
    (howed : ∀ td ∈ dropped ++ (st.threads t).defer_waiters, td ∈ owed)
    (hfree : (st.conds c).sc_lock = none) (hin : ∀ td ∈ dropped, td ∈ (st.conds c).sq_blocked)
    (hconds : s.conds = Function.update st.conds c queue)
    (hqueue : ∀ td, td ∈ queue.sq_blocked ↔ td ∈ (st.conds c).sq_blocked ∧ td ∉ dropped)
    (hmoves : s.Moves t pc s') (hmutexes : s'.mutexes = s.mutexes)
    (hpermits : (s'.threads t).wake_sema = (s.threads t).wake_sema)
    (hreleases : ∀ td ∈ immediate_wakes, pc.Releases td) (hlock : pc.queueLock = none)
    (hplace : ∀ thread : Pthread, thread.pc = pc → thread.InQueue) (hsleeps : ¬ pc.Sleeps) : s'.Safe := by
  obtain ⟨hwill, howes, hquiets⟩ := (h.thread t).quiet hquiet
  obtain ⟨hconds', thread, hthreads, hpc, hdefer, hwchan, hwillsleep⟩ := hmoves
  have hself : s'.threads t = thread := by rw [hthreads, update_self]
  have hother (u : ℕ) (hu : u ≠ t) : s'.threads u = s.threads u := by
    rw [hthreads, update_of_ne hu]
  have hchan (u : ℕ) : (s'.threads u).wchan = if u ∈ dropped then none else (st.threads u).wchan := by
    rw [← hdropping.wchan u]
    rcases eq_or_ne u t with rfl | hu
    · rw [hself, hwchan]
    · rw [hother u hu]
  have howns (u : ℕ) (hu : st.OwnsDeferred u) : s'.OwnsDeferred u := by
    unfold OwnsDeferred
    rw [hmutexes]
    exact hdropping.ownsDeferred hu
  -- Who has to be served is released by the thread, or deferred by it, or has a permit.
  have hserved (td : ℕ) (htd : td ∈ owed) : thread.OwesTo td ∨ 1 ≤ (s'.threads td).wake_sema := by
    have hpermit : (s'.threads td).wake_sema = (s.threads td).wake_sema := by
      rcases eq_or_ne td t with rfl | hne
      · exact hpermits
      · rw [hother td hne]
    unfold Pthread.OwesTo
    rw [hpc, hdefer, hpermit]
    rcases hdropping.served td htd with hnow | hlater | hone
    · exact .inl (.inl (hreleases td hnow))
    · exact .inl (.inr hlater)
    · exact .inr hone
  apply h.update t
  case hothers =>
    intro u hu
    rw [hother u hu]
    constructor
    case pc => exact hdropping.pc u
    case defer => exact hdropping.defer u hu
    case will => exact hdropping.will u
    case permits => exact hdropping.permits u
    case wchan =>
      rw [hdropping.wchan u]
      split_ifs with hdropped
      · exact .inr ⟨rfl, h.queueLock_eq_none (hin u hdropped) hfree⟩
      · exact .inl rfl
  case howns => exact fun u _ => howns u
  case hlocked =>
    intro u _ q hq
    rw [hconds', hconds]
    rcases eq_or_ne q c with rfl | hne
    · rw [hfree] at hq
      cases hq
    · rwa [update_of_ne hne]
  case hdropped =>
    intro td htd hsome hnone
    rw [hchan] at hnone
    split_ifs at hnone with hdropped
    · exact (hserved td (howed td (mem_append_left _ hdropped))).symm.imp_right
        fun howes => ⟨t, hself.symm ▸ howes⟩
    · exact absurd hnone hsome
  case howed =>
    intro td htd
    rw [hself]
    exact hserved td (howed td (mem_append_right _ (htd.resolve_left (hquiets td))))
  case hself =>
    rw [hself]
    constructor
    case bound => exact hdefer ▸ hdropping.bound
    case owes =>
      rw [hdefer]
      intro hne
      refine .inr (.inl ?_)
      rcases hdropping.owes hne with hbefore | hnow
      · exact howns t (howes hbefore)
      · unfold OwnsDeferred
        rwa [hmutexes]
    case will =>
      rw [hwillsleep, hdropping.will, hwill]
      exact fun hw => absurd hw Bool.false_ne_true
    case lock =>
      rw [hpc, hlock]
      exact fun q hq => by cases hq
    case queue => exact hplace thread hpc
  case hblocked =>
    intro q td
    rw [hconds', hconds, hchan]
    rcases eq_or_ne q c with rfl | hne
    · rw [update_self, hqueue, h.blocked q td]
      split_ifs with hdropped
      · exact iff_of_false (fun hin => hin.2 hdropped) fun hsome => by cases hsome
      · exact and_iff_left hdropped
    · rw [update_of_ne hne, h.blocked q td]
      split_ifs with hdropped
      · have hc := (h.blocked c td).mp (hin td hdropped)
        rw [hc]
        exact iff_of_false (fun hsome => hne (some.inj hsome).symm) fun hsome => by
          cases hsome
      · exact Iff.rfl
  case hwoken =>
    rw [hself, hpc]
    exact fun hs => absurd hs hsleeps

theorem mem_of_signalled (h : st.signalled c target = some td) : td ∈ (st.conds c).sq_blocked := by
  unfold signalled at h
  cases target with
  | none => exact mem_of_mem_head? h
  | some td' =>
    simp only [Option.elim] at h
    split_ifs at h with hin
    cases h
    exact hin

theorem Safe.signal (h : st.Safe) {c : ℕ} {target : Option ℕ} {found : Bool}
    (hpc : (st.threads t).pc = .signal c target) (hstep : st.signal t c target found = some st') : st'.Safe := by
  have hquiet : (st.threads t).pc.Quiet := hpc ▸ trivial
  unfold PthreadState.signal at hstep
  split at hstep
  · cases hstep
    exact h.returns hquiet (ret_moves _) fun _ => id
  split at hstep
  · cases hstep
  rename_i hlock
  rw [not_not] at hlock
  obtain rfl := some.inj hstep
  cases hsignalled : st.signalled c target with
  | none => exact h.returns hquiet (ret_moves _) fun _ => id
  | some td =>
    have hmem := mem_of_signalled hsignalled
    have hdropping : Dropping st t [td] (st.threads t).defer_waiters [] (st.sleepqRemove c td) :=
      ((Dropping.refl (h.thread t).bound).setCond c _).unlist td
    have hin (u : ℕ) (hu : u ∈ [td]) : u ∈ (st.conds c).sq_blocked := by
      rwa [mem_singleton.mp hu]
    have hqueue (u : ℕ) : u ∈ (st.conds c).sq_blocked.filter (· ≠ td) ↔ u ∈ (st.conds c).sq_blocked ∧ u ∉ [td] := by
      rw [mem_filter, decide_eq_true_iff, mem_singleton]
    -- The wake-up is done after the section.
    have hnow : ((st.sleepqRemove c td).moveTo t (.signalRelease td)).Safe := by
      apply h.dropped (c := c) hquiet (hdropping.now td) (fun _ => id) hlock hin
      case hconds => rfl
      case hqueue => exact hqueue
      case hmoves => exact moveTo_moves _
      case hmutexes => rfl
      case hpermits => simp [moveTo, setThread]
      case hreleases => exact fun u hu => mem_singleton.mp hu
      case hlock => rfl
      case hplace =>
        intro thread hthread
        unfold Pthread.InQueue
        rw [hthread]
        trivial
      case hsleeps => exact id
    -- It is deferred.
    have hlater (m : ℕ) (howner : (st.mutexes m).m_owner = some t) :
        (((st.sleepqRemove c td).defer t td m).ret t .ok).Safe := by
      apply h.dropped (c := c) hquiet (hdropping.defers td howner) (fun _ => id) hlock hin
      case hconds => exact defer_conds td m
      case hqueue => exact hqueue
      case hmoves => exact ret_moves _
      case hmutexes => rfl
      case hpermits => simp [PthreadState.ret, setThread]
      case hreleases => exact fun u hu => by cases hu
      case hlock => rfl
      case hplace =>
        intro thread hthread
        unfold Pthread.InQueue
        rw [hthread]
        trivial
      case hsleeps => exact id
    rw [Option.elim_some]
    apply elim_cases (P := fun s : PthreadState => s.Safe)
    · exact hnow
    · intro m
      split_ifs with howner
      · exact hlater m howner
      · exact hnow

theorem Safe.broadcast (h : st.Safe) {c : ℕ} (hpc : (st.threads t).pc = .broadcast c)
    (hstep : st.broadcast t c = some st') : st'.Safe := by
  unfold PthreadState.broadcast at hstep
  split_ifs at hstep with hlock
  rw [not_not] at hlock
  obtain rfl := some.inj hstep
  have hdropping := (Dropping.refl (h.thread t).bound).dropAll (st.conds c).sq_blocked
  apply h.dropped (c := c) (hpc ▸ trivial) (hdropping.setCond c { st.conds c with sq_blocked := [] }) _ hlock
  case hin =>
    intro td hin
    rw [append_nil, mem_reverse] at hin
    exact hin
  case hconds => exact congrArg (fun conds => Function.update conds c _) (dropAll_conds _)
  case hqueue =>
    intro td
    rw [append_nil, mem_reverse]
    exact iff_of_false not_mem_nil fun hin => hin.2 hin.1
  case hmoves => exact moveTo_moves _
  case hmutexes => rfl
  case hpermits => simp [moveTo, setThread]
  case hreleases => exact fun _ => id
  case hlock => rfl
  case hplace =>
    intro thread hthread
    unfold Pthread.InQueue
    rw [hthread]
    trivial
  case hsleeps => exact id
  · intro td
    rw [append_nil]
    exact id

theorem Safe.releases (h : st.Safe) (hwake : ∀ u, (st.threads t).pc.Releases u → u ∈ tds ∨ pc.Releases u)
    (hmoves : (st.release tds).Moves t pc s) (hmutexes : s.mutexes = st.mutexes)
    (hpermits : ∀ u, (s.threads u).wake_sema = ((st.release tds).threads u).wake_sema)
    (hbefore : ¬ (st.threads t).pc.BeforeSleep) (hunlocks : ¬ (st.threads t).pc.Unlocks)
    (hlock : pc.queueLock = none) (hplace : ∀ thread : Pthread, thread.pc = pc → thread.InQueue)
    (hsleeps : ¬ pc.Sleeps) : s.Safe := by
  have howns (u : ℕ) (hu : st.OwnsDeferred u) : s.OwnsDeferred u := by
    unfold OwnsDeferred
    rwa [hmutexes]
  have hthread := h.thread t
  apply (h.release tds).move hmoves
  case howns => exact fun u _ => howns u
  case howed =>
    intro u hu
    rcases hwake u hu with hin | hrest
    · right
      rw [hpermits]
      exact permit_of_release hin
    · exact .inl hrest
  case howes =>
    intro hne
    rcases hthread.owes hne with hwill | howned | hun
    · exact absurd (hthread.will hwill) hbefore
    · exact .inr (.inl (howns t howned))
    · exact absurd hun hunlocks
  case hwill => exact fun hwill => absurd (hthread.will hwill) hbefore
  case hlock => exact fun q hq => absurd (hlock.symm.trans hq) (some_ne_none q).symm
  case hqueue => exact fun thread hpc _ => hplace thread hpc
  case hsleeps => exact hsleeps

theorem Safe.signalRelease (h : st.Safe) (hpc : (st.threads t).pc = .signalRelease td) :
    ((st.release [td]).ret t .ok).Safe := by
  apply h.releases _ (ret_moves _) rfl
  case hpermits =>
    intro u
    rcases eq_or_ne u t with rfl | hu <;> simp [PthreadState.ret, setThread, *]
  case hbefore =>
    rw [hpc]
    exact id
  case hunlocks =>
    rw [hpc]
    exact id
  case hlock => rfl
  case hplace =>
    intro thread hthread
    unfold Pthread.InQueue
    rw [hthread]
    trivial
  case hsleeps => exact id
  · rw [hpc]
    exact fun u hu => .inl (mem_singleton.mpr hu)

theorem Safe.broadcastRelease (h : st.Safe)
    (hpc : (st.threads t).pc = .broadcastRelease immediate_wakes) : (st.broadcastRelease t immediate_wakes).Safe := by
  have hself (s : PthreadState) (thread : Pthread) (hthread : thread.wake_sema = (s.threads t).wake_sema) (u : ℕ) :
      ((s.setThread t thread).threads u).wake_sema = (s.threads u).wake_sema := by
    rcases eq_or_ne u t with rfl | hu <;> simp [setThread, *]
  have hbefore : ¬ (st.threads t).pc.BeforeSleep := by
    rw [hpc]
    exact id
  have hunlocks : ¬ (st.threads t).pc.Unlocks := by
    rw [hpc]
    exact id
  cases immediate_wakes with
  | nil =>
    have hmoves : (st.release []).Moves t .idle ((st.release []).ret t .ok) := ret_moves _
    apply h.releases _ hmoves rfl (hself _ _ rfl) hbefore hunlocks rfl _ id
    · rw [hpc]
      exact fun u => .inl
    · intro thread hthread
      unfold Pthread.InQueue
      rw [hthread]
      trivial
  | cons td rest =>
    have hmoves : (st.release [td]).Moves t (.broadcastRelease rest)
        ((st.release [td]).moveTo t (.broadcastRelease rest)) := moveTo_moves _
    apply h.releases _ hmoves rfl (hself _ _ rfl) hbefore hunlocks rfl _ id
    · rw [hpc]
      intro u hu
      exact (mem_cons.mp hu).imp_left mem_singleton.mpr
    · intro thread hthread
      unfold Pthread.InQueue
      rw [hthread]
      trivial

theorem Safe.cancel (h : st.Safe) (t : ℕ) : (st.cancel t).Safe := by
  unfold PthreadState.cancel
  dsimp only
  split_ifs
  · exact h
  have hthread := h.thread t
  apply h.alone (t := t) { st.threads t with
    cancel_pending := true
    wake_sema := (st.threads t).wake_sema + 1 }
  case hthreads => rfl
  case howns => exact fun _ _ => id
  case hlocked => exact fun _ _ _ => id
  case howed => exact fun _ => .inl
  case hself =>
    apply hthread.touched _ (fun _ => id) id
    exact ⟨rfl, rfl, rfl, Nat.le_succ _, .inl rfl⟩
  case hblocked =>
    intro c td
    show _ ↔ (Function.update st.threads t _ td).wchan = some c
    rcases eq_or_ne td t with rfl | hne
    · rw [update_self]
      exact h.blocked c td
    · rw [update_of_ne hne]
      exact h.blocked c td
  case hwoken =>
    intro _ _
    left
    show 1 ≤ (Function.update st.threads t _ t).wake_sema
    rw [update_self]
    exact Nat.le_add_left _ _

theorem Safe.setcancelstate (h : st.Safe) (hstep : st.setcancelstate t enable = some st') : st'.Safe := by
  unfold PthreadState.setcancelstate at hstep
  dsimp only at hstep
  split_ifs at hstep with hidle hcancel
  · rw [not_not] at hidle
    obtain rfl := some.inj hstep
    have hmoves : st.Moves t .idle ((st.setThread t { st.threads t with cancel_enable := enable }).leave t) :=
      ⟨rfl, _, update_idem _ _ _, rfl, by simp [setThread], by simp [setThread],
        by simp [setThread]⟩
    exact h.returns (hidle ▸ trivial) hmoves fun _ => id
  · rw [not_not] at hidle
    obtain rfl := some.inj hstep
    have hmoves : st.Moves t .idle (st.setThread t { st.threads t with cancel_enable := enable }) :=
      ⟨rfl, _, rfl, hidle, rfl, rfl, rfl⟩
    exact h.returns (hidle ▸ trivial) hmoves fun _ => id

theorem Safe.call (h : st.Safe) (hstep : st.call t pc = some st')
    (hlock : pc.queueLock = none) (hsleeps : ¬ pc.Sleeps)
    (hplace : ∀ thread : Pthread, thread.pc = pc → thread.InQueue) : st'.Safe := by
  unfold PthreadState.call at hstep
  split_ifs at hstep with hidle
  obtain rfl := some.inj hstep
  exact h.quiet (t := t) (hidle ▸ trivial) (moveTo_moves _) (fun _ => id) (fun thread hpc _ =>
    hplace thread hpc) hlock hsleeps

/-- A wait finds that it is cancelled before it has slept. -/
def Lost (st : PthreadState) : PthreadOp → Prop
  | .advance t _ => (∃ call, (st.threads t).pc = .waitCheck call) ∧
      (st.threads t).shouldCancel = true ∧ (st.threads t).will_sleep = true
  | _ => False

theorem Safe.advance (h : st.Safe) (howned : st.Owned type)
    (hnot : ¬ st.Lost (.advance t choice)) (hstep : st.advance t choice = some st') : st'.Safe := by
  have hsome {s : PthreadState} (hs : s.Safe) (heq : some s = some st') : st'.Safe :=
    some.inj heq ▸ hs
  unfold PthreadState.advance at hstep
  cases hpc : (st.threads t).pc <;> rw [hpc] at hstep <;> dsimp only at hstep
  case idle => cases hstep
  case lockLoad => exact h.lockLoad hpc hstep
  case lockSpin => exact hsome (h.lockSpin hpc) hstep
  case lockBlock => exact h.lockBlock hpc hstep
  case lockStore m kind =>
    apply hsome (h.lockStore hpc _) hstep
    apply (howned.rel t m).window
    rw [show st.pcs t = _ from hpc]
    exact decide_eq_true rfl
  case unlockLoad => exact hsome (h.unlockLoad hpc) hstep
  case unlockRelease => exact hsome (h.unlockRelease hpc) hstep
  case unlockWake => exact hsome (h.unlockWake hpc) hstep
  case waitStart => exact h.waitStart hpc hstep
  case waitLock call =>
    apply h.waitLock hpc _ hstep
    apply (howned.rel t call.mp).starts
    rw [show st.pcs t = _ from hpc]
    exact decide_eq_true rfl
  case waitAdd => exact hsome (h.waitAdd hpc) hstep
  case waitClear => exact hsome (h.waitClear hpc) hstep
  case waitCheck call =>
    apply hsome (h.waitCheck hpc _) hstep
    intro hcancel
    by_contra hwill
    exact hnot ⟨⟨call, hpc⟩, hcancel, by simpa using hwill⟩
  case sleep => exact hsome (h.sleep hpc) hstep
  case asleep => exact h.wake hpc hstep
  case waitLoop => exact h.waitLoop hpc hstep
  case signal => exact h.signal hpc hstep
  case signalRelease => exact hsome (h.signalRelease hpc) hstep
  case broadcast => exact h.broadcast hpc hstep
  case broadcastRelease => exact hsome (h.broadcastRelease hpc) hstep

theorem Safe.step (h : st.Safe) (howned : st.Owned type)
    (hnot : ¬ st.Lost o) (hstep : st.step o = some st') : st'.Safe := by
  cases o with
  | advance t choice => exact h.advance howned hnot hstep
  | cancel t => exact some.inj hstep ▸ h.cancel t
  | setcancelstate t enable => exact h.setcancelstate hstep
  | wait t c m timeout =>
    apply h.call hstep rfl id
    intro thread hthread
    unfold Pthread.InQueue
    rw [hthread]
  | _ =>
    apply h.call hstep rfl id
    intro thread hthread
    unfold Pthread.InQueue
    rw [hthread]
    trivial

theorem Safe.isNew (h : st.IsNew) : st.Safe := by
  obtain ⟨-, hconds, hthreads, -⟩ := h
  constructor
  case thread =>
    intro u
    rw [hthreads]
    constructor
    case bound => exact Nat.zero_le _
    case owes => exact fun hne => absurd rfl hne
    case will => exact fun hw => absurd hw Bool.false_ne_true
    case lock => exact fun c hc => by cases hc
    case queue => trivial
  case blocked =>
    intro c td
    rw [hconds, hthreads]
    exact iff_of_false not_mem_nil fun hsome => by cases hsome
  case woken =>
    intro td hs
    rw [hthreads] at hs
    exact hs.elim

theorem Safe.wchan_eq_none (h : st.Safe) {td : ℕ} {call : WaitCall}
    (hcall : (st.threads td).pc.sleeping = some call) (hnot : td ∉ (st.conds call.cond).sq_blocked) :
    (st.threads td).pc.Sleeps ∧ (st.threads td).wchan = none := by
  have hqueue := (h.thread td).queue
  unfold Pthread.InQueue at hqueue
  rw [h.blocked call.cond td] at hnot
  cases hpc : (st.threads td).pc <;> rw [hpc] at hcall hqueue <;> cases hcall
  case sleep => exact ⟨trivial, hqueue.resolve_left hnot⟩
  case asleep => exact ⟨trivial, hqueue.resolve_left hnot⟩

theorem Safe.wakes_later (h : st.Safe) (hin : td ∈ (st.threads u).defer_waiters) :
    (st.OwnsDeferred u ∧ (st.threads u).will_sleep = false) ∨ (st.threads u).pc.BeforeSleep ∨
      (st.threads u).pc.Unlocks := by
  have hthread := h.thread u
  cases hwill : (st.threads u).will_sleep with
  | true => exact .inr (.inl (hthread.will hwill))
  | false =>
    have howes := (hthread.owes (ne_nil_of_mem hin)).resolve_left (hwill ▸ Bool.false_ne_true)
    exact howes.imp (fun howns => ⟨howns, rfl⟩) .inr

end PthreadState

/-- A step of a thread that is not cancelled. -/
def PthreadOp.uncancelled (st : PthreadState) : PthreadOp → Bool
  | .advance t _ => !(st.threads t).shouldCancel
  | _ => true

/-- A thread locks a mutex and waits, up to its sleep. -/
def lockAndWait (t : ℕ) : List PthreadOp :=
  .lock t 0 .infinite :: replicate 4 (.advance t false) ++
    .wait t 0 0 .infinite :: replicate 8 (.advance t false)

end ShadPS4.Kernel
