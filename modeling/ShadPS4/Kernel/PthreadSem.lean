import Mathlib.Data.Int.Bitwise
import ShadPS4.Lib.Transition

/-!
# `PthreadSem`

The semaphores of libkernel.
-/

namespace ShadPS4.Kernel

abbrev ORBIS_KERNEL_SEM_VALUE_MAX : ℤ := 0x7FFFFFFF

inductive PsemTimeout
  | infinite
  | reltime
  | abstime (tv_nsec : ℤ)
deriving DecidableEq

def PsemTimeout.Invalid : PsemTimeout → Prop
  | .abstime tv_nsec => tv_nsec < 0 ∨ tv_nsec ≥ 1000000000
  | _ => False

instance : DecidablePred PsemTimeout.Invalid := fun timeout => by
  cases timeout <;> unfold PsemTimeout.Invalid <;> infer_instance

/-- The places that call `PthreadSemTryAcquire` without the mutex. -/
inductive PsemSite
  | trywait
  | top (timeout : PsemTimeout)
  | again (timeout : PsemTimeout) (woke : Bool)
deriving DecidableEq

/-- Where a thread is in the calls on the semaphore. -/
inductive PsemPc
  | idle
  | load (site : PsemSite)
  | cas (site : PsemSite) (value : ℤ)
  | enter (timeout : PsemTimeout)
  /-- before the section that publishes the thread -/
  | publish (timeout : PsemTimeout)
  | canceled (timeout : PsemTimeout)
  | asleep (timeout : PsemTimeout)
  | awake (timeout : PsemTimeout) (woke : Bool)
  | test (timeout : PsemTimeout) (woke : Bool)
  /-- `posix_sem_post`, before it loads the value -/
  | postLoad
  /-- the loop of `posix_sem_post`, with the value that was read -/
  | postCas (current : ℤ)
  /-- `posix_sem_post`, after the value was incremented -/
  | wakeAll
deriving DecidableEq

/-- The thread is in the `ScopedPthreadCritical` of `posix_sem_post`. -/
def PsemPc.InPost : PsemPc → Prop
  | .postLoad => True
  | .postCas _ => True
  | .wakeAll => True
  | _ => False

instance : DecidablePred PsemPc.InPost := fun pc => by
  cases pc <;> unfold PsemPc.InPost <;> infer_instance

inductive PsemResult
  | ok
  | eagain
  | einval
  | etimedout
  | eoverflow

/-- `Pthread`. -/
structure PsemThread where
  pc : PsemPc := .idle
  wake_sema : ℕ := 0
  cancel_enable : Bool := true
  cancel_pending : Bool := false
  cancel_point : Bool := false
  no_cancel : Bool := false
  cancel_async : Bool := false
  result : Option PsemResult := none

def PsemThread.shouldCancel (thread : PsemThread) : Bool :=
  thread.cancel_pending && thread.cancel_enable && !thread.no_cancel

/-- `PthreadSem`, with the threads, and with what was done so far. -/
structure PthreadSem where
  value : ℤ
  waiters : List ℕ := []
  threads : ℕ → PsemThread
  initial : ℤ
  posts : ℤ := 0
  waits : ℤ := 0

namespace PthreadSem

variable (sem : PthreadSem)

def setThread (t : ℕ) (thread : PsemThread) : PthreadSem :=
  { sem with threads := Function.update sem.threads t thread }

def moveTo (t : ℕ) (pc : PsemPc) : PthreadSem :=
  sem.setThread t { sem.threads t with pc }

def ret (t : ℕ) (result : PsemResult) : PthreadSem :=
  sem.setThread t { sem.threads t with pc := .idle, result := some result }

/-- `posix_pthread_exit`. -/
def leave (t : ℕ) : PthreadSem :=
  sem.setThread t { sem.threads t with pc := .idle, cancel_point := false, no_cancel := true }

def testCancel (t : ℕ) (sem' : PthreadSem) : PthreadSem :=
  if (sem.threads t).shouldCancel = true then sem.leave t else sem'

/-- A token is taken, and the call returns. -/
def take (t : ℕ) : PthreadSem :=
  { sem.ret t .ok with value := sem.value - 1, waits := sem.waits + 1 }

/-- What follows when `PthreadSemTryAcquire` returns `false`. -/
def failed (t : ℕ) : PsemSite → PthreadSem
  | .trywait => sem.ret t .eagain
  | .top timeout => if timeout.Invalid then sem.ret t .einval else sem.moveTo t (.enter timeout)
  | .again timeout woke => sem.moveTo t (.test timeout woke)

/-- A turn of the loop of `PthreadSemTryAcquire` begins with the value that was read. -/
def tryAcquire (t : ℕ) (site : PsemSite) : PthreadSem :=
  if sem.value > 0 then sem.moveTo t (.cas site sem.value) else sem.failed t site

/-- A turn of the loop of `posix_sem_post` begins with the value that was read. -/
def tryPost (t : ℕ) : PthreadSem :=
  if sem.value = ORBIS_KERNEL_SEM_VALUE_MAX then sem.ret t .eoverflow
  else sem.moveTo t (.postCas sem.value)

/-- The section of `PthreadSemWait` that publishes the thread. -/
def publish (t : ℕ) (timeout : PsemTimeout) : PthreadSem :=
  let thread := sem.threads t
  if sem.value > 0 then sem.take t
  else if thread.shouldCancel = true then
    sem.setThread t { thread with wake_sema := 0, cancel_point := false, pc := .canceled timeout }
  else
    { sem.setThread t { thread with wake_sema := 0, cancel_point := true, pc := .asleep timeout } with
      waiters := sem.waiters ++ [t] }

/-- `Sleep`. It returns `false` when the time ran out. -/
def sleep (t : ℕ) (timeout : PsemTimeout) (woke : Bool) : Option PthreadSem :=
  let thread := sem.threads t
  if woke = true then
    if thread.wake_sema = 0 then none
    else some (sem.setThread t
      { thread with wake_sema := thread.wake_sema - 1, pc := .awake timeout true })
  else if timeout = .infinite then none
  else some (sem.moveTo t (.awake timeout false))

/-- The section after the sleep. -/
def unpublish (t : ℕ) (timeout : PsemTimeout) (woke : Bool) : PthreadSem :=
  { sem.setThread t { sem.threads t with cancel_point := false, pc := .load (.again timeout woke) } with
    waiters := sem.waiters.filter (· ≠ t) }

/-- After the last `PthreadTestCancel`. -/
def retry (t : ℕ) (timeout : PsemTimeout) (woke : Bool) : PthreadSem :=
  if woke = false then sem.ret t .etimedout else sem.moveTo t (.load (.top timeout))

/-- The section of `posix_sem_post`. -/
def wakeAll (t : ℕ) : PthreadSem :=
  { sem with
    threads := fun u =>
      let thread := sem.threads u
      let thread := { thread with wake_sema := thread.wake_sema + sem.waiters.count u }
      if u = t then { thread with pc := .idle, result := some .ok } else thread
    waiters := [] }

/-- The next step of a thread. -/
def advance (t : ℕ) (woke spurious : Bool) : Option PthreadSem :=
  match (sem.threads t).pc with
  | .idle => none
  | .load site => some (sem.tryAcquire t site)
  | .cas site value =>
    if sem.value = value ∧ spurious = false then some (sem.take t) else some (sem.tryAcquire t site)
  | .enter timeout => some (sem.testCancel t (sem.moveTo t (.publish timeout)))
  | .publish timeout => some (sem.publish t timeout)
  | .canceled timeout => some (sem.testCancel t (sem.moveTo t (.asleep timeout)))
  | .asleep timeout => sem.sleep t timeout woke
  | .awake timeout woke => some (sem.unpublish t timeout woke)
  | .test timeout woke => some (sem.testCancel t (sem.retry t timeout woke))
  | .postLoad => some (sem.tryPost t)
  | .postCas current =>
    if sem.value = current ∧ spurious = false then
      some { sem.moveTo t .wakeAll with value := current + 1, posts := sem.posts + 1 }
    else some (sem.tryPost t)
  | .wakeAll => some (sem.wakeAll t)

end PthreadSem

inductive PsemOp
  | call (t : ℕ) (pc : PsemPc)
  | advance (t : ℕ) (woke spurious : Bool)
  | cancel (t : ℕ)
  | setcancelstate (t : ℕ) (enable : Bool)
  | setcanceltype (t : ℕ) (async : Bool)
  | interrupt (t : ℕ)
  /-- a wake-up of a thread that was meant for another wait -/
  | release (t : ℕ)

def PsemPc.IsCall : PsemPc → Prop
  | .load .trywait => True
  | .load (.top _) => True
  | .postLoad => True
  | _ => False

instance : DecidablePred PsemPc.IsCall := fun pc => by
  unfold PsemPc.IsCall
  split <;> infer_instance

def PthreadSem.step (sem : PthreadSem) : PsemOp → Option PthreadSem
  | .call t pc => if (sem.threads t).pc = .idle ∧ pc.IsCall then some (sem.moveTo t pc) else none
  | .advance t woke spurious => sem.advance t woke spurious
  | .cancel t =>
    let thread := sem.threads t
    if thread.cancel_pending = true then some sem
    else some (sem.setThread t
      { thread with cancel_pending := true, wake_sema := thread.wake_sema + 1 })
  | .setcancelstate t enable =>
    if (sem.threads t).pc = .idle then
      let sem' := sem.setThread t { sem.threads t with cancel_enable := enable }
      some (if enable then sem'.testCancel t sem' else sem')
    else none
  | .setcanceltype t async =>
    if (sem.threads t).pc = .idle then
      let sem' := sem.setThread t { sem.threads t with cancel_async := async }
      some (if async then sem'.testCancel t sem' else sem')
    else none
  | .interrupt t =>
    let thread := sem.threads t
    if thread.cancel_point = false ∧ thread.cancel_async = true ∧ thread.shouldCancel = true ∧
        ¬ thread.pc.InPost then some (sem.leave t)
    else none
  | .release t =>
    some (sem.setThread t { sem.threads t with wake_sema := (sem.threads t).wake_sema + 1 })

/-- What `posix_sem_init` makes. No thread is in a call on it. -/
def PthreadSem.IsNew (sem : PthreadSem) : Prop :=
  0 ≤ sem.value ∧ sem.value ≤ ORBIS_KERNEL_SEM_VALUE_MAX ∧ sem.waiters = [] ∧
    sem.initial = sem.value ∧ sem.posts = 0 ∧ sem.waits = 0 ∧ ∀ t, (sem.threads t).pc = .idle

end ShadPS4.Kernel
