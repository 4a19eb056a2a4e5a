import ShadPS4.Kernel.Mutex

/-!
# `PthreadCond`

`Wait`, `Signal` and `Broadcast`.
-/

namespace ShadPS4.Kernel

namespace PthreadState

variable (st : PthreadState) (t : ℕ)

def sleepqAdd (c td : ℕ) : PthreadState :=
  (st.setCond c { st.conds c with sq_blocked := (st.conds c).sq_blocked ++ [td] }).setThread td
    { st.threads td with wchan := some c }

/-- `SleepqRemove`. It stops when the thread is not in the queue. -/
def sleepqRemove (c td : ℕ) : PthreadState :=
  (st.setCond c { st.conds c with
    sq_blocked := (st.conds c).sq_blocked.filter (· ≠ td) }).setThread td
    { st.threads td with wchan := none }

section

variable (call : WaitCall)

/-- `IsOwned`, the assertion that the thread is in no queue, and `PthreadTestCancel`. -/
def waitStart : Option PthreadState :=
  let thread := st.threads t
  if (st.mutexes call.mp).m_owner ≠ some t then some (st.ret t .eperm)
  else if thread.wchan ≠ none then none
  else if thread.shouldCancel = true then some (st.leave t)
  else some (st.moveTo t (.waitLock call))

/-- The start of `Wait` under the lock of the queue, up to where `CvUnlock` cleared the owner. -/
def waitLock : Option PthreadState :=
  let mutex := st.mutexes call.mp
  if (st.conds call.cond).sc_lock ≠ none then none
  else
    let call := { call with recurse := mutex.m_count }
    let st' := (st.setCond call.cond { st.conds call.cond with sc_lock := some t }).setThread t
      { st.threads t with will_sleep := true }
    let st' := st'.setMutex call.mp { mutex with m_count := 0 }
    if mutex.m_owner ≠ some t then some (st'.moveTo t (.waitAdd call))
    else some (st'.unlockOwned t call.mp (some call))

/-- The thread is put into the queue. -/
def waitAdd : PthreadState :=
  let st' := st.setThread t { st.threads t with mutex_obj := some call.mp }
  (st'.sleepqAdd call.cond t).moveTo t (.waitClear call)

/-- `ClearWake`. -/
def waitClear : PthreadState :=
  st.setThread t { st.threads t with wake_sema := 0, pc := .waitCheck call }

/-- The cancellation is tested, and the lock of the queue is given back. -/
def waitCheck (timed_out : Bool) : PthreadState :=
  let st' := st.setCond call.cond { st.conds call.cond with sc_lock := none }
  if (st.threads t).shouldCancel = true then st'.moveTo t (.waitLoop { call with error := .ok })
  else if call.timeout = .reltime ∧ call.first_sleep = false ∧ timed_out = true then
    st'.moveTo t (.waitLoop { call with error := .etimedout })
  else
    let first_sleep := call.first_sleep && call.timeout ≠ .reltime
    st'.moveTo t (.sleep { call with first_sleep })

/-- The start of `Sleep`. -/
def sleep : PthreadState :=
  let st' := (st.setThread t { st.threads t with will_sleep := false }).wakeAll t
  st'.moveTo t (.asleep call)

/-- `Sleep` ends, with a permit or because the time ran out. -/
def wake (timed_out : Bool) : Option PthreadState :=
  let thread := st.threads t
  if timed_out = true then
    if call.timeout = .infinite then none
    else some (st.moveTo t (.waitLoop { call with error := .etimedout }))
  else if thread.wake_sema = 0 then none
  else some (st.setThread t { thread with
    wake_sema := thread.wake_sema - 1
    pc := .waitLoop { call with error := .ok } })

/-- The wait ends, and the mutex is taken again. -/
def waitDone : PthreadState :=
  st.setThread t { st.threads t with mutex_obj := none, pc := .lockLoad call.mp (.cv call) }

/-- The section after the sleep. -/
def waitLoop : Option PthreadState :=
  let thread := st.threads t
  if (st.conds call.cond).sc_lock ≠ none then none
  else if thread.wchan = none then some (st.waitDone t { call with error := .ok })
  else if thread.shouldCancel = true then
    if t ∉ (st.conds call.cond).sq_blocked then none
    else some ((st.sleepqRemove call.cond t).waitDone t { call with canceled := true })
  else if call.error = .etimedout then
    if t ∉ (st.conds call.cond).sq_blocked then none
    else some ((st.sleepqRemove call.cond t).waitDone t call)
  else
    some ((st.setCond call.cond { st.conds call.cond with sc_lock := some t }).moveTo t
      (.waitClear call))

end

def defer (td m : ℕ) : PthreadState :=
  let st' := if (st.threads t).defer_waiters.length ≥ maxDeferWaiters then st.wakeAll t else st
  (st'.setThread t
    { st'.threads t with defer_waiters := (st'.threads t).defer_waiters ++ [td] }).setMutex m
    { st.mutexes m with m_flags := (st.mutexes m).m_flags ||| deferredFlag }

/-- The thread that `Signal` wakes. -/
def signalled (c : ℕ) (thread : Option ℕ) : Option ℕ :=
  thread.elim (st.conds c).sq_blocked.head? fun td =>
    if td ∈ (st.conds c).sq_blocked then some td else none

/-- The section of `Signal`. `found` is what `FindThread` said. -/
def signal (c : ℕ) (thread : Option ℕ) (found : Bool) : Option PthreadState :=
  if thread ≠ none ∧ found = false then some (st.ret t .esrch)
  else if (st.conds c).sc_lock ≠ none then none
  else
    some ((st.signalled c thread).elim (st.ret t (if thread = none then .ok else .one)) fun td =>
      (st.threads td).mutex_obj.elim ((st.sleepqRemove c td).moveTo t (.signalRelease td)) fun m =>
        if (st.mutexes m).m_owner = some t then ((st.sleepqRemove c td).defer t td m).ret t .ok
        else (st.sleepqRemove c td).moveTo t (.signalRelease td))

/-- `drop_cb`, and the thread is no longer in a queue. -/
def drop (immediate_wakes : List ℕ) (td : ℕ) : PthreadState × List ℕ :=
  let dropped (st : PthreadState) := st.setThread td { st.threads td with wchan := none }
  let now : PthreadState × List ℕ :=
    if immediate_wakes.length ≥ maxDeferWaiters then (dropped (st.release immediate_wakes), [td])
    else (dropped st, immediate_wakes ++ [td])
  (st.threads td).mutex_obj.elim now fun m =>
    if (st.mutexes m).m_owner = some t then (dropped (st.defer t td m), immediate_wakes) else now

/-- The section of `Broadcast`. -/
def broadcast (c : ℕ) : Option PthreadState :=
  if (st.conds c).sc_lock ≠ none then none
  else
    let r := (st.conds c).sq_blocked.foldl (fun r td => r.1.drop t r.2 td) (st, [])
    some ((r.1.setCond c { st.conds c with sq_blocked := [] }).moveTo t (.broadcastRelease r.2))

/-- A turn of the loop over `immediate_wakes`. -/
def broadcastRelease : List ℕ → PthreadState
  | [] => st.ret t .ok
  | td :: rest => (st.release [td]).moveTo t (.broadcastRelease rest)

/-- The next step of a thread. `choice` is whether a time ran out, or whether a thread is known. -/
def advance (choice : Bool) : Option PthreadState :=
  match (st.threads t).pc with
  | .idle => none
  | .lockLoad m kind => st.lockLoad t m kind
  | .lockSpin m kind count => some (st.lockSpin t m kind count)
  | .lockBlock m kind => st.lockBlock t m kind choice
  | .lockStore m kind => some (st.lockStore t m kind)
  | .unlockLoad m => some (st.unlockLoad t m)
  | .unlockRelease m deferred call => some (st.unlockRelease t m deferred call)
  | .unlockWake deferred call => some (st.unlockWake t deferred call)
  | .waitStart call => st.waitStart t call
  | .waitLock call => st.waitLock t call
  | .waitAdd call => some (st.waitAdd t call)
  | .waitClear call => some (st.waitClear t call)
  | .waitCheck call => some (st.waitCheck t call choice)
  | .sleep call => some (st.sleep t call)
  | .asleep call => st.wake t call choice
  | .waitLoop call => st.waitLoop t call
  | .signal c thread => st.signal t c thread choice
  | .signalRelease td => some ((st.release [td]).ret t .ok)
  | .broadcast c => st.broadcast t c
  | .broadcastRelease immediate_wakes => some (st.broadcastRelease t immediate_wakes)

end PthreadState

inductive PthreadOp
  | trylock (t m : ℕ)
  | lock (t m : ℕ) (timeout : LockTimeout)
  | unlock (t m : ℕ)
  | wait (t c m : ℕ) (timeout : LockTimeout)
  | signal (t c : ℕ) (thread : Option ℕ)
  | broadcast (t c : ℕ)
  | advance (t : ℕ) (choice : Bool)
  | cancel (t : ℕ)
  | setcancelstate (t : ℕ) (enable : Bool)

namespace PthreadState

variable (st : PthreadState)

def call (t : ℕ) (pc : PthreadPc) : Option PthreadState :=
  if (st.threads t).pc = .idle then some (st.moveTo t pc) else none

def cancel (t : ℕ) : PthreadState :=
  let thread := st.threads t
  if thread.cancel_pending = true then st
  else st.setThread t { thread with cancel_pending := true, wake_sema := thread.wake_sema + 1 }

def setcancelstate (t : ℕ) (enable : Bool) : Option PthreadState :=
  let thread : Pthread := { st.threads t with cancel_enable := enable }
  if (st.threads t).pc ≠ .idle then none
  else if enable = true ∧ thread.shouldCancel = true then some ((st.setThread t thread).leave t)
  else some (st.setThread t thread)

def step : PthreadOp → Option PthreadState
  | .trylock t m => st.call t (.lockLoad m .try)
  | .lock t m timeout => st.call t (.lockLoad m (.lock timeout))
  | .unlock t m => st.call t (.unlockLoad m)
  | .wait t c m timeout => st.call t (.waitStart { cond := c, mp := m, timeout })
  | .signal t c thread => st.call t (.signal c thread)
  | .broadcast t c => st.call t (.broadcast c)
  | .advance t choice => st.advance t choice
  | .cancel t => some (st.cancel t)
  | .setcancelstate t enable => st.setcancelstate t enable

/-- Nothing is locked, no thread waits, and no thread is in a call. -/
def IsNew : Prop :=
  (∀ m, (st.mutexes m).m_owner = none ∧ (st.mutexes m).m_lock = none ∧ (st.mutexes m).m_count = 0) ∧
    (∀ c, st.conds c = {}) ∧ (∀ t, st.threads t = {}) ∧ ∀ t m, st.depth t m = 0

end PthreadState

end ShadPS4.Kernel
