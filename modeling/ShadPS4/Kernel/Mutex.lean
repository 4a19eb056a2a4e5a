import ShadPS4.Kernel.Pthread

/-!
# `PthreadMutex`

`Lock`, `TryLock` and `Unlock`, and `CvLock` and `CvUnlock` of the condition variables. The owner is compared
without the lock. It is stored after `m_lock` was taken, and cleared before it is given back.
-/

namespace ShadPS4.Kernel

/-- How `SelfLock` and `SelfTryLock` end: by an error, with one more recursion, or not at all. -/
inductive SelfResult
  | ret (result : PthreadResult)
  | count
  | unreachable

/-- `DoSleep`, with the result when there is no timeout. -/
def doSleep (timeout : LockTimeout) (otherwise : SelfResult) : SelfResult :=
  match timeout with
  | .infinite => otherwise
  | .reltime => .ret .etimedout
  | .abstime tv_sec tv_nsec =>
    if tv_sec < 0 ∨ tv_nsec < 0 ∨ tv_nsec ≥ 1000000000 then .ret .einval else .ret .etimedout

section

variable (mutex : PthreadMutex)

def PthreadMutex.recur : SelfResult :=
  if s32 (mutex.m_count + 1) > 0 then .count else .ret .eagain

def PthreadMutex.selfTryLock : SelfResult :=
  if mutex.type = mutexErrorCheck ∨ mutex.type = mutexNormal ∨ mutex.type = mutexAdaptiveNp then
    .ret .ebusy
  else if mutex.type = mutexRecursive then mutex.recur
  else .ret .einval

def PthreadMutex.selfLock (timeout : LockTimeout) : SelfResult :=
  if mutex.type = mutexErrorCheck ∨ mutex.type = mutexAdaptiveNp then
    doSleep timeout (.ret .edeadlk)
  else if mutex.type = mutexNormal then doSleep timeout .unreachable
  else if mutex.type = mutexRecursive then mutex.recur
  else .ret .einval

def PthreadMutex.self : LockKind → SelfResult
  | .try => mutex.selfTryLock
  | .lock timeout => mutex.selfLock timeout
  | .cv _ => mutex.selfLock .infinite

end

def LockKind.Invalid : LockKind → Prop
  | .lock (.abstime _ tv_nsec) => tv_nsec < 0 ∨ tv_nsec ≥ 1000000000
  | _ => False

instance : DecidablePred LockKind.Invalid := fun kind => by
  unfold LockKind.Invalid
  split <;> infer_instance

/-- A lock that waits until it has the mutex. -/
def LockKind.Blocks : LockKind → Prop
  | .lock .infinite => True
  | .cv _ => True
  | _ => False

instance : DecidablePred LockKind.Blocks := fun kind => by
  unfold LockKind.Blocks
  split <;> infer_instance

namespace PthreadState

variable (st : PthreadState) (t m : ℕ)

/-- `Wait` returns, with the mutex. -/
def waitReturn (call : WaitCall) : PthreadState :=
  if call.canceled = true then
    if (st.threads t).shouldCancel = true then st.leave t else st.ret t .ok
  else st.ret t call.error

variable (kind : LockKind)

/-- A lock is taken or not. `CvLock` sets `m_count` when it is, and `Wait` returns. -/
def lockReturn (result : PthreadResult) : PthreadState :=
  match kind with
  | .cv call =>
    if result = .ok then
      (st.setMutex m { st.mutexes m with m_count := call.recurse }).waitReturn t call
    else
      st.waitReturn t { call with error := if call.error = .ok then result else call.error }
  | _ => if result = .ok then (st.addDepth t m 1).ret t .ok else st.ret t result

/-- `m_lock` is taken. -/
def acquire : PthreadState :=
  (st.setMutex m { st.mutexes m with m_lock := some t }).moveTo t (.lockStore m kind)

/-- The start of `Lock` and `TryLock`. -/
def lockLoad : Option PthreadState :=
  let mutex := st.mutexes m
  if mutex.m_owner = some t then
    match mutex.self kind with
    | .ret result => some (st.lockReturn t m kind result)
    | .count => some ((st.setMutex m { mutex with m_count := mutex.m_count + 1 }).lockReturn t m kind .ok)
    | .unreachable => none
  else if kind ≠ .try ∧ mutex.m_protocol = .none then
    some (st.moveTo t (.lockSpin m kind (mutex.m_spinloops + mutex.m_yieldloops)))
  else some (st.moveTo t (.lockBlock m kind))

/-- A turn of the loops that do not block. -/
def lockSpin (kind : LockKind) : ℕ → PthreadState
  | 0 => st.moveTo t (.lockBlock m kind)
  | count + 1 =>
    if (st.mutexes m).m_lock = none then st.acquire t m kind
    else st.moveTo t (.lockSpin m kind count)

/-- The call that blocks, or the `try_lock` of `TryLock`. The time of a timed lock may run out. -/
def lockBlock (timed_out : Bool) : Option PthreadState :=
  if kind.Invalid then some (st.lockReturn t m kind .einval)
  else if (st.mutexes m).m_lock = none ∧ timed_out = false then some (st.acquire t m kind)
  else if kind.Blocks then none
  else if kind = .try then
    if (st.mutexes m).m_lock = none then none else some (st.lockReturn t m kind .ebusy)
  else if timed_out = true then some (st.lockReturn t m kind .etimedout)
  else none

def lockStore : PthreadState :=
  (st.setMutex m { st.mutexes m with m_owner := some t }).lockReturn t m kind .ok

/-- `Unlock` of the owner, up to where the owner is cleared. -/
def unlockOwned (call : Option WaitCall) : PthreadState :=
  let mutex := st.mutexes m
  if mutex.type = mutexRecursive ∧ mutex.m_count > 0 then
    (st.setMutex m { mutex with m_count := mutex.m_count - 1 }).ret t .ok
  else
    (st.setMutex m { mutex with
      m_flags := mutex.m_flags &&& ~~~deferredFlag
      m_owner := none }).moveTo t (.unlockRelease m mutex.deferred call)

def unlockLoad : PthreadState :=
  if (st.mutexes m).m_owner ≠ some t then st.ret t .eperm
  else (st.addDepth t m (-1)).unlockOwned t m none

/-- `m_lock` is given back. -/
def unlockRelease (deferred : Bool) (call : Option WaitCall) : PthreadState :=
  (st.setMutex m { st.mutexes m with m_lock := none }).moveTo t (.unlockWake deferred call)

/-- The end of `Unlock`. `Wait` goes on after its `CvUnlock`. -/
def unlockWake (deferred : Bool) (call : Option WaitCall) : PthreadState :=
  let st' := if (st.threads t).will_sleep = false ∧ deferred = true then st.wakeAll t else st
  call.elim (st'.ret t .ok) fun call => st'.moveTo t (.waitAdd call)

end PthreadState

end ShadPS4.Kernel
