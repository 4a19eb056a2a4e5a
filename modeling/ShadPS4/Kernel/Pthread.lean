import ShadPS4.Kernel.OrbisSem

/-!
# Threads, mutexes and sleep queues

The data that the mutexes and the condition variables of libkernel work on.
-/

namespace ShadPS4.Kernel

open Function (update)

abbrev typeMask : BitVec 32 := 0xff

/-- `PthreadMutexFlags::Deferred`. -/
abbrev deferredFlag : BitVec 32 := 0x200

abbrev mutexErrorCheck : BitVec 32 := 1

abbrev mutexRecursive : BitVec 32 := 2

abbrev mutexNormal : BitVec 32 := 3

abbrev mutexAdaptiveNp : BitVec 32 := 4

abbrev maxDeferWaiters : ℕ := 50

inductive MutexProt
  | none
  | inherit
  | protect
deriving DecidableEq

structure PthreadMutex where
  m_owner : Option ℕ := none
  m_count : ℤ := 0
  m_spinloops : ℕ := 0
  m_yieldloops : ℕ := 0
  m_protocol : MutexProt := .none
  m_flags : BitVec 32
  m_lock : Option ℕ := none

def PthreadMutex.type (mutex : PthreadMutex) : BitVec 32 := mutex.m_flags &&& typeMask

/-- The `Deferred` flag is set. -/
def PthreadMutex.deferred (mutex : PthreadMutex) : Bool := (mutex.m_flags &&& deferredFlag) != 0

inductive LockTimeout
  | infinite
  | reltime
  | abstime (tv_sec tv_nsec : ℤ)
deriving DecidableEq

inductive PthreadResult
  | ok
  | one
  | eperm
  | esrch
  | edeadlk
  | ebusy
  | einval
  | eagain
  | etimedout
deriving DecidableEq

/-- The variables of `PthreadCond::Wait`. -/
structure WaitCall where
  cond : ℕ
  mp : ℕ
  timeout : LockTimeout
  recurse : ℤ := 0
  first_sleep : Bool := true
  error : PthreadResult := .ok
  canceled : Bool := false
deriving DecidableEq

/-- Who takes a mutex. -/
inductive LockKind
  | try
  | lock (timeout : LockTimeout)
  | cv (call : WaitCall)
deriving DecidableEq

inductive PthreadPc
  | idle
  /-- before the owner is compared with the thread -/
  | lockLoad (m : ℕ) (kind : LockKind)
  /-- the loops of `Lock` that try without blocking, with the number of turns that are left -/
  | lockSpin (m : ℕ) (kind : LockKind) (count : ℕ)
  /-- before the call that blocks, or before the `try_lock` of `TryLock` -/
  | lockBlock (m : ℕ) (kind : LockKind)
  /-- `m_lock` was taken, and the owner is not stored -/
  | lockStore (m : ℕ) (kind : LockKind)
  /-- `Unlock`, before the owner is compared with the thread -/
  | unlockLoad (m : ℕ)
  /-- the owner is cleared, and `m_lock` is not given back -/
  | unlockRelease (m : ℕ) (deferred : Bool) (call : Option WaitCall)
  /-- before `Unlock` wakes the threads that were deferred -/
  | unlockWake (deferred : Bool) (call : Option WaitCall)
  | waitStart (call : WaitCall)
  /-- before the first `SleepqLock` -/
  | waitLock (call : WaitCall)
  | waitAdd (call : WaitCall)
  | waitClear (call : WaitCall)
  /-- before `ShouldCancel` and `SleepqUnlock` -/
  | waitCheck (call : WaitCall)
  | sleep (call : WaitCall)
  /-- in `Sleep`, after `WakeAll` -/
  | asleep (call : WaitCall)
  /-- before the `SleepqLock` after the sleep -/
  | waitLoop (call : WaitCall)
  | signal (c : ℕ) (thread : Option ℕ)
  | signalRelease (td : ℕ)
  | broadcast (c : ℕ)
  | broadcastRelease (immediate_wakes : List ℕ)
deriving DecidableEq

structure Pthread where
  pc : PthreadPc := .idle
  wake_sema : ℕ := 0
  wchan : Option ℕ := none
  mutex_obj : Option ℕ := none
  will_sleep : Bool := false
  /-- `defer_waiters`, of which there are `nwaiter_defer` -/
  defer_waiters : List ℕ := []
  cancel_enable : Bool := true
  cancel_pending : Bool := false
  no_cancel : Bool := false
  result : Option PthreadResult := none

def Pthread.shouldCancel (thread : Pthread) : Bool :=
  thread.cancel_pending && thread.cancel_enable && !thread.no_cancel

structure SleepQueue where
  sq_blocked : List ℕ := []
  sc_lock : Option ℕ := none

/-- The mutexes, the condition variables and the threads. -/
structure PthreadState where
  mutexes : ℕ → PthreadMutex
  conds : ℕ → SleepQueue
  threads : ℕ → Pthread
  /-- the successful locks of a mutex by a thread, less its unlocks -/
  depth : ℕ → ℕ → ℤ

namespace PthreadState

variable (st : PthreadState)

def setThread (t : ℕ) (thread : Pthread) : PthreadState :=
  { st with threads := update st.threads t thread }

def moveTo (t : ℕ) (pc : PthreadPc) : PthreadState :=
  st.setThread t { st.threads t with pc }

def ret (t : ℕ) (result : PthreadResult) : PthreadState :=
  st.setThread t { st.threads t with pc := .idle, result := some result }

def setMutex (m : ℕ) (mutex : PthreadMutex) : PthreadState :=
  { st with mutexes := update st.mutexes m mutex }

def setCond (c : ℕ) (queue : SleepQueue) : PthreadState :=
  { st with conds := update st.conds c queue }

/-- A thread locks or unlocks a mutex. -/
def addDepth (t m : ℕ) (n : ℤ) : PthreadState :=
  { st with depth := update st.depth t (update (st.depth t) m (st.depth t m + n)) }

/-- `posix_pthread_exit`. -/
def leave (t : ℕ) : PthreadState :=
  st.setThread t { st.threads t with pc := .idle, no_cancel := true }

/-- `release` of the semaphores of some threads. -/
def release (tds : List ℕ) : PthreadState :=
  { st with threads := fun u =>
      { st.threads u with wake_sema := (st.threads u).wake_sema + tds.count u } }

def wakeAll (t : ℕ) : PthreadState :=
  let st' := st.release (st.threads t).defer_waiters
  st'.setThread t { st'.threads t with defer_waiters := [] }

end PthreadState

end ShadPS4.Kernel
