import ShadPS4.Kernel.OrbisSem

/-!
# `PthreadRwlock`

The locks of libkernel for readers and writers, over a mutex that prefers readers.
-/

namespace ShadPS4.Kernel

open Function (update)

inductive RwWait
  | try
  | forever
  | until (tv_nsec : ℤ)
deriving DecidableEq

def RwWait.Invalid : RwWait → Prop
  | .until tv_nsec => tv_nsec ≥ 1000000000 ∨ tv_nsec < 0
  | _ => False

instance : DecidablePred RwWait.Invalid := fun wait => by
  cases wait <;> unfold RwWait.Invalid <;> infer_instance

/-- Where a thread is in the calls on the locks. -/
inductive RwPc
  | idle
  | rdTry (r : ℕ) (wait : RwWait)
  | rdWait (r : ℕ) (wait : RwWait)
  | rdCount (r : ℕ)
  | wrTry (r : ℕ) (wait : RwWait)
  | wrWait (r : ℕ) (wait : RwWait)
  | wrStore (r : ℕ)
  /-- `posix_pthread_rwlock_unlock`, before the owner is compared with the thread -/
  | unlock (r : ℕ)
  | clear (r : ℕ)
  /-- before `unlock` of the inner mutex -/
  | unlockWrite (r : ℕ)
  /-- before the owner is compared with the null pointer -/
  | compare (r : ℕ)
  /-- before `unlock_shared` of the inner mutex -/
  | unlockRead (r : ℕ)
deriving DecidableEq

inductive RwResult
  | ok
  | ebusy
  | einval
  | etimedout

/-- `PthreadRwlock`, with its `SharedFirstMutex`. -/
structure Rwlock where
  readers : ℤ := 0
  writer_active : Bool := false
  owner : Option ℕ := none

/-- `Pthread`. -/
structure RwThread where
  pc : RwPc := .idle
  rdlock_count : ℤ := 0
  result : Option RwResult := none

structure RwState where
  locks : ℕ → Rwlock
  threads : ℕ → RwThread
  reading : List (ℕ × ℕ) := []
  writing : List (ℕ × ℕ) := []

namespace RwState

variable (st : RwState)

def moveTo (t : ℕ) (pc : RwPc) : RwState :=
  { st with threads := update st.threads t { st.threads t with pc } }

def ret (t : ℕ) (result : RwResult) : RwState :=
  { st with threads :=
      update st.threads t { st.threads t with pc := .idle, result := some result } }

def setLock (r : ℕ) (lock : Rwlock) : RwState :=
  { st with locks := update st.locks r lock }

/-- `++readers`. -/
def takeRead (t r : ℕ) : RwState :=
  let lock := st.locks r
  { (st.setLock r { lock with readers := s32 (lock.readers + 1) }).moveTo t (.rdCount r) with
    reading := (t, r) :: st.reading }

/-- `writer_active = true`. -/
def takeWrite (t r : ℕ) : RwState :=
  { (st.setLock r { st.locks r with writer_active := true }).moveTo t (.wrStore r) with
    writing := (t, r) :: st.writing }

def tryLockShared (t r : ℕ) (wait : RwWait) : RwState :=
  if (st.locks r).writer_active = false then st.takeRead t r
  else if wait = .try then st.ret t .ebusy
  else if wait.Invalid then st.ret t .einval
  else st.moveTo t (.rdWait r wait)

/-- `lock_shared` and `try_lock_shared_until`. The thread sleeps while there is a writer. -/
def lockShared (t r : ℕ) (wait : RwWait) : Option RwState :=
  if (st.locks r).writer_active = false then some (st.takeRead t r)
  else if wait = .forever then none
  else some (st.ret t .etimedout)

def tryLock (t r : ℕ) (wait : RwWait) : RwState :=
  if ¬ ((st.locks r).writer_active = true ∨ (st.locks r).readers > 0) then st.takeWrite t r
  else if wait = .try then st.ret t .ebusy
  else if wait.Invalid then st.ret t .einval
  else st.moveTo t (.wrWait r wait)

/-- `lock` and `try_lock_until`. The thread sleeps while there is a writer or a reader. -/
def lock (t r : ℕ) (wait : RwWait) : Option RwState :=
  if (st.locks r).writer_active = false ∧ (st.locks r).readers = 0 then some (st.takeWrite t r)
  else if wait = .forever then none
  else some (st.ret t .etimedout)

/-- `rdlock_count++`, and the call returns. -/
def count (t : ℕ) : RwState :=
  let thread := st.threads t
  { st with
    threads := update st.threads t { thread with
      pc := .idle
      rdlock_count := s32 (thread.rdlock_count + 1)
      result := some .ok } }

def storeOwner (t r : ℕ) : RwState :=
  (st.setLock r { st.locks r with owner := some t }).ret t .ok

/-- The owner is compared with the thread. -/
def unlockStart (t r : ℕ) : RwState :=
  if (st.locks r).owner = some t then st.moveTo t (.clear r) else st.moveTo t (.compare r)

def clearOwner (t r : ℕ) : RwState :=
  (st.setLock r { st.locks r with owner := none }).moveTo t (.unlockWrite r)

/-- `unlock` of the inner mutex. -/
def unlockWrite (t r : ℕ) : RwState :=
  { (st.setLock r { st.locks r with writer_active := false }).ret t .ok with
    writing := st.writing.erase (t, r) }

/-- The owner is compared with the null pointer, and `rdlock_count--`. -/
def compareOwner (t r : ℕ) : RwState :=
  if (st.locks r).owner = none then
    let thread := st.threads t
    { st with
      threads := update st.threads t { thread with
        pc := .unlockRead r
        rdlock_count := s32 (thread.rdlock_count - 1) } }
  else st.moveTo t (.unlockRead r)

/-- `unlock_shared`. -/
def unlockRead (t r : ℕ) : RwState :=
  let lock := st.locks r
  { (st.setLock r { lock with readers := s32 (lock.readers - 1) }).ret t .ok with
    reading := st.reading.erase (t, r) }

/-- The next step of a thread. -/
def advance (t : ℕ) : Option RwState :=
  match (st.threads t).pc with
  | .idle => none
  | .rdTry r wait => some (st.tryLockShared t r wait)
  | .rdWait r wait => st.lockShared t r wait
  | .rdCount _ => some (st.count t)
  | .wrTry r wait => some (st.tryLock t r wait)
  | .wrWait r wait => st.lock t r wait
  | .wrStore r => some (st.storeOwner t r)
  | .unlock r => some (st.unlockStart t r)
  | .clear r => some (st.clearOwner t r)
  | .unlockWrite r => some (st.unlockWrite t r)
  | .compare r => some (st.compareOwner t r)
  | .unlockRead r => some (st.unlockRead t r)

end RwState

inductive RwOp
  | rdlock (t r : ℕ) (wait : RwWait)
  | wrlock (t r : ℕ) (wait : RwWait)
  /-- a thread calls `posix_pthread_rwlock_unlock` -/
  | unlock (t r : ℕ)
  | advance (t : ℕ)

variable (st : RwState)

def RwState.step : RwOp → Option RwState
  | .rdlock t r wait =>
    if (st.threads t).pc = .idle then some (st.moveTo t (.rdTry r wait)) else none
  | .wrlock t r wait =>
    if (st.threads t).pc = .idle then some (st.moveTo t (.wrTry r wait)) else none
  | .unlock t r => if (st.threads t).pc = .idle then some (st.moveTo t (.unlock r)) else none
  | .advance t => st.advance t

def RwState.IsNew : Prop :=
  (∀ r, st.locks r = {}) ∧ (∀ t, (st.threads t).pc = .idle ∧ (st.threads t).rdlock_count = 0) ∧
    st.reading = [] ∧ st.writing = []

/-- The thread took the lock, and did not give it back. -/
def RwState.Holds (t r : ℕ) : Prop := (t, r) ∈ st.reading ∨ (t, r) ∈ st.writing

/-- A lock is given back by a thread that holds it, and a read lock is taken when its readers and those
of the thread can be counted in 32 bits. -/
def RwOp.Fair : RwOp → Prop
  | .unlock t r => st.Holds t r
  | .advance t => ∀ r, ((∃ wait, (st.threads t).pc = .rdTry r wait ∨ (st.threads t).pc = .rdWait r wait) →
      (st.locks r).readers < 2^31 - 1 ∧ (st.threads t).rdlock_count < 2^31 - 1)
  | _ => True

end ShadPS4.Kernel
