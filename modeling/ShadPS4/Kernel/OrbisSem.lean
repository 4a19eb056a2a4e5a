import Mathlib.Tactic.Linarith
import Mathlib.Algebra.BigOperators.Group.List.Basic
import ShadPS4.Lib.Transition

/-!
# `OrbisSem`

The semaphores of the kernel. A call that waits puts an object of its own into the list of waiting threads, and is
woken by the permit of the semaphore in it.
-/

namespace ShadPS4.Kernel

/-- The 32-bit integer of a sum or a difference. -/
def s32 (x : ℤ) : ℤ := Int.bmod x (2^32)

theorem s32_of_lt (h : -2^31 ≤ x) (h' : x < 2^31) : s32 x = x := by
  exact Int.bmod_eq_of_le (by omega) (by omega)

inductive SemResult
  | ok
  | ebusy
  | etimedout
  | eacces
  | ecanceled
deriving DecidableEq

structure WaitingThread where
  sem : ℕ := 0
  priority : ℕ
  need_count : ℤ
  was_signaled : Bool := false
  was_deleted : Bool := false
  was_canceled : Bool := false

def WaitingThread.getResult (w : WaitingThread) : SemResult :=
  if w.was_signaled then .ok
  else if w.was_deleted then .eacces
  else if w.was_canceled then .ecanceled
  else .etimedout

/-- A call of `Wait`. -/
structure SemCall where
  thread : WaitingThread
  timeout : Option ℕ
  result : Option SemResult := none

structure OrbisSem where
  wait_list : List ℕ := []
  token_count : ℤ
  max_count : ℤ
  init_count : ℤ
  is_fifo : Bool

/-- The checks of `sceKernelCreateSema` on the counts. -/
def OrbisSem.create (initCount maxCount : ℤ) (is_fifo : Bool) : Option OrbisSem :=
  if initCount < 0 ∨ maxCount ≤ 0 ∨ initCount > maxCount then none
  else some { token_count := initCount, max_count := maxCount, init_count := initCount, is_fifo }

/-- A semaphore in a run, with its calls, and with what was done so far. -/
structure SemState where
  sem : OrbisSem
  calls : ℕ → SemCall
  next : ℕ := 0
  accepted : ℤ := 0
  grants : List (ℕ × ℤ) := []
  canceled : Bool := false

/-- `need_count` of a call. -/
def SemState.need (st : SemState) (id : ℕ) : ℤ := (st.calls id).thread.need_count

def addWaiter (priority : ℕ → ℕ) (is_fifo : Bool) (wait_list : List ℕ) (waiter : ℕ) : List ℕ :=
  if is_fifo then wait_list ++ [waiter]
  else
    wait_list.takeWhile (fun id => priority id ≤ priority waiter) ++
      waiter :: wait_list.dropWhile (fun id => priority id ≤ priority waiter)

/-- The loop of `Signal` over the waiting threads: those that are left, those that are woken, and the
tokens that are left. -/
def grant (need : ℕ → ℤ) : List ℕ → ℤ → List ℕ × List ℕ × ℤ
  | [], token_count => ([], [], token_count)
  | id :: rest, token_count =>
    if need id > token_count then
      let r := grant need rest token_count
      (id :: r.1, r.2.1, r.2.2)
    else
      let r := grant need rest (s32 (token_count - need id))
      (r.1, id :: r.2.1, r.2.2)

/-- Some waiting threads are told what happened, and get a permit. -/
def wakeAll (calls : ℕ → SemCall) (woken : List ℕ) (tell : WaitingThread → WaitingThread) : ℕ → SemCall :=
  fun id => if id ∈ woken then
    { calls id with thread := { tell (calls id).thread with sem := (calls id).thread.sem + 1 } }
  else calls id

namespace SemState

variable (st : SemState)

/-- A new call, whose result is known at once or not. -/
def newCall (need_count : ℤ) (timeout : Option ℕ) (priority : ℕ)
    (result : Option SemResult) : SemState :=
  { st with
    calls := Function.update st.calls st.next
      { thread := { priority, need_count }, timeout, result }
    next := st.next + 1 }

/-- The section of `Wait` before it blocks. -/
def wait (can_block : Bool) (need_count : ℤ) (timeout : Option ℕ) (prio : ℕ) : SemState :=
  let priority := if st.sem.is_fifo then 0 else prio
  if st.sem.token_count ≥ need_count then
    let st' := st.newCall need_count timeout priority (some .ok)
    { st' with
      sem := { st.sem with token_count := s32 (st.sem.token_count - need_count) }
      grants := (st.next, need_count) :: st.grants }
  else if can_block = false then st.newCall need_count timeout priority (some .ebusy)
  else if timeout = some 0 then st.newCall need_count timeout priority (some .etimedout)
  else
    let st' := st.newCall need_count timeout priority none
    { st' with
      sem := { st.sem with
        wait_list := addWaiter (fun id => (st'.calls id).thread.priority) st.sem.is_fifo
          st.sem.wait_list st.next } }

/-- The section of `Wait` after it blocked, with a permit or because the time ran out. -/
def finish (id : ℕ) (timed_out : Bool) : Option SemState :=
  let call := st.calls id
  if ¬ (id < st.next ∧ call.result = none) then none
  else if timed_out = true ∧ call.timeout = none then none
  else if timed_out = false ∧ call.thread.sem = 0 then none
  else
    let result := call.thread.getResult
    let sem := if timed_out then call.thread.sem else call.thread.sem - 1
    some { st with
      calls := Function.update st.calls id
        { call with thread := { call.thread with sem }, result := some result }
      sem := { st.sem with
        wait_list := if result = .etimedout then st.sem.wait_list.erase id
          else st.sem.wait_list } }

/-- `Signal`. It returns `false` when nothing is changed. -/
def signal (signal_count : ℤ) : SemState :=
  if s32 (st.sem.token_count + signal_count) > st.sem.max_count then st
  else
    let r := grant st.need st.sem.wait_list (s32 (st.sem.token_count + signal_count))
    { st with
      sem := { st.sem with wait_list := r.1, token_count := r.2.2 }
      calls := wakeAll st.calls r.2.1 fun w => { w with was_signaled := true }
      accepted := st.accepted + signal_count
      grants := r.2.1.map (fun id => (id, st.need id)) ++ st.grants }

def cancel (set_count : ℤ) : SemState :=
  { st with
    calls := wakeAll st.calls st.sem.wait_list fun w => { w with was_canceled := true }
    sem := { st.sem with
      wait_list := []
      token_count := if set_count < 0 then st.sem.init_count else set_count }
    canceled := true }

def delete : SemState :=
  { st with
    calls := wakeAll st.calls st.sem.wait_list fun w => { w with was_deleted := true }
    sem := { st.sem with wait_list := [] } }

end SemState

/-- A critical section of a run. -/
inductive SemOp
  | wait (can_block : Bool) (need_count : ℤ) (timeout : Option ℕ) (prio : ℕ)
  | finish (id : ℕ) (timed_out : Bool)
  | signal (signal_count : ℤ)
  | cancel (set_count : ℤ)
  | delete

def SemState.step (st : SemState) : SemOp → Option SemState
  | .wait can_block need_count timeout prio => some (st.wait can_block need_count timeout prio)
  | .finish id timed_out => st.finish id timed_out
  | .signal signal_count => some (st.signal signal_count)
  | .cancel set_count => some (st.cancel set_count)
  | .delete => some st.delete

/-- The counts of a step are 32-bit integers. -/
def SemOp.IsWord : SemOp → Prop
  | .wait _ need_count _ _ => -2^31 ≤ need_count ∧ need_count < 2^31
  | .signal signal_count => -2^31 ≤ signal_count ∧ signal_count < 2^31
  | .cancel set_count => -2^31 ≤ set_count ∧ set_count < 2^31
  | _ => True

/-- A semaphore that `sceKernelCreateSema` made. -/
def SemState.IsNew (st : SemState) : Prop :=
  ∃ initCount maxCount is_fifo, maxCount < 2^31 ∧
    OrbisSem.create initCount maxCount is_fifo = some st.sem ∧ st.next = 0 ∧ st.accepted = 0 ∧
    st.grants = [] ∧ st.canceled = false

/-- The counts of a step keep the tokens in their bounds: what a call needs is not negative, or nobody
could have been served by what it gives back; the sum of a signal is neither negative nor too large for
32 bits; and no more tokens are set than there may be. -/
def SemOp.InBounds (st : SemState) : SemOp → Prop
  | .wait _ need_count _ _ => 0 ≤ need_count ∨
    (st.sem.token_count - need_count ≤ st.sem.max_count ∧
      ∀ id ∈ st.sem.wait_list, st.sem.token_count - need_count < st.need id)
  | .signal signal_count => 0 ≤ st.sem.token_count + signal_count ∧
    st.sem.token_count + signal_count < 2^31
  | .cancel set_count => set_count ≤ st.sem.max_count
  | _ => True

end ShadPS4.Kernel
