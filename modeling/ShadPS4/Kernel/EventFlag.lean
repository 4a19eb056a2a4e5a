import ShadPS4.Kernel.OrbisSem

/-!
# `EventFlagInternal`

The event flags of the kernel. A call that waits puts a `Waiter` of its own into the list, and stays there until
its thread runs again, which may be long after it was woken.
-/

namespace ShadPS4.Kernel

open Function (update)

inductive WaitMode
  | and
  | or

inductive ClearMode
  | none
  | all
  /-- the bits that were waited for are cleared -/
  | bits

inductive ThreadMode
  | single
  | multi
deriving DecidableEq

inductive QueueMode
  /-- in the order in which they came -/
  | fifo
  | threadPrio

inductive EvfResult
  | ok
  | ebusy
  | etimedout
  | eacces
  | ecanceled
  | eperm
deriving DecidableEq

structure Waiter where
  bits : BitVec 64
  wait_mode : WaitMode
  clear_mode : ClearMode
  result : BitVec 64 := 0
  ready : Bool := false
  canceled : Bool := false
  deleted : Bool := false
  timed_out : Bool := false
  priority : ℤ

def Waiter.conditionMet (waiter : Waiter) (m_bits : BitVec 64) : Bool :=
  match waiter.wait_mode with
  | .and => (m_bits &&& waiter.bits) == waiter.bits
  | .or => (m_bits &&& waiter.bits) != 0

def Waiter.applyClear (waiter : Waiter) (m_bits : BitVec 64) : BitVec 64 :=
  match waiter.clear_mode with
  | .none => m_bits
  | .all => 0
  | .bits => m_bits &&& ~~~waiter.bits

/-- What a waiting thread waits for: that it was told something. -/
def Waiter.wake (waiter : Waiter) : Bool :=
  waiter.ready || waiter.canceled || waiter.deleted || waiter.timed_out

/-- What `Wait` returns when its thread was woken. -/
def Waiter.outcome (waiter : Waiter) : EvfResult :=
  if waiter.canceled = true then .ecanceled
  else if waiter.deleted = true then .eacces
  else if waiter.timed_out = true then .etimedout
  else .ok

/-- The arguments of `Wait`, and the priority of the thread that calls it. -/
structure WaitArgs where
  bits : BitVec 64
  wait_mode : WaitMode
  clear_mode : ClearMode
  has_result : Bool
  ptr_micros : Option ℕ
  poll : Bool := false
  prio : ℤ := 0

/-- The arguments of the `Wait` that `Poll` makes. -/
def WaitArgs.ofPoll (bits : BitVec 64) (wait_mode : WaitMode) (clear_mode : ClearMode)
    (has_result : Bool) (prio : ℤ) : WaitArgs :=
  { bits, wait_mode, clear_mode, has_result, ptr_micros := some 0, poll := true, prio }

/-- What the caller is told: `Poll` returns `EBUSY` when `Wait` timed out. -/
def WaitArgs.ret (args : WaitArgs) (r : EvfResult) : EvfResult :=
  if args.poll = true ∧ r = .etimedout then .ebusy else r

/-- What is written to `*result`. -/
def WaitArgs.write (args : WaitArgs) (bits : BitVec 64) : Option (BitVec 64) :=
  if args.has_result then some bits else none

def WaitArgs.waiter (args : WaitArgs) : Waiter where
  bits := args.bits
  wait_mode := args.wait_mode
  clear_mode := args.clear_mode
  priority := args.prio

/-- A call of `Wait`. -/
structure EvfCall where
  /-- its arguments; `*ptr_micros` is changed by it -/
  args : WaitArgs
  waiter : Waiter
  returned : Option EvfResult := none
  written : Option (BitVec 64) := none

/-- `EventFlagInternal`, with the calls of `Wait`, and with what was done so far. -/
structure EventFlag where
  m_waiters : List ℕ := []
  m_thread_mode : ThreadMode
  m_queue_mode : QueueMode
  m_deleted : Bool := false
  m_bits : BitVec 64
  calls : ℕ → EvfCall
  next : ℕ := 0
  /-- the calls that were served, each with the bits before `ApplyClear` -/
  taken : List (ℕ × BitVec 64) := []
  /-- what each `Cancel` reported, with the number of waiters that were not served -/
  reports : List (ℤ × ℕ) := []

namespace EventFlag

def waiter (ef : EventFlag) (id : ℕ) : Waiter := (ef.calls id).waiter

/-- `AddWaiter`. A waiter stands behind those of the same priority. -/
def addWaiter (m_queue_mode : QueueMode) (priority : ℕ → ℤ) (m_waiters : List ℕ) (id : ℕ) : List ℕ :=
  match m_queue_mode with
  | .fifo => m_waiters ++ [id]
  | .threadPrio =>
    m_waiters.takeWhile (fun it => priority it ≥ priority id) ++
      id :: m_waiters.dropWhile (fun it => priority it ≥ priority id)

variable (ef : EventFlag)

def newCall (call : EvfCall) : EventFlag :=
  { ef with
    calls := update ef.calls ef.next call
    next := ef.next + 1 }

/-- The section of `Wait` before it blocks. -/
def wait (args : WaitArgs) : EventFlag :=
  let call : EvfCall := { args, waiter := args.waiter }
  if ef.m_deleted = true then ef.newCall { call with returned := some .eacces }
  else if ef.m_thread_mode = .single ∧ ef.m_waiters ≠ [] then
    ef.newCall { call with returned := some .eperm }
  else if args.waiter.conditionMet ef.m_bits = true then
    { ef.newCall { call with returned := some .ok, written := args.write ef.m_bits } with
      m_bits := args.waiter.applyClear ef.m_bits
      taken := (ef.next, ef.m_bits) :: ef.taken }
  else
    let ef' := ef.newCall call
    { ef' with
      m_waiters := addWaiter ef.m_queue_mode (fun id => (ef'.waiter id).priority) ef.m_waiters
        ef.next }

/-- The section of `Wait` after it blocked, because the waiter was woken or because the time ran out. -/
def finish (id : ℕ) : Option EventFlag :=
  let call := ef.calls id
  if ¬ (id < ef.next ∧ call.returned = none) then none
  else if call.waiter.wake = true then
    some { ef with
      m_waiters := ef.m_waiters.filter (· ≠ id)
      calls := update ef.calls id { call with
        returned := some (call.args.ret (call.waiter.outcome))
        written := call.args.write call.waiter.result } }
  else if call.args.ptr_micros = none then none
  else
    some { ef with
      m_waiters := ef.m_waiters.filter (· ≠ id)
      calls := update ef.calls id { call with
        args := { call.args with ptr_micros := some 0 }
        returned := some (call.args.ret .etimedout)
        written := call.args.write ef.m_bits } }

/-- A turn of the loop of `Set`. -/
def serve (id : ℕ) : EventFlag :=
  if (ef.waiter id).conditionMet ef.m_bits = false then ef
  else
    { ef with
      m_bits := (ef.waiter id).applyClear ef.m_bits
      calls := update ef.calls id { ef.calls id with
        waiter := { ef.waiter id with result := ef.m_bits, ready := true } }
      taken := (id, ef.m_bits) :: ef.taken }

def set (bits : BitVec 64) : EventFlag :=
  ef.m_waiters.foldl serve { ef with m_bits := ef.m_bits ||| bits }

def clear (bits : BitVec 64) : EventFlag :=
  { ef with m_bits := ef.m_bits &&& bits }

/-- All waiters of the list are told something. -/
def tellAll (tell : Waiter → Waiter) (id : ℕ) : EvfCall :=
  if id ∈ ef.m_waiters then { ef.calls id with waiter := tell (ef.waiter id) } else ef.calls id

/-- `Cancel`, with what it writes to `*num_waiters`. -/
def cancel (pattern : BitVec 64) : EventFlag :=
  { ef with
    m_bits := pattern
    calls := ef.tellAll fun waiter => { waiter with result := pattern, canceled := true }
    reports := (s32 ef.m_waiters.length,
      ef.m_waiters.countP fun id => (ef.waiter id).ready = false) :: ef.reports }

/-- What the destructor does before it waits for the list to be empty. -/
def delete : EventFlag :=
  { ef with
    m_deleted := true
    calls := ef.tellAll fun waiter => { waiter with deleted := true } }

end EventFlag

/-- A critical section of a run. -/
inductive EvfOp
  | wait (args : WaitArgs)
  | finish (id : ℕ)
  | set (bits : BitVec 64)
  | clear (bits : BitVec 64)
  | cancel (pattern : BitVec 64)
  | delete

def EventFlag.step (ef : EventFlag) : EvfOp → Option EventFlag
  | .wait args => some (ef.wait args)
  | .finish id => ef.finish id
  | .set bits => some (ef.set bits)
  | .clear bits => some (ef.clear bits)
  | .cancel pattern => some (ef.cancel pattern)
  | .delete => some ef.delete

def EventFlag.create (m_thread_mode : ThreadMode) (m_queue_mode : QueueMode) (m_bits : BitVec 64)
    (calls : ℕ → EvfCall) : EventFlag :=
  { m_thread_mode, m_queue_mode, m_bits, calls }

def EventFlag.IsNew (ef : EventFlag) : Prop :=
  ∃ thread_mode queue_mode bits calls, ef = EventFlag.create thread_mode queue_mode bits calls

/-- The turns of the loop of `Set` that are left serve no waiter that was already woken. -/
def EventFlag.ServesFresh (ef : EventFlag) : List ℕ → Prop
  | [] => True
  | id :: rest =>
    ((ef.waiter id).conditionMet ef.m_bits = true → (ef.waiter id).wake = false) ∧
      (ef.serve id).ServesFresh rest

/-- `Set` serves no waiter that was already woken, and no waiter that was served is cancelled or deleted
before its thread ran. -/
def EvfOp.Fresh (ef : EventFlag) : EvfOp → Prop
  | .set bits => { ef with m_bits := ef.m_bits ||| bits }.ServesFresh ef.m_waiters
  | .cancel _ => ∀ id ∈ ef.m_waiters, (ef.waiter id).ready = false
  | .delete => ∀ id ∈ ef.m_waiters, (ef.waiter id).ready = false
  | _ => True

end ShadPS4.Kernel
