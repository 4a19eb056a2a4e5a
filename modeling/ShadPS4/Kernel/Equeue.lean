import Mathlib.Data.Int.Bitwise
import Mathlib.Data.List.Perm.Basic

/-!
# `EqueueInternal`

The event queue of libkernel. Events are added, triggered and removed by any thread; `WaitForEvents` collects those
that are triggered.
-/

namespace ShadPS4.Kernel

inductive EventFilter
  | none
  | read
  | write
  | aio
  | vnode
  | proc
  | signal
  | timer
  | fs
  | lio
  | user
  | polling
  | videoOut
  | graphicsCore
  | hrTimer
deriving DecidableEq

abbrev eventAdd : BitVec 16 := 1

abbrev eventOneShot : BitVec 16 := 0x10

abbrev eventClear : BitVec 16 := 0x20

structure OrbisKernelEvent where
  ident : BitVec 64
  filter : EventFilter
  flags : BitVec 16
  fflags : BitVec 32
  data : BitVec 64
  udata : BitVec 64
deriving DecidableEq

structure OrbisKernelBintime where
  sec : ℤ
  frac : ℤ

def OrbisKernelBintime.nanoseconds (time : OrbisKernelBintime) : ℤ :=
  ((1000000000 * (time.frac >>> 32)) >>> 32) + time.sec * 1000000000

/-- `EqueueEvent`. Times are in nanoseconds. -/
structure EqueueEvent where
  event : OrbisKernelEvent
  time_added : ℤ := 0
  timer_interval : ℤ := 0
  is_triggered : Bool := false
  /-- the event was collected after it was last triggered -/
  collected : Bool := false

namespace EqueueEvent

variable (event : EqueueEvent)

def key : BitVec 64 × EventFilter := (event.event.ident, event.event.filter)

def clear : EqueueEvent :=
  { event with is_triggered := false, event := { event.event with fflags := 0, data := 0 } }

def trigger (data : BitVec 64) : EqueueEvent :=
  { event with is_triggered := true, event := { event.event with data } }

def triggerUser (data : BitVec 64) : EqueueEvent :=
  { event with is_triggered := true, event := { event.event with udata := data } }

def triggerTimer : EqueueEvent :=
  { event with is_triggered := true, event := { event.event with data := event.event.data + 1 } }

/-- `TriggerDisplay`, at a time. -/
def triggerDisplay (data time : BitVec 64) : EqueueEvent :=
  let event_id := data &&& 0xff
  let count := (event.event.data >>> 12) &&& 0xf
  let counter := if count ≠ 0xf then count + 1 else count
  if data ≠ 0 ∧ event_id = event.event.ident ∧ event.event.ident ≠ 0xfe then
    { event with is_triggered := true, event := { event.event with
      data := (time &&& 0xfff) ||| (counter <<< 12) ||| (data &&& 0xffffffffffff0000) } }
  else { event with is_triggered := true }

/-- The event has the `OneShot` flag. -/
def oneShot : Bool := (event.event.flags &&& eventOneShot) != 0

/-- The event has the `Clear` flag. -/
def clears : Bool := (event.event.flags &&& eventClear) != 0

/-- The interval of a timer that is added at a time. -/
def timed (now : ℤ) (time : OrbisKernelBintime) : EqueueEvent :=
  { event with
    time_added := now
    timer_interval :=
      if event.event.filter = .timer then event.event.data.toInt * 1000000
      else if event.event.filter = .hrTimer then time.nanoseconds
      else event.timer_interval }

def update (old_event event : EqueueEvent) : EqueueEvent :=
  { old_event with
    timer_interval := event.timer_interval
    event := { old_event.event with udata := event.event.udata } }

def stored : EqueueEvent :=
  let flags := event.event.flags &&& ~~~eventAdd
  { event with event := { event.event with
    data := 0
    flags := if event.event.filter ≠ .user then flags ||| eventClear else flags } }

/-- The turn of the loop of `TriggerEvent` for an event that matches. -/
def triggered (filter : EventFilter) (trigger_data time : BitVec 64) : EqueueEvent :=
  let event := { event with collected := false }
  match filter with
  | .videoOut => event.triggerDisplay trigger_data time
  | .user => event.triggerUser trigger_data
  | .timer => event.triggerTimer
  | .hrTimer => event.triggerTimer
  | _ => event.trigger trigger_data

def collect : Option EqueueEvent :=
  let event := { event with collected := true }
  let event := if event.clears then event.clear else event
  if event.oneShot then none else some event

end EqueueEvent

structure SmallTimer where
  event : OrbisKernelEvent
  added : ℤ
  interval : ℤ
deriving DecidableEq

def SmallTimer.Expired (st : SmallTimer) (curr_clock : ℤ) : Prop :=
  curr_clock - st.added ≥ st.interval

instance (st : SmallTimer) (curr_clock : ℤ) : Decidable (st.Expired curr_clock) :=
  inferInstanceAs (Decidable (_ ≥ _))

/-- `GetTriggeredEvents`, with `count` events written. The rest of the events is what is stored after
it. -/
def getTriggeredEvents (num : ℕ) : ℕ → List EqueueEvent → List OrbisKernelEvent × List EqueueEvent
  | _, [] => ([], [])
  | count, it :: rest =>
    if it.is_triggered then
      if count + 1 = num then ([it.event], it.collect.toList ++ rest)
      else
        let (ev, events) := getTriggeredEvents num (count + 1) rest
        (it.event :: ev, it.collect.toList ++ events)
    else
      let (ev, events) := getTriggeredEvents num count rest
      (ev, it :: events)

/-- The loop of `WaitForSmallTimer` over the timers, with `count` events written. -/
def collectSmallTimers (curr_clock : ℤ) (num : ℕ) : ℕ → List SmallTimer → List OrbisKernelEvent × List SmallTimer
  | _, [] => ([], [])
  | count, st :: rest =>
    if count < num then
      if st.Expired curr_clock then
        let (ev, timers) := collectSmallTimers curr_clock num (count + 1) rest
        (st.event :: ev, timers)
      else
        let (ev, timers) := collectSmallTimers curr_clock num count rest
        (ev, st :: timers)
    else ([], st :: rest)

/-- Where a thread is in `WaitForEvents`. -/
inductive EqueueWait
  | returned (ev : List OrbisKernelEvent)
  | start (num : ℕ) (timo : Option ℕ)
  /-- before the predicate of the condition variable -/
  | wait (num micros : ℕ)
  | smallStart (num micros : ℕ)
  | smallRead (num : ℕ) (wait_end_us : Option ℤ)
  /-- before the timers are compared with the clock -/
  | smallCheck (num : ℕ) (wait_end_us : Option ℤ) (curr_clock : ℤ)

/-- `EqueueInternal`. -/
structure Equeue where
  m_events : List EqueueEvent := []
  /-- `m_small_timers`, in any order -/
  m_small_timers : List SmallTimer := []
  now : ℤ := 0
  waits : ℕ → EqueueWait := fun _ => .returned []

inductive EqueueOp
  /-- `AddEvent` of an event that is not triggered; `time` is what the data of a timer points to -/
  | addEvent (event : OrbisKernelEvent) (time : OrbisKernelBintime)
  | removeEvent (id : BitVec 64) (filter : EventFilter)
  | triggerEvent (ident : BitVec 64) (filter : EventFilter) (trigger_data time : BitVec 64)
  /-- `AddSmallTimer`; `time` is what the data of the timer points to -/
  | addSmallTimer (event : OrbisKernelEvent) (time : OrbisKernelBintime)
  | removeSmallTimer (id : BitVec 64)
  | tick (nanoseconds : ℕ)
  | waitForEvents (t num : ℕ) (timo : Option ℕ)
  /-- a thread in `WaitForEvents` goes on; its time may have run out, and the small timers come in an order -/
  | advance (t : ℕ) (timed_out : Bool) (order : List SmallTimer)

namespace Equeue

variable (st : Equeue)

/-- The section of `AddEvent`. -/
def addEvent (event : EqueueEvent) (time : OrbisKernelBintime) : Equeue :=
  let event := event.timed st.now time
  let find_it := st.m_events.findIdx (·.key = event.key)
  if find_it < st.m_events.length then
    { st with m_events := st.m_events.modify find_it (·.update event) }
  -- The second search finds nothing that the first one did not find.
  else { st with m_events := st.m_events ++ [event.stored] }

def removeEvent (id : BitVec 64) (filter : EventFilter) : Equeue :=
  { st with m_events := st.m_events.eraseP (·.key = (id, filter)) }

def triggerEvent (ident : BitVec 64) (filter : EventFilter) (trigger_data time : BitVec 64) : Equeue :=
  { st with m_events := st.m_events.map fun event =>
      if event.key = (ident, filter) then event.triggered filter trigger_data time else event }

def addSmallTimer (event : OrbisKernelEvent) (time : OrbisKernelBintime) : Equeue :=
  { st with m_small_timers :=
      { event, added := st.now, interval := time.nanoseconds } ::
        st.m_small_timers.filter (·.event.ident ≠ event.ident) }

def removeSmallTimer (id : BitVec 64) : Equeue :=
  { st with m_small_timers := st.m_small_timers.filter (·.event.ident ≠ id) }

def moveTo (t : ℕ) (wait : EqueueWait) : Equeue :=
  { st with waits := Function.update st.waits t wait }

/-- `GetTriggeredEvents`, and the thread returns. -/
def deliver (t num : ℕ) : Equeue :=
  let (ev, m_events) := getTriggeredEvents num 0 st.m_events
  { st with m_events }.moveTo t (.returned ev)

/-- The start of `WaitForEvents`. A poll does not wait, and a wait looks for small timers. -/
def waitStart (t num : ℕ) (timo : Option ℕ) : Equeue :=
  if timo = some 0 then st.deliver t num
  else if st.m_small_timers ≠ [] then st.moveTo t (.smallStart num (timo.getD 0))
  else st.moveTo t (.wait num (timo.getD 0))

/-- The predicate of the condition variable. -/
def waitCond (t num micros : ℕ) (timed_out : Bool) : Option Equeue :=
  if timed_out = true ∧ micros = 0 then none
  else if (getTriggeredEvents num 0 st.m_events).1 ≠ [] ∨ timed_out = true then
    some (st.deliver t num)
  else some st

/-- The start of `WaitForSmallTimer`. -/
def smallStart (t num micros : ℕ) : Equeue :=
  st.moveTo t (.smallRead num (if micros = 0 then none else some (st.now + micros * 1000)))

/-- A turn of the loop of `WaitForSmallTimer`. -/
def smallCheck (t num : ℕ) (wait_end_us : Option ℤ) (curr_clock : ℤ) (order : List SmallTimer) : Option Equeue :=
  if ¬ order.isPerm st.m_small_timers then none
  else
    let (ev, m_small_timers) := collectSmallTimers curr_clock num 0 order
    let st' := { st with m_small_timers }
    if ev ≠ [] then some (st'.moveTo t (.returned ev))
    else if wait_end_us.all (curr_clock < ·) then some (st'.moveTo t (.smallRead num wait_end_us))
    else some (st'.moveTo t (.returned []))

/-- The next step of a thread. -/
def advance (t : ℕ) (timed_out : Bool) (order : List SmallTimer) : Option Equeue :=
  match st.waits t with
  | .returned _ => none
  | .start num timo => some (st.waitStart t num timo)
  | .wait num micros => st.waitCond t num micros timed_out
  | .smallStart num micros => some (st.smallStart t num micros)
  | .smallRead num wait_end_us => some (st.moveTo t (.smallCheck num wait_end_us st.now))
  | .smallCheck num wait_end_us curr_clock => st.smallCheck t num wait_end_us curr_clock order

/-- A call of `WaitForEvents` by a thread that is not in one. -/
def waitForEvents (t num : ℕ) (timo : Option ℕ) : Option Equeue :=
  match st.waits t with
  | .returned _ => some (st.moveTo t (.start num timo))
  | _ => none

def step : EqueueOp → Option Equeue
  | .addEvent event time => some (st.addEvent { event } time)
  | .removeEvent id filter => some (st.removeEvent id filter)
  | .triggerEvent ident filter trigger_data time =>
    some (st.triggerEvent ident filter trigger_data time)
  | .addSmallTimer event time => some (st.addSmallTimer event time)
  | .removeSmallTimer id => some (st.removeSmallTimer id)
  | .tick nanoseconds => some { st with now := st.now + nanoseconds }
  | .waitForEvents t num timo => st.waitForEvents t num timo
  | .advance t timed_out order => st.advance t timed_out order

/-- A queue without events and timers, and without threads that wait. -/
def IsNew : Prop :=
  st.m_events = [] ∧ st.m_small_timers = [] ∧ ∀ t, st.waits t = .returned []

end Equeue

end ShadPS4.Kernel
