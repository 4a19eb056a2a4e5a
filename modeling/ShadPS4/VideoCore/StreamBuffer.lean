import ShadPS4.Lib.Transition
import ShadPS4.Memory.Types

/-!
# `StreamBuffer`

A buffer that is written from its start to its end again and again. `Map` hands out the next range, and `Commit`
remembers in a watch up to where the buffer was used at the current tick of the scheduler.
-/

namespace ShadPS4.VideoCore

inductive MemoryUsage
  | deviceLocal
  | upload
  | download
  | stream
deriving DecidableEq

/-- What a stream buffer asks of the scheduler, whose states are `σ`. -/
structure Scheduler (σ : Type) where
  currentTick : σ → ℕ
  complete : σ → ℕ → Bool
  /-- `IsFree`, which may find out that more is complete -/
  isFree : ℕ → σ → Bool × σ
  wait : ℕ → σ → σ

structure Watch where
  tick : ℕ := 0
  upper_bound : ℕ := 0

/-- `std::vector<Watch>`. -/
structure Watches where
  size : ℕ := 0
  /-- the watch of an index, which is a new one from `size` on -/
  watch : ℕ → Watch := fun _ => {}

def Watches.set (w : Watches) (i : ℕ) (watch : Watch) : Watches :=
  { w with watch := Function.update w.watch i watch }

abbrev watchesInitialReserve : ℕ := 0x4000

abbrev watchesReserveChunk : ℕ := 0x1000

def reserveWatches (watches : Watches) (grow_size : ℕ) : Watches where
  size := watches.size + grow_size
  watch i := if i < watches.size then watches.watch i else {}

structure StreamBuffer where
  size_bytes : ℕ
  is_coherent : Bool
  usage : MemoryUsage
  non_coherent_atom_size : ℕ
  offset : ℕ := 0
  mapped_size : ℕ := 0
  current_watches : Watches := reserveWatches {} watchesInitialReserve
  current_watch_cursor : ℕ := 0
  invalidation_mark : Option ℕ := none
  previous_watches : Watches := reserveWatches {} watchesInitialReserve
  wait_cursor : ℕ := 0
  wait_bound : ℕ := 0

namespace StreamBuffer

variable {σ : Type}

section

variable (b : StreamBuffer)

/-- The size that `Map` works with. -/
def alignedSize (size : ℕ) : ℕ :=
  if b.is_coherent = false ∧ b.usage = .stream then alignUp size b.non_coherent_atom_size else size

/-- The offset that `Map` starts with. -/
def alignedOffset (alignment : ℕ) : ℕ :=
  if alignment > 0 then alignUp b.offset alignment else b.offset

def overflows (size alignment : ℕ) : Bool :=
  b.size_bytes < add64 (b.alignedOffset alignment) (b.alignedSize size)

/-- The watches of this round become those of the previous one. -/
def wrap : StreamBuffer :=
  { b with
    invalidation_mark := some b.current_watch_cursor
    current_watch_cursor := 0
    offset := 0
    previous_watches := b.current_watches
    current_watches := b.previous_watches
    wait_cursor := 0
    wait_bound := 0 }

end

/-- The loop of `WaitPendingOperations`. The first argument is how many watches are left up to the
mark. -/
def waitWatches (S : Scheduler σ) (requested_upper_bound : ℕ) (allow_wait : Bool) :
    ℕ → StreamBuffer → σ → Bool × StreamBuffer × σ
  | 0, b, s => (true, b, s)
  | left + 1, b, s =>
    if requested_upper_bound > b.wait_bound then
      let watch := b.previous_watches.watch b.wait_cursor
      let free := S.isFree watch.tick s
      if free.1 = false ∧ allow_wait = false then (false, b, free.2)
      else waitWatches S requested_upper_bound allow_wait left
        { b with wait_bound := watch.upper_bound, wait_cursor := b.wait_cursor + 1 }
        (S.wait watch.tick free.2)
    else (true, b, s)

def waitPendingOperations (S : Scheduler σ) (b : StreamBuffer) (s : σ) (requested_upper_bound : ℕ)
    (allow_wait : Bool) : Bool × StreamBuffer × σ :=
  b.invalidation_mark.elim (true, b, s) fun mark =>
    waitWatches S requested_upper_bound allow_wait (mark - b.wait_cursor) b s

/-- The buffer that `Map` looks for a range in, when the size is not too large. -/
def prepare (b : StreamBuffer) (size alignment : ℕ) : StreamBuffer :=
  let placed : StreamBuffer :=
    { b with mapped_size := b.alignedSize size, offset := b.alignedOffset alignment }
  if b.overflows size alignment then placed.wrap else placed

/-- `Map`: the offset of the range, if there is one. -/
def map (S : Scheduler σ) (b : StreamBuffer) (s : σ) (size alignment : ℕ) (allow_wait : Bool) :
    Option ℕ × StreamBuffer × σ :=
  if b.alignedSize size > b.size_bytes then (none, b, s)
  else
    let b := b.prepare size alignment
    let waited := waitPendingOperations S b s (add64 b.offset b.mapped_size) allow_wait
    (if waited.1 then some b.offset else none, waited.2)

def commit (S : Scheduler σ) (b : StreamBuffer) (s : σ) : StreamBuffer :=
  let offset := add64 b.offset b.mapped_size
  let cursor := b.current_watch_cursor
  if cursor ≠ 0 ∧ (b.current_watches.watch cursor).tick = S.currentTick s then
    { b with
      offset
      current_watches := b.current_watches.set cursor
        { b.current_watches.watch cursor with upper_bound := offset } }
  else
    let watches := if cursor + 1 ≥ b.current_watches.size
      then reserveWatches b.current_watches watchesReserveChunk else b.current_watches
    { b with
      offset
      current_watches := watches.set cursor { tick := S.currentTick s, upper_bound := offset }
      current_watch_cursor := cursor + 1 }

end StreamBuffer

/-! ## Runs -/

variable {σ : Type}

structure StreamRange where
  lower : ℕ
  upper : ℕ
  tick : ℕ

/-- A buffer in a run, with the ranges that were committed since the end of the buffer was reached
last, in the round before, and before that. -/
structure StreamState (σ : Type) where
  buffer : StreamBuffer
  scheduler : σ
  current : List StreamRange := []
  previous : List StreamRange := []
  older : List StreamRange := []

def StreamState.committed (st : StreamState σ) : List StreamRange :=
  st.current ++ st.previous ++ st.older

variable (S : Scheduler σ)

def Scheduler.Later (s s' : σ) : Prop :=
  S.currentTick s ≤ S.currentTick s' ∧ ∀ t, S.complete s t = true → S.complete s' t = true

structure Scheduler.Lawful (S : Scheduler σ) : Prop where
  currentTick_pos : ∀ s, 1 ≤ S.currentTick s
  complete_lt : ∀ s t, S.complete s t = true → t < S.currentTick s
  isFree_later : ∀ t s, S.Later s (S.isFree t s).2
  wait_later : ∀ t s, S.Later s (S.wait t s)
  wait_complete : ∀ t s u, u ≤ t → S.complete (S.wait t s) u = true

inductive StreamOp (σ : Type)
  | pass (later : σ)
  /-- `Map`, and where that succeeds `Commit` at a later state of the scheduler -/
  | map (size alignment : ℕ) (allow_wait : Bool) (later : σ)

/-- The state after `Map`, without a `Commit`. -/
def StreamState.afterMap (st : StreamState σ) (size alignment : ℕ)
    (allow_wait : Bool) : StreamState σ :=
  let mapped := st.buffer.map S st.scheduler size alignment allow_wait
  let st' : StreamState σ := { st with buffer := mapped.2.1, scheduler := mapped.2.2 }
  if st.buffer.alignedSize size ≤ st.buffer.size_bytes ∧ st.buffer.overflows size alignment = true then
    { st' with current := [], previous := st.current, older := st.previous ++ st.older }
  else st'

/-- The state after the `Commit` of a range. -/
def StreamState.afterCommit (st : StreamState σ) (lower : ℕ) (later : σ) : StreamState σ :=
  { st with
    buffer := st.buffer.commit S later
    scheduler := later
    current := ⟨lower, lower + st.buffer.mapped_size, S.currentTick later⟩ :: st.current }

def StreamStep (st : StreamState σ) : StreamOp σ → StreamState σ → Prop
  | .pass later, st' => S.Later st.scheduler later ∧ st' = { st with scheduler := later }
  | .map size alignment allow_wait later, st' =>
    let result := (st.buffer.map S st.scheduler size alignment allow_wait).1
    let mapped := st.afterMap S size alignment allow_wait
    (result = none ∧ st' = mapped) ∨
      ∃ lower, result = some lower ∧ S.Later mapped.scheduler later ∧
        st' = mapped.afterCommit S lower later

/-- None of the sums that `Map` computes for a request wraps. -/
def StreamBuffer.NoWrap (b : StreamBuffer) (size alignment : ℕ) : Prop :=
  size ≤ b.alignedSize size ∧ b.offset ≤ b.alignedOffset alignment ∧
    b.alignedOffset alignment + b.alignedSize size < 2^64

/-- The request of a step does not wrap. -/
def StreamOp.NoWrap (st : StreamState σ) : StreamOp σ → Prop
  | .pass _ => True
  | .map size alignment _ _ => st.buffer.NoWrap size alignment

def StreamState.IsNew (st : StreamState σ) : Prop :=
  ∃ size_bytes is_coherent usage non_coherent_atom_size s, size_bytes < 2^64 ∧
    st = { buffer := { size_bytes, is_coherent, usage, non_coherent_atom_size }, scheduler := s }

end ShadPS4.VideoCore
