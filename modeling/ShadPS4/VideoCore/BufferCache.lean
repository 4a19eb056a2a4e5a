import ShadPS4.Common.SlotVector
import ShadPS4.Memory.Types
import ShadPS4.VideoCore.MemoryTracker

/-!
# `BufferCache`

The buffer cache keeps GPU buffers that mirror ranges of guest memory. A page table leads from a page of 16 KB to
the buffer that covers it.
-/

namespace ShadPS4.VideoCore

open ShadPS4.Common ShadPS4.Memory

abbrev cachingPageSize : ℕ := 0x4000

abbrev devicePageSize : ℕ := 0x4000

abbrev cachingNumPages : ℕ := 2^26

abbrev streamLeapThreshold : ℕ := 16

inductive CacheFault
  /-- the assertion of `FindBuffer` about its address -/
  | nullAddress
  | outOfBounds
  | noSlot
  /-- a search for overlaps that goes on -/
  | endless

structure Buffer where
  cpu_addr : ℕ
  size_bytes : ℕ
  stream_score : ℕ := 0
  is_picked : Bool := false
  is_deleted : Bool := false
  data : ℕ → UInt8

def Buffer.isInBounds (buffer : Buffer) (addr size : ℕ) : Bool :=
  addr ≥ buffer.cpu_addr && add64 addr size ≤ add64 buffer.cpu_addr buffer.size_bytes

structure BufferCache where
  slot_buffers : SlotVector Buffer := SlotVector.new
  page_table : ℕ → Option ℕ := fun _ => none
  pending_ops : List ℕ := []

namespace BufferCache

/-- `slot_buffers[buffer_id]`. -/
def slot (slots : SlotVector Buffer) (buffer_id : ℕ) : Except CacheFault Buffer :=
  match slots.values buffer_id with
  | some buffer => .ok buffer
  | none => .error .noSlot

/-- `page_table[page].buffer_id`. -/
def pageEntry (page_table : ℕ → Option ℕ) (page : ℕ) : Except CacheFault (Option ℕ) :=
  if page < cachingNumPages then .ok (page_table page) else .error .outOfBounds

end BufferCache

/-! ## Overlaps -/

open BufferCache (slot pageEntry)

/-- The variables of `ResolveOverlaps`. -/
structure OverlapSearch where
  device_addr : ℕ
  begin_addr : ℕ
  end_addr : ℕ
  overlap_ids : List ℕ := []
  stream_score : ℕ := 0
  has_stream_leap : Bool := false
  slots : SlotVector Buffer

def OverlapSearch.expandBegin (s : OverlapSearch) (add_value : ℕ) : OverlapSearch :=
  let min_page := cachingPageSize + devicePageSize
  if add_value > sub64 s.begin_addr min_page then
    { s with begin_addr := min_page, device_addr := devicePageSize }
  else
    let begin_addr := sub64 s.begin_addr add_value
    { s with begin_addr, device_addr := sub64 begin_addr cachingPageSize }

def OverlapSearch.expandEnd (s : OverlapSearch) (add_value : ℕ) : OverlapSearch :=
  let max_page := 2^40
  if add_value > sub64 max_page s.end_addr then { s with end_addr := max_page }
  else { s with end_addr := add64 s.end_addr add_value }

def OverlapSearch.pick (s : OverlapSearch) (overlap_id : ℕ) (overlap : Buffer) : OverlapSearch :=
  let overlap_ids := s.overlap_ids ++ [overlap_id]
  let slots := s.slots.set overlap_id { overlap with is_picked := true }
  let overlap_device_addr := overlap.cpu_addr
  let expands_left := overlap_device_addr < s.begin_addr
  let begin_addr := if expands_left then overlap_device_addr else s.begin_addr
  let overlap_end := add64 overlap_device_addr overlap.size_bytes
  let expands_right := overlap_end > s.end_addr
  let end_addr := if expands_right then overlap_end else s.end_addr
  let stream_score := s.stream_score + overlap.stream_score
  let s := { s with overlap_ids, slots, begin_addr, end_addr, stream_score }
  if stream_score > streamLeapThreshold ∧ s.has_stream_leap = false then
    let s := { s with has_stream_leap := true }
    let s := if expands_right then s.expandEnd (cachingPageSize * 128) else s
    if expands_left then s.expandBegin (cachingPageSize * 128) else s
  else s

/-- The body of the loop of `ResolveOverlaps`. -/
def OverlapSearch.visit (page_table : ℕ → Option ℕ) (s : OverlapSearch) : Except CacheFault OverlapSearch := do
  match ← pageEntry page_table (s.device_addr / cachingPageSize) with
  | none => return s
  | some overlap_id =>
    let overlap ← slot s.slots overlap_id
    return if overlap.is_picked then s else s.pick overlap_id overlap

/-- The loop of `ResolveOverlaps`, up to a number of rounds. -/
def OverlapSearch.loop (page_table : ℕ → Option ℕ) : ℕ → OverlapSearch → Except CacheFault OverlapSearch
  | 0, _ => .error .endless
  | fuel + 1, s =>
    if s.device_addr / cachingPageSize < divCeil s.end_addr cachingPageSize then do
      let s ← s.visit page_table
      loop page_table fuel { s with device_addr := add64 s.device_addr cachingPageSize }
    else .ok s

namespace BufferCache

/-- The rounds that a search is given: two for each page, and two more. -/
abbrev searchRounds : ℕ := 2 * cachingNumPages + 2

variable (c : BufferCache)

def resolveOverlaps (device_addr wanted_size : ℕ) : Except CacheFault OverlapSearch :=
  let s : OverlapSearch := {
    device_addr
    begin_addr := device_addr
    end_addr := add64 device_addr wanted_size
    slots := c.slot_buffers }
  if s.begin_addr = 0 then .ok s else s.loop c.page_table searchRounds

/-! ## Registering, deleting and joining -/

/-- `ChangeRegister<insert>`. A loop that starts behind its end leaves the page table. -/
def changeRegister (insert : Bool) (buffer_id : ℕ) : Except CacheFault BufferCache := do
  let buffer ← slot c.slot_buffers buffer_id
  let page_begin := buffer.cpu_addr / cachingPageSize
  let page_end := divCeil (add64 buffer.cpu_addr buffer.size_bytes) cachingPageSize
  if page_begin = page_end then return c
  else if page_begin < page_end ∧ page_end ≤ cachingNumPages then
    return { c with page_table := fun page =>
      if page_begin ≤ page ∧ page < page_end then if insert then some buffer_id else none
      else c.page_table page }
  else .error .outOfBounds

def deleteBuffer (buffer_id : ℕ) : Except CacheFault BufferCache := do
  let c ← c.changeRegister false buffer_id
  let buffer ← slot c.slot_buffers buffer_id
  return { c with
    pending_ops := c.pending_ops ++ [buffer_id]
    slot_buffers := c.slot_buffers.set buffer_id { buffer with is_deleted := true } }

/-- The `copyBuffer` command of a `vk::BufferCopy` whose `srcOffset` is zero. -/
def copyBuffer (src dst : ℕ → UInt8) (dstOffset size : ℕ) : ℕ → UInt8 := fun offset =>
  if dstOffset ≤ offset ∧ offset < dstOffset + size then src (offset - dstOffset) else dst offset

def joinOverlap (new_buffer_id : ℕ) (accumulate_stream_score : Bool) (c : BufferCache)
    (overlap_id : ℕ) : Except CacheFault BufferCache := do
  let new_buffer ← slot c.slot_buffers new_buffer_id
  let overlap ← slot c.slot_buffers overlap_id
  let stream_score := if accumulate_stream_score then
    new_buffer.stream_score + (overlap.stream_score + 1) else new_buffer.stream_score
  let dst_base_offset := sub64 overlap.cpu_addr new_buffer.cpu_addr
  let data := copyBuffer overlap.data new_buffer.data dst_base_offset overlap.size_bytes
  let slot_buffers := c.slot_buffers.set new_buffer_id { new_buffer with stream_score, data }
  deleteBuffer { c with slot_buffers } overlap_id

/-- `CreateBuffer`. `memory` is what the memory of the new buffer holds. -/
def createBuffer (memory : ℕ → UInt8) (device_addr wanted_size : ℕ) :
    Except CacheFault (ℕ × BufferCache) := do
  let device_addr_end := alignUp (add64 device_addr wanted_size) cachingPageSize
  let device_addr := alignDown device_addr cachingPageSize
  let wanted_size := sub64 device_addr_end device_addr % 2^32
  let overlap ← c.resolveOverlaps device_addr wanted_size
  let size_bytes := sub64 overlap.end_addr overlap.begin_addr % 2^32
  let new_buffer : Buffer := { cpu_addr := overlap.begin_addr, size_bytes, data := memory }
  let (new_buffer_id, slot_buffers) := overlap.slots.insert new_buffer
  let c ← overlap.overlap_ids.foldlM (joinOverlap new_buffer_id !overlap.has_stream_leap)
    { c with slot_buffers }
  let c ← c.changeRegister true new_buffer_id
  return (new_buffer_id, c)

def findBuffer (memory : ℕ → UInt8) (device_addr size : ℕ) :
    Except CacheFault (ℕ × BufferCache) := do
  if device_addr = 0 then .error .nullAddress
  else match ← pageEntry c.page_table (device_addr / cachingPageSize) with
  | none => c.createBuffer memory device_addr size
  | some buffer_id =>
    let buffer ← slot c.slot_buffers buffer_id
    if buffer.isInBounds device_addr size then return (buffer_id, c)
    else c.createBuffer memory device_addr size

/-- The buffer of `ObtainBuffer`, or none where it uses the stream buffer. -/
def obtainBuffer (memory : ℕ → UInt8) (device_addr size : ℕ)
    (is_written gpu_modified : Bool) (buffer_id : Option ℕ) : Except CacheFault (Option ℕ × BufferCache) := do
  if is_written = false ∧ size ≤ cachingPageSize ∧ gpu_modified = false then return (none, c)
  else match buffer_id with
  | none =>
    let (buffer_id, c) ← c.findBuffer memory device_addr size
    return (some buffer_id, c)
  | some buffer_id =>
    let buffer ← slot c.slot_buffers buffer_id
    if buffer.is_deleted then
      let (buffer_id, c) ← c.findBuffer memory device_addr size
      return (some buffer_id, c)
    else return (some buffer_id, c)

/-- The scheduler runs the first of the deferred operations. -/
def runPending : BufferCache :=
  match c.pending_ops with
  | [] => c
  | buffer_id :: rest => { c with
    pending_ops := rest
    slot_buffers := c.slot_buffers.erase buffer_id }

end BufferCache

end ShadPS4.VideoCore
