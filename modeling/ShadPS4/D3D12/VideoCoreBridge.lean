import ShadPS4.D3D12.CommandEncoder
import ShadPS4.Lib.Bytes

/-!
# `D3D12VideoCoreBridge`

The bridge takes transfers over registered address ranges.
-/

namespace ShadPS4.D3D12

/-- The contents of the buffers: a byte for each resource and offset. -/
abbrev BufferMemory : Type := ℕ → ℕ → UInt8

def Command.execute (memory : BufferMemory) : Command → BufferMemory
  | .copyBufferRegion destination destination_offset source source_offset bytes => fun r o =>
    if r = destination ∧ destination_offset.toNat ≤ o ∧ o < destination_offset.toNat + bytes.toNat
    then memory source (source_offset.toNat + (o - destination_offset.toNat))
    else memory r o
  | _ => memory

def execute (memory : BufferMemory) (commands : List Command) : BufferMemory :=
  commands.foldl Command.execute memory

/-- A submitted command list. -/
structure Submission where
  ticket : ℕ
  commands : List Command

/-- `D3D12DeviceContext` and the state of its device. -/
structure DeviceContext where
  memory : BufferMemory
  /-- the submitted lists that have not completed, in order -/
  queue : List Submission := []
  /-- `fence_value_`: the last ticket given out -/
  fence_value : ℕ := 0
  completed : ℕ := 0

/-- The device completes the next list. -/
def DeviceContext.progress (context : DeviceContext) : DeviceContext :=
  match context.queue with
  | [] => context
  | next :: rest => { context with
      memory := execute context.memory next.commands
      queue := rest
      completed := next.ticket }

def DeviceContext.drain (context : DeviceContext) (ticket : ℕ) : DeviceContext :=
  { context with
    memory := execute context.memory
      ((context.queue.takeWhile fun next => decide (next.ticket ≤ ticket)).flatMap (·.commands))
    queue := context.queue.dropWhile fun next => decide (next.ticket ≤ ticket)
    completed := ticket }

/-! ## The bridge -/

def maxTransferBytes : ℕ := 16 * 1024 * 1024

def maxBindings : ℕ := 16

/-- The identity of a resource of the caller; the null pointer has the null identity. -/
def external (pointer : ℕ) : ℕ := 2 * pointer

/-- The identity of a resource of the allocator. -/
def internal (k : ℕ) : ℕ := 2 * k + 1

structure Binding where
  /-- the address of its first byte -/
  base : ℕ
  size : ℕ
  resource : ℕ
deriving DecidableEq

structure VideoCoreStats where
  fills : ℕ := 0
  copies : ℕ := 0
  flushes : ℕ := 0
  /-- the calls of `Finish` that returned -/
  synchronizations : ℕ := 0
  host_submit_events : ℕ := 0
  markers : ℕ := 0
  downloads : ℕ := 0
  linear_frames : ℕ := 0
  rejected_requests : ℕ := 0
  unsupported_requests : ℕ := 0

/-- `D3D12VideoCoreBridge` with its device context and allocator. -/
structure Bridge where
  context : DeviceContext
  bindings : List Binding := []
  /-- `encoder_`, with the open command list -/
  encoder : Option Encoder := none
  staging : List ℕ := []
  pending_images : List ℕ := []
  last_ticket : ℕ := 0
  staged_bytes : ℕ := 0
  marker_depth : ℕ := 0
  stats : VideoCoreStats := {}
  /-- `transfers_`, while no encoder is open -/
  transfers : TransferStats := {}
  objects : List (ResourceDesc × HeapType) := []
  /-- a resource was let go while a list that had not completed referred to it -/
  early : Bool := false

inductive BridgeError where
  | rejected
  | unsupported
  | outOfMemory
  | device
  | fault

abbrev Bridging (α : Type) : Type := Throws BridgeError Bridge α

/-- What the device says of the resources, those of the allocator included. -/
def Bridge.view (s : Bridge) (device : Device) : Device := { device with
  getDesc := fun r =>
    if r % 2 = 1 then
      match s.objects[r / 2]? with
      | some object => object.1
      | none => device.getDesc r
    else device.getDesc r
  getDevice := fun r => if r % 2 = 1 then some device.self else device.getDevice r
  getHeapType := fun r =>
    if r % 2 = 1 then (s.objects[r / 2]?).map (·.2) else device.getHeapType r }

def tally (f : VideoCoreStats → VideoCoreStats) : Bridging Unit :=
  modify fun s => { s with stats := f s.stats }

/-- `Reject`. -/
def refuse {α : Type} : Bridging α := do
  tally fun stats => { stats with rejected_requests := stats.rejected_requests + 1 }
  throw .rejected

/-- `Reject` under a condition. -/
def refuseIf (condition : Prop) [Decidable condition] : Bridging Unit :=
  if condition then refuse else pure ()

def unsupported {α : Type} : Bridging α := do
  tally fun stats => { stats with unsupported_requests := stats.unsupported_requests + 1 }
  throw .unsupported

/-- `check_hresult` of a call: its result, or an exception. -/
def checkCall {α : Type} : Option α → Bridging α
  | some a => pure a
  | none => throw .device

def wait (ticket : ℕ) : Bridging Unit := do
  let s ← get
  if ticket > s.context.fence_value then throw .fault
  else if s.context.completed ≥ ticket then pure ()
  else modify fun s => { s with context := s.context.drain ticket }

/-- `D3D12DeviceContext::Submit`: the list is executed, and the fence signalled behind it. -/
def submit (commands : List Command) : Bridging ℕ := do
  let s ← get
  let value := s.context.fence_value + 1
  modify fun s => { s with context := { s.context with
    queue := s.context.queue ++ [⟨value, commands⟩] } }
  if s.context.fence_value ≥ 2^64 - 2 then throw .device
  else do
    modify fun s => { s with context := { s.context with fence_value := value } }
    pure value

/-- The commands that have not completed: those submitted, and those of the open recording. -/
def Bridge.incomplete (s : Bridge) : List Command :=
  s.context.queue.flatMap (·.commands) ++ (s.encoder.map (·.commands)).getD []

/-- Whether a command that has not completed refers to the resource. -/
def Bridge.refers (s : Bridge) (resource : ℕ) : Bool :=
  s.incomplete.any fun c => decide (resource ∈ c.resources)

/-- The staging buffers and the pending images are let go. -/
def release : Bridging Unit :=
  modify fun s => { s with
    early := s.early || (s.staging ++ s.pending_images).any s.refers
    staging := []
    pending_images := []
    staged_bytes := 0 }

variable (device : Device)

def encode (operation : Device → Encode Unit) : Bridging Unit := do
  let s ← get
  match s.encoder with
  | none => throw .fault
  | some encoder =>
    match outcome (operation (s.view device)) encoder with
    | (.ok _, t) => modify fun s => { s with encoder := some t }
    | (.error .invalidArg, t) => do
      modify fun s => { s with encoder := some t }
      throw .rejected
    | (.error .device, t) => do
      modify fun s => { s with encoder := some t }
      throw .device

/-- `D3D12ResourceAllocator::CreateBuffer` and `CreateTexture2D`: the identity of the new resource. -/
def create (allocates : Bool) (desc : ResourceDesc) (heap : HeapType) : Bridging ℕ := do
  let s ← get
  if allocates then do
    modify fun s => { s with objects := s.objects ++ [(desc, heap)] }
    pure (internal s.objects.length)
  else throw .outOfMemory

/-- The check of one earlier binding in `RegisterBuffer`. -/
def Binding.conflicts (base size resource : ℕ) (binding : Binding) : Bool :=
  decide (binding.resource = resource ∨
    (base < binding.base + binding.size ∧ binding.base < base + size))

def registerBuffer (base : UInt64) (pointer : ℕ) : Bridging Unit := do
  let s ← get
  refuseIf (pointer = 0 ∨ base = 0 ∨ s.bindings.length ≥ maxBindings ∨ s.encoder.isSome ∨
    (s.last_ticket ≠ 0 ∧ s.context.completed < s.last_ticket))
  let desc := device.getDesc (external pointer)
  refuseIf (desc.dimension ≠ .buffer ∨ desc.width = 0 ∨ desc.width.toNat > 2^64 - 1 - base.toNat)
  let heap ← checkCall (device.getHeapType (external pointer))
  let owner ← checkCall (device.getDevice (external pointer))
  refuseIf (heap ≠ .default ∨ owner ≠ device.self)
  refuseIf (s.bindings.any (Binding.conflicts base.toNat desc.width.toNat (external pointer)))
  modify fun s => { s with
    bindings := s.bindings ++ [⟨base.toNat, desc.width.toNat, external pointer⟩] }

/-- `D3D12VideoCoreBridge::Range`: a place in a registered buffer. -/
structure Range where
  resource : ℕ
  offset : ℕ

def Binding.holds (address bytes : ℕ) (binding : Binding) : Bool :=
  decide (address ≥ binding.base ∧ address - binding.base < binding.size ∧
    bytes ≤ binding.size - (address - binding.base))

def findRange (address bytes : ℕ) : Bridging Range := do
  refuseIf (bytes = 0 ∨ bytes > maxTransferBytes)
  let s ← get
  match s.bindings.find? (Binding.holds address bytes) with
  | some binding => pure ⟨binding.resource, address - binding.base⟩
  | none => refuse

/-- The loop of `BeginRecording` over the bindings. -/
def trackBindings (device : Device) : List Binding → Bridging Unit
  | [] => pure ()
  | binding :: rest => do
    encode device fun device => track device binding.resource stateCommon
    trackBindings device rest

def beginRecording : Bridging Unit := do
  let s ← get
  if s.encoder.isSome then pure ()
  else do
    wait s.last_ticket
    release
    modify fun s => { s with encoder := some { stats := s.transfers } }
    trackBindings device s.bindings

def storeWord (memory : BufferMemory) (resource offset value : ℕ) : BufferMemory := fun r o =>
  if r = resource ∧ offset ≤ o ∧ o < offset + 4 then leByte value (o - offset) else memory r o

/-- The loop of `FillBuffer` over the mapped upload buffer. -/
def storeWords (memory : BufferMemory) (resource value : ℕ) : ℕ → BufferMemory
  | 0 => memory
  | words + 1 => storeWord (storeWords memory resource value words) resource (4 * words) value

def bufferDesc (size : ℕ) : ResourceDesc := { dimension := .buffer, width := UInt64.ofNat size }

def fillBuffer (allocates : Bool) (address : UInt64) (num_bytes value : UInt32)
    (is_gds : Bool) : Bridging Unit := do
  if is_gds then unsupported
  else do
    let n := num_bytes.toNat
    let destination ← findRange address.toNat n
    refuseIf (n % 4 ≠ 0 ∨ destination.offset % 4 ≠ 0)
    beginRecording device
    let s ← get
    refuseIf (n > maxTransferBytes - s.staged_bytes)
    let upload ← create allocates (bufferDesc n) .upload
    modify fun s => { s with context := { s.context with
      memory := storeWords s.context.memory upload value.toNat (n / 4) } }
    modify fun s => { s with staging := s.staging ++ [upload] }
    encode device fun device => track device upload stateGenericRead
    encode device fun _ => D3D12.copyBuffer destination.resource (UInt64.ofNat destination.offset)
      upload 0 (UInt64.ofNat n)
    modify fun s => { s with staged_bytes := s.staged_bytes + n }
    tally fun stats => { stats with fills := stats.fills + 1 }

/-- `CopyBuffer`. -/
def transferBuffer (dst src : UInt64) (num_bytes : UInt32)
    (dst_gds src_gds : Bool) : Bridging Unit := do
  if dst_gds || src_gds then unsupported
  else do
    let n := num_bytes.toNat
    let destination ← findRange dst.toNat n
    let source ← findRange src.toNat n
    refuseIf (destination.resource = source.resource)
    beginRecording device
    encode device fun _ => D3D12.copyBuffer destination.resource (UInt64.ofNat destination.offset)
      source.resource (UInt64.ofNat source.offset) (UInt64.ofNat n)
    tally fun stats => { stats with copies := stats.copies + 1 }

def flush : Bridging ℕ := do
  let s ← get
  match s.encoder with
  | none => pure s.last_ticket
  | some encoder => do
    refuseIf (s.marker_depth ≠ 0)
    let ticket ← submit encoder.commands
    modify fun s => { s with last_ticket := ticket, encoder := none, transfers := encoder.stats }
    tally fun stats => { stats with flushes := stats.flushes + 1 }
    pure ticket

def finish : Bridging Unit := do
  let ticket ← flush
  wait ticket
  release
  tally fun stats => { stats with synchronizations := stats.synchronizations + 1 }

def cpSync : Bridging Unit := finish

def onSubmit : Bridging Unit := do
  tally fun stats => { stats with host_submit_events := stats.host_submit_events + 1 }
  let s ← get
  if s.encoder.isNone ∧ s.last_ticket ≠ 0 ∧ s.context.completed ≥ s.last_ticket then release
  else pure ()

/-- `DownloadBuffer`: the bytes written to the output. -/
def downloadBuffer (allocates : Bool) (address : UInt64) (size : ℕ) : Bridging (List UInt8) := do
  let source ← findRange address.toNat size
  finish
  let readback ← create allocates (bufferDesc size) .readback
  beginRecording device
  encode device fun device => track device readback stateCopyDest
  encode device fun _ => D3D12.copyBuffer readback 0 source.resource (UInt64.ofNat source.offset)
    (UInt64.ofNat size)
  finish
  let s ← get
  tally fun stats => { stats with downloads := stats.downloads + 1 }
  pure ((List.range size).map (s.context.memory readback))

def formatB8G8R8A8Unorm : UInt32 := 87

/-- `CreateLinearFrame`: the new texture. -/
def createLinearFrame (allocates : Bool) (address : UInt64)
    (width height pitch : UInt32) (output : Bool) : Bridging ℕ := do
  refuseIf (width = 0 ∨ height = 0 ∨ width > 4096 ∨ height > 4096 ∨ output = true)
  let desc : ResourceDesc := {
    dimension := .texture2d, width := width.toUInt64, height, format := formatB8G8R8A8Unorm }
  let source ← findRange address.toNat (pitch.toNat * height.toNat)
  refuseIf (source.offset % 512 ≠ 0)
  let footprint := (device.getCopyableFootprints desc (UInt64.ofNat source.offset)).expected
  refuseIf (footprint.offset ≠ UInt64.ofNat source.offset ∨ footprint.footprint.row_pitch ≠ pitch ∨
    pitch < width * 4)
  let frame ← create allocates desc .default
  beginRecording device
  modify fun s => { s with pending_images := s.pending_images ++ [frame] }
  encode device fun device => track device frame stateCopyDest
  encode device fun device => copyBufferToTexture device frame source.resource footprint
  encode device fun _ => D3D12.transition frame statePixelShaderResource
  tally fun stats => { stats with linear_frames := stats.linear_frames + 1 }
  pure frame

/-- `Marker`: the check of a label. -/
def marker (label : List UInt8) : Bridging Unit :=
  refuseIf (label = [] ∨ label.length > 1024)

def scopeMarkerBegin (label : List UInt8) : Bridging Unit := do
  marker label
  beginRecording device
  modify fun s => { s with marker_depth := s.marker_depth + 1 }
  tally fun stats => { stats with markers := stats.markers + 1 }

def scopeMarkerEnd : Bridging Unit := do
  let s ← get
  refuseIf (s.encoder.isNone ∨ s.marker_depth = 0)
  modify fun s => { s with marker_depth := s.marker_depth - 1 }

def scopedMarkerInsertColor (label : List UInt8) : Bridging Unit := do
  marker label
  beginRecording device
  tally fun stats => { stats with markers := stats.markers + 1 }

end ShadPS4.D3D12
