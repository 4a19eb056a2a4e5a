import ShadPS4.Lib.Throws

/-!
# `D3D12CommandEncoder`

The encoder records commands for one direct command list and keeps the state of each resource as of the end of the
recording.
-/

namespace ShadPS4.D3D12

/-- `D3D12_RESOURCE_STATES`: a set of bits. -/
abbrev ResourceStates : Type := BitVec 32

def stateCommon : ResourceStates := 0

def stateVertexAndConstantBuffer : ResourceStates := 0x1

def stateIndexBuffer : ResourceStates := 0x2

def stateRenderTarget : ResourceStates := 0x4

def stateUnorderedAccess : ResourceStates := 0x8

def stateDepthWrite : ResourceStates := 0x10

def stateDepthRead : ResourceStates := 0x20

def stateNonPixelShaderResource : ResourceStates := 0x40

def statePixelShaderResource : ResourceStates := 0x80

def stateStreamOut : ResourceStates := 0x100

def stateIndirectArgument : ResourceStates := 0x200

def stateCopyDest : ResourceStates := 0x400

def stateCopySource : ResourceStates := 0x800

def stateResolveDest : ResourceStates := 0x1000

def stateResolveSource : ResourceStates := 0x2000

/-- `D3D12_RESOURCE_STATE_GENERIC_READ`: every read state of a buffer, copy source among them. -/
def stateGenericRead : ResourceStates :=
  stateVertexAndConstantBuffer ||| stateIndexBuffer ||| stateNonPixelShaderResource |||
    statePixelShaderResource ||| stateIndirectArgument ||| stateCopySource

inductive ResourceDimension where
  | unknown
  | buffer
  | texture1d
  | texture2d
  | texture3d
deriving DecidableEq

inductive HeapType where
  | default
  /-- memory that the processor writes -/
  | upload
  /-- memory that the processor reads -/
  | readback
  | custom
deriving DecidableEq

/-- The fields of `D3D12_RESOURCE_DESC` that are used. -/
structure ResourceDesc where
  dimension : ResourceDimension
  width : UInt64
  height : UInt32 := 1
  depth_or_array_size : UInt16 := 1
  mip_levels : UInt16 := 1
  format : UInt32 := 0
  sample_count : UInt32 := 1
  flags : BitVec 32 := 0

def flagAllowRenderTarget : BitVec 32 := 0x1

def flagAllowDepthStencil : BitVec 32 := 0x2

def flagAllowUnorderedAccess : BitVec 32 := 0x4

def flagDenyShaderResource : BitVec 32 := 0x8

/-- `D3D12_SUBRESOURCE_FOOTPRINT`: the layout of a texture in a buffer. -/
structure SubresourceFootprint where
  format : UInt32
  width : UInt32
  height : UInt32
  depth : UInt32
  /-- the distance of two rows in bytes -/
  row_pitch : UInt32

/-- `D3D12_PLACED_SUBRESOURCE_FOOTPRINT`. -/
structure PlacedFootprint where
  offset : UInt64
  footprint : SubresourceFootprint

/-- What `GetCopyableFootprints` returns for one subresource. -/
structure CopyableFootprint where
  expected : PlacedFootprint
  rows : UInt32
  row_bytes : UInt64

structure Device where
  self : ℕ
  getDesc : ℕ → ResourceDesc
  /-- `ID3D12Resource::GetDevice`, where it succeeds -/
  getDevice : ℕ → Option ℕ
  /-- the type in `ID3D12Resource::GetHeapProperties`, where it succeeds -/
  getHeapType : ℕ → Option HeapType
  /-- the plane count of `CheckFeatureSupport` for a format, where it succeeds -/
  formatPlanes : UInt32 → Option ℕ
  formatSupport : UInt32 → Option (BitVec 32)
  /-- `GetCopyableFootprints` of subresource zero at an offset -/
  getCopyableFootprints : ResourceDesc → UInt64 → CopyableFootprint

/-! ## The encoder -/

structure Resource where
  description : ResourceDesc
  heap : HeapType
  state : ResourceStates := stateCommon

inductive Command where
  | transition (resource : ℕ) (before after : ResourceStates)
  | uav (resource : ℕ)
  | copyBufferRegion (destination : ℕ) (destination_offset : UInt64) (source : ℕ)
      (source_offset bytes : UInt64)
  | copyTextureRegion (texture buffer : ℕ) (footprint : PlacedFootprint) (to_texture : Bool)
  | clearRenderTargetView (rtv : ℕ) (color : List Float32) (resource : ℕ)
  | clearDepthStencilView (dsv : ℕ) (depth : Float32) (resource : ℕ)
  | resolveSubresource (destination source : ℕ) (format : UInt32)

def Command.resources : Command → List ℕ
  | .transition resource _ _ | .uav resource => [resource]
  | .copyBufferRegion destination _ source _ _ => [destination, source]
  | .copyTextureRegion texture buffer _ _ => [texture, buffer]
  | .clearRenderTargetView _ _ resource | .clearDepthStencilView _ _ resource => [resource]
  | .resolveSubresource destination source _ => [destination, source]

structure TransferStats where
  transitions : ℕ := 0
  redundant_transitions : ℕ := 0
  uav_barriers : ℕ := 0
  buffer_copies : ℕ := 0
  texture_copies : ℕ := 0
  color_clears : ℕ := 0
  depth_clears : ℕ := 0
  resolves : ℕ := 0
  rejected_requests : ℕ := 0

/-- `D3D12CommandEncoder` with its command list and statistics. -/
structure Encoder where
  resources : ℕ → Option Resource := fun _ => none
  commands : List Command := []
  stats : TransferStats := {}

inductive EncoderError where
  | invalidArg
  /-- the error of a device call, from `check_hresult` -/
  | device

abbrev Encode (α : Type) : Type := Throws EncoderError Encoder α

def count (f : TransferStats → TransferStats) : Encode Unit :=
  modify fun s => { s with stats := f s.stats }

def record (command : Command) : Encode Unit :=
  modify fun s => { s with commands := s.commands ++ [command] }

def reject {α : Type} : Encode α := do
  count fun stats => { stats with rejected_requests := stats.rejected_requests + 1 }
  throw .invalidArg

/-- `Reject` under a condition. -/
def rejectIf (condition : Prop) [Decidable condition] : Encode Unit :=
  if condition then reject else pure ()

def find (resource : ℕ) : Encode Resource := do
  let s ← get
  match s.resources resource with
  | some found => pure found
  | none => reject

def readStates : ResourceStates := stateGenericRead ||| stateDepthRead ||| stateResolveSource

def writeStates : ResourceStates :=
  stateRenderTarget ||| stateUnorderedAccess ||| stateDepthWrite ||| stateStreamOut |||
    stateCopyDest ||| stateResolveDest

variable (resource : Resource)

/-- The first condition of `ValidateState`: the bits are no state, or none that the heap allows. -/
def Resource.forbids (state : ResourceStates) : Bool :=
  let writes := state &&& writeStates
  decide (state &&& ~~~(readStates ||| writeStates) ≠ 0 ∨
    (writes ≠ 0 ∧ (writes &&& (writes - 1) ≠ 0 ∨ state &&& readStates ≠ 0)) ∨
    (resource.heap = .upload ∧ state ≠ stateGenericRead) ∨
    (resource.heap = .readback ∧ state ≠ stateCopyDest))

/-- The second condition of `ValidateState`: the resource was not made for the state. -/
def Resource.unfit (state : ResourceStates) : Bool :=
  let desc := resource.description
  decide ((state &&& stateRenderTarget ≠ 0 ∧ desc.flags &&& flagAllowRenderTarget = 0) ∨
    (state &&& stateUnorderedAccess ≠ 0 ∧ desc.flags &&& flagAllowUnorderedAccess = 0) ∨
    (state &&& (stateDepthRead ||| stateDepthWrite) ≠ 0 ∧ desc.flags &&& flagAllowDepthStencil = 0) ∨
    (state &&& (statePixelShaderResource ||| stateNonPixelShaderResource) ≠ 0 ∧
      desc.flags &&& flagDenyShaderResource ≠ 0) ∨
    (desc.dimension = .buffer ∧ state &&& (stateRenderTarget ||| stateDepthRead |||
      stateDepthWrite ||| stateResolveSource ||| stateResolveDest) ≠ 0) ∨
    (desc.dimension ≠ .buffer ∧ state &&& (stateVertexAndConstantBuffer ||| stateIndexBuffer |||
      stateStreamOut ||| stateIndirectArgument) ≠ 0) ∨
    (state &&& stateResolveSource ≠ 0 ∧ desc.sample_count ≤ 1) ∨
    (state &&& stateResolveDest ≠ 0 ∧ desc.sample_count ≠ 1))

def validateState (state : ResourceStates) : Encode Unit := do
  rejectIf (resource.forbids state = true)
  rejectIf (resource.unfit state = true)

/-- `check_hresult` of a call: its result, or an exception. -/
def checkHresult {α : Type} : Option α → Encode α
  | some a => pure a
  | none => throw .device

def Encoder.setResource (s : Encoder) (resource : ℕ) (found : Resource) : Encoder :=
  { s with resources := fun r => if r = resource then some found else s.resources r }

variable (device : Device)

def track (resource : ℕ) (initial_state : ResourceStates) : Encode Unit := do
  rejectIf (resource = 0)
  let s ← get
  match s.resources resource with
  | some found => rejectIf (found.state ≠ initial_state)
  | none =>
    let owner ← checkHresult (device.getDevice resource)
    rejectIf (owner ≠ device.self)
    let heap ← checkHresult (device.getHeapType resource)
    let tracked : Resource := { description := device.getDesc resource, heap }
    rejectIf (heap ≠ .default ∧ heap ≠ .upload ∧ heap ≠ .readback)
    validateState tracked initial_state
    modify (·.setResource resource { tracked with state := initial_state })

def transition (resource : ℕ) (state : ResourceStates) : Encode Unit := do
  let tracked ← find resource
  validateState tracked state
  if tracked.state = state then
    count fun stats => { stats with redundant_transitions := stats.redundant_transitions + 1 }
  else do
    record (.transition resource tracked.state state)
    modify (·.setResource resource { tracked with state := state })
    count fun stats => { stats with transitions := stats.transitions + 1 }

def uavBarrier (resource : ℕ) : Encode Unit := do
  let tracked ← find resource
  rejectIf (tracked.state ≠ stateUnorderedAccess)
  record (.uav resource)
  count fun stats => { stats with uav_barriers := stats.uav_barriers + 1 }

def copyBuffer (destination : ℕ) (destination_offset : UInt64) (source : ℕ)
    (source_offset bytes : UInt64) : Encode Unit := do
  let dst ← find destination
  let src ← find source
  rejectIf (destination = source ∨ bytes = 0 ∨ dst.description.dimension ≠ .buffer ∨
    src.description.dimension ≠ .buffer ∨ destination_offset > dst.description.width ∨
    bytes > dst.description.width - destination_offset ∨ source_offset > src.description.width ∨
    bytes > src.description.width - source_offset ∨ dst.heap = .upload ∨ src.heap = .readback)
  if src.heap ≠ .upload then transition source stateCopySource else pure ()
  transition destination stateCopyDest
  record (.copyBufferRegion destination destination_offset source source_offset bytes)
  count fun stats => { stats with buffer_copies := stats.buffer_copies + 1 }

def simpleTexture (desc : ResourceDesc) : Bool :=
  decide (desc.dimension = .texture2d ∧ desc.mip_levels = 1 ∧ desc.depth_or_array_size = 1)

/-- `ValidateFootprint`. The product of two 32-bit words is taken in 64 bits, and does not wrap. -/
def validateFootprint (texture buffer : Resource) (footprint : PlacedFootprint) : Encode Unit := do
  let desc := texture.description
  rejectIf (simpleTexture desc = false ∨ desc.sample_count ≠ 1 ∨
    buffer.description.dimension ≠ .buffer ∨ footprint.offset > buffer.description.width ∨
    footprint.offset % 512 ≠ 0 ∨ device.formatPlanes desc.format ≠ some 1)
  let copyable := device.getCopyableFootprints desc footprint.offset
  let actual := footprint.footprint
  let wanted := copyable.expected.footprint
  rejectIf (actual.format ≠ wanted.format ∨ actual.width ≠ wanted.width ∨
    actual.height ≠ wanted.height ∨ actual.depth ≠ wanted.depth ∨
    actual.row_pitch ≠ wanted.row_pitch ∨ footprint.offset ≠ copyable.expected.offset ∨
    copyable.rows = 0 ∨ copyable.row_bytes.toNat > wanted.row_pitch.toNat ∨
    footprint.offset > buffer.description.width)
  let row_offset := (copyable.rows.toNat - 1) * wanted.row_pitch.toNat
  let available := buffer.description.width.toNat - footprint.offset.toNat
  rejectIf (row_offset > available ∨ copyable.row_bytes.toNat > available - row_offset)

def copyTexture (texture buffer : ℕ) (footprint : PlacedFootprint)
    (to_texture : Bool) : Encode Unit := do
  let tex ← find texture
  let buf ← find buffer
  validateFootprint device tex buf footprint
  rejectIf ((to_texture = true ∧ buf.heap = .readback) ∨ (to_texture = false ∧ buf.heap = .upload))
  transition texture (if to_texture then stateCopyDest else stateCopySource)
  if buf.heap ≠ .upload then transition buffer (if to_texture then stateCopySource else stateCopyDest)
  else pure ()
  record (.copyTextureRegion texture buffer footprint to_texture)
  count fun stats => { stats with texture_copies := stats.texture_copies + 1 }

def copyBufferToTexture (texture buffer : ℕ) (footprint : PlacedFootprint) :
    Encode Unit := copyTexture device texture buffer footprint true

def copyTextureToBuffer (buffer texture : ℕ) (footprint : PlacedFootprint) :
    Encode Unit := copyTexture device texture buffer footprint false

def clearColor (resource rtv : ℕ) (color : List Float32) : Encode Unit := do
  let desc := (← find resource).description
  rejectIf (rtv = 0 ∨ desc.dimension ≠ .texture2d ∨ desc.flags &&& flagAllowRenderTarget = 0 ∨
    (color.all Float32.isFinite) = false)
  transition resource stateRenderTarget
  record (.clearRenderTargetView rtv color resource)
  count fun stats => { stats with color_clears := stats.color_clears + 1 }

def formatD32Float : UInt32 := 40

def clearDepth (resource dsv : ℕ) (depth : Float32) : Encode Unit := do
  let desc := (← find resource).description
  rejectIf (dsv = 0 ∨ simpleTexture desc = false ∨ desc.format ≠ formatD32Float ∨
    desc.flags &&& flagAllowDepthStencil = 0 ∨ depth.isFinite = false ∨ depth < 0 ∨ depth > 1)
  transition resource stateDepthWrite
  record (.clearDepthStencilView dsv depth resource)
  count fun stats => { stats with depth_clears := stats.depth_clears + 1 }

/-- `D3D12_FORMAT_SUPPORT1_MULTISAMPLE_RESOLVE`. -/
def supportMultisampleResolve : BitVec 32 := 0x40000

def resolve (destination source : ℕ) : Encode Unit := do
  let dst := (← find destination).description
  let src := (← find source).description
  rejectIf (destination = source ∨ simpleTexture src = false ∨ simpleTexture dst = false ∨
    src.sample_count ≤ 1 ∨ dst.sample_count ≠ 1 ∨ src.width ≠ dst.width ∨ src.height ≠ dst.height ∨
    src.format ≠ dst.format ∨ src.flags &&& flagAllowDepthStencil ≠ 0 ∨
    ((device.formatSupport src.format).getD 0) &&& supportMultisampleResolve = 0)
  transition source stateResolveSource
  transition destination stateResolveDest
  record (.resolveSubresource destination source src.format)
  count fun stats => { stats with resolves := stats.resolves + 1 }

end ShadPS4.D3D12
