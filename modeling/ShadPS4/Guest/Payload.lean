import ShadPS4.Lib.Bytes

/-!
# From a guest file to a staged image

The stages that take an untrusted guest file, a raw ELF or a SELF container, to the image that the data linker
works on: `InspectGuestPrefix` reads the headers in the file's prefix, `PlanGuestLoads` lays out the load segments,
`PlanGuestPayloadFile` finds the bytes of each segment in the file, and `StageGuestPayload` copies them.
-/

namespace ShadPS4.Guest

/-! ## `guest_preflight.h` -/

def guestPrefixLimit : ℕ := 16384

structure GuestPreflight where
  header_valid : Bool := false
  self_container : Bool := false
  orbis_identity : Bool := false
  encrypted_segments : Bool := false
  compressed_segments : Bool := false
  type : ℕ := 0
  program_headers : ℕ := 0
  entry : ℕ := 0
  elf_offset : ℕ := 0
  error : String := ""

/-- The record returned by `fail`. -/
def GuestPreflight.failed (result : GuestPreflight) (error : String) : GuestPreflight :=
  { result with error := error }

section

variable (bytes : List UInt8)

/-- The SELF part of `InspectGuestPrefix`: the container's identity, the place of the ELF header
behind the block table, and the flags of the blocks. -/
def inspectSelfHeader (result : GuestPreflight) :
    Except (Stop GuestPreflight) GuestPreflight := do
  failIf (bytes.length < 32) (result.failed "truncated_self_header")
  let b4 ← fetch bytes 4
  let b5 ← fetch bytes 5
  let b6 ← fetch bytes 6
  let b7 ← fetch bytes 7
  let b8 ← fetch bytes 8
  let b9 ← fetch bytes 9
  failIf (b4 ≠ 0 ∨ b5 ≠ 1 ∨ b6 ≠ 1 ∨ b7 ≠ 0x12 ∨ b8 ≠ 1 ∨ b9 ≠ 1)
    (result.failed "unsupported_self_identity")
  let segments ← read bytes 24 2
  let result := { result with elf_offset := 32 + segments * 32 }
  failIf (result.elf_offset > bytes.length ∨ bytes.length - result.elf_offset < 64)
    (result.failed "self_elf_outside_prefix")
  (List.range segments).foldlM (fun result i => do
    let flags ← read bytes (32 + i * 32) 8
    pure { result with
      encrypted_segments := result.encrypted_segments || flags &&& 2 != 0
      compressed_segments := result.compressed_segments || flags &&& 8 != 0 }) result

/-- The ELF part of `InspectGuestPrefix`, after the container has given the place of the header. -/
def inspectElfHeader (file_size : ℕ) (result : GuestPreflight) :
    Except (Stop GuestPreflight) GuestPreflight := do
  let offset := result.elf_offset
  failIf (bytes.length - offset < 64) (result.failed "truncated_elf_header")
  let magic ← read bytes offset 4
  failIf (magic ≠ 0x464c457f) (result.failed "invalid_elf_magic")
  let b4 ← fetch bytes (offset + 4)
  let b5 ← fetch bytes (offset + 5)
  let b6 ← fetch bytes (offset + 6)
  let machine ← read bytes (offset + 18) 2
  let version ← read bytes (offset + 20) 4
  failIf (b4 ≠ 2 ∨ b5 ≠ 1 ∨ b6 ≠ 1 ∨ machine ≠ 62 ∨ version ≠ 1)
    (result.failed "requires_elf64_little_endian_x86_64")
  let header_size ← read bytes (offset + 52) 2
  failIf (header_size < 64 ∨ header_size > file_size ∨ (¬ result.self_container ∧ header_size ≠ 64))
    (result.failed "invalid_elf_header_size")
  let type ← read bytes (offset + 16) 2
  let result := { result with type := type }
  failIf (type ≠ 2 ∧ type ≠ 3 ∧ type ≠ 0xfe00 ∧ type ≠ 0xfe10 ∧ type ≠ 0xfe18)
    (result.failed "unsupported_elf_type")
  let entry ← read bytes (offset + 24) 8
  let program_headers ← read bytes (offset + 56) 2
  let result := { result with entry := entry, program_headers := program_headers }
  let header_bytes ← read bytes (offset + 54) 2
  failIf (program_headers = 0 ∨ program_headers = 0xffff ∨ header_bytes ≠ 56)
    (result.failed "unsupported_program_header_layout")
  let phoff ← read bytes (offset + 32) 8
  let available := file_size - result.elf_offset
  failIf (phoff < 64 ∨ phoff > available ∨ program_headers * 56 > available - phoff)
    (result.failed "program_header_table_outside_file")
  let b7 ← fetch bytes (offset + 7)
  let b8 ← fetch bytes (offset + 8)
  pure { result with
    orbis_identity := b7 == 9 && b8 == 0 && decide (type ≥ 0xfe00)
    header_valid := true }

def inspectGuestPrefix (file_size : ℕ) : Except (Stop GuestPreflight) GuestPreflight := do
  let result : GuestPreflight := {}
  failIf (bytes.length > guestPrefixLimit ∨ bytes.length > file_size ∨ bytes.length < 4)
    (result.failed "invalid_prefix_size")
  let magic ← read bytes 0 4
  let result := { result with self_container := decide (magic = 0x1d3d154f) }
  let result ← if result.self_container then inspectSelfHeader bytes result else pure result
  inspectElfHeader bytes file_size result

/-! ## `guest_load_plan.h` -/

def guestImageLimit : ℕ := 16 * 1024 * 1024

def guestPageSize : ℕ := 16384

/-- The program header type of a SCE relocation read-only segment. -/
def sceRelro : ℕ := 0x61000010

structure GuestLoadSegment where
  file_offset : ℕ := 0
  address : ℕ := 0
  file_size : ℕ := 0
  memory_size : ℕ := 0
  /-- `p_flags`: one for execution, two for writing, four for reading -/
  flags : ℕ := 0
  program_index : ℕ := 0
  type : ℕ := 1
deriving DecidableEq

structure GuestLoadPlan where
  valid : Bool := false
  raw_elf : Bool := false
  /-- the address of the image's first byte -/
  base : ℕ := 0
  image_size : ℕ := 0
  entry_offset : ℕ := 0
  segments : List GuestLoadSegment := []
  error : String := ""
deriving DecidableEq

/-- The record returned by `fail`. -/
def GuestLoadPlan.failed (plan : GuestLoadPlan) (error : String) : GuestLoadPlan :=
  { plan with error := error }

/-- The variables of the loop over the program headers. -/
structure LoadState where
  plan : GuestLoadPlan
  low : ℕ
  high : ℕ
  executable_entry : Bool

/-- Whether a segment meets an earlier one. -/
def GuestLoadSegment.overlaps (segment previous : GuestLoadSegment) : Bool :=
  decide (segment.address < previous.address + previous.memory_size ∧
    previous.address < segment.address + segment.memory_size)

/-- The checks of `PlanGuestLoads` on one load segment that do not depend on the other segments. -/
def checkSegment (plan : GuestLoadPlan) (segment : GuestLoadSegment) (alignment : ℕ) :
    Except (Stop GuestLoadPlan) Unit := do
  failIf (segment.type = sceRelro ∧ segment.flags &&& 1 ≠ 0)
    (plan.failed "unsupported_relro_permissions")
  failIf (segment.flags &&& 0xfffffff8 ≠ 0 ∨ segment.flags &&& 3 = 3)
    (plan.failed "unsupported_segment_permissions")
  failIf (segment.file_size > segment.memory_size) (plan.failed "file_size_exceeds_memory")
  failIf (alignment > 1 ∧ (alignment &&& (alignment - 1) ≠ 0 ∨
      segment.address % alignment ≠ segment.file_offset % alignment))
    (plan.failed "invalid_segment_alignment")

/-- The rest of the loop body of `PlanGuestLoads`, for a segment that takes memory. -/
def placeSegment (file_size entry : ℕ) (state : LoadState) (segment : GuestLoadSegment) :
    Except (Stop GuestLoadPlan) LoadState := do
  let plan := state.plan
  failIf (segment.memory_size > guestImageLimit ∨
      segment.address > uint64Max - segment.memory_size)
    (plan.failed "segment_address_overflow_or_budget")
  failIf (plan.raw_elf ∧ (segment.file_offset > file_size ∨
      segment.file_size > file_size - segment.file_offset))
    (plan.failed "segment_outside_file")
  failIf (plan.segments.any segment.overlaps) (plan.failed "overlapping_load_segments")
  pure {
    plan := { plan with segments := plan.segments ++ [segment] }
    low := min state.low segment.address
    high := max state.high (segment.address + segment.memory_size)
    executable_entry := state.executable_entry || decide (segment.type = 1 ∧
      segment.flags &&& 1 ≠ 0 ∧ entry ≥ segment.address ∧
      entry - segment.address < segment.file_size) }

/-- The loop body of `PlanGuestLoads`: the program header `i`, at `offset` in the prefix. -/
def planSegment (file_size : ℕ) (include_sce_relro : Bool) (entry : ℕ)
    (i offset : ℕ) (state : LoadState) : Except (Stop GuestLoadPlan) LoadState := do
  let type ← read bytes offset 4
  if type ≠ 1 ∧ ¬ (include_sce_relro ∧ type = sceRelro) then pure state
  else do
    let file_offset ← read bytes (offset + 8) 8
    let address ← read bytes (offset + 16) 8
    let size ← read bytes (offset + 32) 8
    let memory_size ← read bytes (offset + 40) 8
    let flags ← read bytes (offset + 4) 4
    let segment : GuestLoadSegment :=
      { file_offset, address, file_size := size, memory_size, flags, program_index := i, type }
    let alignment ← read bytes (offset + 48) 8
    checkSegment state.plan segment alignment
    if segment.memory_size = 0 then pure state
    else placeSegment file_size entry state segment

def planGuestLoads (file_size : ℕ) (include_sce_relro : Bool) :
    Except (Stop GuestLoadPlan) GuestLoadPlan := do
  let plan : GuestLoadPlan := {}
  let header ← call (inspectGuestPrefix bytes file_size)
  failIf (header.header_valid = false) (plan.failed "header_invalid")
  let plan := { plan with raw_elf := !header.self_container }
  let phoff ← read bytes (header.elf_offset + 32) 8
  failIf (header.program_headers > 128) (plan.failed "program_header_limit")
  let available := bytes.length - header.elf_offset
  failIf (phoff > available ∨ header.program_headers * 56 > available - phoff)
    (plan.failed "program_headers_outside_prefix")
  let state ← (List.range header.program_headers).foldlM
    (fun state i => planSegment bytes file_size include_sce_relro header.entry i
      (header.elf_offset + phoff + i * 56) state)
    { plan := plan, low := uint64Max, high := 0, executable_entry := false }
  let plan := state.plan
  failIf (plan.segments = []) (plan.failed "no_load_segments")
  failIf (state.executable_entry = false)
    (plan.failed "entry_outside_file_backed_executable_segment")
  let plan := { plan with base := state.low - state.low % guestPageSize }
  let span := state.high - plan.base
  failIf (span > guestImageLimit) (plan.failed "image_budget_exceeded")
  pure { plan with
    image_size := (span + guestPageSize - 1) / guestPageSize * guestPageSize
    entry_offset := header.entry - plan.base
    valid := true }

end

/-! ## `guest_payload.h` -/

def guestPayloadFileLimit : ℕ := 32 * 1024 * 1024

structure GuestStagedImage where
  plan : GuestLoadPlan := {}
  bytes : List UInt8 := []
  error : String := ""
deriving DecidableEq

/-- `GuestFileRange`: a range of the ELF's logical file and its place in the real one. -/
structure GuestFileRange where
  logical_offset : ℕ := 0
  physical_offset : ℕ := 0
  size : ℕ := 0

structure GuestPayload where
  image : GuestStagedImage := {}
  copied_bytes : ℕ := 0
  /-- the number of bytes left zero in the segments -/
  bss_bytes : ℕ := 0
  checksum : ℕ := 0
  /-- the parts of the segments without file bytes were found zero -/
  bss_verified : Bool := false
  file_ranges : List GuestFileRange := []
  /-- the offset in the file of each segment's bytes -/
  load_offsets : List ℕ := []

/-- The record returned by `fail`. -/
def GuestPayload.failed (payload : GuestPayload) (error : String) : GuestPayload :=
  { payload with image := { payload.image with error := error, bytes := [] } }

def GuestPayload.ready (payload : GuestPayload) : Bool :=
  payload.image.plan.valid && payload.image.error == "" && payload.image.bytes != [] &&
    payload.bss_verified

/-- `Block`: a block of a SELF container. -/
structure Block where
  offset : ℕ := 0
  size : ℕ := 0
  present : Bool := false

/-- The variables of the loop over the SELF block table. -/
structure BlockState where
  blocks : List Block
  ranges : List Block

variable (file : List UInt8)

/-- The loop body over the SELF block table: the entry `i`. -/
def readBlock (payload : GuestPayload) (metadata_end : ℕ) (state : BlockState)
    (i : ℕ) : Except (Stop GuestPayload) BlockState := do
  let flags ← read file (32 + i * 32) 8
  let offset ← read file (40 + i * 32) 8
  let size ← read file (48 + i * 32) 8
  let memory_size ← read file (56 + i * 32) 8
  failIf (offset < metadata_end ∨ offset > file.length ∨ size > file.length - offset)
    (payload.failed "self_payload_outside_file")
  failIf (state.ranges.any fun range => decide (size ≠ 0 ∧ range.size ≠ 0 ∧
      offset < range.offset + range.size ∧ range.offset < offset + size))
    (payload.failed "overlapping_self_payloads")
  let state := { state with ranges := state.ranges ++ [⟨offset, size, true⟩] }
  -- Auxiliary blocks are not loadable segments.
  if flags &&& 0x800 = 0 then pure state
  else do
    let index := (flags >>> 20) &&& 0xfff
    failIf (index ≥ state.blocks.length) (payload.failed "self_program_index_outside_table")
    let block ← fetch state.blocks index
    failIf (block.present = true) (payload.failed "duplicate_self_program_block")
    failIf (size ≠ memory_size) (payload.failed "unsupported_self_block_size")
    let blocks ← put state.blocks index ⟨offset, size, true⟩
    pure { state with blocks := blocks }

/-- The loop body over the blocks: the logical range of program header `i`, at `ph` in the file. -/
def mapBlock (blocks : List Block) (payload : GuestPayload) (i ph : ℕ) :
    Except (Stop GuestPayload) GuestPayload := do
  let block ← fetch blocks i
  if block.present = false then pure payload
  else do
    let logical ← read file (ph + 8) 8
    let size ← read file (ph + 32) 8
    failIf (logical > uint64Max - size ∨ size ≠ block.size)
      (payload.failed "self_logical_range_or_size_invalid")
    failIf (payload.file_ranges.any fun range => decide (size ≠ 0 ∧ range.size ≠ 0 ∧
        logical < range.logical_offset + range.size ∧ range.logical_offset < logical + size))
      (payload.failed "overlapping_self_logical_ranges")
    pure { payload with file_ranges := payload.file_ranges ++ [⟨logical, block.offset, size⟩] }

/-- The loop body over the load segments: the place of a segment's bytes in its block. -/
def locateSegment (blocks : List Block) (payload : GuestPayload) (segment : GuestLoadSegment) :
    Except (Stop GuestPayload) GuestPayload :=
  -- A segment without file bytes needs no block.
  if segment.file_size = 0 then pure { payload with load_offsets := payload.load_offsets ++ [0] }
  else do
    let block ← fetch blocks segment.program_index
    failIf (block.present = false) (payload.failed "missing_self_load_block")
    failIf (block.size ≠ segment.file_size) (payload.failed "self_load_size_mismatch")
    pure { payload with load_offsets := payload.load_offsets ++ [block.offset] }

/-- The SELF branch of `PlanGuestPayloadFile`. -/
def planSelfPayload (header : GuestPreflight) (payload : GuestPayload) :
    Except (Stop GuestPayload) GuestPayload := do
  failIf (header.encrypted_segments ∨ header.compressed_segments)
    (payload.failed "encrypted_or_compressed_self_unsupported")
  let phoff ← read file (header.elf_offset + 32) 8
  let table_end := header.elf_offset + phoff + header.program_headers * 56
  let metadata_size ← read file 12 2
  let metadata_extra ← read file 14 2
  let metadata_end := metadata_size + metadata_extra
  failIf (metadata_end < table_end ∨ metadata_end > file.length)
    (payload.failed "invalid_self_metadata_range")
  let count ← read file 24 2
  let state ← (List.range count).foldlM (readBlock file payload metadata_end)
    { blocks := List.replicate header.program_headers {}, ranges := [] }
  let payload ← (List.range state.blocks.length).foldlM (fun payload i =>
    mapBlock file state.blocks payload i (header.elf_offset + phoff + i * 56)) payload
  payload.image.plan.segments.foldlM (locateSegment state.blocks) payload

def planGuestPayloadFile : Except (Stop GuestPayload) GuestPayload := do
  let payload : GuestPayload := {}
  failIf (file.length > guestPayloadFileLimit) (payload.failed "payload_file_budget_exceeded")
  let bytes := file.take (min file.length guestPrefixLimit)
  let plan ← call (planGuestLoads bytes file.length true)
  let payload := { payload with image := { payload.image with plan := plan } }
  failIf (plan.valid = false) (payload.failed plan.error)
  let header ← call (inspectGuestPrefix bytes file.length)
  if plan.raw_elf then
    pure { payload with
      file_ranges := [⟨0, 0, file.length⟩]
      load_offsets := plan.segments.map (·.file_offset) }
  else planSelfPayload file header payload

/-- The loop body of `StageGuestPayload`: the bytes of a segment are copied into the image. -/
def copySegment (payload : GuestPayload) (i : ℕ) : Except (Stop GuestPayload) GuestPayload := do
  let segment ← fetch payload.image.plan.segments i
  let offset ← fetch payload.load_offsets i
  let destination := segment.address - payload.image.plan.base
  let bytes ← copyN file offset payload.image.bytes destination segment.file_size
  pure { payload with
    image := { payload.image with bytes := bytes }
    copied_bytes := payload.copied_bytes + segment.file_size
    bss_bytes := payload.bss_bytes + (segment.memory_size - segment.file_size) }

/-- `std::all_of` over the bytes of a range, which must lie in the string: all are zero. -/
def allZero {R : Type} (bytes : List UInt8) (start stop : ℕ) : Except (Stop R) Bool :=
  if start ≤ stop ∧ stop ≤ bytes.length then
    .ok (((bytes.take stop).drop start).all (· == 0))
  else .error .fault

/-- The fingerprint of a byte string: 64-bit FNV-1a. -/
def fnv1a64 (bytes : List UInt8) : ℕ :=
  bytes.foldl (fun checksum byte => (checksum ^^^ byte.toNat) * 1099511628211 % 2^64)
    14695981039346656037

def stageGuestPayload : Except (Stop GuestPayload) GuestPayload := do
  let payload ← call (planGuestPayloadFile file)
  if payload.image.plan.valid = false ∨ payload.image.error ≠ "" then pure payload
  else do
    let payload := { payload with image :=
      { payload.image with bytes := List.replicate payload.image.plan.image_size 0 } }
    let payload ← (List.range payload.load_offsets.length).foldlM (copySegment file) payload
    let verified ← payload.image.plan.segments.foldlM (fun verified segment => do
      let zero ← allZero payload.image.bytes
        (segment.address - payload.image.plan.base + segment.file_size)
        (segment.address - payload.image.plan.base + segment.memory_size)
      pure (verified && zero)) true
    pure { payload with bss_verified := verified, checksum := fnv1a64 payload.image.bytes }

end ShadPS4.Guest
