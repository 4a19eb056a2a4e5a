import Mathlib.Data.List.Sort
import ShadPS4.Guest.Imports

/-!
# Data relocation of a staged image

`StageGuestDataLink` stages a guest file, takes its manifest, resolves its imports and applies those relocations
that need nothing else: `RELATIVE` ones, and 64-bit ones against a resolved import or a local symbol of the image.
-/

namespace ShadPS4.Guest

structure GuestDataLink where
  payload : GuestPayload := {}
  manifest : GuestLinkManifest := {}
  imports : GuestImportPlan := {}
  valid : Bool := false
  complete : Bool := false
  writes_verified : Bool := false
  /-- the other bytes were found as in the file -/
  untouched_verified : Bool := false
  bias : ℕ := 0
  relative_applied : ℕ := 0
  local_applied : ℕ := 0
  /-- the number of relocations that wait for an import -/
  pending_imports : ℕ := 0
  /-- the number of relocations that wait for a symbol of another binding -/
  pending_bindings : ℕ := 0
  /-- the number of relocations of a type that is not applied here -/
  pending_types : ℕ := 0
  none : ℕ := 0
  /-- the fingerprint of the image after the writes -/
  checksum_after : ℕ := 0
  data_import_applied : ℕ := 0
  error : String := ""

/-- The record returned after `fail`. -/
def GuestDataLink.failed (result : GuestDataLink) (error : String) : GuestDataLink :=
  { result with error := error, valid := false, complete := false }

/-- `AddGuestSigned`: the sum of a word and a two's complement word, if it is a word. -/
def addGuestSigned (base bits : ℕ) : Option ℕ :=
  if bits >>> 63 ≠ 0 then
    let magnitude := add64 (uint64Max - bits) 1
    if base < magnitude then none else some (base - magnitude)
  else if base > uint64Max - bits then none
  else some (base + bits)

/-- `mapped` of the linker: the first segment that holds the block decides whether it may be
written. -/
def mappedFor (segments : List GuestLoadSegment) (address size : ℕ) (writable : Bool) : Bool :=
  match segments.find? (·.holds address size) with
  | none => false
  | some segment => !writable || (segment.flags &&& 1 == 0 &&
      (segment.flags &&& 2 != 0 || segment.type == sceRelro))

/-- `Patch`: a word to write. -/
structure Patch where
  offset : ℕ := 0
  value : ℕ := 0
  original : ℕ := 0

/-- `Range`: the addresses that a relocation would write. -/
structure TargetRange where
  start : ℕ := 0
  stop : ℕ := 0

/-- The variables of the loop over the relocations. -/
structure LinkState where
  result : GuestDataLink
  patches : List Patch
  ranges : List TargetRange
  relative_count : ℕ
  local_count : ℕ
  import_count : ℕ

/-- The number of bytes that a relocation of type `type` writes. -/
def linkWidth (type : ℕ) : ℕ :=
  if type = 36 then 16 else if type = 2 ∨ type = 10 ∨ type = 11 then 4 else 8

/-- Whether the linker knows the type of a relocation. -/
def linkKnows (type : ℕ) : Bool :=
  !(type != 1 && type != 2 && type != 6 && type != 7 && type != 8 && type != 10 && type != 11 &&
    type != 16 && type != 17 && type != 18 && type != 36)

/-- The end of the loop body: the word is written only where the segment allows it. -/
def selectPatch (plan : GuestLoadPlan) (relocation : GuestLinkRelocation) (value : ℕ)
    (state : LinkState) : Except (Stop GuestDataLink) LinkState := do
  failIf (mappedFor plan.segments relocation.address 8 true = false)
    (state.result.failed "selected_write_not_allowed")
  pure { state with patches := state.patches ++ [⟨relocation.address - plan.base, value, 0⟩] }

/-- The branch of the loop body for a 64-bit relocation against a symbol. -/
def linkSymbol (plan : GuestLoadPlan) (bias : ℕ) (relocation : GuestLinkRelocation)
    (state : LinkState) : Except (Stop GuestDataLink) LinkState := do
  let result := state.result
  let addend := if relocation.type = 1 then relocation.addend_bits else 0
  let symbol ← fetch result.manifest.symbol_records relocation.symbol
  if symbol.section_index = 0 then do
    let address ← fetch result.imports.addresses_by_symbol relocation.symbol
    if address = 0 then
      pure { state with result := { result with pending_imports := result.pending_imports + 1 } }
    else match addGuestSigned address addend with
      | none => .error (.fail (result.failed "data_import_value_overflow"))
      | some value =>
        selectPatch plan relocation value { state with import_count := state.import_count + 1 }
  else if symbol.binding ≠ 0 ∨ symbol.section_index ≥ 0xff00 ∨ symbol.type > 2 then
    pure { state with result := { result with pending_bindings := result.pending_bindings + 1 } }
  else do
    failIf (mappedFor plan.segments symbol.address (max 1 symbol.size) false = false ∨
        bias > uint64Max - symbol.address)
      (result.failed "local_symbol_outside_image_or_overflow")
    match addGuestSigned (bias + symbol.address) addend with
    | none => .error (.fail (result.failed "local_symbol_value_overflow"))
    | some value =>
      selectPatch plan relocation value { state with local_count := state.local_count + 1 }

/-- The loop body over the relocation records. -/
def linkRelocation (plan : GuestLoadPlan) (bias : ℕ) (state : LinkState)
    (relocation : GuestLinkRelocation) : Except (Stop GuestDataLink) LinkState := do
  let result := state.result
  let type := relocation.type
  if type = 0 then pure { state with result := { result with none := result.none + 1 } }
  else do
    failIf (linkKnows type = false) (result.failed "unsupported_relocation_type")
    -- Targets of pending relocations count as well, so that no word is half overwritten.
    let state := { state with ranges := state.ranges ++
      [⟨relocation.address, add64 relocation.address (linkWidth type)⟩] }
    if type = 8 then
      match addGuestSigned bias relocation.addend_bits with
      | none => .error (.fail (result.failed "relative_value_overflow"))
      | some value =>
        selectPatch plan relocation value { state with relative_count := state.relative_count + 1 }
    else if type = 1 ∨ type = 6 ∨ type = 7 then linkSymbol plan bias relocation state
    else pure { state with result := { result with pending_types := result.pending_types + 1 } }

/-- Whether two targets that stand next to each other in the sorted list meet. -/
def overlapping : List TargetRange → Bool
  | a :: b :: rest => decide (b.start < a.stop) || overlapping (b :: rest)
  | _ => false

/-- `ExpectedRange`: a part of the image and its place in the file. -/
structure ExpectedRange where
  start : ℕ := 0
  stop : ℕ := 0
  physical : ℕ := 0

/-- The file-backed parts of the image, one for each segment. -/
def expectedRanges (payload : GuestPayload) : Except (Stop GuestDataLink) (List ExpectedRange) :=
  (List.range payload.image.plan.segments.length).foldlM (fun expected i => do
    let segment ← fetch payload.image.plan.segments i
    let offset ← fetch payload.load_offsets i
    let start := segment.address - payload.image.plan.base
    pure (expected ++ [⟨start, start + segment.file_size, offset⟩])) []

variable (file : List UInt8)

/-- The byte that stands in the file for offset `i` of the image, given the ranges that do not end
before it. -/
def expectedByte (i : ℕ) : List ExpectedRange → Except (Stop GuestDataLink) UInt8
  | [] => pure 0
  | range :: _ =>
    if i ≥ range.start then fetch file (range.physical + i - range.start) else pure 0

/-- The loop of `verify_untouched` from offset `i` on: a patch is stepped over, and every other byte is compared
with the file. -/
def verifyUntouched (file image : List UInt8) :
    ℕ → ℕ → List Patch → List ExpectedRange → Except (Stop GuestDataLink) Bool
  | 0, _, _, _ => .error .fault
  | fuel + 1, i, patches, expected =>
    if i ≥ image.length then pure true
    else if patches.head?.map (·.offset) = some i then
      verifyUntouched file image fuel (i + 8) patches.tail expected
    else do
      let expected := expected.dropWhile fun range => decide (range.stop ≤ i)
      let byte ← expectedByte file i expected
      let found ← fetch image i
      if found ≠ byte then pure false
      else verifyUntouched file image fuel (i + 1) patches expected

/-- The loop body of the writes: the word that stood there is kept. -/
def writePatch (state : List UInt8 × List Patch) (patch : Patch) :
    Except (Stop GuestDataLink) (List UInt8 × List Patch) := do
  let original ← read state.1 patch.offset 8
  let image ← write state.1 patch.offset patch.value 8
  pure (image, state.2 ++ [{ patch with original := original }])

/-- `writes_verified`: every word written is read back. -/
def verifyWrites (image : List UInt8) (patches : List Patch) : Except (Stop GuestDataLink) Bool :=
  patches.foldlM (fun verified patch => do
    let value ← read image patch.offset 8
    pure (verified && value == patch.value)) true

def GuestDataLink.withImage (result : GuestDataLink) (image : List UInt8) : GuestDataLink :=
  { result with payload := { result.payload with
    image := { result.payload.image with bytes := image } } }

/-- `StageGuestDataLink`, from the first write on. -/
def commitPatches (state : LinkState) : Except (Stop GuestDataLink) GuestDataLink := do
  let result := state.result
  let patches := state.patches.insertionSort fun a b => a.offset ≤ b.offset
  let ranges ← expectedRanges result.payload
  let expected := ranges.insertionSort fun a b => a.start ≤ b.start
  let (image, patches) ← patches.foldlM writePatch (result.payload.image.bytes, [])
  let writes_verified ← verifyWrites image patches
  let untouched_verified ← verifyUntouched file image (image.length + 1) 0 patches expected
  let result := { result.withImage image with
    writes_verified := writes_verified
    untouched_verified := untouched_verified }
  if writes_verified = false ∨ untouched_verified = false then do
    let image ← patches.foldlM (fun image patch => write image patch.offset patch.original 8) image
    pure ((result.withImage image).failed "post_write_verification_failed")
  else
    pure { result with
      relative_applied := state.relative_count
      local_applied := state.local_count
      data_import_applied := state.import_count
      checksum_after := fnv1a64 image
      complete := decide
        (result.pending_imports + result.pending_bindings + result.pending_types = 0)
      valid := true }

/-- `StageGuestDataLink`, from the relocations to the first write. -/
def linkRelocations (bias : ℕ) (require_complete : Bool) (result : GuestDataLink) :
    Except (Stop GuestDataLink) LinkState := do
  let plan := result.payload.image.plan
  failIf (bias > uint64Max - plan.base ∨ bias + plan.base > uint64Max - plan.image_size)
    (result.failed "biased_image_range_overflow")
  let state ← result.manifest.relocation_records.foldlM (linkRelocation plan bias)
    { result, patches := [], ranges := [], relative_count := 0, local_count := 0,
      import_count := 0 }
  let result := state.result
  failIf (overlapping (state.ranges.insertionSort fun a b => a.start ≤ b.start) = true)
    (result.failed "overlapping_relocation_targets")
  failIf (require_complete ∧
      result.pending_imports + result.pending_bindings + result.pending_types ≠ 0)
    (result.failed "pending_relocations_require_resolver")
  pure state

def stageGuestDataLink (bias : UInt64) (require_complete : Bool)
    (exports : List GuestDataExport) : Except (Stop GuestDataLink) GuestDataLink := do
  let payload ← call (stageGuestPayload file)
  let manifest ← call (inspectGuestLinkManifest file true)
  let result : GuestDataLink := { bias := bias.toNat, payload, manifest }
  failIf (payload.ready = false ∨ manifest.valid = false)
    (result.failed "payload_or_manifest_invalid")
  let imports ← call (resolveGuestImports manifest exports)
  let result := { result with imports := imports }
  failIf (imports.valid = false) (result.failed "import_namespace_or_registry_invalid")
  let state ← linkRelocations bias.toNat require_complete result
  commitPatches file state

end ShadPS4.Guest
