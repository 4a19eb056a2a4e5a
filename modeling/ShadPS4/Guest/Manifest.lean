import ShadPS4.Guest.Payload

/-!
# The link manifest of a guest file

`InspectGuestLinkManifest` takes the inventory of what a guest needs to be linked: its dependencies, symbols,
imports and relocations.
-/

namespace ShadPS4.Guest

structure GuestLinkSymbol where
  address : ℕ := 0
  size : ℕ := 0
  /-- `st_shndx`, the member `section` of the source -/
  section_index : ℕ := 0
  /-- the high half of `st_info` -/
  binding : ℕ := 0
  /-- the low half of `st_info` -/
  type : ℕ := 0
deriving DecidableEq

structure GuestLinkRelocation where
  address : ℕ := 0
  /-- `r_addend`, as the bits of a two's complement word -/
  addend_bits : ℕ := 0
  /-- the low half of `r_info` -/
  type : ℕ := 0
  /-- the high half of `r_info` -/
  symbol : ℕ := 0
deriving DecidableEq

/-- `GuestLinkDependency`: a module or a library. -/
structure GuestLinkDependency where
  name : List UInt8 := []
  packed : ℕ := 0
deriving DecidableEq

structure GuestLinkManifest where
  valid : Bool := false
  error : String := ""
  /-- the number of dynamic entries before the terminator -/
  dynamic_entries : ℕ := 0
  symbols : ℕ := 0
  relocations : ℕ := 0
  relative : ℕ := 0
  /-- the number of `JUMP_SLOT` relocations -/
  jump_slots : ℕ := 0
  symbol_relocations : ℕ := 0
  tls_relocations : ℕ := 0
  /-- the number of relocations of a type that is not known -/
  other_relocations : ℕ := 0
  target_checks : ℕ := 0
  undefined_functions : ℕ := 0
  undefined_objects : ℕ := 0
  undefined_other : ℕ := 0
  tls_segments : ℕ := 0
  tls_address : ℕ := 0
  tls_file_bytes : ℕ := 0
  tls_memory_bytes : ℕ := 0
  tls_alignment : ℕ := 0
  needed : List (List UInt8) := []
  modules : List (List UInt8) := []
  libraries : List (List UInt8) := []
  imports : List (List UInt8) := []
  symbol_records : List GuestLinkSymbol := []
  relocation_records : List GuestLinkRelocation := []
  module_records : List GuestLinkDependency := []
  library_records : List GuestLinkDependency := []
  import_symbol_indices : List ℕ := []
deriving DecidableEq

/-- The record returned by `fail`. -/
def GuestLinkManifest.failed (result : GuestLinkManifest) (error : String) : GuestLinkManifest :=
  { result with error := error }

def subspan (bytes : List UInt8) (offset size : ℕ) : List UInt8 := (bytes.drop offset).take size

variable (file : List UInt8)

def rangeSlice (offset size : ℕ) (range : GuestFileRange) : Option (List UInt8) :=
  if offset < range.logical_offset ∨ offset - range.logical_offset > range.size ∨
      size > range.size - (offset - range.logical_offset) then none
  else
    let physical := add64 range.physical_offset (offset - range.logical_offset)
    if physical > file.length ∨ size > file.length - physical then none
    else some (subspan file physical size)

/-- `logical_slice`: the bytes of a logical range that exactly one file range holds. -/
def logicalSlice (ranges : List GuestFileRange) (offset size : ℕ) : List UInt8 :=
  match ranges.filterMap (rangeSlice file offset size) with
  | [found] => found
  | _ => []

/-- The block of `size` bytes at `address` lies in the segment. -/
def GuestLoadSegment.holds (segment : GuestLoadSegment) (address size : ℕ) : Bool :=
  decide (address ≥ segment.address ∧ address - segment.address ≤ segment.memory_size ∧
    size ≤ segment.memory_size - (address - segment.address))

variable (segments : List GuestLoadSegment)

/-- `mapped`: some segment holds the block. -/
def mapped (address size : ℕ) : Bool :=
  segments.any (·.holds address size)

/-- The variables of the loop over the program headers. -/
structure DynamicState where
  result : GuestLinkManifest
  dynamic : List UInt8
  dynlib : List UInt8
  have_dynamic : Bool
  have_dynlib : Bool

/-- The loop body over the program headers: it finds the dynamic segment, the linked tables and the
thread-local segment. -/
def findDynamic (file bytes : List UInt8) (layout : GuestPayload) (ph : ℕ) (state : DynamicState) :
    Except (Stop GuestLinkManifest) DynamicState := do
  let result := state.result
  let type ← read bytes ph 4
  let offset ← read bytes (ph + 8) 8
  let address ← read bytes (ph + 16) 8
  let size ← read bytes (ph + 32) 8
  let memory ← read bytes (ph + 40) 8
  if type = 2 ∨ type = 0x61000000 then do
    failIf ((if type = 2 then state.have_dynamic else state.have_dynlib) = true)
      (result.failed "duplicate_dynamic_program_header")
    failIf (size = 0 ∨ size > if type = 2 then 65536 else 8 * 1024 * 1024)
      (result.failed "dynamic_data_budget_or_size")
    let found := logicalSlice file layout.file_ranges offset size
    failIf (found.length ≠ size) (result.failed "dynamic_data_unmapped")
    if type = 2 then pure { state with dynamic := found, have_dynamic := true }
    else pure { state with dynlib := found, have_dynlib := true }
  else if type = 7 then do
    let result := { result with tls_segments := result.tls_segments + 1 }
    failIf (result.tls_segments > 1) (result.failed "multiple_tls_segments_unsupported")
    let alignment ← read bytes (ph + 48) 8
    failIf (size > memory ∨ memory > guestImageLimit ∨
        (alignment > 1 ∧ (alignment &&& (alignment - 1) ≠ 0 ∨ alignment > 65536)))
      (result.failed "invalid_tls_layout")
    failIf ((memory ≠ 0 ∧ ¬ mapped layout.image.plan.segments address memory) ∨
        (size ≠ 0 ∧ (logicalSlice file layout.file_ranges offset size).length ≠ size))
      (result.failed "tls_image_unmapped")
    pure { state with result := { result with
      tls_address := address, tls_file_bytes := size, tls_memory_bytes := memory,
      tls_alignment := alignment } }
  else pure state

/-- The variables of the loop over the dynamic entries. -/
structure TagState where
  result : GuestLinkManifest
  tags : List (ℕ × ℕ)
  names : List (ℕ × ℕ)
  terminated : Bool

/-- The loop body over the dynamic entries. -/
def readTag (dynamic : List UInt8) (state : TagState) (i : ℕ) : Except (Stop GuestLinkManifest) TagState :=
  if state.terminated then pure state
  else do
    let tag ← read dynamic (i * 16) 8
    let value ← read dynamic (i * 16 + 8) 8
    if tag = 0 then pure { state with terminated := true }
    else do
      let result := { state.result with dynamic_entries := state.result.dynamic_entries + 1 }
      let state := { state with result := result }
      if tag = 1 ∨ tag = 0x6100000f ∨ tag = 0x61000015 then do
        failIf (state.names.length ≥ 512) (result.failed "dependency_budget_exceeded")
        pure { state with names := state.names ++ [(tag, value)] }
      else if tag ≥ 0x61000029 ∧ tag ≤ 0x6100003f ∧ tag &&& 1 ≠ 0 then do
        failIf ((state.tags.lookup tag).isSome) (result.failed "duplicate_link_table_tag")
        pure { state with tags := state.tags ++ [(tag, value)] }
      else pure state

/-- `table`: the link table that two tags give the place of, or nothing. -/
def table (tags : List (ℕ × ℕ)) (dynlib : List UInt8) (offset_tag size_tag : ℕ) : List UInt8 :=
  match tags.lookup offset_tag, tags.lookup size_tag with
  | some offset, some size =>
    if offset > dynlib.length ∨ size > dynlib.length - offset then []
    else subspan dynlib offset size
  | _, _ => []

/-- The loop of `string_at`: the bytes up to the terminator, if they may stand in a name. -/
def scanName : List UInt8 → List UInt8 → Option (List UInt8)
  | [], _ => none
  | byte :: rest, output =>
    if byte = 0 then some output
    else if output.length ≥ 256 ∨ byte < 32 ∨ byte > 126 ∨ byte = 0x3b ∨ byte = 0x2c then none
    else scanName rest (output ++ [byte])

/-- `string_at`: the name at an offset of the string table, with the number of bytes of all names
read so far. -/
def stringAt (strings : List UInt8) (name_bytes offset : ℕ) : Option (List UInt8 × ℕ) :=
  if offset ≥ strings.length then none
  else match scanName (strings.drop offset) [] with
    | none => none
    | some output =>
      if output ≠ [] ∧ name_bytes + output.length ≤ 1024 * 1024 then
        some (output, name_bytes + output.length)
      else none

/-- The variables of the loops that read names. -/
structure NameState where
  result : GuestLinkManifest
  name_bytes : ℕ

/-- The loop body over the dependencies. -/
def readDependency (strings : List UInt8) (collect_records : Bool) (state : NameState)
    (entry : ℕ × ℕ) : Except (Stop GuestLinkManifest) NameState :=
  let result := state.result
  let (tag, value) := entry
  match stringAt strings state.name_bytes (if tag = 1 then value else value &&& 0xffffffff) with
  | none => .error (.fail (result.failed "invalid_dependency_name"))
  | some (name, name_bytes) =>
    let result :=
      if collect_records ∧ tag ≠ 1 then
        if tag = 0x6100000f then
          { result with module_records := result.module_records ++ [⟨name, value⟩] }
        else { result with library_records := result.library_records ++ [⟨name, value⟩] }
      else result
    let result :=
      if tag = 1 then { result with needed := result.needed ++ [name] }
      else if tag = 0x6100000f then { result with modules := result.modules ++ [name] }
      else { result with libraries := result.libraries ++ [name] }
    .ok { result, name_bytes }

def readSymbol (symbols : List UInt8) (offset : ℕ) : Except (Stop GuestLinkManifest) GuestLinkSymbol := do
  let info ← fetch symbols (offset + 4)
  let address ← read symbols (offset + 8) 8
  let size ← read symbols (offset + 16) 8
  let section_index ← read symbols (offset + 6) 2
  pure { address, size, section_index, binding := info.toNat >>> 4, type := info.toNat &&& 15 }

/-- Whether a symbol is an import: undefined, and global or weak. -/
def GuestLinkSymbol.isImport (symbol : GuestLinkSymbol) : Bool :=
  !(symbol.section_index != 0 || (symbol.binding != 1 && symbol.binding != 2))

/-- The import of symbol `i` is counted and named. -/
def addImport (result : GuestLinkManifest) (symbol : GuestLinkSymbol) (name : List UInt8)
    (collect_records : Bool) (i : ℕ) : GuestLinkManifest :=
  let result := { result with imports := result.imports ++ [name] }
  let result :=
    if collect_records then
      { result with import_symbol_indices := result.import_symbol_indices ++ [i] }
    else result
  if symbol.type = 2 then { result with undefined_functions := result.undefined_functions + 1 }
  else if symbol.type = 1 then { result with undefined_objects := result.undefined_objects + 1 }
  else { result with undefined_other := result.undefined_other + 1 }

/-- The loop body over the symbols: symbol `i`. -/
def addSymbol (strings symbols : List UInt8) (collect_records : Bool) (state : NameState) (i : ℕ) :
    Except (Stop GuestLinkManifest) NameState := do
  let symbol ← readSymbol symbols (i * 24)
  let result :=
    if collect_records then
      { state.result with symbol_records := state.result.symbol_records ++ [symbol] }
    else state.result
  if !symbol.isImport then pure { state with result := result }
  else do
    failIf (result.imports.length ≥ 8192) (result.failed "import_budget_exceeded")
    let name_offset ← read symbols (i * 24) 4
    match stringAt strings state.name_bytes name_offset with
    | none => .error (.fail (result.failed "invalid_import_name"))
    | some (name, name_bytes) =>
      pure { result := addImport result symbol name collect_records i, name_bytes }

/-- The number of bytes that a relocation of a known type writes, and zero for the other types. -/
def knownWidth (type : ℕ) : ℕ :=
  if type = 8 then 8
  else if type = 7 then 8
  else if type = 1 ∨ type = 6 ∨ type = 2 ∨ type = 10 ∨ type = 11 then
    if type = 2 ∨ type = 10 ∨ type = 11 then 4 else 8
  else if type = 16 ∨ type = 17 ∨ type = 18 ∨ type = 36 then if type = 36 then 16 else 8
  else 0

/-- The counter of the kind of a relocation goes up. -/
def countRelocation (result : GuestLinkManifest) (type : ℕ) : GuestLinkManifest :=
  if type = 8 then { result with relative := result.relative + 1 }
  else if type = 7 then { result with jump_slots := result.jump_slots + 1 }
  else if type = 1 ∨ type = 6 ∨ type = 2 ∨ type = 10 ∨ type = 11 then
    { result with symbol_relocations := result.symbol_relocations + 1 }
  else if type = 16 ∨ type = 17 ∨ type = 18 ∨ type = 36 then
    { result with tls_relocations := result.tls_relocations + 1 }
  else if type ≠ 0 then { result with other_relocations := result.other_relocations + 1 }
  else result

/-- The loop body over a relocation table: entry `i`. -/
def addRelocation (bytes : List UInt8) (collect_records : Bool)
    (result : GuestLinkManifest) (i : ℕ) : Except (Stop GuestLinkManifest) GuestLinkManifest := do
  let offset := i * 24
  let address ← read bytes offset 8
  let info ← read bytes (offset + 8) 8
  let type := info % 2^32
  let symbol := info >>> 32
  failIf (symbol ≥ result.symbols ∨ (type = 8 ∧ symbol ≠ 0))
    (result.failed "invalid_relocation_symbol")
  let addend ← read bytes (offset + 16) 8
  let result :=
    if collect_records then
      { result with relocation_records :=
          result.relocation_records ++ [⟨address, addend, type, symbol⟩] }
    else result
  let result := countRelocation { result with relocations := result.relocations + 1 } type
  if knownWidth type = 0 then pure result
  else do
    failIf (mapped segments address (knownWidth type) = false)
      (result.failed "relocation_target_outside_mapped_segment")
    pure { result with target_checks := result.target_checks + 1 }

/-- The body of the loop over the two relocation tables. -/
def readRelocations (tags : List (ℕ × ℕ)) (dynlib : List UInt8)
    (collect_records : Bool) (result : GuestLinkManifest) (jump_table : Bool) :
    Except (Stop GuestLinkManifest) GuestLinkManifest :=
  let offset_tag := if jump_table then 0x61000029 else 0x6100002f
  let size_tag := if jump_table then 0x6100002d else 0x61000031
  match tags.lookup offset_tag, tags.lookup size_tag with
  | none, none => pure result
  | some offset, some size => do
    let bytes := table tags dynlib offset_tag size_tag
    failIf (offset > dynlib.length ∨ size > dynlib.length - offset ∨ bytes.length ≠ size ∨
        bytes.length % 24 ≠ 0 ∨ bytes.length / 24 > 262144 ∨
        (jump_table ∧ tags.lookup 0x6100002b ≠ some 7) ∨
        (¬ jump_table ∧ tags.lookup 0x61000033 ≠ some 24))
      (result.failed "invalid_relocation_table_layout")
    (List.range (bytes.length / 24)).foldlM (addRelocation segments bytes collect_records) result
  | _, _ => .error (.fail (result.failed "invalid_relocation_table_layout"))

/-- `InspectGuestLinkManifest`, from the linked tables on. -/
def readLinkTables (dynlib : List UInt8) (state : TagState)
    (collect_records : Bool) : Except (Stop GuestLinkManifest) GuestLinkManifest := do
  let result := state.result
  let strings := table state.tags dynlib 0x61000035 0x61000037
  let symbols := table state.tags dynlib 0x61000039 0x6100003f
  failIf (strings = [] ∨ strings.length > 4 * 1024 * 1024 ∨ symbols = [] ∨
      symbols.length % 24 ≠ 0 ∨ symbols.length / 24 > 131072 ∨
      state.tags.lookup 0x6100003b ≠ some 24)
    (result.failed "invalid_or_missing_string_symbol_tables")
  let named ← state.names.foldlM (readDependency strings collect_records)
    { result, name_bytes := 0 }
  let named := { named with result := { named.result with symbols := symbols.length / 24 } }
  let named ← (List.range (symbols.length / 24)).foldlM
    (addSymbol strings symbols collect_records) named
  let result ← [false, true].foldlM
    (readRelocations segments state.tags dynlib collect_records) named.result
  pure { result with valid := true }

def inspectGuestLinkManifest (collect_records : Bool) :
    Except (Stop GuestLinkManifest) GuestLinkManifest := do
  let result : GuestLinkManifest := {}
  let layout ← call (planGuestPayloadFile file)
  failIf (layout.image.plan.valid = false ∨ layout.image.error ≠ "")
    (result.failed "payload_layout_invalid")
  let bytes := file.take (min file.length guestPrefixLimit)
  let header ← call (inspectGuestPrefix bytes file.length)
  failIf (header.orbis_identity = false) (result.failed "requires_orbis_dynamic_profile")
  let phoff ← read bytes (header.elf_offset + 32) 8
  let state ← (List.range header.program_headers).foldlM (fun state i =>
      findDynamic file bytes layout (header.elf_offset + phoff + i * 56) state)
    { result, dynamic := [], dynlib := [], have_dynamic := false, have_dynlib := false }
  failIf (state.have_dynamic = false ∨ state.have_dynlib = false ∨ state.dynamic.length % 16 ≠ 0)
    (state.result.failed "missing_or_invalid_orbis_dynamic_tables")
  let dynlib := state.dynlib
  let state ← (List.range (state.dynamic.length / 16)).foldlM (readTag state.dynamic)
    { result := state.result, tags := [], names := [], terminated := false }
  failIf (state.terminated = false) (state.result.failed "unterminated_dynamic_table")
  readLinkTables layout.image.plan.segments dynlib state collect_records

end ShadPS4.Guest
