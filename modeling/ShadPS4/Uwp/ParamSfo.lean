import ShadPS4.FileFormat.PsfSpec

/-!
# `ParseParamSfo`

The bridge reads the title of a game with a parser of its own, which checks every offset before it reads there. It
walks the index once and keeps the texts of three keys.
-/

namespace ShadPS4

structure GameMetadata where
  valid : Bool := false
  title : List UInt8 := []
  title_id : List UInt8 := []
  app_version : List UInt8 := []
  error : String := ""

abbrev Parse : Type → Type := Except (Stop GameMetadata)

def RangeIsValid (offset size total : ℕ) : Prop := offset ≤ total ∧ size ≤ total - offset

instance (offset size total : ℕ) : Decidable (RangeIsValid offset size total) :=
  inferInstanceAs (Decidable (_ ∧ _))

/-- `memchr` for a zero in `maximum_size` bytes, and the string before it. -/
def readUntilZero (bytes : List UInt8) (offset : ℕ) : ℕ → Parse (Option (List UInt8))
  | 0 => pure none
  | maximum_size + 1 => do
    let byte ← fetch bytes offset
    if byte = 0 then pure (some [])
    else
      let rest ← readUntilZero bytes (offset + 1) maximum_size
      pure (rest.map (byte :: ·))

variable (bytes : List UInt8)

def readNullTerminatedString (offset maximum_size : ℕ) : Parse (Option (List UInt8)) :=
  if ¬ RangeIsValid offset maximum_size bytes.length then pure none
  else readUntilZero bytes offset maximum_size

def orFail (metadata : GameMetadata) (error : String) : Option (List UInt8) → Parse (List UInt8)
  | some value => pure value
  | none => .error (.fail { metadata with error })

/-- A text is kept under its key. -/
def GameMetadata.assign (metadata : GameMetadata) (key value : List UInt8) : GameMetadata :=
  if key = ascii "TITLE" then { metadata with title := value }
  else if key = ascii "TITLE_ID" then { metadata with title_id := value }
  else if key = ascii "APP_VER" then { metadata with app_version := value }
  else metadata

def parseValue (data_table_offset : ℕ) (metadata : GameMetadata) (key : List UInt8)
    (entry : PSFRawEntry) : Parse GameMetadata := do
  let value_offset := data_table_offset + entry.data_offset
  let value_size := entry.param_len
  failIf (value_offset < data_table_offset ∨ value_size = 0 ∨
      ¬ RangeIsValid value_offset value_size bytes.length)
    { metadata with error := "invalid_value_range" }
  let value ← readNullTerminatedString bytes value_offset value_size
  let value ← orFail metadata "unterminated_value" value
  pure (metadata.assign key value)

/-- A turn of the loop of `ParseParamSfo`. -/
def parseEntry (key_table_offset data_table_offset : ℕ) (metadata : GameMetadata)
    (index : ℕ) : Parse GameMetadata := do
  let entry ← PSFRawEntry.read bytes (psfHeaderSize + index * psfRawEntrySize)
  let key_offset := key_table_offset + entry.key_offset
  failIf (key_offset < key_table_offset ∨ key_offset ≥ data_table_offset)
    { metadata with error := "invalid_key_offset" }
  let key ← readNullTerminatedString bytes key_offset (data_table_offset - key_offset)
  let key ← orFail metadata "unterminated_key" key
  if entry.param_fmt ≠ PSFEntryFmt.text.raw then pure metadata
  else parseValue bytes data_table_offset metadata key entry

/-- The end of `ParseParamSfo`. -/
def finishMetadata (metadata : GameMetadata) : Parse GameMetadata := do
  failIf (metadata.title = [] ∨ metadata.title_id = [])
    { metadata with error := "missing_required_metadata" }
  let app_version := if metadata.app_version = [] then ascii "unknown" else metadata.app_version
  pure { metadata with app_version, valid := true }

def maximumEntries : ℕ := 4096

def parseParamSfoBody : Parse GameMetadata := do
  failIf (bytes.length < psfHeaderSize) { error := "truncated_header" }
  let header ← PSFHeader.read bytes
  failIf (header.magic ≠ psfMagic) { error := "invalid_magic" }
  failIf (header.version ≠ psfVersion10 ∧ header.version ≠ psfVersion11)
    { error := "unsupported_version" }
  let entry_count := header.index_table_entries
  failIf (entry_count > maximumEntries ∨
      entry_count > (uint64Max - psfHeaderSize) / psfRawEntrySize)
    { error := "invalid_entry_count" }
  let index_size := entry_count * psfRawEntrySize
  failIf (¬ RangeIsValid psfHeaderSize index_size bytes.length) { error := "truncated_index" }
  let key_table_offset := header.key_table_offset
  let data_table_offset := header.data_table_offset
  let minimum_key_table_offset := psfHeaderSize + index_size
  failIf (key_table_offset < minimum_key_table_offset ∨ key_table_offset > bytes.length ∨
      data_table_offset > bytes.length ∨ key_table_offset > data_table_offset)
    { error := "invalid_table_offset" }
  let metadata ← (List.range entry_count).foldlM
    (parseEntry bytes key_table_offset data_table_offset) {}
  finishMetadata metadata

/-- `ParseParamSfo`: nothing if it reads outside the bytes. -/
def parseParamSfo : Option GameMetadata := returns (parseParamSfoBody bytes)

end ShadPS4
