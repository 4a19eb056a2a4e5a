import ShadPS4.Lib.Layout

/-!
# `PSF`

The parameter files of games and of save data. A file is a header, an index of entries, a table of keys and a table
of values; `Encode` lays it out and `Open` reads it back.
-/

namespace ShadPS4

def ascii (s : String) : List UInt8 := s.toList.map fun c => UInt8.ofNat c.toNat

abbrev psfMagic : ℕ := 0x00505346

abbrev psfVersion11 : ℕ := 0x00000101

abbrev psfVersion10 : ℕ := 0x00000100

/-- The size of a `PSFHeader`. -/
abbrev psfHeaderSize : ℕ := 0x14

/-- The size of a `PSFRawEntry`. -/
abbrev psfRawEntrySize : ℕ := 0x10

/-- A word of four bytes from the other end; `u32_be` is stored so. -/
def byteswap32 (value : ℕ) : ℕ := leRead (leBytes value 4).reverse 0 4

structure PSFHeader where
  magic : ℕ
  version : ℕ
  key_table_offset : ℕ
  data_table_offset : ℕ
  index_table_entries : ℕ

def PSFHeader.bytes (header : PSFHeader) : List UInt8 :=
  leBytes (byteswap32 header.magic) 4 ++ (leBytes header.version 4 ++
    (leBytes header.key_table_offset 4 ++ (leBytes header.data_table_offset 4 ++
      leBytes header.index_table_entries 4)))

def PSFHeader.read {R : Type} (bytes : List UInt8) : Except (Stop R) PSFHeader := do
  let magic ← ShadPS4.read bytes 0 4
  let version ← ShadPS4.read bytes 4 4
  let key_table_offset ← ShadPS4.read bytes 8 4
  let data_table_offset ← ShadPS4.read bytes 12 4
  let index_table_entries ← ShadPS4.read bytes 16 4
  pure {
    magic := byteswap32 magic
    version, key_table_offset, data_table_offset, index_table_entries }

structure PSFRawEntry where
  key_offset : ℕ
  param_fmt : ℕ
  param_len : ℕ := 0
  param_max_len : ℕ
  data_offset : ℕ := 0

def PSFRawEntry.bytes (raw : PSFRawEntry) : List UInt8 :=
  leBytes raw.key_offset 2 ++ (leBytes raw.param_fmt 2 ++ (leBytes raw.param_len 4 ++
    (leBytes raw.param_max_len 4 ++ leBytes raw.data_offset 4)))

def PSFRawEntry.read {R : Type} (bytes : List UInt8) (offset : ℕ) : Except (Stop R) PSFRawEntry := do
  let key_offset ← ShadPS4.read bytes offset 2
  let param_fmt ← ShadPS4.read bytes (offset + 2) 2
  let param_len ← ShadPS4.read bytes (offset + 4) 4
  let param_max_len ← ShadPS4.read bytes (offset + 8) 4
  let data_offset ← ShadPS4.read bytes (offset + 12) 4
  pure { key_offset, param_fmt, param_len, param_max_len, data_offset }

inductive PSFEntryFmt
  | binary
  | text
  | integer
deriving DecidableEq

def PSFEntryFmt.raw : PSFEntryFmt → ℕ
  | .binary => 0x0004
  | .text => 0x0204
  | .integer => 0x0404

def PSFEntryFmt.ofRaw (raw : ℕ) : Option PSFEntryFmt :=
  if raw = 0x0004 then some .binary
  else if raw = 0x0204 then some .text
  else if raw = 0x0404 then some .integer
  else none

structure PSFEntry where
  key : List UInt8
  param_fmt : PSFEntryFmt
  max_len : ℕ

inductive PSFValue
  | binary (value : List UInt8)
  | text (value : List UInt8)
  | integer (value : BitVec 32)

def PSFValue.fmt : PSFValue → PSFEntryFmt
  | .binary _ => .binary
  | .text _ => .text
  | .integer _ => .integer

/-- The bytes of a value; a string has its terminator. -/
def PSFValue.bytes : PSFValue → List UInt8
  | .binary value => value
  | .text value => value ++ [0]
  | .integer value => leBytes value.toNat 4

def psfKnownMaxSizes : List (List UInt8 × ℕ) :=
  [(ascii "ACCOUNT_ID", 8), (ascii "CATEGORY", 4), (ascii "DETAIL", 1024), (ascii "FORMAT", 4),
    (ascii "MAINTITLE", 128), (ascii "PARAMS", 1024), (ascii "SAVEDATA_BLOCKS", 8),
    (ascii "SAVEDATA_DIRECTORY", 32), (ascii "SUBTITLE", 128), (ascii "TITLE_ID", 12)]

def getMaxSize (key : List UInt8) (default_value : ℕ) : ℕ :=
  ((psfKnownMaxSizes.find? (·.1 = key)).map (·.2)).getD default_value

/-- The `max_len` that is stored with a value. -/
def PSFValue.maxLen (key : List UInt8) : PSFValue → ℕ
  | .binary value => getMaxSize key (value.length % 2^32)
  | .text value => getMaxSize key ((value.length + 1) % 2^32)
  | .integer _ => 4

structure PSF where
  entry_list : List PSFEntry := []
  map_binaries : ℕ → Option (List UInt8) := fun _ => none
  map_strings : ℕ → Option (List UInt8) := fun _ => none
  map_integers : ℕ → Option (BitVec 32) := fun _ => none

namespace PSF

variable (psf : PSF)

/-- The value of an entry, in the map of its format. -/
def value (i : ℕ) : PSFEntryFmt → Option PSFValue
  | .binary => (psf.map_binaries i).map .binary
  | .text => (psf.map_strings i).map .text
  | .integer => (psf.map_integers i).map .integer

/-- A value is put in the map of its format. -/
def store (i : ℕ) : PSFValue → PSF
  | .binary value => { psf with map_binaries := Function.update psf.map_binaries i (some value) }
  | .text value => { psf with map_strings := Function.update psf.map_strings i (some value) }
  | .integer value => { psf with map_integers := Function.update psf.map_integers i (some value) }

def push (entry : PSFEntry) (value : PSFValue) : PSF :=
  { psf with entry_list := psf.entry_list ++ [entry] }.store psf.entry_list.length value

def findEntry (key : List UInt8) : ℕ := psf.entry_list.findIdx (·.key = key)

/-- What the three calls have in common. -/
def add (key : List UInt8) (value : PSFValue) (update : Bool) : Option PSF :=
  let index := psf.findEntry key
  match psf.entry_list[index]? with
  | some it =>
    if ¬ update then some psf
    else if it.param_fmt ≠ value.fmt then none
    else if psf.value index value.fmt = none then none
    else
      some ({ psf with
        entry_list := psf.entry_list.set index { it with max_len := value.maxLen key } }.store
          index value)
  | none => some (psf.push { key, param_fmt := value.fmt, max_len := value.maxLen key } value)

/-- `AddBinary`. The overload for a number of 64 bits adds its eight bytes. -/
def addBinary (key value : List UInt8) (update : Bool) : Option PSF := psf.add key (.binary value) update

def addString (key value : List UInt8) (update : Bool) : Option PSF := psf.add key (.text value) update

def addInteger (key : List UInt8) (value : BitVec 32) (update : Bool) : Option PSF :=
  psf.add key (.integer value) update

/-- The first loop: the keys, and the index without the values. -/
def encodeKeys (size : ℕ) : List PSFEntry → List PSFRawEntry × List UInt8
  | [] => ([], [])
  | entry :: rest =>
    let (raws, keys) := encodeKeys (size + (entry.key.length + 1)) rest
    ({ key_offset := size, param_fmt := entry.param_fmt.raw, param_max_len := entry.max_len } :: raws,
      (entry.key ++ [0]) ++ keys)

def toS32 (word : ℕ) : ℤ := (BitVec.ofNat 32 word).toInt

/-- The zeros before a value that starts at a multiple of four. -/
def alignment (size : ℕ) : List UInt8 :=
  if size % 4 ≠ 0 then List.replicate (4 - size % 4) 0 else []

/-- The second loop, from the `i`-th entry on, with `size` bytes in the buffer. -/
def encodeData (data_table_offset : ℕ) : ℕ → ℕ → List (PSFEntry × PSFRawEntry) →
    Option (List PSFRawEntry × List UInt8)
  | _, _, [] => some ([], [])
  | i, size, (entry, raw) :: rest => do
    let aligned := alignment size
    let size := size + aligned.length
    let value ← psf.value i entry.param_fmt
    let additional_padding := toS32 raw.param_max_len - toS32 value.bytes.length
    if additional_padding < 0 ∨ 2^31 ≤ additional_padding then none
    else
      let chunk := value.bytes ++ List.replicate additional_padding.toNat 0
      let (raws, data) ← encodeData data_table_offset (i + 1) (size + chunk.length) rest
      some ({ raw with param_len := value.bytes.length, data_offset := size - data_table_offset } :: raws,
        aligned ++ (chunk ++ data))

def encode : Option (List UInt8) := do
  let key_table_offset := psfHeaderSize + psfRawEntrySize * psf.entry_list.length
  let (raws, keys) := encodeKeys 0 psf.entry_list
  let data_table_offset := key_table_offset + keys.length
  let (raws, data) ← psf.encodeData data_table_offset 0 data_table_offset (psf.entry_list.zip raws)
  let header : PSFHeader := {
    magic := psfMagic
    version := psfVersion11
    key_table_offset, data_table_offset
    index_table_entries := psf.entry_list.length }
  some (header.bytes ++ (raws.flatMap PSFRawEntry.bytes ++ (keys ++ data)))

variable (psf_buffer : List UInt8)

def readValue (data param_len : ℕ) : PSFEntryFmt → Except (Stop (Bool × PSF)) PSFValue
  | .binary => do
    let value ← readBlock psf_buffer data param_len
    pure (.binary value)
  | .text => do
    let c_str ← readString psf_buffer data
    pure (.text c_str)
  | .integer => do
    -- The length of a number is asserted.
    if param_len ≠ 4 then .error .fault
    let integer ← read psf_buffer data 4
    pure (.integer (BitVec.ofNat 32 integer))

/-- A turn of the loop of `Open`. -/
def openEntry (header : PSFHeader) (psf : PSF) (i : ℕ) :
    Except (Stop (Bool × PSF)) PSF := do
  let raw_entry ← PSFRawEntry.read psf_buffer (psfHeaderSize + i * psfRawEntrySize)
  let key ← readString psf_buffer (header.key_table_offset + raw_entry.key_offset)
  match PSFEntryFmt.ofRaw raw_entry.param_fmt with
  | none => .error .fault
  | some param_fmt =>
    let value ← readValue psf_buffer (header.data_table_offset + raw_entry.data_offset)
      raw_entry.param_len param_fmt
    pure (psf.push { key, param_fmt, max_len := raw_entry.param_max_len } value)

def openBuffer : Except (Stop (Bool × PSF)) (Bool × PSF) := do
  let header ← PSFHeader.read psf_buffer
  failIf (header.magic ≠ psfMagic) (false, {})
  failIf (header.version ≠ psfVersion11 ∧ header.version ≠ psfVersion10) (false, {})
  let psf ← (List.range header.index_table_entries).foldlM (openEntry psf_buffer header) {}
  pure (true, psf)

/-- `GetString`: nothing without the key. The format of the entry is asserted. -/
def getString (key : List UInt8) : Option (Option (List UInt8)) :=
  let index := psf.findEntry key
  match psf.entry_list[index]? with
  | none => some none
  | some it =>
    if it.param_fmt ≠ .text then none
    else (psf.map_strings index).map some

end PSF

end ShadPS4
