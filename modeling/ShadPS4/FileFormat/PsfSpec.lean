import ShadPS4.FileFormat.Psf

/-!
# What an encoded file holds

`Encoded` says what lies where in the bytes that `Encode` gives: the header, each entry of the index, each
key and each value. Whoever reads the file needs nothing else of `Encode`.
-/

namespace ShadPS4

open List

variable {R : Type} {bytes : List UInt8} {offset : ℕ}

theorem PSFHeader.read_eq {header : PSFHeader} (h : At bytes 0 header.bytes) : PSFHeader.read (R := R) bytes = .ok {
      magic := byteswap32 (byteswap32 header.magic % 2^32)
      version := header.version % 2^32
      key_table_offset := header.key_table_offset % 2^32
      data_table_offset := header.data_table_offset % 2^32
      index_table_entries := header.index_table_entries % 2^32 } := by
  have h4 := h.right
  have h8 := h4.right
  have h₁₂ := h8.right
  have h₁₆ := h₁₂.right
  unfold PSFHeader.read
  rw [h.left.read (by decide), (show At bytes 4 _ from h4).left.read (by decide),
    (show At bytes 8 _ from h8).left.read (by decide), (show At bytes 12 _ from h₁₂).left.read (by decide),
    (show At bytes 16 _ from h₁₆).read (by decide)]
  rfl

theorem PSFRawEntry.read_eq {raw : PSFRawEntry} (h : At bytes offset raw.bytes) :
    PSFRawEntry.read (R := R) bytes offset = .ok {
      key_offset := raw.key_offset % 2^16
      param_fmt := raw.param_fmt % 2^16
      param_len := raw.param_len % 2^32
      param_max_len := raw.param_max_len % 2^32
      data_offset := raw.data_offset % 2^32 } := by
  have h2 := h.right
  have h4 := h2.right
  have h8 := h4.right
  have h₁₂ := h8.right
  rw [length_leBytes] at h2 h4 h8 h₁₂
  unfold PSFRawEntry.read
  rw [h.left.read (by decide), h2.left.read (by decide),
    (show At bytes (offset + 4) _ from h4).left.read (by decide),
    (show At bytes (offset + 8) _ from h8).left.read (by decide),
    (show At bytes (offset + 12) _ from h₁₂).read (by decide)]
  rfl

theorem PSFRawEntry.length_bytes (raw : PSFRawEntry) : raw.bytes.length = psfRawEntrySize := by
  unfold PSFRawEntry.bytes
  simp only [length_append, length_leBytes]

theorem PSFRawEntry.length_flatMap_bytes (raws : List PSFRawEntry) :
    (raws.flatMap PSFRawEntry.bytes).length = psfRawEntrySize * raws.length := by
  rw [length_flatMap, map_congr_left (fun raw _ => raw.length_bytes), map_const', sum_replicate_nat, Nat.mul_comm]

theorem PSFHeader.length_bytes (header : PSFHeader) : header.bytes.length = psfHeaderSize := by
  unfold PSFHeader.bytes
  simp only [length_append, length_leBytes]

theorem PSFEntryFmt.raw_lt (fmt : PSFEntryFmt) : fmt.raw < 2^16 := by
  cases fmt <;> decide

theorem PSFEntryFmt.ofRaw_raw (fmt : PSFEntryFmt) : ofRaw fmt.raw = some fmt := by
  cases fmt <;> rfl

namespace PSF

variable {psf : PSF}

/-! ## The two loops -/

def keysSize (entries : List PSFEntry) : ℕ := (entries.map fun entry => entry.key.length + 1).sum

/-- What the first loop says of an entry, if `size` bytes of keys come before the `keys`. -/
def KeyPlaced (size : ℕ) (keys : List UInt8) (entry : PSFEntry) (raw : PSFRawEntry) : Prop :=
  raw.param_fmt = entry.param_fmt.raw ∧ raw.param_max_len = entry.max_len ∧
    ∃ o, raw.key_offset = size + o ∧ At keys o (entry.key ++ [0]) ∧
      o + entry.key.length < keys.length

theorem encodeKeys_spec {entries : List PSFEntry} {size : ℕ} {raws : List PSFRawEntry} {keys : List UInt8}
    (h : encodeKeys size entries = (raws, keys)) :
    raws.length = entries.length ∧ keys.length = keysSize entries ∧ ∀ (j : ℕ) entry, entries[j]? = some entry →
      ∃ raw, raws[j]? = some raw ∧ KeyPlaced size keys entry raw := by
  induction entries generalizing size raws keys with
  | nil =>
    cases h
    exact ⟨rfl, rfl, nofun⟩
  | cons entry rest ih =>
    obtain ⟨rest_raws, rest_keys, hrest⟩ :
        ∃ raws keys, encodeKeys (size + (entry.key.length + 1)) rest = (raws, keys) := ⟨_, _, rfl⟩
    unfold encodeKeys at h
    rw [hrest] at h
    cases h
    obtain ⟨hraws, hlength, hplaced⟩ := ih hrest
    have hfront : (entry.key ++ [0]).length = entry.key.length + 1 := length_append
    refine ⟨by rw [length_cons, length_cons, hraws], ?_, ?_⟩
    · rw [length_append, hfront, hlength]
      rfl
    · intro j entry' hj
      cases j with
      | zero =>
        cases hj
        refine ⟨_, rfl, rfl, rfl, 0, rfl, prefix_append _ _, ?_⟩
        rw [length_append, hfront]
        omega
      | succ j =>
        -- The other keys come behind this one.
        obtain ⟨raw, hraw, hfmt, hmax, o, ho, hat, hin⟩ := hplaced j entry' hj
        have hat' := hat.append_left (entry.key ++ [0])
        rw [hfront] at hat'
        refine ⟨raw, hraw, hfmt, hmax, entry.key.length + 1 + o, by omega, hat', ?_⟩
        rw [length_append, hfront]
        omega

/-- What the second loop says of the `i`-th entry, if `size` bytes come before the `data`. -/
def DataPlaced (psf : PSF) (data_table_offset size : ℕ) (data : List UInt8) (i : ℕ) (entry : PSFEntry)
    (raw raw' : PSFRawEntry) : Prop :=
  raw'.key_offset = raw.key_offset ∧ raw'.param_fmt = raw.param_fmt ∧
    raw'.param_max_len = raw.param_max_len ∧
      ∃ value, psf.value i entry.param_fmt = some value ∧ raw'.param_len = value.bytes.length ∧
        0 ≤ toS32 raw.param_max_len - toS32 value.bytes.length ∧
          ∃ o, raw'.data_offset = size - data_table_offset + o ∧ At data o value.bytes ∧
            o + value.bytes.length ≤ data.length

theorem encodeData_spec
     (hsize : data_table_offset ≤ size) (h : psf.encodeData data_table_offset i size pairs = some (raws, data)) :
    raws.length = pairs.length ∧ ∀ j entry raw, pairs[j]? = some (entry, raw) → ∃ raw', raws[j]? = some raw' ∧
        psf.DataPlaced data_table_offset size data (i + j) entry raw raw' := by
  induction pairs generalizing i size raws data with
  | nil =>
    cases h
    exact ⟨rfl, nofun⟩
  | cons pair rest ih =>
    obtain ⟨entry, raw⟩ := pair
    obtain ⟨value, hvalue, h⟩ := Option.bind_eq_some_iff.mp h
    dsimp only at h
    split_ifs at h with hpadding
    obtain ⟨⟨rest_raws, rest_data⟩, hrest, h⟩ := Option.bind_eq_some_iff.mp h
    cases h
    obtain ⟨hlength, hplaced⟩ := ih (by omega) hrest
    refine ⟨by rw [length_cons, length_cons, hlength], fun j entry' raw' hj => ?_⟩
    cases j with
    | zero =>
      cases hj
      refine ⟨_, rfl, rfl, rfl, rfl, value, hvalue, rfl, by omega, (alignment size).length, by
        dsimp only; omega, ?_, ?_⟩
      · rw [append_assoc]
        exact At.intro _ _ _
      · simp only [length_append]
        omega
    | succ j =>
      obtain ⟨raw'', hraw'', hoffset, hfmt, hmax, value', hvalue', hlen', hpad', o, ho, hat, hin⟩ :=
        hplaced j entry' raw' hj
      refine ⟨raw'', hraw'', hoffset, hfmt, hmax, value', ?_, hlen', hpad', ?_⟩
      · rwa [Nat.add_assoc, Nat.add_comm 1 j] at hvalue'
      · have hat' := (hat.append_left (value.bytes ++ replicate
          (toS32 raw.param_max_len - toS32 value.bytes.length).toNat 0)).append_left (alignment size)
        refine ⟨_, ?_, hat', ?_⟩
        · omega
        · simp only [length_append] at hin ⊢
          omega

/-! ## The encoding -/

/-- `key_table_offset` of the encoding. -/
def keyTable (psf : PSF) : ℕ := psfHeaderSize + psfRawEntrySize * psf.entry_list.length

/-- `data_table_offset` of the encoding. -/
def dataTable (psf : PSF) : ℕ := psf.keyTable + keysSize psf.entry_list

theorem encode_eq_some {bytes : List UInt8} (h : psf.encode = some bytes) :
    ∃ raws keys raws' data, encodeKeys 0 psf.entry_list = (raws, keys) ∧
      psf.encodeData psf.dataTable 0 psf.dataTable (psf.entry_list.zip raws) = some (raws', data) ∧ PSFHeader.bytes {
          magic := psfMagic
          version := psfVersion11
          key_table_offset := psf.keyTable
          data_table_offset := psf.dataTable
          index_table_entries := psf.entry_list.length } ++
            (raws'.flatMap PSFRawEntry.bytes ++ (keys ++ data)) = bytes := by
  obtain ⟨raws, keys, hraws⟩ : ∃ raws keys, encodeKeys 0 psf.entry_list = (raws, keys) := ⟨_, _, rfl⟩
  have htable : psfHeaderSize + psfRawEntrySize * psf.entry_list.length + keys.length = psf.dataTable := by
    rw [(encodeKeys_spec hraws).2.1]
    rfl
  unfold encode at h
  rw [hraws] at h
  dsimp only at h
  rw [htable] at h
  obtain ⟨⟨raws', data⟩, hdata, h⟩ := Option.bind_eq_some_iff.mp h
  exact ⟨raws, keys, raws', data, hraws, hdata, Option.some.inj h⟩

/-- What the encoding says of the `i`-th entry: its place in the index, its key and its value. -/
structure EncodedEntry (psf : PSF) (bytes : List UInt8) (i : ℕ) (entry : PSFEntry) (raw : PSFRawEntry)
    (value : PSFValue) : Prop where
  raw_read : ∀ {R : Type}, PSFRawEntry.read (R := R) bytes (psfHeaderSize + i * psfRawEntrySize) = .ok raw
  param_fmt : raw.param_fmt = entry.param_fmt.raw
  param_max_len : raw.param_max_len = entry.max_len % 2^32
  param_len : raw.param_len = value.bytes.length
  key : At bytes (psf.keyTable + raw.key_offset) (entry.key ++ [0])
  key_in : psf.keyTable + raw.key_offset + entry.key.length < psf.dataTable
  stored : psf.value i entry.param_fmt = some value
  data : At bytes (psf.dataTable + raw.data_offset) value.bytes
  data_in : psf.dataTable + raw.data_offset + value.bytes.length ≤ bytes.length

structure Encoded (psf : PSF) (bytes : List UInt8) : Prop where
  header : ∀ {R : Type}, PSFHeader.read (R := R) bytes = .ok {
    magic := psfMagic
    version := psfVersion11
    key_table_offset := psf.keyTable
    data_table_offset := psf.dataTable
    index_table_entries := psf.entry_list.length }
  tables : psf.dataTable ≤ bytes.length
  entry : ∀ i entry, psf.entry_list[i]? = some entry → ∃ raw value, psf.EncodedEntry bytes i entry raw value

theorem encode_spec {bytes : List UInt8} (h : psf.encode = some bytes) (hsize : bytes.length < 2^32)
    (hkeys : keysSize psf.entry_list < 2^16) : psf.Encoded bytes := by
  obtain ⟨raws, keys, raws', data, hraws, hdata, hbytes⟩ := encode_eq_some h
  obtain ⟨hkeys_raws, hkeys_length, hkey_placed⟩ := encodeKeys_spec hraws
  obtain ⟨hraws_length, hplaced⟩ := encodeData_spec (Nat.le_refl _) hdata
  have hflat : (raws'.flatMap PSFRawEntry.bytes).length = psfRawEntrySize * psf.entry_list.length := by
    rw [PSFRawEntry.length_flatMap_bytes, hraws_length, length_zip, hkeys_raws, Nat.min_self]
  have hkeyTable : psfHeaderSize + psfRawEntrySize * psf.entry_list.length = psf.keyTable := rfl
  have hdataTable : psf.dataTable = psf.keyTable + keysSize psf.entry_list := rfl
  -- Where the four parts of the file begin.
  have hall := At.of_eq hbytes
  have hindex := hall.right
  have hkeyTable_at := hindex.right
  have hdata_at := hkeyTable_at.right
  rw [PSFHeader.length_bytes, Nat.zero_add] at hindex hkeyTable_at hdata_at
  rw [hflat, hkeyTable] at hkeyTable_at hdata_at
  rw [hkeys_length] at hdata_at
  have hlength := congrArg length hbytes
  simp only [length_append, PSFHeader.length_bytes, hflat] at hlength
  have htables : psf.dataTable ≤ bytes.length := by omega
  refine ⟨?_, htables, fun i entry hentry => ?_⟩
  · intro R
    rw [PSFHeader.read_eq hall.left]
    rw [Except.ok.injEq, PSFHeader.mk.injEq]
    have hkeyTable_eq : psf.keyTable = 20 + 16 * psf.entry_list.length := rfl
    have hmagic : byteswap32 (byteswap32 psfMagic % 2^32) = psfMagic := by decide
    have hkeyTable_lt : psf.keyTable < 2^32 := by omega
    have hdataTable_lt : psf.dataTable < 2^32 := by omega
    have hcount_lt : psf.entry_list.length < 2^32 := by omega
    exact ⟨hmagic, rfl, Nat.mod_eq_of_lt hkeyTable_lt, Nat.mod_eq_of_lt hdataTable_lt, Nat.mod_eq_of_lt hcount_lt⟩
  · obtain ⟨raw, hraw, hfmt, hmax, o, ho, hkey_in, hkey_le⟩ := hkey_placed i entry hentry
    obtain ⟨raw', hraw', hoffset, hfmt', hmax', value, hvalue, hlen, -, o', ho', hdata_in, hdata_le⟩ :=
      hplaced i entry raw (getElem?_zip_eq_some.mpr ⟨hentry, hraw⟩)
    rw [Nat.zero_add] at hvalue ho
    rw [Nat.sub_self, Nat.zero_add] at ho'
    have hraw_at := hindex.left.trans (At.flatMap PSFRawEntry.length_bytes hraw')
    have hkeyTable_at' := hkeyTable_at.left.trans hkey_in
    have hdata_at' := hdata_at.trans hdata_in
    have hkey : raw'.key_offset % 2^16 = o := by
      rw [hoffset, ho, Nat.mod_eq_of_lt (by omega)]
    have hvalue_offset : raw'.data_offset % 2^32 = o' := by
      rw [ho', Nat.mod_eq_of_lt (by omega)]
    have hvalue_length : raw'.param_len % 2^32 = value.bytes.length := by
      rw [hlen, Nat.mod_eq_of_lt (by omega)]
    rw [Nat.mul_comm] at hraw_at
    refine ⟨_, value, PSFRawEntry.read_eq hraw_at, ?_, ?_, hvalue_length, ?_, ?_, hvalue, ?_, ?_⟩
    · dsimp only
      rw [hfmt', hfmt]
      exact Nat.mod_eq_of_lt entry.param_fmt.raw_lt
    · dsimp only
      rw [hmax', hmax]
    · dsimp only
      rwa [hkey]
    · dsimp only
      omega
    · dsimp only
      rwa [hvalue_offset, hdataTable]
    · dsimp only
      omega

end PSF

end ShadPS4
