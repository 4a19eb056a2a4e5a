import ShadPS4.Uwp.ParamSfoSpec

/-!
# What `Encode` writes is accepted

Every check of `ParseParamSfo` passes on an encoded file: the tables lie one behind the other, each key ends in the
key table, and each text ends in its value.
-/

namespace ShadPS4

variable {bytes : List UInt8} {psf : PSF}

/-- What the `k`-th entry of an object does to the metadata. -/
def afterEntry (psf : PSF) (metadata : GameMetadata) (k : ℕ) : GameMetadata :=
  match psf.entry_list[k]? with
  | none => metadata
  | some entry =>
    match psf.value k entry.param_fmt with
    | some (.text text) => metadata.assign (cString entry.key) (cString text)
    | _ => metadata

/-- The metadata after the first `k` entries of an object. -/
def metadataUpTo (psf : PSF) : ℕ → GameMetadata
  | 0 => {}
  | k + 1 => afterEntry psf (metadataUpTo psf k) k

theorem parseEntry_encoded (h : psf.Encoded bytes) (metadata : GameMetadata) (hk : k < psf.entry_list.length) :
    parseEntry bytes psf.keyTable psf.dataTable metadata k = .ok (afterEntry psf metadata k) := by
  have hentry : psf.entry_list[k]? = some psf.entry_list[k] := List.getElem?_eq_getElem hk
  generalize psf.entry_list[k] = entry at hentry
  obtain ⟨raw, value, he⟩ := h.entry k entry hentry
  have hkey_in := he.key_in
  have hdata_in := he.data_in
  have hkey_length : (entry.key ++ [0]).length ≤ psf.dataTable - (psf.keyTable + raw.key_offset) := by
    rw [List.length_append, List.length_singleton]
    omega
  have hkey := he.key.readNullTerminatedString (List.mem_append_right _ (List.mem_singleton_self 0))
    hkey_length (by omega)
  rw [cString_concat] at hkey
  have hfmt := PSF.fmt_of_value he.stored
  unfold parseEntry
  rw [he.raw_read]
  simp only [bind, Except.bind]
  rw [failIf_neg (by omega), hkey]
  show (if raw.param_fmt ≠ PSFEntryFmt.text.raw then _ else _) = _
  unfold afterEntry
  rw [hentry]
  dsimp only
  rw [he.stored, he.param_fmt]
  cases value with
  | text text =>
    have hlength := he.param_len
    have hbytes : (PSFValue.text text).bytes = text ++ [0] := rfl
    have htext : entry.param_fmt = .text := hfmt.symm
    have hvalue := he.data.readNullTerminatedString
      (hbytes ▸ List.mem_append_right _ (List.mem_singleton_self 0)) (Nat.le_refl _) hdata_in
    rw [← hlength, hbytes, cString_concat] at hvalue
    have hpos : 0 < raw.param_len := by
      rw [hlength, hbytes, List.length_append, List.length_singleton]
      omega
    rw [htext, if_neg (not_not_intro rfl)]
    unfold parseValue RangeIsValid
    simp only [bind, Except.bind]
    rw [failIf_neg (by omega), hvalue]
    rfl
  | binary value | integer value =>
    rw [if_pos (by rw [← hfmt]; simp [PSFValue.fmt, PSFEntryFmt.raw])]
    rfl

theorem text_metadataUpTo (hkeys : (psf.entry_list.map fun entry => cString entry.key).Nodup)
     (hentry : psf.entry_list[i]? = some entry)
    (hvalue : psf.value i entry.param_fmt = some (.text text)) (hname : cString entry.key ∈ metadataKeys)
    (hk : i < k) : (metadataUpTo psf k).text (cString entry.key) = cString text := by
  induction k, hk using Nat.le_induction with
  | base =>
    unfold metadataUpTo afterEntry
    rw [hentry]
    dsimp only
    rw [hvalue]
    exact (text_assign _ _ _ hname).trans (if_pos rfl)
  | succ k hk ih =>
    unfold metadataUpTo afterEntry
    split
    · exact ih
    · next entry' hentry' =>
      split
      · next text' hvalue' =>
        -- The key of another entry is another one.
        have hne : cString entry'.key ≠ cString entry.key := by
          intro heq
          have hsame : (psf.entry_list.map fun entry => cString entry.key)[i]? =
              (psf.entry_list.map fun entry => cString entry.key)[k]? := by
            rw [List.getElem?_map, List.getElem?_map, hentry, hentry', Option.map_some, Option.map_some, heq]
          have hi : i < (psf.entry_list.map fun entry => cString entry.key).length := by
            rw [List.length_map]
            exact (List.getElem?_eq_some_iff.mp hentry).1
          have hik := (List.getElem?_inj hi hkeys).mp hsame
          omega
        rw [text_assign _ _ _ hname, if_neg hne, ih]
      · exact ih

/-- An object has a text that is not empty under a key. -/
def HasText (psf : PSF) (key : List UInt8) : Prop :=
  ∃ i entry text, psf.entry_list[i]? = some entry ∧ cString entry.key = key ∧
    psf.value i entry.param_fmt = some (.text text) ∧ cString text ≠ []

theorem HasText.text_ne_nil (hkeys : (psf.entry_list.map fun entry => cString entry.key).Nodup)
    (hname : key ∈ metadataKeys) (h : HasText psf key) : (metadataUpTo psf psf.entry_list.length).text key ≠ [] := by
  obtain ⟨i, entry, text, hentry, rfl, hvalue, hne⟩ := h
  rwa [text_metadataUpTo hkeys hentry hvalue hname (List.getElem?_eq_some_iff.mp hentry).1]

theorem parseParamSfo_encoded (h : psf.Encoded bytes) (hcount : psf.entry_list.length ≤ maximumEntries)
    (hkeys : (psf.entry_list.map fun entry => cString entry.key).Nodup)
    (htitle : HasText psf (ascii "TITLE")) (htitle_id : HasText psf (ascii "TITLE_ID")) :
    ∃ metadata, parseParamSfo bytes = some metadata ∧ metadata.valid = true := by
  have htables := h.tables
  have hkeyTable : psf.keyTable = 20 + 16 * psf.entry_list.length := rfl
  have hdataTable : psf.dataTable = psf.keyTable + PSF.keysSize psf.entry_list := rfl
  have hheader : psfHeaderSize = 20 := rfl
  have hindex : psf.entry_list.length * psfRawEntrySize = 16 * psf.entry_list.length := Nat.mul_comm _ _
  have huint64 : (uint64Max - psfHeaderSize) / psfRawEntrySize > maximumEntries := by decide
  have hloop : (List.range psf.entry_list.length).foldlM (parseEntry bytes psf.keyTable psf.dataTable) {} =
      .ok (metadataUpTo psf psf.entry_list.length) :=
    foldlM_range_eq (g := metadataUpTo psf) fun k hk => parseEntry_encoded h _ hk
  have h1 : (metadataUpTo psf psf.entry_list.length).title ≠ [] := htitle.text_ne_nil hkeys (by decide)
  have h2 : (metadataUpTo psf psf.entry_list.length).title_id ≠ [] := htitle_id.text_ne_nil hkeys (by decide)
  have hbody : ∃ metadata, parseParamSfoBody bytes = .ok metadata ∧ metadata.valid = true := by
    unfold parseParamSfoBody RangeIsValid
    rw [failIf_neg (by omega), h.header]
    simp only [bind, Except.bind]
    rw [failIf_neg (not_not_intro rfl), failIf_neg (fun hversion => hversion.2 rfl)]
    rw [failIf_neg (by omega)]
    rw [failIf_neg (by omega)]
    rw [failIf_neg (by omega), hloop]
    dsimp only
    unfold finishMetadata
    rw [failIf_neg (not_or.mpr ⟨h1, h2⟩)]
    exact ⟨_, rfl, rfl⟩
  obtain ⟨metadata, hbody, hvalid⟩ := hbody
  unfold parseParamSfo
  rw [hbody]
  exact ⟨metadata, rfl, hvalid⟩

/-- **`ParseParamSfo` and `PSF`.** No byte string makes `ParseParamSfo` read outside of it. -/
theorem parseParamSfo_spec : (∀ bytes, (parseParamSfo bytes).isSome) ∧
    (∀ bytes metadata psf, parseParamSfo bytes = some metadata → metadata.valid = true →
      PSF.openBuffer bytes = .ok (true, psf) → (psf.entry_list.map (·.key)).Nodup → SameMetadata psf metadata) ∧
    (∀ psf bytes, psf.encode = some bytes → bytes.length < 2^32 → psf.entry_list.length ≤ maximumEntries →
      PSF.keysSize psf.entry_list < 2^16 → (psf.entry_list.map fun entry => cString entry.key).Nodup →
        HasText psf (ascii "TITLE") → HasText psf (ascii "TITLE_ID") →
          ∃ metadata, parseParamSfo bytes = some metadata ∧ metadata.valid = true) := by
  refine ⟨fun bytes => ?_, fun _ _ _ => sameMetadata_of_valid, fun psf bytes => ?_⟩
  · obtain ⟨metadata, hreturns, -⟩ := (sat_parseParamSfo bytes).exists_returns
    unfold parseParamSfo
    rw [hreturns, Option.isSome_some]
  · intro hencode hlength hcount hkeysSize hkeys htitle htitle_id
    exact parseParamSfo_encoded (PSF.encode_spec hencode hlength hkeysSize) hcount hkeys htitle htitle_id

def metadataCalls (title : List UInt8) : List PSF.Call :=
  [.addString (ascii "TITLE") title false, .addString (ascii "TITLE_ID") (ascii "CUSA00001") false]

def titlePsf : PSF := ((metadataCalls (ascii "Game")).foldlM PSF.Call.run {}).getD {}

theorem parseParamSfo_spec_title : ∃ bytes, titlePsf.encode = some bytes ∧
    ∃ metadata, parseParamSfo bytes = some metadata ∧ metadata.valid = true :=
  ⟨_, rfl, parseParamSfo_spec.2.2 titlePsf _ rfl (by decide) (by decide) (by decide) (by decide)
    ⟨0, _, _, rfl, by decide, rfl, by decide⟩ ⟨1, _, _, rfl, by decide, rfl, by decide⟩⟩

/-- A title of a single zero is not empty as a string of `AddString`, and is read as empty. -/
theorem parseParamSfo_zero_title : ∃ psf bytes metadata,
    (metadataCalls [0]).foldlM PSF.Call.run {} = some psf ∧ psf.encode = some bytes ∧
      psf.entry_list.length ≤ maximumEntries ∧ PSF.keysSize psf.entry_list < 2^16 ∧
        (psf.entry_list.map (·.key)).Nodup ∧ psf.getString (ascii "TITLE") = some (some [0]) ∧
          psf.getString (ascii "TITLE_ID") = some (some (ascii "CUSA00001")) ∧
            parseParamSfo bytes = some metadata ∧ metadata.valid = false := by
  refine ⟨_, _, _, rfl, rfl, by decide, by decide, by decide, rfl, rfl, rfl, rfl⟩

end ShadPS4
