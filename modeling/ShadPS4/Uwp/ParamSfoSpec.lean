import ShadPS4.FileFormat.PsfRuns
import ShadPS4.Uwp.ParamSfo

/-!
# The two parsers of a parameter file

`ParseParamSfo` never leaves its bytes.
-/

namespace ShadPS4

open List
open Except (ok)
open Option (some.inj)

variable {maximum_size : ℕ} {metadata : GameMetadata} {value : PSFValue} {header : PSFHeader}
  {psf : PSF} {key : List UInt8}
variable {R : Type} {bytes : List UInt8} {offset : ℕ}

/-! ## Strings -/

theorem readUntilZero_eq (h : offset + maximum_size ≤ bytes.length) : readUntilZero bytes offset maximum_size =
      .ok (if 0 ∈ (bytes.drop offset).take maximum_size then some (cString (bytes.drop offset)) else none) := by
  induction maximum_size generalizing offset with
  | zero => rfl
  | succ maximum_size ih =>
    have hin : offset < bytes.length := by omega
    have hdrop : bytes.drop offset = bytes[offset] :: bytes.drop (offset + 1) := drop_eq_getElem_cons hin
    have hfetch : fetch (R := GameMetadata) bytes offset = .ok bytes[offset] := by
      unfold fetch
      rw [getElem?_eq_getElem hin]
    unfold readUntilZero
    rw [hfetch, hdrop, take_succ_cons]
    show (if bytes[offset] = 0 then _ else _) = _
    generalize bytes[offset] = byte
    by_cases hbyte : byte = 0
    · subst hbyte
      rfl
    · rw [if_neg hbyte, ih (by omega)]
      have hmem : 0 ∈ byte :: (bytes.drop (offset + 1)).take maximum_size ↔
          0 ∈ (bytes.drop (offset + 1)).take maximum_size := by
        rw [mem_cons, or_iff_right (Ne.symm hbyte)]
      have hstring : cString (byte :: bytes.drop (offset + 1)) = byte :: cString (bytes.drop (offset + 1)) := by
        unfold cString
        rw [takeWhile_cons_of_pos (by simpa using hbyte)]
      simp only [hmem, hstring]
      split_ifs <;> rfl

theorem readNullTerminatedString_ok {value : List UInt8}
    (h : readNullTerminatedString bytes offset maximum_size = .ok (some value)) :
    value = cString (bytes.drop offset) := by
  unfold readNullTerminatedString at h
  split_ifs at h with hrange
  · unfold RangeIsValid at hrange
    rw [readUntilZero_eq (by omega)] at h
    have h := ok.inj h
    split_ifs at h
    exact (some.inj h).symm
  · cases h

theorem At.readNullTerminatedString (h : At bytes offset chunk)
    (hzero : 0 ∈ chunk) (hchunk : chunk.length ≤ maximum_size) (hsize : offset + maximum_size ≤ bytes.length) :
    readNullTerminatedString bytes offset maximum_size = .ok (some (cString chunk)) := by
  unfold ShadPS4.readNullTerminatedString RangeIsValid
  rw [if_neg (by omega), readUntilZero_eq hsize]
  obtain ⟨rest, hrest⟩ := h
  rw [← hrest, if_pos ?_, cString_append hzero]
  rw [take_append]
  exact mem_append_left _ (by rwa [take_of_length_le hchunk])

theorem sat_readNullTerminatedString (maximum_size : ℕ) :
    Sat (readNullTerminatedString bytes offset maximum_size) (fun _ => True) F := by
  apply Sat.ite
  · intro _
    exact Sat.pure trivial
  · intro hrange
    have hvalid : RangeIsValid offset maximum_size bytes.length := Decidable.not_not.mp hrange
    unfold RangeIsValid at hvalid
    rw [readUntilZero_eq (by omega)]
    exact Sat.pure trivial

theorem PSFEntryFmt.raw_of_ofRaw {raw : ℕ} {fmt : PSFEntryFmt} (h : ofRaw raw = some fmt) : raw = fmt.raw := by
  unfold ofRaw at h
  split_ifs at h with hbinary htext hinteger
  · exact some.inj h ▸ hbinary
  · exact some.inj h ▸ htext
  · exact some.inj h ▸ hinteger

/-! ## Every access stays in the bytes -/

theorem sat_header (h : psfHeaderSize ≤ bytes.length) : Sat (PSFHeader.read bytes) (fun _ => True) F := by
  have h : 20 ≤ bytes.length := h
  refine Sat.bind (Sat.read (by omega)) fun _ _ => ?_
  refine Sat.bind (Sat.read (by omega)) fun _ _ => ?_
  refine Sat.bind (Sat.read (by omega)) fun _ _ => ?_
  refine Sat.bind (Sat.read (by omega)) fun _ _ => ?_
  refine Sat.bind (Sat.read (by omega)) fun _ _ => ?_
  exact Sat.pure trivial

theorem sat_rawEntry (h : offset + psfRawEntrySize ≤ bytes.length) :
    Sat (PSFRawEntry.read bytes offset) (fun _ => True) F := by
  have h : offset + 16 ≤ bytes.length := h
  refine Sat.bind (Sat.read (by omega)) fun _ _ => ?_
  refine Sat.bind (Sat.read (by omega)) fun _ _ => ?_
  refine Sat.bind (Sat.read (by omega)) fun _ _ => ?_
  refine Sat.bind (Sat.read (by omega)) fun _ _ => ?_
  refine Sat.bind (Sat.read (by omega)) fun _ _ => ?_
  exact Sat.pure trivial

abbrev Rejects : Stop GameMetadata → Prop := Fails fun metadata => metadata.valid = false

theorem sat_orFail (hvalid : metadata.valid = false)
    (value : Option (List UInt8)) : Sat (orFail metadata error value) (fun _ => True) Rejects := by
  cases value with
  | none => exact ⟨nofun, fun e he => by cases he; exact hvalid⟩
  | some value => exact Sat.pure trivial

theorem valid_assign (metadata : GameMetadata) (key value : List UInt8) :
    (metadata.assign key value).valid = metadata.valid := by
  unfold GameMetadata.assign
  split_ifs <;> rfl

theorem sat_parseEntry (hvalid : metadata.valid = false)
    (h : psfHeaderSize + index * psfRawEntrySize + psfRawEntrySize ≤ bytes.length) :
    Sat (parseEntry bytes key_table_offset data_table_offset metadata index)
      (fun metadata => metadata.valid = false) Rejects := by
  refine Sat.bind (sat_rawEntry h) fun entry _ => ?_
  refine Sat.bind (Sat.failIf fun _ => hvalid) fun _ _ => ?_
  refine Sat.bind (sat_readNullTerminatedString _) fun found _ => ?_
  refine Sat.bind (sat_orFail hvalid found) fun key _ => ?_
  apply Sat.ite
  · intro _
    exact Sat.pure hvalid
  · intro _
    refine Sat.bind (Sat.failIf fun _ => hvalid) fun _ _ => ?_
    refine Sat.bind (sat_readNullTerminatedString _) fun found _ => ?_
    refine Sat.bind (sat_orFail hvalid found) fun value _ => ?_
    exact Sat.pure ((valid_assign metadata key value).trans hvalid)

theorem sat_parseParamSfo (bytes : List UInt8) :
    Sat (parseParamSfoBody bytes) (fun metadata => metadata.valid = true) Rejects := by
  refine Sat.bind (Sat.failIf fun _ => rfl) fun _ hlength => ?_
  refine Sat.bind (sat_header (Nat.le_of_not_lt hlength)) fun header _ => ?_
  refine Sat.bind (Sat.failIf fun _ => rfl) fun _ _ => ?_
  refine Sat.bind (Sat.failIf fun _ => rfl) fun _ _ => ?_
  refine Sat.bind (Sat.failIf fun _ => rfl) fun _ _ => ?_
  refine Sat.bind (Sat.failIf fun _ => rfl) fun _ hindex => ?_
  refine Sat.bind (Sat.failIf fun _ => rfl) fun _ _ => ?_
  have hloop := Sat.foldlM_range (F := Rejects)
    (f := parseEntry bytes header.key_table_offset header.data_table_offset)
    (I := fun _ metadata => metadata.valid = false) (n := header.index_table_entries) (s := {}) rfl
    fun index hindex metadata hvalid => by
      apply sat_parseEntry hvalid
      -- The entry is one of those whose range was checked.
      have hle : (index + 1) * psfRawEntrySize ≤ header.index_table_entries * psfRawEntrySize :=
        Nat.mul_le_mul_right _ hindex
      rw [Nat.add_mul] at hle
      omega
  refine Sat.bind hloop fun metadata hvalid => ?_
  refine Sat.bind (Sat.failIf fun _ => hvalid) fun _ _ => ?_
  exact Sat.pure rfl

theorem parseParamSfoBody_of_valid (h : parseParamSfo bytes = some metadata)
    (hvalid : metadata.valid = true) : parseParamSfoBody bytes = .ok metadata := by
  unfold parseParamSfo at h
  match hbody : parseParamSfoBody bytes with
  | .ok result =>
    rw [hbody] at h
    exact congrArg ok (some.inj h)
  | .error (.fail result) =>
    rw [hbody] at h
    obtain rfl := some.inj h
    have hfalse : result.valid = false := (sat_parseParamSfo bytes).2 _ hbody
    rw [hfalse] at hvalid
    cases hvalid
  | .error .fault =>
    rw [hbody] at h
    cases h

/-! ## The two loops -/

def rawAt (bytes : List UInt8) (offset : ℕ) : PSFRawEntry where
  key_offset := leRead bytes offset 2
  param_fmt := leRead bytes (offset + 2) 2
  param_len := leRead bytes (offset + 4) 4
  param_max_len := leRead bytes (offset + 8) 4
  data_offset := leRead bytes (offset + 12) 4

theorem rawAt_of_read (h : PSFRawEntry.read (R := R) bytes offset = .ok raw) :
    raw = rawAt bytes offset := by
  obtain ⟨key_offset, h0, h⟩ := bind_eq_ok.mp h
  obtain ⟨param_fmt, h2, h⟩ := bind_eq_ok.mp h
  obtain ⟨param_len, h4, h⟩ := bind_eq_ok.mp h
  obtain ⟨param_max_len, h8, h⟩ := bind_eq_ok.mp h
  obtain ⟨data_offset, h₁₂, h⟩ := bind_eq_ok.mp h
  rw [← pure_eq_ok.mp h, leRead_of_read h0, leRead_of_read h2, leRead_of_read h4, leRead_of_read h8,
    leRead_of_read h₁₂]
  rfl

theorem failIf_bind_eq_ok [Decidable condition]
     (h : failIf condition result >>= f = .ok b) : ¬ condition ∧ f () = .ok b := by
  obtain ⟨_, hfail, h⟩ := bind_eq_ok.mp h
  unfold failIf at hfail
  split_ifs at hfail with hcondition
  exact ⟨hcondition, h⟩

theorem orFail_eq_ok {error : String} {value : Option (List UInt8)}
    {v : List UInt8} (h : orFail metadata error value = .ok v) : value = some v := by
  cases value with
  | none => cases h
  | some value => exact congrArg some (pure_eq_ok.mp h)

theorem parseEntry_eq_ok (h : parseEntry bytes kto dto metadata index = .ok metadata') : metadata' =
      if (rawAt bytes (psfHeaderSize + index * psfRawEntrySize)).param_fmt = PSFEntryFmt.text.raw then
        metadata.assign
          (cString (bytes.drop (kto + (rawAt bytes (psfHeaderSize + index * psfRawEntrySize)).key_offset)))
          (cString (bytes.drop (dto + (rawAt bytes (psfHeaderSize + index * psfRawEntrySize)).data_offset)))
      else metadata := by
  obtain ⟨raw, hraw, h⟩ := bind_eq_ok.mp h
  rw [← rawAt_of_read hraw]
  obtain ⟨-, h⟩ := failIf_bind_eq_ok h
  obtain ⟨found, hkey, h⟩ := bind_eq_ok.mp h
  obtain ⟨key, hfound, hvalue⟩ := bind_eq_ok.mp h
  rw [orFail_eq_ok hfound] at hkey
  rw [← readNullTerminatedString_ok hkey]
  by_cases hfmt : raw.param_fmt = PSFEntryFmt.text.raw
  · rw [if_neg (not_not_intro hfmt)] at hvalue
    rw [if_pos hfmt]
    obtain ⟨-, hvalue⟩ := failIf_bind_eq_ok hvalue
    obtain ⟨found', hread, hvalue⟩ := bind_eq_ok.mp hvalue
    obtain ⟨value, hfound', hassign⟩ := bind_eq_ok.mp hvalue
    rw [orFail_eq_ok hfound'] at hread
    rw [← readNullTerminatedString_ok hread]
    exact (pure_eq_ok.mp hassign).symm
  · rw [if_pos hfmt] at hvalue
    rw [if_neg hfmt]
    exact (pure_eq_ok.mp hvalue).symm

theorem readString_eq_ok {value : List UInt8} (h : readString (R := R) bytes offset = .ok value) :
    value = cString (bytes.drop offset) := by
  unfold readString at h
  split_ifs at h
  exact (ok.inj h).symm

namespace PSF

theorem fmt_of_readValue (h : readValue bytes data param_len fmt = .ok value) :
    value.fmt = fmt ∧ ∀ text, value = .text text → text = cString (bytes.drop data) := by
  cases fmt with
  | binary =>
    obtain ⟨block, -, h⟩ := bind_eq_ok.mp h
    obtain rfl := pure_eq_ok.mp h
    exact ⟨rfl, nofun⟩
  | text =>
    obtain ⟨c_str, hc_str, h⟩ := bind_eq_ok.mp h
    obtain rfl := pure_eq_ok.mp h
    refine ⟨rfl, fun text htext => ?_⟩
    rw [← PSFValue.text.inj htext]
    exact readString_eq_ok hc_str
  | integer =>
    unfold readValue at h
    split_ifs at h with hlength
    · cases h
    · obtain ⟨integer, -, h⟩ := bind_eq_ok.mp h
      obtain rfl := pure_eq_ok.mp h
      exact ⟨rfl, nofun⟩

theorem openEntry_eq_ok (h : openEntry bytes header psf k = .ok psf') :
    ∃ entry value, psf' = psf.push entry value ∧ entry.param_fmt = value.fmt ∧
      entry.key = cString (bytes.drop (header.key_table_offset +
        (rawAt bytes (psfHeaderSize + k * psfRawEntrySize)).key_offset)) ∧
      (rawAt bytes (psfHeaderSize + k * psfRawEntrySize)).param_fmt = entry.param_fmt.raw ∧
      ∀ text, value = .text text → text = cString (bytes.drop (header.data_table_offset +
        (rawAt bytes (psfHeaderSize + k * psfRawEntrySize)).data_offset)) := by
  obtain ⟨raw, hraw, h⟩ := bind_eq_ok.mp h
  rw [← rawAt_of_read hraw]
  obtain ⟨key, hkey, h⟩ := bind_eq_ok.mp h
  cases hfmt : PSFEntryFmt.ofRaw raw.param_fmt with
  | none =>
    rw [hfmt] at h
    cases h
  | some param_fmt =>
    rw [hfmt] at h
    obtain ⟨value, hvalue, h⟩ := bind_eq_ok.mp h
    refine ⟨_, value, (pure_eq_ok.mp h).symm, ?_, readString_eq_ok hkey, PSFEntryFmt.raw_of_ofRaw hfmt, ?_⟩
    · exact (fmt_of_readValue hvalue).1.symm
    · exact (fmt_of_readValue hvalue).2

/-! ## Keys and texts -/

/-- The text that `GetString` gives for a key, or nothing. -/
def textOf (psf : PSF) (key : List UInt8) : List UInt8 := (psf.map_strings (psf.findEntry key)).getD []

/-- The texts of an object belong to entries of their format, and each of these has one. -/
structure TextsFilled (psf : PSF) : Prop where
  typed : ∀ i text, psf.map_strings i = some text →
    ∃ entry, psf.entry_list[i]? = some entry ∧ entry.param_fmt = .text
  filled : ∀ i entry, psf.entry_list[i]? = some entry → entry.param_fmt = .text →
    ∃ text, psf.map_strings i = some text

theorem TextsFilled.map_strings_eq_none (h : psf.TextsFilled)
    (hi : psf.entry_list.length ≤ i) : psf.map_strings i = none := by
  cases htext : psf.map_strings i with
  | none => rfl
  | some text =>
    obtain ⟨entry, hentry, -⟩ := h.typed i text htext
    rw [getElem?_eq_none hi] at hentry
    cases hentry

def valueText : PSFValue → Option (List UInt8)
  | .text text => some text
  | _ => none

theorem TextsFilled.map_strings_push (h : psf.TextsFilled) (entry : PSFEntry) (value : PSFValue)
    (i : ℕ) : (psf.push entry value).map_strings i =
      if i = psf.entry_list.length then valueText value else psf.map_strings i := by
  have hnone := h.map_strings_eq_none (Nat.le_refl _)
  cases value with
  | text value =>
    unfold push store
    dsimp only
    rw [Function.update_apply]
    rfl
  | binary value =>
    show psf.map_strings i = _
    split_ifs with hi
    · rw [hi, hnone]
      rfl
    · rfl
  | integer value =>
    show psf.map_strings i = _
    split_ifs with hi
    · rw [hi, hnone]
      rfl
    · rfl

theorem entry_list_push (psf : PSF) (entry : PSFEntry) (value : PSFValue) :
    (psf.push entry value).entry_list = psf.entry_list ++ [entry] := by
  unfold push
  rw [entry_list_store]

theorem valueText_isSome (value : PSFValue) : (valueText value).isSome ↔ value.fmt = .text := by
  cases value <;> simp [valueText, PSFValue.fmt]

theorem TextsFilled.push (h : psf.TextsFilled)
    (hfmt : entry.param_fmt = value.fmt) : (psf.push entry value).TextsFilled := by
  constructor
  case typed =>
    intro i text htext
    rw [h.map_strings_push] at htext
    rw [entry_list_push]
    split_ifs at htext with hi
    · refine ⟨entry, ?_, ?_⟩
      · rw [hi, getElem?_concat_length]
      · rw [hfmt, ← valueText_isSome, htext, Option.isSome_some]
    · obtain ⟨entry', hentry', hfmt'⟩ := h.typed i text htext
      refine ⟨entry', ?_, hfmt'⟩
      rw [getElem?_append_left (List.getElem?_eq_some_iff.mp hentry').1, hentry']
  case filled =>
    intro i entry' hentry' hfmt'
    rw [entry_list_push] at hentry'
    rw [h.map_strings_push]
    split_ifs with hi
    · rw [hi, getElem?_concat_length] at hentry'
      obtain rfl := some.inj hentry'
      rw [hfmt, ← valueText_isSome] at hfmt'
      exact Option.isSome_iff_exists.mp hfmt'
    · have hlt : i < psf.entry_list.length := by
        have hlength := (List.getElem?_eq_some_iff.mp hentry').1
        rw [length_append, length_singleton] at hlength
        omega
      rw [getElem?_append_left hlt] at hentry'
      exact h.filled i entry' hentry' hfmt'

theorem findEntry_of_new (hnew : ∀ entry ∈ psf.entry_list, entry.key ≠ key) :
    ¬ psf.findEntry key < psf.entry_list.length := by
  intro hlt
  have hfound : psf.entry_list[psf.findEntry key].key = key :=
    of_decide_eq_true (findIdx_getElem (w := hlt))
  exact hnew _ (getElem_mem hlt) hfound

theorem TextsFilled.textOf_of_new (h : psf.TextsFilled)
    (hnew : ∀ entry ∈ psf.entry_list, entry.key ≠ key) : psf.textOf key = [] := by
  unfold textOf
  rw [h.map_strings_eq_none (Nat.le_of_not_lt (findEntry_of_new hnew))]
  rfl

theorem TextsFilled.textOf_push (h : psf.TextsFilled)
    (hnew : ∀ entry' ∈ psf.entry_list, entry'.key ≠ entry.key) (key : List UInt8) :
    (psf.push entry value).textOf key = if entry.key = key then (valueText value).getD [] else psf.textOf key := by
  have hfind : (psf.push entry value).findEntry key =
      if psf.findEntry key < psf.entry_list.length then psf.findEntry key
      else psf.entry_list.length + if entry.key = key then 0 else 1 := by
    unfold findEntry
    rw [entry_list_push, findIdx_append, findIdx_singleton]
    simp only [decide_eq_true_eq]
    rw [Nat.add_comm]
  unfold textOf
  rw [h.map_strings_push, hfind]
  by_cases hkey : entry.key = key
  · have hnot := findEntry_of_new (hkey ▸ hnew)
    rw [if_pos hkey, if_neg hnot, if_pos hkey, if_pos (Nat.add_zero _)]
  · rw [if_neg hkey, if_neg hkey]
    split_ifs with hlt hlength
    · omega
    · rfl
    · omega
    · rw [h.map_strings_eq_none (Nat.le_succ _), h.map_strings_eq_none (Nat.le_of_not_lt hlt)]

end PSF

def metadataKeys : List (List UInt8) := [ascii "TITLE", ascii "TITLE_ID", ascii "APP_VER"]

def GameMetadata.text (metadata : GameMetadata) (key : List UInt8) : List UInt8 :=
  if key = ascii "TITLE" then metadata.title
  else if key = ascii "TITLE_ID" then metadata.title_id
  else metadata.app_version

theorem text_assign (metadata : GameMetadata) (key value : List UInt8) (hname : name ∈ metadataKeys) :
    (metadata.assign key value).text name = if key = name then value else metadata.text name := by
  unfold metadataKeys at hname
  unfold GameMetadata.assign GameMetadata.text
  grind

/-- The metadata hold the texts of an object. -/
structure Agrees (psf : PSF) (metadata : GameMetadata) : Prop where
  filled : psf.TextsFilled
  text : ∀ name ∈ metadataKeys, metadata.text name = psf.textOf name

theorem Agrees.step (h : Agrees psf metadata)
    (hparse : parseEntry bytes header.key_table_offset header.data_table_offset metadata k = .ok metadata')
    (hopen : PSF.openEntry bytes header psf k = .ok psf') (hkeys : (psf'.entry_list.map (·.key)).Nodup) :
    Agrees psf' metadata' := by
  obtain ⟨entry, value, rfl, hfmt, hkey, hraw, htext⟩ := PSF.openEntry_eq_ok hopen
  refine ⟨h.filled.push hfmt, fun name hname => ?_⟩
  have hnew : ∀ entry' ∈ psf.entry_list, entry'.key ≠ entry.key := by
    rw [PSF.entry_list_push, map_append] at hkeys
    intro entry' hentry'
    exact (nodup_append.mp hkeys).2.2 _ (mem_map_of_mem hentry') _ (mem_singleton_self _)
  rw [h.filled.textOf_push hnew, parseEntry_eq_ok hparse, ← hkey, hraw]
  cases value with
  | text text =>
    have hfmt : entry.param_fmt = .text := hfmt
    rw [if_pos (by rw [hfmt]), text_assign _ _ _ hname, ← htext text rfl, h.text name hname]
    rfl
  | binary value | integer value =>
    -- The metadata stay, and the new key had no text before.
    have hold := h.filled.textOf_of_new hnew
    rw [if_neg (by rw [hfmt]; simp [PSFValue.fmt, PSFEntryFmt.raw]), h.text name hname]
    split_ifs with hkey_eq
    · rw [← hkey_eq, hold]
      rfl
    · rfl

theorem agrees_of_loops (hparse : (range n).foldlM
      (parseEntry bytes header.key_table_offset header.data_table_offset) {} = .ok metadata)
    (hopen : (range n).foldlM (PSF.openEntry bytes header) {} = .ok psf)
    (hkeys : (psf.entry_list.map (·.key)).Nodup) : Agrees psf metadata := by
  induction n generalizing psf metadata with
  | zero =>
    obtain rfl := ok.inj hparse
    obtain rfl := ok.inj hopen
    refine ⟨⟨nofun, nofun⟩, fun name hname => ?_⟩
    unfold GameMetadata.text
    split_ifs <;> rfl
  | succ n ih =>
    rw [range_succ, foldlM_append] at hparse hopen
    obtain ⟨metadata1, hparse1, hparse⟩ := bind_eq_ok.mp hparse
    obtain ⟨psf1, hopen1, hopen⟩ := bind_eq_ok.mp hopen
    obtain ⟨metadata2, hparse2, hparse⟩ := bind_eq_ok.mp hparse
    obtain ⟨psf2, hopen2, hopen⟩ := bind_eq_ok.mp hopen
    obtain rfl := ok.inj hparse
    obtain rfl := ok.inj hopen
    have hkeys1 : (psf1.entry_list.map (·.key)).Nodup := by
      obtain ⟨entry, value, rfl, -⟩ := PSF.openEntry_eq_ok hopen2
      rw [PSF.entry_list_push, map_append] at hkeys
      exact (nodup_append.mp hkeys).1
    exact (ih hparse1 hopen1 hkeys1).step hparse2 hopen2 hkeys

/-! ## What the metadata are -/

def headerAt (bytes : List UInt8) : PSFHeader where
  magic := byteswap32 (leRead bytes 0 4)
  version := leRead bytes 4 4
  key_table_offset := leRead bytes 8 4
  data_table_offset := leRead bytes 12 4
  index_table_entries := leRead bytes 16 4

theorem headerAt_of_read (h : PSFHeader.read (R := R) bytes = .ok header) :
    header = headerAt bytes := by
  obtain ⟨magic, h0, h⟩ := bind_eq_ok.mp h
  obtain ⟨version, h4, h⟩ := bind_eq_ok.mp h
  obtain ⟨key_table_offset, h8, h⟩ := bind_eq_ok.mp h
  obtain ⟨data_table_offset, h₁₂, h⟩ := bind_eq_ok.mp h
  obtain ⟨index_table_entries, h₁₆, h⟩ := bind_eq_ok.mp h
  rw [← pure_eq_ok.mp h, leRead_of_read h0, leRead_of_read h4, leRead_of_read h8, leRead_of_read h₁₂,
    leRead_of_read h₁₆]
  rfl

theorem parseParamSfoBody_eq_ok (h : parseParamSfoBody bytes = .ok metadata) :
    ∃ metadata0, (range (headerAt bytes).index_table_entries).foldlM
      (parseEntry bytes (headerAt bytes).key_table_offset (headerAt bytes).data_table_offset) {} =
        .ok metadata0 ∧ finishMetadata metadata0 = .ok metadata := by
  obtain ⟨-, h⟩ := failIf_bind_eq_ok h
  obtain ⟨header, hheader, h⟩ := bind_eq_ok.mp h
  rw [← headerAt_of_read hheader]
  obtain ⟨-, h⟩ := failIf_bind_eq_ok h
  obtain ⟨-, h⟩ := failIf_bind_eq_ok h
  obtain ⟨-, h⟩ := failIf_bind_eq_ok h
  obtain ⟨-, h⟩ := failIf_bind_eq_ok h
  obtain ⟨-, h⟩ := failIf_bind_eq_ok h
  exact bind_eq_ok.mp h

theorem openBuffer_eq_ok (h : PSF.openBuffer bytes = .ok (true, psf)) :
    (range (headerAt bytes).index_table_entries).foldlM (PSF.openEntry bytes (headerAt bytes)) {} = .ok psf := by
  obtain ⟨header, hheader, h⟩ := bind_eq_ok.mp h
  rw [← headerAt_of_read hheader]
  obtain ⟨-, h⟩ := failIf_bind_eq_ok h
  obtain ⟨-, h⟩ := failIf_bind_eq_ok h
  obtain ⟨psf', hloop, h⟩ := bind_eq_ok.mp h
  rw [hloop, ← (Prod.mk.inj (pure_eq_ok.mp h)).2]

theorem finishMetadata_eq_ok (h : finishMetadata metadata0 = .ok metadata) :
    metadata0.title ≠ [] ∧ metadata0.title_id ≠ [] ∧ metadata = { metadata0 with
      app_version := if metadata0.app_version = [] then ascii "unknown" else metadata0.app_version
      valid := true } := by
  obtain ⟨hne, h⟩ := failIf_bind_eq_ok h
  rw [not_or] at hne
  exact ⟨hne.1, hne.2, (pure_eq_ok.mp h).symm⟩

theorem PSF.TextsFilled.getString_eq (h : psf.TextsFilled)
    (hne : psf.textOf key ≠ []) : psf.getString key = some (some (psf.textOf key)) := by
  unfold textOf at hne ⊢
  cases htext : psf.map_strings (psf.findEntry key) with
  | none =>
    rw [htext] at hne
    exact absurd rfl hne
  | some text =>
    obtain ⟨entry, hentry, hfmt⟩ := h.typed _ text htext
    unfold getString
    dsimp only
    rw [hentry]
    dsimp only
    rw [if_neg (not_not_intro hfmt), htext]
    rfl

theorem PSF.textOf_of_getString (h : psf.getString key = some (some text)) : psf.textOf key = text := by
  unfold getString at h
  dsimp only at h
  unfold textOf
  split at h
  · cases some.inj h
  · split_ifs at h
    obtain ⟨text', htext, heq⟩ := Option.map_eq_some_iff.mp h
    rw [htext]
    exact some.inj heq

/-- The two parsers agree: the title and its id are what `GetString` gives, and so is the version if it is a
text that is not empty. -/
structure SameMetadata (psf : PSF) (metadata : GameMetadata) : Prop where
  title : psf.getString (ascii "TITLE") = some (some metadata.title)
  title_id : psf.getString (ascii "TITLE_ID") = some (some metadata.title_id)
  app_version : ∀ text, psf.getString (ascii "APP_VER") = some (some text) → text ≠ [] →
    metadata.app_version = text
  unknown : (∀ text, psf.getString (ascii "APP_VER") = some (some text) → text = []) →
    metadata.app_version = ascii "unknown"

theorem sameMetadata_of_valid (hparse : parseParamSfo bytes = some metadata) (hvalid : metadata.valid = true)
    (hopen : PSF.openBuffer bytes = .ok (true, psf)) (hkeys : (psf.entry_list.map (·.key)).Nodup) :
    SameMetadata psf metadata := by
  obtain ⟨metadata0, hloop, hfinish⟩ := parseParamSfoBody_eq_ok (parseParamSfoBody_of_valid hparse hvalid)
  have hagrees := agrees_of_loops hloop (openBuffer_eq_ok hopen) hkeys
  obtain ⟨htitle, htitle_id, rfl⟩ := finishMetadata_eq_ok hfinish
  have h1 : metadata0.title = psf.textOf (ascii "TITLE") :=
    hagrees.text (ascii "TITLE") (by decide)
  have h2 : metadata0.title_id = psf.textOf (ascii "TITLE_ID") :=
    hagrees.text (ascii "TITLE_ID") (by decide)
  have h3 : metadata0.app_version = psf.textOf (ascii "APP_VER") :=
    hagrees.text (ascii "APP_VER") (by decide)
  constructor
  case title =>
    rw [h1] at htitle ⊢
    exact hagrees.filled.getString_eq htitle
  case title_id =>
    rw [h2] at htitle_id ⊢
    exact hagrees.filled.getString_eq htitle_id
  case app_version =>
    intro text htext hne
    rw [h3, PSF.textOf_of_getString htext, if_neg hne]
  case unknown =>
    intro hnone
    rw [h3, if_pos]
    by_contra hne
    exact hne (hnone _ (hagrees.filled.getString_eq hne))

end ShadPS4
