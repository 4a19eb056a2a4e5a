import ShadPS4.FileFormat.PsfSpec

/-!
# Encoding an object and opening it again

`WellFormed` is what the calls of `AddBinary`, `AddString` and `AddInteger` keep of an object: each entry has a
value in the map of its format, no map has any other value, and the stored maximum is the one of the value.
-/

namespace ShadPS4

open List
open Option (some.inj)

variable {i size : ℕ} {value : PSFValue} {entry : PSFEntry} {key : List UInt8}

namespace PSF

variable {psf psf' : PSF} {bytes : List UInt8} {R : Type}

/-! ## The values of an object -/

theorem value_store (psf : PSF) (i : ℕ) (value : PSFValue) (j : ℕ) (fmt : PSFEntryFmt) :
    (psf.store i value).value j fmt = if j = i ∧ fmt = value.fmt then some value else psf.value j fmt := by
  by_cases hj : j = i
  · subst hj
    cases value <;> cases fmt <;> simp [store, PSF.value, PSFValue.fmt]
  · cases value <;> cases fmt <;> simp [store, PSF.value, PSFValue.fmt, hj]

@[simp] theorem entry_list_store (psf : PSF) (i : ℕ) (value : PSFValue) :
    (psf.store i value).entry_list = psf.entry_list := by
  cases value <;> rfl

@[simp] theorem value_entry_list (psf : PSF) (entries : List PSFEntry) (i : ℕ) (fmt : PSFEntryFmt) :
    ({ psf with entry_list := entries } : PSF).value i fmt = psf.value i fmt := by
  cases fmt <;> rfl

theorem fmt_of_value (h : psf.value i fmt = some value) : value.fmt = fmt := by
  cases fmt <;> obtain ⟨_, -, rfl⟩ := Option.map_eq_some_iff.mp h <;> rfl

theorem ext_value (hentries : psf.entry_list = psf'.entry_list)
    (hvalue : ∀ i fmt, psf.value i fmt = psf'.value i fmt) : psf = psf' := by
  obtain ⟨entries, binaries, strings, integers⟩ := psf
  obtain ⟨entries', binaries', strings', integers'⟩ := psf'
  have hbinaries : binaries = binaries' := by
    funext i
    exact Option.map_injective (fun _ _ h => PSFValue.binary.inj h) (hvalue i .binary)
  have hstrings : strings = strings' := by
    funext i
    exact Option.map_injective (fun _ _ h => PSFValue.text.inj h) (hvalue i .text)
  have hintegers : integers = integers' := by
    funext i
    exact Option.map_injective (fun _ _ h => PSFValue.integer.inj h) (hvalue i .integer)
  subst hbinaries hstrings hintegers
  dsimp only at hentries
  rw [hentries]

structure WellFormed (psf : PSF) : Prop where
  typed : ∀ i fmt value, psf.value i fmt = some value →
    ∃ entry, psf.entry_list[i]? = some entry ∧ entry.param_fmt = fmt
  complete : ∀ i entry, psf.entry_list[i]? = some entry →
    ∃ value, psf.value i entry.param_fmt = some value ∧ entry.max_len = value.maxLen entry.key
  keys : ∀ entry ∈ psf.entry_list, 0 ∉ entry.key
  texts : ∀ i text, psf.value i .text = some (.text text) → 0 ∉ text

theorem WellFormed.empty : WellFormed {} where
  typed i fmt value h := by cases fmt <;> cases h
  complete i entry h := by cases h
  keys entry h := by cases h
  texts i text h := by cases h

theorem WellFormed.store (h : psf.WellFormed) (hentry : entries[i]? = some entry)
    (hother : ∀ j, j ≠ i → entries[j]? = psf.entry_list[j]?)
    (hold : ∀ it, psf.entry_list[i]? = some it → it.param_fmt = entry.param_fmt)
    (hfmt : entry.param_fmt = value.fmt) (hmax : entry.max_len = value.maxLen entry.key)
    (hkey : 0 ∉ entry.key) (htext : ∀ text, value = .text text → 0 ∉ text) :
    (({ psf with entry_list := entries } : PSF).store i value).WellFormed := by
  constructor
  case typed =>
    intro j fmt value' hvalue'
    rw [entry_list_store]
    rw [value_store, value_entry_list] at hvalue'
    split_ifs at hvalue' with hnew
    · exact ⟨entry, by rw [hnew.1]; exact hentry, hfmt.trans hnew.2.symm⟩
    · obtain ⟨it, hit, hfmt'⟩ := h.typed j fmt value' hvalue'
      by_cases hj : j = i
      · subst hj
        exact ⟨entry, hentry, (hold it hit).symm.trans hfmt'⟩
      · exact ⟨it, (hother j hj).trans hit, hfmt'⟩
  case complete =>
    intro j it hit
    rw [entry_list_store] at hit
    simp only [value_store, value_entry_list]
    by_cases hj : j = i
    · subst hj
      obtain rfl := some.inj (hentry.symm.trans hit)
      exact ⟨value, if_pos ⟨rfl, hfmt⟩, hmax⟩
    · obtain ⟨value', hvalue', hmax'⟩ := h.complete j it ((hother j hj).symm.trans hit)
      exact ⟨value', by rw [if_neg fun hnew => hj hnew.1]; exact hvalue', hmax'⟩
  case keys =>
    intro it hit
    rw [entry_list_store] at hit
    obtain ⟨j, hj⟩ := mem_iff_getElem?.mp hit
    by_cases hji : j = i
    · subst hji
      obtain rfl := some.inj (hentry.symm.trans hj)
      exact hkey
    · exact h.keys it (mem_of_getElem? ((hother j hji).symm.trans hj))
  case texts =>
    intro j text hvalue'
    rw [value_store, value_entry_list] at hvalue'
    split_ifs at hvalue' with hnew
    · exact htext text (some.inj hvalue')
    · exact h.texts j text hvalue'

theorem WellFormed.add (h : psf.WellFormed) (hadd : psf.add key value update = some psf') (hkey : 0 ∉ key)
    (htext : ∀ text, value = .text text → 0 ∉ text) : psf'.WellFormed := by
  unfold PSF.add at hadd
  dsimp only at hadd
  split at hadd
  · next it hit =>
    obtain ⟨hlt, hfound⟩ := List.getElem?_eq_some_iff.mp hit
    have hkey_eq : it.key = key := by
      rw [← hfound]
      exact of_decide_eq_true (findIdx_getElem (w := hlt))
    split_ifs at hadd with hupdate hfmt
    · cases hadd
      have hset : ∀ entry, (psf.entry_list.set (psf.findEntry key) entry)[psf.findEntry key]? = some entry :=
        fun _ => getElem?_set_self hlt
      refine h.store (hset _) ?_ ?_ ?_ ?_ ?_ htext
      · intro j hj
        exact getElem?_set_ne (Ne.symm hj)
      · intro it' hit'
        obtain rfl := some.inj (hit.symm.trans hit')
        rfl
      · exact Decidable.not_not.mp hfmt
      · rw [hkey_eq]
      · rwa [hkey_eq]
    · exact some.inj hadd ▸ h
  · cases hadd
    refine h.store getElem?_concat_length ?_ ?_ rfl rfl hkey htext
    · intro j hj
      rcases Nat.lt_or_gt_of_ne hj with hlt | hgt
      · exact getElem?_append_left hlt
      · rw [getElem?_eq_none (by simp; omega), getElem?_eq_none (by omega)]
    · intro it hit
      rw [getElem?_eq_none (Nat.le_refl _)] at hit
      cases hit

inductive Call
  | addBinary (key value : List UInt8) (update : Bool)
  | addString (key value : List UInt8) (update : Bool)
  | addInteger (key : List UInt8) (value : BitVec 32) (update : Bool)

def Call.run (psf : PSF) : Call → Option PSF
  | .addBinary key value update => psf.addBinary key value update
  | .addString key value update => psf.addString key value update
  | .addInteger key value update => psf.addInteger key value update

/-- No key and no string of a call has a zero inside. -/
def Call.Clean : Call → Prop
  | .addBinary key _ _ => 0 ∉ key
  | .addString key value _ => 0 ∉ key ∧ 0 ∉ value
  | .addInteger key _ _ => 0 ∉ key

theorem WellFormed.run (h : psf.WellFormed) {call : Call} (hclean : call.Clean)
    (hrun : call.run psf = some psf') : psf'.WellFormed := by
  cases call with
  | addBinary key value update => exact h.add hrun hclean (by simp)
  | addString key value update => exact h.add hrun hclean.1 (by simpa using hclean.2)
  | addInteger key value update => exact h.add hrun hclean (by simp)

theorem WellFormed.foldlM (h : psf.WellFormed) {calls : List Call} (hclean : ∀ call ∈ calls, call.Clean)
    (hrun : calls.foldlM Call.run psf = some psf') : psf'.WellFormed := by
  induction calls generalizing psf with
  | nil => exact some.inj hrun ▸ h
  | cons call rest ih =>
    obtain ⟨psf1, hcall, hrest⟩ := Option.bind_eq_some_iff.mp hrun
    have hclean' := forall_mem_cons.mp hclean
    exact ih (h.run hclean'.1 hcall) hclean'.2 hrest

theorem getMaxSize_cases (key : List UInt8) (default_value : ℕ) :
    (∃ size, (key, size) ∈ psfKnownMaxSizes ∧ getMaxSize key default_value = size) ∨
      (∀ size, (key, size) ∉ psfKnownMaxSizes) ∧ getMaxSize key default_value = default_value := by
  unfold getMaxSize
  cases hfind : psfKnownMaxSizes.find? (·.1 = key) with
  | none =>
    right
    refine ⟨fun size hsize => ?_, rfl⟩
    have hne := find?_eq_none.mp hfind _ hsize
    exact hne (decide_eq_true rfl)
  | some pair =>
    left
    have hfound := find?_some hfind
    have hkey : pair.1 = key := by simpa using hfound
    exact ⟨pair.2, hkey ▸ mem_of_find?_eq_some hfind, rfl⟩

theorem psfKnownMaxSizes_le (h : (key, size) ∈ psfKnownMaxSizes) : 4 ≤ size ∧ size ≤ 1024 := by
  have hall : ∀ pair ∈ psfKnownMaxSizes, 4 ≤ pair.2 ∧ pair.2 ≤ 1024 := by decide
  exact hall _ h

theorem psfKnownMaxSizes_unique (h : (key, size) ∈ psfKnownMaxSizes)
    (h' : (key, size') ∈ psfKnownMaxSizes) : size = size' := by
  have hall : ∀ pair ∈ psfKnownMaxSizes, ∀ pair' ∈ psfKnownMaxSizes, pair.1 = pair'.1 → pair = pair' := by
    decide
  exact congrArg Prod.snd (hall _ h _ h' rfl)

theorem maxLen_lt (key : List UInt8) (value : PSFValue) : value.maxLen key < 2^32 := by
  have hmax : ∀ default_value, default_value < 2^32 → getMaxSize key default_value < 2^32 := by
    intro default_value hdefault
    rcases getMaxSize_cases key default_value with ⟨size, hsize, heq⟩ | ⟨-, heq⟩
    · have hle := psfKnownMaxSizes_le hsize
      omega
    · rwa [heq]
  cases value with
  | binary value => exact hmax _ (Nat.mod_lt _ (Nat.two_pow_pos 32))
  | text value => exact hmax _ (Nat.mod_lt _ (Nat.two_pow_pos 32))
  | integer value => exact Nat.lt_of_sub_eq_succ rfl

theorem maxLen_le (h : (key, size) ∈ psfKnownMaxSizes) (value : PSFValue) : value.maxLen key ≤ size := by
  have hmax : ∀ default_value, getMaxSize key default_value ≤ size := by
    intro default_value
    rcases getMaxSize_cases key default_value with ⟨size', hsize', heq⟩ | ⟨hnone, -⟩
    · rw [heq, psfKnownMaxSizes_unique h hsize']
    · exact absurd h (hnone size)
  cases value with
  | binary value => exact hmax _
  | text value => exact hmax _
  | integer value => exact (psfKnownMaxSizes_le h).1

/-! ## Opening an encoding -/

/-- The first `k` entries of an object and their values. -/
def upTo (psf : PSF) (k : ℕ) : PSF where
  entry_list := psf.entry_list.take k
  map_binaries i := if i < k then psf.map_binaries i else none
  map_strings i := if i < k then psf.map_strings i else none
  map_integers i := if i < k then psf.map_integers i else none

@[simp] theorem value_upTo (psf : PSF) (k i : ℕ) (fmt : PSFEntryFmt) :
    (psf.upTo k).value i fmt = if i < k then psf.value i fmt else none := by
  by_cases hi : i < k
  · cases fmt <;> simp [upTo, value, hi]
  · cases fmt <;> simp [upTo, value, hi]

theorem WellFormed.upTo_length (h : psf.WellFormed) : psf.upTo psf.entry_list.length = psf := by
  apply ext_value
  · exact take_length
  · intro i fmt
    rw [value_upTo]
    split_ifs with hi
    · rfl
    · cases hvalue : psf.value i fmt with
      | none => rfl
      | some value =>
        obtain ⟨entry, hentry, -⟩ := h.typed i fmt value hvalue
        exact absurd (List.getElem?_eq_some_iff.mp hentry).1 hi

theorem WellFormed.push_upTo (h : psf.WellFormed)
    (hentry : psf.entry_list[k]? = some entry) (hvalue : psf.value k entry.param_fmt = some value) :
    (psf.upTo k).push entry value = psf.upTo (k + 1) := by
  obtain ⟨hlt, -⟩ := List.getElem?_eq_some_iff.mp hentry
  have hlength : (psf.upTo k).entry_list.length = k := by
    show (psf.entry_list.take k).length = k
    rw [length_take]
    omega
  unfold push
  apply ext_value
  · rw [entry_list_store]
    show psf.entry_list.take k ++ [entry] = psf.entry_list.take (k + 1)
    rw [take_add_one, hentry]
    rfl
  · intro i fmt
    rw [value_store, value_entry_list, hlength, value_upTo, value_upTo, fmt_of_value hvalue]
    by_cases hi : i = k
    · subst hi
      rw [if_pos (Nat.lt_succ_self i), if_neg (Nat.lt_irrefl i)]
      split_ifs with hfmt
      · rw [hfmt.2, hvalue]
      · -- The other maps have no value for this entry.
        cases hother : psf.value i fmt with
        | none => rfl
        | some value' =>
          obtain ⟨entry', hentry', hfmt'⟩ := h.typed i fmt value' hother
          obtain rfl := some.inj (hentry.symm.trans hentry')
          exact absurd ⟨rfl, hfmt'.symm⟩ hfmt
    · rw [if_neg fun hnew => hi hnew.1]
      split_ifs <;> first | rfl | omega

theorem readValue_eq (hdata : At bytes data value.bytes) (htext : ∀ text, value = .text text → 0 ∉ text) :
    readValue bytes data value.bytes.length value.fmt = .ok value := by
  cases value with
  | binary value =>
    show (do let value ← readBlock bytes data (PSFValue.binary value).bytes.length
             pure (PSFValue.binary value)) = _
    rw [hdata.readBlock]
    rfl
  | text value =>
    show (do let c_str ← readString bytes data; pure (PSFValue.text c_str)) = _
    rw [hdata.readString (mem_append_right _ (mem_singleton_self 0))]
    have hstring : cString (PSFValue.text value).bytes = value :=
      (cString_concat value).trans (cString_of_not_mem (htext value rfl))
    rw [hstring]
    rfl
  | integer value =>
    have hlength : (PSFValue.integer value).bytes.length = 4 := length_leBytes _ _
    unfold readValue
    rw [hlength, hdata.read (by decide)]
    have hbits : BitVec.ofNat 32 (value.toNat % 2^(8 * 4)) = value := by
      rw [Nat.mod_eq_of_lt value.isLt, BitVec.ofNat_toNat, BitVec.setWidth_eq]
    show Except.ok (PSFValue.integer (BitVec.ofNat 32 (value.toNat % 2^(8 * 4)))) = _
    rw [hbits]

theorem WellFormed.openEntry_upTo (h : psf.WellFormed) (hencoded : psf.Encoded bytes)
    (hkeyTable : header.key_table_offset = psf.keyTable)
    (hdataTable : header.data_table_offset = psf.dataTable) (hk : k < psf.entry_list.length) :
    openEntry bytes header (psf.upTo k) k = .ok (psf.upTo (k + 1)) := by
  have hentry : psf.entry_list[k]? = some psf.entry_list[k] := getElem?_eq_getElem hk
  generalize psf.entry_list[k] = entry at hentry
  obtain ⟨raw, value, he⟩ := hencoded.entry k entry hentry
  obtain ⟨value', hvalue', hmax⟩ := h.complete k entry hentry
  obtain rfl := some.inj (he.stored.symm.trans hvalue')
  have hfmt := fmt_of_value hvalue'
  have hkey : readString (R := Bool × PSF) bytes (psf.keyTable + raw.key_offset) = .ok entry.key := by
    rw [he.key.readString (mem_append_right _ (mem_singleton_self 0)), cString_concat,
      cString_of_not_mem (h.keys entry (mem_of_getElem? hentry))]
  have htext : ∀ text, value = .text text → 0 ∉ text := by
    intro text htext
    subst htext
    exact h.texts k text (by rwa [← hfmt] at hvalue')
  have hmax_len : raw.param_max_len = entry.max_len := by
    rw [he.param_max_len, hmax, Nat.mod_eq_of_lt (maxLen_lt _ _)]
  have hread := readValue_eq he.data htext
  unfold openEntry
  rw [he.raw_read, hkeyTable, hdataTable]
  simp only [bind, Except.bind]
  rw [hkey]
  rw [he.param_fmt, PSFEntryFmt.ofRaw_raw]
  dsimp only
  rw [he.param_len, ← hfmt, hread, hfmt, hmax_len]
  exact congrArg Except.ok (h.push_upTo hentry hvalue')

theorem WellFormed.openBuffer_eq (h : psf.WellFormed) (hencoded : psf.Encoded bytes) :
    openBuffer bytes = .ok (true, psf) := by
  unfold openBuffer
  rw [hencoded.header]
  simp only [bind, Except.bind]
  have hloop : ∀ header : PSFHeader, header.key_table_offset = psf.keyTable →
      header.data_table_offset = psf.dataTable →
        (range psf.entry_list.length).foldlM (openEntry bytes header) {} = .ok psf := by
    intro header hkeyTable hdataTable
    have hempty : psf.upTo 0 = {} := by simp [upTo]
    rw [← hempty, foldlM_range_eq fun k hk => h.openEntry_upTo hencoded hkeyTable hdataTable hk, h.upTo_length]
  rw [hloop _ rfl rfl]
  rfl

/-! ## Encoding an object -/

/-- No value is longer than the size that the table has for its key. -/
def Fits (psf : PSF) : Prop :=
  ∀ i entry value size, psf.entry_list[i]? = some entry → psf.value i entry.param_fmt = some value →
    (entry.key, size) ∈ psfKnownMaxSizes → value.bytes.length ≤ size

/-- The space of an entry in the data table. -/
def valueSize (psf : PSF) (i : ℕ) (entry : PSFEntry) : ℕ :=
  max entry.max_len (((psf.value i entry.param_fmt).map (·.bytes.length)).getD 0)

/-- Where the file ends, if its entries from the `i`-th on begin at `size`. -/
def dataEnd (psf : PSF) : ℕ → ℕ → List PSFEntry → ℕ
  | _, size, [] => size
  | i, size, entry :: rest =>
    psf.dataEnd (i + 1) (size + (alignment size).length + psf.valueSize i entry) rest

def fileSize (psf : PSF) : ℕ := psf.dataEnd 0 psf.dataTable psf.entry_list

theorem le_dataEnd (psf : PSF) (i size : ℕ) (entries : List PSFEntry) : size ≤ psf.dataEnd i size entries := by
  induction entries generalizing i size with
  | nil => exact Nat.le_refl _
  | cons entry rest ih =>
    have hrest := ih (i + 1) (size + (alignment size).length + psf.valueSize i entry)
    unfold dataEnd
    omega

theorem valueSize_le_dataEnd
    (hentry : entries[j]? = some entry) : psf.valueSize (i + j) entry ≤ psf.dataEnd i size entries := by
  induction entries generalizing i size j with
  | nil => cases hentry
  | cons entry' rest ih =>
    unfold dataEnd
    cases j with
    | zero =>
      obtain rfl := some.inj hentry
      have hend := psf.le_dataEnd (i + 1) (size + (alignment size).length + psf.valueSize i entry') rest
      rw [Nat.add_zero]
      omega
    | succ j =>
      rw [← Nat.add_assoc, Nat.add_right_comm]
      exact ih hentry

theorem toS32_of_lt (h : n < 2^31) : toS32 n = n := by
  unfold toS32
  rw [BitVec.toInt_ofNat']
  exact Int.bmod_eq_of_le (by omega) (by omega)

/-- An entry has room for its value: the rest of its space is the padding. -/
def HasRoom (max_len : ℕ) (value : PSFValue) : Prop :=
  value.bytes.length ≤ max_len ∧
    toS32 max_len - toS32 value.bytes.length = (max_len - value.bytes.length : ℕ) ∧
      max_len - value.bytes.length < 2^31

theorem hasRoom_of_le (hfits : ∀ size, (key, size) ∈ psfKnownMaxSizes → value.bytes.length ≤ size)
    (hlength : value.bytes.length < 2^32) : HasRoom (value.maxLen key) value := by
  have hdefault : ∀ default_value, default_value = value.bytes.length % 2^32 →
      value.maxLen key = getMaxSize key default_value → HasRoom (value.maxLen key) value := by
    intro default_value hdefault hmax
    unfold HasRoom
    rw [Nat.mod_eq_of_lt hlength] at hdefault
    rcases getMaxSize_cases key default_value with ⟨size, hsize, heq⟩ | ⟨-, heq⟩
    · have hle := hfits size hsize
      have hsize_le := (psfKnownMaxSizes_le hsize).2
      rw [hmax, heq, toS32_of_lt (by omega), toS32_of_lt (by omega)]
      omega
    · rw [hmax, heq, hdefault]
      omega
  cases value with
  | binary value => exact hdefault _ rfl rfl
  | text value => exact hdefault ((value.length + 1) % 2^32) (by simp [PSFValue.bytes]) rfl
  | integer value =>
    have hbytes : (PSFValue.integer value).bytes.length = 4 := length_leBytes _ _
    have hmax : (PSFValue.integer value).maxLen key = 4 := rfl
    unfold HasRoom
    rw [hbytes, hmax]
    omega

theorem encodeData_complete
    (hpairs : ∀ (j : ℕ) entry raw, pairs[j]? = some (entry, raw) → raw.param_max_len = entry.max_len ∧
      ∃ value, psf.value (i + j) entry.param_fmt = some value ∧ HasRoom entry.max_len value) :
    ∃ raws data, psf.encodeData data_table_offset i size pairs = some (raws, data) ∧
      size + data.length = psf.dataEnd i size (pairs.map (·.1)) := by
  induction pairs generalizing i size with
  | nil => exact ⟨[], [], rfl, rfl⟩
  | cons pair rest ih =>
    obtain ⟨entry, raw⟩ := pair
    obtain ⟨hmax, value, hvalue, hle, hpadding, hlt⟩ := hpairs 0 entry raw rfl
    rw [Nat.add_zero] at hvalue
    have hsize : psf.valueSize i entry = entry.max_len := by
      unfold valueSize
      rw [hvalue]
      exact max_eq_left hle
    have hrest : ∀ (j : ℕ) entry raw, rest[j]? = some (entry, raw) → raw.param_max_len = entry.max_len ∧
        ∃ value, psf.value (i + 1 + j) entry.param_fmt = some value ∧ HasRoom entry.max_len value := by
      intro j entry' raw' hj
      rw [Nat.add_assoc, Nat.add_comm 1 j]
      exact hpairs (j + 1) entry' raw' hj
    obtain ⟨raws, data, hdata, hend⟩ : ∃ raws data, psf.encodeData data_table_offset (i + 1)
        (size + (alignment size).length + entry.max_len) rest = some (raws, data) ∧ _ := ih hrest
    have hchunk : (value.bytes ++ replicate (entry.max_len - value.bytes.length) 0).length = entry.max_len := by
      rw [length_append, length_replicate]
      omega
    unfold encodeData
    rw [hvalue, Option.bind_eq_bind, Option.bind_some]
    dsimp only
    rw [hmax, hpadding, if_neg (by omega), Int.toNat_natCast, hchunk, hdata, Option.bind_eq_bind,
      Option.bind_some]
    refine ⟨_, _, rfl, ?_⟩
    dsimp only
    rw [length_append, length_append, hchunk, map_cons]
    unfold dataEnd
    rw [hsize, ← hend]
    omega

theorem WellFormed.encode_complete (h : psf.WellFormed) (hfits : psf.Fits) (hsize : psf.fileSize < 2^32) :
    ∃ bytes, psf.encode = some bytes ∧ bytes.length = psf.fileSize := by
  obtain ⟨raws, keys, hraws⟩ : ∃ raws keys, encodeKeys 0 psf.entry_list = (raws, keys) := ⟨_, _, rfl⟩
  obtain ⟨hraws_length, hkeys_length, hplaced⟩ := encodeKeys_spec hraws
  have hpairs : ∀ (j : ℕ) entry raw, (psf.entry_list.zip raws)[j]? = some (entry, raw) →
      raw.param_max_len = entry.max_len ∧ ∃ value, psf.value (0 + j) entry.param_fmt = some value ∧
        HasRoom entry.max_len value := by
    intro j entry raw hj
    obtain ⟨hentry, hraw⟩ := getElem?_zip_eq_some.mp hj
    obtain ⟨raw', hraw', -, hmax, -⟩ := hplaced j entry hentry
    obtain rfl := some.inj (hraw.symm.trans hraw')
    obtain ⟨value, hvalue, hmax_len⟩ := h.complete j entry hentry
    have hlength : value.bytes.length ≤ psf.valueSize j entry := by
      unfold valueSize
      rw [hvalue]
      exact le_max_right _ _
    have hend : psf.valueSize (0 + j) entry ≤ psf.dataEnd 0 psf.dataTable psf.entry_list :=
      valueSize_le_dataEnd hentry
    have hroom := hasRoom_of_le (hfits j entry value · hentry hvalue) (by
      rw [Nat.zero_add] at hend
      exact lt_of_le_of_lt (hlength.trans hend) hsize)
    exact ⟨hmax, value, by rwa [Nat.zero_add], by rwa [hmax_len]⟩
  have htable : psfHeaderSize + psfRawEntrySize * psf.entry_list.length + keys.length = psf.dataTable := by
    rw [hkeys_length]
    rfl
  obtain ⟨raws', data, hdata, hend⟩ : ∃ raws' data, psf.encodeData psf.dataTable 0 psf.dataTable
      (psf.entry_list.zip raws) = some (raws', data) ∧ _ := encodeData_complete hpairs
  unfold encode
  rw [hraws]
  dsimp only
  rw [htable, hdata]
  refine ⟨_, rfl, ?_⟩
  have hzip : (psf.entry_list.zip raws).map (·.1) = psf.entry_list :=
    map_fst_zip (Nat.le_of_eq hraws_length.symm)
  rw [hzip] at hend
  obtain ⟨hraws'_length, -⟩ := encodeData_spec (Nat.le_refl _) hdata
  rw [length_zip, hraws_length, Nat.min_self] at hraws'_length
  simp only [length_append, PSFHeader.length_bytes, PSFRawEntry.length_flatMap_bytes, hraws'_length]
  unfold fileSize
  omega

/-! ## The round trip -/

/-- The object is encoded, the file is opened, the object that is read has the same entries and values, and
it is encoded as the same file. -/
def RoundTrips (psf : PSF) : Prop :=
  ∃ bytes psf', psf.encode = some bytes ∧ openBuffer bytes = .ok (true, psf') ∧
    psf'.entry_list = psf.entry_list ∧ (∀ i fmt, psf'.value i fmt = psf.value i fmt) ∧
      psf'.encode = some bytes

/-- The sizes stay inside the words that they are stored in: the offsets of the file have 32 bits, and the
length of a value that is compared with the table is not negative as a signed word. -/
structure InRange (psf : PSF) : Prop where
  keys : keysSize psf.entry_list < 2^16
  file : psf.fileSize < 2^32
  known : ∀ i entry value size, psf.entry_list[i]? = some entry →
    psf.value i entry.param_fmt = some value → (entry.key, size) ∈ psfKnownMaxSizes →
      value.bytes.length < 2^31

theorem WellFormed.fits_of_encode (h : psf.WellFormed) (hrange : psf.InRange)
    (hencode : psf.encode = some bytes) : psf.Fits := by
  intro i entry value size hentry hvalue hknown
  obtain ⟨raws, keys, raws', data, hraws, hdata, -⟩ := encode_eq_some hencode
  obtain ⟨-, -, hkey_placed⟩ := encodeKeys_spec hraws
  obtain ⟨-, hplaced⟩ := encodeData_spec (Nat.le_refl _) hdata
  obtain ⟨raw, hraw, -, hmax, -⟩ := hkey_placed i entry hentry
  obtain ⟨-, -, -, -, -, value', hvalue', -, hpadding, -⟩ :=
    hplaced i entry raw (getElem?_zip_eq_some.mpr ⟨hentry, hraw⟩)
  rw [Nat.zero_add] at hvalue'
  obtain rfl := some.inj (hvalue.symm.trans hvalue')
  obtain ⟨value', hvalue', hmax_len⟩ := h.complete i entry hentry
  obtain rfl := some.inj (hvalue.symm.trans hvalue')
  -- Neither of the two words of the comparison is negative.
  have hle := maxLen_le hknown value
  have hsize := (psfKnownMaxSizes_le hknown).2
  rw [hmax, hmax_len, toS32_of_lt (by omega), toS32_of_lt (hrange.known i entry value size hentry hvalue hknown)]
    at hpadding
  omega

/-- **The round trip.** An object that was built by any calls is rebuilt from its encoding if and only if no
value is longer than the size that the table has for its key. -/
theorem roundTrips_iff {calls : List Call} (hrun : calls.foldlM Call.run {} = some psf)
    (hclean : ∀ call ∈ calls, call.Clean) (hrange : psf.InRange) : psf.RoundTrips ↔ psf.Fits := by
  have h := WellFormed.empty.foldlM hclean hrun
  constructor
  · rintro ⟨bytes, psf', hencode, -⟩
    exact h.fits_of_encode hrange hencode
  · intro hfits
    obtain ⟨bytes, hencode, hlength⟩ := h.encode_complete hfits hrange.file
    have hencoded := encode_spec hencode (hlength ▸ hrange.file) hrange.keys
    exact ⟨bytes, psf, hencode, h.openBuffer_eq hencoded, rfl, fun _ _ => rfl, hencode⟩

/-- Two calls for a small object. -/
def titleCalls : List Call :=
  [.addString (ascii "TITLE") (ascii "Game") false, .addInteger (ascii "APP_TYPE") 1 false]

theorem roundTrips_iff_title : ∃ psf, titleCalls.foldlM Call.run {} = some psf ∧ (psf.RoundTrips ↔ psf.Fits) := by
  refine ⟨_, rfl, roundTrips_iff (show titleCalls.foldlM Call.run {} = some _ from rfl) ?_ ⟨by decide, by decide, ?_⟩⟩
  · intro call hcall
    rcases mem_cons.mp hcall with rfl | hcall
    · exact ⟨by decide, by decide⟩
    · obtain rfl := mem_singleton.mp hcall
      show 0 ∉ ascii "APP_TYPE"
      decide
  · intro i entry value size hentry hvalue hknown
    have hkeys : ∀ pair ∈ psfKnownMaxSizes, pair.1 ≠ ascii "TITLE" ∧ pair.1 ≠ ascii "APP_TYPE" := by decide
    have hne := hkeys _ hknown
    rcases mem_cons.mp (mem_of_getElem? hentry) with rfl | hentry
    · exact absurd rfl hne.1
    · obtain rfl := mem_singleton.mp hentry
      exact absurd rfl hne.2

/-- A category of five letters is accepted by `AddString`, and `Encode` stops at it. -/
theorem encode_category : ∃ (calls : List Call) (psf : PSF), calls.foldlM Call.run {} = some psf ∧
    (∀ call ∈ calls, call.Clean) ∧ keysSize psf.entry_list < 2^16 ∧
      psf.value 0 .text = some (.text (ascii "gdxxx")) ∧ psf.encode = none ∧ ¬ psf.RoundTrips := by
  refine ⟨[.addString (ascii "CATEGORY") (ascii "gdxxx") false], _, rfl, ?_, by decide, rfl, rfl, ?_⟩
  · intro call hcall
    obtain rfl := mem_singleton.mp hcall
    exact ⟨by decide, by decide⟩
  · rintro ⟨bytes, psf', hencode, -⟩
    cases hencode

end PSF

end ShadPS4
