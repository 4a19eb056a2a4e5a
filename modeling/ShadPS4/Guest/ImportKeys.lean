import ShadPS4.Guest.Imports

/-!
# The keys of guest imports

The name of an import is an identifier and two encoded numbers, with `#` between them.
-/

namespace ShadPS4.Guest

open List
open Option (some.inj)

variable {digit library_id module_id : ℕ} {manifest : GuestLinkManifest}
  {records : List GuestLinkDependency} {registry : List (GuestImportKey × ℕ)}
  {exports : List GuestDataExport}

/-! ## Encoded numbers -/

theorem idxOf?_guestIdLetter (h : digit < 64) : guestIdAlphabet.idxOf? (guestIdLetter digit) = some digit := by
  have hall : ∀ d < 64, guestIdAlphabet.idxOf? (guestIdLetter d) = some d := by decide
  exact hall digit h

theorem guestIdLetter_ne (h : digit < 64) : guestIdLetter digit ≠ 0x23 := by
  have hall : ∀ d < 64, guestIdLetter d ≠ 0x23 := by decide
  exact hall digit h

theorem decodeDigits_letter (h : digit < 64) (rest : List UInt8) (value : ℕ) :
    decodeDigits (guestIdLetter digit :: rest) value = decodeDigits rest (value * 64 + digit) := by
  rw [decodeDigits, idxOf?_guestIdLetter h]

theorem encodeGuestId_eq (id : ℕ) : encodeGuestId id = (if id ≥ 4096 then [guestIdLetter (id / 4096 % 64)] else []) ++
      (if id ≥ 64 then [guestIdLetter (id / 64 % 64)] else []) ++ [guestIdLetter (id % 64)] := by
  have hand : ∀ n, n &&& 63 = n % 64 := fun n => Nat.and_two_pow_sub_one_eq_mod n 6
  unfold encodeGuestId
  rw [hand, hand, hand, Nat.shiftRight_eq_div_pow, Nat.shiftRight_eq_div_pow]

theorem separator_not_mem_encodeGuestId (id : ℕ) : 0x23 ∉ encodeGuestId id := by
  have hne : ∀ n, (0x23 : UInt8) ≠ guestIdLetter (n % 64) := fun n =>
    (guestIdLetter_ne (Nat.mod_lt n (by decide))).symm
  rw [encodeGuestId_eq]
  split <;> split <;> simp [hne]

theorem decodeDigits_encodeGuestId {id : ℕ} (h : id < 65536) : decodeDigits (encodeGuestId id) 0 = some id := by
  have hlt : ∀ n, n % 64 < 64 := fun n => Nat.mod_lt n (by decide)
  rw [encodeGuestId_eq]
  split
  · rw [if_pos (by omega), singleton_append, cons_append, singleton_append,
      decodeDigits_letter (hlt _), decodeDigits_letter (hlt _), decodeDigits_letter (hlt _),
      decodeDigits]
    congr 1
    omega
  · split
    · rw [nil_append, singleton_append, decodeDigits_letter (hlt _), decodeDigits_letter (hlt _), decodeDigits]
      congr 1
      omega
    · rw [nil_append, nil_append, decodeDigits_letter (hlt _), decodeDigits]
      congr 1
      omega

theorem length_encodeGuestId (id : ℕ) : 0 < (encodeGuestId id).length ∧ (encodeGuestId id).length ≤ 3 := by
  unfold encodeGuestId
  split <;> split <;> simp

theorem decodeGuestId_eq_some_iff {encoded : List UInt8} {id : ℕ} :
    decodeGuestId encoded = some id ↔ id < 65536 ∧ encoded = encodeGuestId id := by
  unfold decodeGuestId
  constructor
  · intro h
    obtain ⟨-, h⟩ := Option.ite_none_left_eq_some.mp h
    cases hdigits : decodeDigits encoded 0 with
    | none => simp [hdigits] at h
    | some value =>
      rw [hdigits] at h
      obtain ⟨hvalue, hid⟩ := Option.ite_none_left_eq_some.mp h
      rw [not_or, not_not, some.inj hid] at hvalue
      exact ⟨by omega, hvalue.2.symm⟩
  · rintro ⟨hlt, rfl⟩
    obtain ⟨hpos, hle⟩ := length_encodeGuestId id
    rw [if_neg, decodeDigits_encodeGuestId hlt]
    · simp only
      rw [if_neg]
      rw [not_or, not_not]
      exact ⟨by omega, rfl⟩
    · rw [not_or]
      exact ⟨length_pos_iff.mp hpos, by omega⟩

theorem encodeGuestId_inj {id id' : ℕ} (h : id < 65536) (h' : id' < 65536)
    (heq : encodeGuestId id = encodeGuestId id') : id = id' := by
  have hid := decodeGuestId_eq_some_iff.mpr ⟨h, rfl⟩
  rw [heq, decodeGuestId_eq_some_iff.mpr ⟨h', rfl⟩] at hid
  exact (some.inj hid).symm

/-- The name made of an identifier and two numbers. -/
def importName (nid : List UInt8) (library_id module_id : ℕ) : List UInt8 :=
  nid ++ 0x23 :: (encodeGuestId library_id ++ 0x23 :: encodeGuestId module_id)

theorem findHash_spec {name : List UInt8} {start n : ℕ} (h : findHash name start = some n) :
    start ≤ n ∧ 0x23 ∉ (name.drop start).take (n - start) ∧
      name.drop start = (name.drop start).take (n - start) ++ 0x23 :: name.drop (n + 1) := by
  obtain ⟨k, hk, rfl⟩ := Option.map_eq_some_iff.mp h
  obtain ⟨hlt, hhere, hbefore⟩ := findIdx?_eq_some_iff_getElem.mp hk
  rw [Nat.add_sub_cancel_left]
  refine ⟨Nat.le_add_right _ _, fun hmem => ?_, ?_⟩
  · obtain ⟨j, hj, hget⟩ := mem_take_iff_getElem.mp hmem
    have hnot := hbefore j (by omega)
    rw [hget] at hnot
    exact hnot rfl
  · have hdrop : name.drop (start + k + 1) = (name.drop start).drop (k + 1) := by
      rw [drop_drop, Nat.add_assoc]
    conv_lhs => rw [← take_append_drop k (name.drop start), drop_eq_getElem_cons hlt]
    rw [beq_iff_eq.mp hhere, hdrop]

theorem separator_not_mem_of_valid {text : List UInt8} (h : validGuestKeyPart text = true) : 0x23 ∉ text := by
  intro hmem
  obtain ⟨-, hall⟩ := Bool.and_eq_true_iff.mp h
  have := all_eq_true.mp hall 0x23 hmem
  simp at this

theorem append_separator_inj {xs ys us vs : List UInt8} (hxs : 0x23 ∉ xs) (hys : 0x23 ∉ ys)
    (h : xs ++ 0x23 :: us = ys ++ 0x23 :: vs) : xs = ys ∧ us = vs := by
  induction xs generalizing ys with
  | nil =>
    cases ys with
    | nil => exact ⟨rfl, tail_eq_of_cons_eq h⟩
    | cons y ys => exact absurd (head_eq_of_cons_eq h) (ne_of_not_mem_cons hys)
  | cons x xs ih =>
    cases ys with
    | nil => exact absurd (head_eq_of_cons_eq h).symm (ne_of_not_mem_cons hxs)
    | cons y ys =>
      obtain ⟨rfl, htail⟩ := List.cons.inj h
      obtain ⟨rfl, hrest⟩ := ih (not_mem_of_not_mem_cons hxs) (not_mem_of_not_mem_cons hys) htail
      exact ⟨rfl, hrest⟩

theorem importName_inj {nid nid' : List UInt8} {library_id' module_id' : ℕ}
    (hnid : 0x23 ∉ nid) (hnid' : 0x23 ∉ nid') (hl : library_id < 65536) (hl' : library_id' < 65536)
    (hm : module_id < 65536) (hm' : module_id' < 65536)
    (h : importName nid library_id module_id = importName nid' library_id' module_id') :
    nid = nid' ∧ library_id = library_id' ∧ module_id = module_id' := by
  obtain ⟨rfl, hrest⟩ := append_separator_inj hnid hnid' h
  obtain ⟨hlibrary, hmodule⟩ := append_separator_inj (separator_not_mem_encodeGuestId _)
    (separator_not_mem_encodeGuestId _) hrest
  exact ⟨rfl, encodeGuestId_inj hl hl' hlibrary, encodeGuestId_inj hm hm' hmodule⟩

/-! ## The key of an import -/

/-- The number of a module or a library: the high part of its packed value. -/
def GuestLinkDependency.id (entry : GuestLinkDependency) : ℕ := (entry.packed >>> 48) % 2^16

/-- A name that a module or a library may have. -/
def GuestLinkDependency.Accepted (entry : GuestLinkDependency) : Prop :=
  validGuestKeyPart entry.name = true

instance : DecidablePred GuestLinkDependency.Accepted := fun entry =>
  inferInstanceAs (Decidable (validGuestKeyPart entry.name = true))

theorem GuestLinkDependency.id_lt (entry : GuestLinkDependency) : entry.id < 65536 :=
  Nat.mod_lt _ (by decide)

/-- The module and library records of a manifest are valid: their names are parts of keys, and no
number is repeated. -/
structure GuestLinkManifest.ValidRecords (manifest : GuestLinkManifest) : Prop where
  modules : Insertable GuestLinkDependency.Accepted GuestLinkDependency.id manifest.module_records
  libraries :
    Insertable GuestLinkDependency.Accepted GuestLinkDependency.id manifest.library_records

/-- What the manifest says of import `i`: its symbol, the two numbers in its name, and its key, which
has the identifier of the name, the type of the symbol, and the names and versions of the records with
the numbers. -/
structure HasKey (manifest : GuestLinkManifest) (i symbol library_id module_id : ℕ)
    (key : GuestImportKey) : Prop where
  symbol_eq : manifest.import_symbol_indices[i]? = some symbol
  name_eq : manifest.imports[i]? = some (importName key.nid library_id module_id)
  nid : validGuestKeyPart key.nid = true
  type : ∃ info, manifest.symbol_records[symbol]? = some info ∧ key.type = UInt8.ofNat info.type
  library : ∃ library ∈ manifest.library_records, library.id = library_id ∧
    key.library = library.name ∧ key.library_version = UInt16.ofNat (library.packed >>> 32)
  module_record : ∃ module_record ∈ manifest.module_records, module_record.id = module_id ∧
    key.module_name = module_record.name ∧
    key.module_major = UInt8.ofNat (module_record.packed >>> 40) ∧
    key.module_minor = UInt8.ofNat (module_record.packed >>> 32)

theorem HasKey.unique (hrecords : manifest.ValidRecords)
    {i symbol symbol' library_id' module_id' : ℕ} {key key' : GuestImportKey}
    (h : HasKey manifest i symbol library_id module_id key)
    (h' : HasKey manifest i symbol' library_id' module_id' key') :
    symbol = symbol' ∧ library_id = library_id' ∧ module_id = module_id' ∧ key = key' := by
  obtain rfl : symbol = symbol' := some.inj (h.symbol_eq.symm.trans h'.symbol_eq)
  obtain ⟨info, hinfo, htype⟩ := h.type
  obtain ⟨info', hinfo', htype'⟩ := h'.type
  obtain ⟨library, hlibrary, rfl, hlname, hlversion⟩ := h.library
  obtain ⟨library', hlibrary', rfl, hlname', hlversion'⟩ := h'.library
  obtain ⟨record, hrecord, rfl, hmname, hmajor, hminor⟩ := h.module_record
  obtain ⟨record', hrecord', rfl, hmname', hmajor', hminor'⟩ := h'.module_record
  -- The two names are one, so its parts are.
  have hname := some.inj (h.name_eq.symm.trans h'.name_eq)
  obtain ⟨hnid, hlid, hmid⟩ := importName_inj (separator_not_mem_of_valid h.nid)
    (separator_not_mem_of_valid h'.nid) library.id_lt library'.id_lt record.id_lt record'.id_lt hname
  obtain rfl := hrecords.libraries.eq_of_key_eq hlibrary hlibrary' hlid
  obtain rfl := hrecords.modules.eq_of_key_eq hrecord hrecord' hmid
  cases key
  cases key'
  simp_all

/-! ## One binding for each import -/

/-- The map of the modules or of the libraries, by their numbers. -/
def recordsById (records : List GuestLinkDependency) : List (ℕ × GuestLinkDependency) :=
  records.map fun entry => (entry.id, entry)

theorem mem_of_lookup_recordsById {id : ℕ}
    {entry : GuestLinkDependency} (h : (recordsById records).lookup id = some entry) :
    entry ∈ records ∧ entry.id = id := by
  obtain ⟨entry', hmem, heq⟩ := mem_map.mp (mem_of_lookup h)
  obtain ⟨rfl, rfl⟩ := Prod.mk.inj heq
  exact ⟨hmem, rfl⟩

theorem importName_of_findHash {name : List UInt8} {first second : ℕ}
    (hfirst : findHash name 0 = some first) (hsecond : findHash name (first + 1) = some second)
    (hlibrary : decodeGuestId ((name.drop (first + 1)).take (second - first - 1)) = some library_id)
    (hmodule : decodeGuestId (name.drop (second + 1)) = some module_id) :
    name = importName (name.take first) library_id module_id := by
  obtain ⟨-, -, hname⟩ := findHash_spec hfirst
  obtain ⟨-, -, hrest⟩ := findHash_spec hsecond
  rw [Nat.sub_add_eq] at hrest
  unfold importName
  rw [← (decodeGuestId_eq_some_iff.mp hlibrary).2, ← (decodeGuestId_eq_some_iff.mp hmodule).2, ← hrest]
  exact hname

theorem resolveImport_keyed {state : ResolveState} {i : ℕ} :
    Sat (resolveImport manifest registry (recordsById manifest.library_records)
      (recordsById manifest.module_records) state i) (fun state' => ∃ x : GuestImportBinding,
        HasKey manifest i x.symbol x.library_id x.module_id x.key ∧
        state'.result.bindings = state.result.bindings ++ [x] ∧
        state'.result.matched + state'.result.unresolved =
          state.result.matched + state.result.unresolved + 1)
      (fun _ => True) := by
  refine Sat.bind Sat.fetch_ok fun symbol hsymbol => ?_
  refine Sat.bind (Sat.failIf fun _ => trivial) fun _ _ => ?_
  refine Sat.bind Sat.fetch_ok fun before _ => ?_
  refine Sat.bind (Sat.failIf fun _ => trivial) fun _ _ => ?_
  refine Sat.bind (P := fun _ => True) ⟨fun _ _ => trivial, fun _ _ => trivial⟩ fun seen _ => ?_
  refine Sat.bind Sat.fetch_ok fun info hinfo => ?_
  refine Sat.bind (Sat.failIf fun _ => trivial) fun _ _ => ?_
  refine Sat.bind Sat.fetch_ok fun name hname => ?_
  split
  · exact Sat.error
  · rename_i first hfirst
    split
    · exact Sat.error
    · rename_i second hsecond
      refine Sat.bind (Sat.failIf fun _ => trivial) fun _ hshape => ?_
      rw [not_or, Bool.not_eq_false] at hshape
      split
      · rename_i library_id module_id hlibrary_id hmodule_id
        split
        · exact Sat.error
        · exact Sat.error
        · rename_i library module_record hlibrary hmodule
          obtain ⟨hlmem, hlid⟩ := mem_of_lookup_recordsById hlibrary
          obtain ⟨hmmem, hmid⟩ := mem_of_lookup_recordsById hmodule
          generalize hkey : ({
            nid := _, library := _, module_name := _, library_version := _, module_major := _,
            module_minor := _, type := _ } : GuestImportKey) = key
          have hspec : HasKey manifest i symbol library_id module_id key := by
            subst hkey
            refine ⟨hsymbol, ?_, hshape.2, ⟨info, hinfo, rfl⟩, ⟨library, hlmem, hlid, rfl, rfl⟩,
              ⟨module_record, hmmem, hmid, rfl, rfl, rfl⟩⟩
            rw [hname, ← importName_of_findHash hfirst hsecond hlibrary_id hmodule_id]
          simp only
          split
          · exact Sat.pure ⟨⟨symbol, library_id, module_id, key, 0⟩, hspec, rfl, (Nat.add_assoc _ _ _).symm⟩
          · rename_i address _
            refine Sat.bind (P := fun _ => True) ⟨fun _ _ => trivial, fun _ _ => trivial⟩
              fun addresses _ => ?_
            exact Sat.pure ⟨⟨symbol, library_id, module_id, key, address⟩, hspec, rfl, Nat.add_right_comm _ _ _⟩
      · exact Sat.error

/-- After the first `i` imports, the plan has a binding for each of them. -/
structure Keyed (manifest : GuestLinkManifest) (i : ℕ) (plan : GuestImportPlan) : Prop where
  length_eq : plan.bindings.length = i
  count_eq : plan.matched + plan.unresolved = i
  hasKey : ∀ (j : ℕ) (x : GuestImportBinding), plan.bindings[j]? = some x →
    HasKey manifest j x.symbol x.library_id x.module_id x.key

theorem resolveImports_keyed {state : ResolveState} (n : ℕ) (h : Keyed manifest 0 state.result) :
    Sat ((range n).foldlM (resolveImport manifest registry
      (recordsById manifest.library_records) (recordsById manifest.module_records)) state)
      (fun state' => Keyed manifest n state'.result) (fun _ => True) := by
  refine Sat.foldlM_range (I := fun i (state : ResolveState) => Keyed manifest i state.result) h
    fun i _ state hstate => resolveImport_keyed.mono ?_
  rintro state' ⟨x, hx, hbindings, hcount⟩
  refine ⟨?_, by rw [hcount, hstate.count_eq], fun j y hy => ?_⟩
  · rw [hbindings, length_append, hstate.length_eq]
    rfl
  · rw [hbindings] at hy
    rcases Nat.lt_trichotomy j i with hlt | rfl | hlt
    · rw [getElem?_append_left (by rw [hstate.length_eq]; exact hlt)] at hy
      exact hstate.hasKey j y hy
    · rw [getElem?_append_right (by rw [hstate.length_eq]), hstate.length_eq, Nat.sub_self] at hy
      obtain rfl : x = y := some.inj hy
      exact hx
    · rw [getElem?_eq_none] at hy
      · simp at hy
      · rw [length_append, hstate.length_eq]
        exact hlt

/-! ## What is registered -/

def GuestDataExport.Accepted (entry : GuestDataExport) : Prop :=
  ¬ (validGuestKeyPart entry.key.nid = false ∨ validGuestKeyPart entry.key.library = false ∨
    validGuestKeyPart entry.key.module_name = false ∨ entry.key.type > 2 ∨
    entry.numeric_address = 0)

instance : DecidablePred GuestDataExport.Accepted := fun _ => instDecidableNot

def exportsByKey (exports : List GuestDataExport) : List (GuestImportKey × ℕ) :=
  exports.map fun entry => (entry.key, entry.numeric_address.toNat)

theorem registerExport_eq (result : GuestImportPlan) :
    registerExport result = insertNew GuestDataExport.Accepted (·.key) (·.numeric_address.toNat)
      (result.failed "invalid_data_export") (result.failed "duplicate_export_key") := by
  funext registry entry
  unfold registerExport insertNew
  rw [failIf_congr (q := ¬ entry.Accepted)]
  unfold GuestDataExport.Accepted
  rw [not_not]

theorem registerDependency_eq (result : GuestImportPlan) (invalid_name duplicate_id : String) :
    registerDependency result invalid_name duplicate_id =
      insertNew GuestLinkDependency.Accepted GuestLinkDependency.id (fun entry => entry)
        (result.failed invalid_name) (result.failed duplicate_id) := by
  funext dependencies entry
  unfold registerDependency insertNew
  rw [failIf_congr (q := ¬ entry.Accepted)]
  · rfl
  · unfold GuestLinkDependency.Accepted
    rw [Bool.not_eq_true]

theorem registerDependencies_ok (h : Insertable GuestLinkDependency.Accepted GuestLinkDependency.id records)
    (result : GuestImportPlan) (invalid_name duplicate_id : String) :
    records.foldlM (registerDependency result invalid_name duplicate_id) [] = .ok (recordsById records) := by
  rw [registerDependency_eq, foldlM_insertNew_eq_ok]
  exact ⟨h, rfl⟩

section

variable (manifest : GuestLinkManifest)

/-- The rest of `ResolveGuestImports`, with the registry of the exports. -/
def resolveWith (registry : List (GuestImportKey × ℕ)) :
    Except (Stop GuestImportPlan) GuestImportPlan := do
  let result : GuestImportPlan := { exports := registry.length }
  let modules ← manifest.module_records.foldlM
    (registerDependency result "invalid_module_name" "duplicate_module_id") []
  let libraries ← manifest.library_records.foldlM
    (registerDependency result "invalid_library_name" "duplicate_library_id") []
  let result := { result with addresses_by_symbol := replicate manifest.symbols 0 }
  let state ← (range manifest.imports.length).foldlM
    (resolveImport manifest registry libraries modules)
    { result, seen := replicate manifest.symbols false }
  pure { state.result with valid := true }

/-- The manifest exceeds a budget, or its records were not collected. -/
def GuestLinkManifest.Unavailable : Prop :=
  manifest.valid = false ∨ manifest.symbols > 131072 ∨
    manifest.symbol_records.length ≠ manifest.symbols ∨ manifest.imports.length > 8192 ∨
    manifest.import_symbol_indices.length ≠ manifest.imports.length ∨
    manifest.module_records.length ≠ manifest.modules.length ∨
    manifest.library_records.length ≠ manifest.libraries.length ∨
    manifest.module_records.length + manifest.library_records.length > 512

instance : DecidablePred GuestLinkManifest.Unavailable := fun _ => instDecidableOr

theorem resolveGuestImports_eq (exports : List GuestDataExport) :
    resolveGuestImports manifest exports = (do
      failIf manifest.Unavailable (({} : GuestImportPlan).failed "manifest_records_unavailable_or_budget")
      failIf (exports.length > 4096) (({} : GuestImportPlan).failed "export_registry_budget")
      let registry ← exports.foldlM (registerExport {}) []
      resolveWith manifest registry) := rfl

end

theorem resolveWith_eq (hrecords : manifest.ValidRecords) (registry : List (GuestImportKey × ℕ)) :
    resolveWith manifest registry = (do
      let state ← (range manifest.imports.length).foldlM
        (resolveImport manifest registry (recordsById manifest.library_records) (recordsById manifest.module_records))
        { result := {
            exports := registry.length
            addresses_by_symbol := replicate manifest.symbols 0 }
          seen := replicate manifest.symbols false }
      pure { state.result with valid := true }) := by
  unfold resolveWith
  simp only
  rw [registerDependencies_ok hrecords.modules, registerDependencies_ok hrecords.libraries]
  rfl

theorem resolveGuestImports_keyed (hrecords : manifest.ValidRecords) (exports : List GuestDataExport) :
    Sat (resolveGuestImports manifest exports) (Keyed manifest manifest.imports.length) (fun _ => True) := by
  rw [resolveGuestImports_eq]
  refine Sat.bind (Sat.failIf fun _ => trivial) fun _ _ => ?_
  refine Sat.bind (Sat.failIf fun _ => trivial) fun _ _ => ?_
  refine Sat.bind (P := fun _ => True) ⟨fun _ _ => trivial, fun _ _ => trivial⟩ fun registry _ => ?_
  rw [resolveWith_eq hrecords]
  refine Sat.bind (resolveImports_keyed _ ⟨rfl, rfl, by simp⟩) fun state hstate => ?_
  exact Sat.pure ⟨hstate.length_eq, hstate.count_eq, hstate.hasKey⟩

/-! ## The addresses of a valid plan -/

/-- What a valid plan is: a binding for each import in their order, each counted once, and for every
symbol the address of the export with its key, or zero. -/
structure GuestImportPlan.Complete (manifest : GuestLinkManifest) (exports : List GuestDataExport)
    (plan : GuestImportPlan) : Prop where
  keyed : Keyed manifest manifest.imports.length plan
  length_eq : plan.addresses_by_symbol.length = manifest.symbols
  address_iff : ∀ (s address : ℕ), plan.addresses_by_symbol[s]? = some address →
    (address ≠ 0 ↔ ∃ i library_id module_id key,
      HasKey manifest i s library_id module_id key ∧ ∃ entry ∈ exports, entry.key = key)
  address_eq : ∀ (i s library_id module_id : ℕ) (entry : GuestDataExport), entry ∈ exports →
    HasKey manifest i s library_id module_id entry.key →
      plan.addresses_by_symbol[s]? = some entry.numeric_address.toNat
  unbound : ∀ s < manifest.symbols, s ∉ manifest.import_symbol_indices →
    plan.addresses_by_symbol[s]? = some 0

theorem Resolved.exists_binding (hrecords : manifest.ValidRecords) {plan : GuestImportPlan}
    (h : Resolved manifest.symbols manifest.import_symbol_indices exports plan)
    {n : ℕ} (hkeyed : Keyed manifest n plan) {i s : ℕ} {key : GuestImportKey}
    (hkey : HasKey manifest i s library_id module_id key) : ∃ x ∈ plan.bindings, x.symbol = s ∧ x.key = key := by
  have hindex := hkey.symbol_eq
  rw [← h.symbols_eq, getElem?_map] at hindex
  obtain ⟨x, hx, rfl⟩ := Option.map_eq_some_iff.mp hindex
  obtain ⟨-, -, -, heq⟩ := (hkeyed.hasKey i x hx).unique hrecords hkey
  exact ⟨x, mem_of_getElem? hx, rfl, heq⟩

theorem Resolved.complete (hrecords : manifest.ValidRecords) {plan : GuestImportPlan}
    (h : Resolved manifest.symbols manifest.import_symbol_indices exports plan)
    (hkeyed : Keyed manifest manifest.imports.length plan)
    (hdistinct : exports.Pairwise fun entry other => entry.key ≠ other.key) : plan.Complete manifest exports where
  keyed := hkeyed
  length_eq := h.length_eq
  address_iff := by
    intro s address haddress
    constructor
    · intro hne
      -- Only an imported symbol has an address, and its binding has the key.
      obtain ⟨hlt, -⟩ := List.getElem?_eq_some_iff.mp haddress
      rw [h.length_eq] at hlt
      have hmem : s ∈ manifest.import_symbol_indices := by
        by_contra hnot
        rw [h.unbound s hlt hnot] at haddress
        exact hne (some.inj haddress).symm
      rw [← h.symbols_eq] at hmem
      obtain ⟨x, hx, rfl⟩ := mem_map.mp hmem
      obtain ⟨j, hj⟩ := mem_iff_getElem?.mp hx
      rw [h.address x hx] at haddress
      obtain rfl := some.inj haddress
      rcases h.bound x hx with ⟨hzero, -⟩ | ⟨-, entry, hentry, hkey, -⟩
      · exact absurd hzero hne
      · exact ⟨j, x.library_id, x.module_id, x.key, hkeyed.hasKey j x hj, entry, hentry, hkey⟩
    · rintro ⟨i, library_id, module_id, key, hkey, entry, hentry, hentry_key⟩
      obtain ⟨x, hx, rfl, hxkey⟩ := h.exists_binding hrecords hkeyed hkey
      rw [h.address x hx] at haddress
      obtain rfl := some.inj haddress
      rcases h.bound x hx with ⟨-, hnone⟩ | ⟨hne, -⟩
      · exact absurd (hentry_key.trans hxkey.symm) (hnone entry hentry)
      · exact hne
  address_eq := by
    intro i s library_id module_id entry hentry hkey
    obtain ⟨x, hx, rfl, hxkey⟩ := h.exists_binding hrecords hkeyed hkey
    rw [h.address x hx]
    rcases h.bound x hx with ⟨-, hnone⟩ | ⟨-, entry', hentry', hkey', haddress⟩
    · exact absurd hxkey.symm (hnone entry hentry)
    · -- No two exports have the key.
      have hsame : entry' = entry := by
        by_contra hne
        have hkeys := pairwise_map.mpr hdistinct
        exact hne (inj_on_of_nodup_map hkeys hentry' hentry (hkey'.trans hxkey))
      rw [← hsame, haddress]
  unbound := h.unbound

/-! ## The order of the exports and of the records -/

/-- The manifest with its module and library records in another order. -/
def GuestLinkManifest.withRecords (manifest : GuestLinkManifest)
    (module_records library_records : List GuestLinkDependency) : GuestLinkManifest :=
  { manifest with module_records, library_records }

theorem resolveImport_congr (manifest : GuestLinkManifest)
    (module_records library_records : List GuestLinkDependency) {registry' : List (GuestImportKey × ℕ)}
    {libraries libraries' modules modules' : List (ℕ × GuestLinkDependency)}
    (hregistry : ∀ key, registry'.lookup key = registry.lookup key)
    (hlibraries : ∀ id, libraries'.lookup id = libraries.lookup id)
    (hmodules : ∀ id, modules'.lookup id = modules.lookup id) :
    resolveImport (manifest.withRecords module_records library_records) registry' libraries' modules' =
      resolveImport manifest registry libraries modules := by
  unfold resolveImport
  simp only [hregistry, hlibraries, hmodules]
  rfl

theorem lookup_recordsById {records' : List GuestLinkDependency} (hperm : records'.Perm records)
    (h : Insertable GuestLinkDependency.Accepted GuestLinkDependency.id records) (id : ℕ) :
    (recordsById records').lookup id = (recordsById records).lookup id := by
  refine lookup_perm (hperm.map _) ?_ id
  rw [map_fst_pairs]
  exact (h.perm hperm.symm).2

theorem lookup_exportsByKey {exports' : List GuestDataExport} (hperm : exports'.Perm exports)
    (h : Insertable GuestDataExport.Accepted GuestDataExport.key exports) (key : GuestImportKey) :
    (exportsByKey exports').lookup key = (exportsByKey exports).lookup key := by
  refine lookup_perm (hperm.map _) ?_ key
  rw [map_fst_pairs]
  exact (h.perm hperm.symm).2

theorem resolveGuestImports_perm (hrecords : manifest.ValidRecords) {exports' : List GuestDataExport}
    {module_records library_records : List GuestLinkDependency} (hexports : exports'.Perm exports)
    (hmodules : module_records.Perm manifest.module_records)
    (hlibraries : library_records.Perm manifest.library_records) :
    resolveGuestImports (manifest.withRecords module_records library_records) exports' =
        resolveGuestImports manifest exports ∨
      ∃ error error', resolveGuestImports manifest exports = .error (.fail { error := error }) ∧
        resolveGuestImports (manifest.withRecords module_records library_records) exports' =
          .error (.fail { error := error' }) ∧
        ((∀ entry ∈ exports, entry.Accepted) ∨
          ((exports.filter (·.Accepted)).map GuestDataExport.key).Nodup → error' = error) := by
  have hrecords' : (manifest.withRecords module_records library_records).ValidRecords :=
    ⟨hrecords.modules.perm hmodules.symm, hrecords.libraries.perm hlibraries.symm⟩
  have hunavailable : (manifest.withRecords module_records library_records).Unavailable ↔ manifest.Unavailable := by
    unfold GuestLinkManifest.Unavailable GuestLinkManifest.withRecords
    rw [hmodules.length_eq, hlibraries.length_eq]
  rw [resolveGuestImports_eq, resolveGuestImports_eq, failIf_congr hunavailable, hexports.length_eq]
  -- The budgets do not depend on the order.
  by_cases hbudget : manifest.Unavailable
  · left
    rw [failIf_pos hbudget]
    rfl
  rw [failIf_neg hbudget]
  by_cases hlong : exports.length > 4096
  · left
    rw [failIf_pos hlong]
    rfl
  rw [failIf_neg hlong, registerExport_eq]
  by_cases hins : Insertable GuestDataExport.Accepted GuestDataExport.key exports
  · left
    rw [foldlM_insertNew_eq_ok.mpr ⟨hins, rfl⟩, foldlM_insertNew_eq_ok.mpr ⟨hins.perm hexports.symm, rfl⟩]
    show resolveWith _ (exportsByKey exports') = resolveWith _ (exportsByKey exports)
    have hlength : (exportsByKey exports').length = (exportsByKey exports).length := by
      unfold exportsByKey
      rw [length_map, length_map, hexports.length_eq]
    have himport : resolveImport (manifest.withRecords module_records library_records) (exportsByKey exports')
        (recordsById (manifest.withRecords module_records library_records).library_records)
        (recordsById (manifest.withRecords module_records library_records).module_records) =
        resolveImport manifest (exportsByKey exports) (recordsById manifest.library_records)
          (recordsById manifest.module_records) :=
      resolveImport_congr manifest module_records library_records (lookup_exportsByKey hexports hins)
        (lookup_recordsById hlibraries hrecords.libraries)
        (lookup_recordsById hmodules hrecords.modules)
    rw [resolveWith_eq hrecords', resolveWith_eq hrecords, hlength, himport]
    rfl
  · right
    obtain ⟨result, result', heq, heq', hresult, hresult', hsame⟩ :=
      foldlM_insertNew_perm (fun entry => entry.numeric_address.toNat)
        (({} : GuestImportPlan).failed "invalid_data_export")
        (({} : GuestImportPlan).failed "duplicate_export_key") hexports.symm hins
    obtain ⟨error, rfl⟩ : ∃ error, result = { error := error } := by
      rcases mem_pair.mp hresult with rfl | rfl
      · exact ⟨_, rfl⟩
      · exact ⟨_, rfl⟩
    obtain ⟨error', rfl⟩ : ∃ error, result' = { error := error } := by
      rcases mem_pair.mp hresult' with rfl | rfl
      · exact ⟨_, rfl⟩
      · exact ⟨_, rfl⟩
    refine ⟨error, error', ?_, ?_, fun hor => congrArg GuestImportPlan.error (hsame hor)⟩
    · rw [heq]
      rfl
    · rw [heq']
      rfl

/-- A valid plan of a manifest with valid records is complete. -/
theorem resolveGuestImports_exact (manifest : GuestLinkManifest) (hrecords : manifest.ValidRecords)
    (exports : List GuestDataExport) :
    (∀ plan, returns (resolveGuestImports manifest exports) = some plan → plan.valid = true →
      plan.Complete manifest exports) ∧
    ∀ (exports' : List GuestDataExport) (module_records library_records : List GuestLinkDependency),
      exports'.Perm exports → module_records.Perm manifest.module_records →
      library_records.Perm manifest.library_records →
      ∃ plan plan', returns (resolveGuestImports manifest exports) = some plan ∧
        returns (resolveGuestImports (manifest.withRecords module_records library_records) exports') = some plan' ∧
        plan' = { plan with error := plan'.error } ∧
        ((∀ entry ∈ exports, entry.Accepted) ∨
          ((exports.filter (·.Accepted)).map GuestDataExport.key).Nodup → plan' = plan) := by
  have hsat := resolveGuestImports_sat manifest exports
  constructor
  · intro plan hplan hvalid
    cases hrun : resolveGuestImports manifest exports with
    | ok plan' =>
      rw [hrun] at hplan
      obtain rfl : plan' = plan := some.inj hplan
      obtain ⟨-, -, hdistinct, hresolved⟩ := hsat.1 plan' hrun
      exact hresolved.complete hrecords ((resolveGuestImports_keyed hrecords exports).1 plan' hrun) hdistinct
    | error stop =>
      -- A plan that is returned early is not valid.
      have hfails := hsat.2 stop hrun
      rw [hrun] at hplan
      cases stop with
      | fault => exact absurd hfails id
      | fail result =>
        obtain rfl : result = plan := some.inj hplan
        exact absurd hvalid (by rw [show result.valid = false from hfails]; decide)
  · intro exports' module_records library_records hexports hmodules hlibraries
    rcases resolveGuestImports_perm hrecords hexports hmodules hlibraries with
      heq | ⟨error, error', heq, heq', hsame⟩
    · obtain ⟨plan, hplan, -⟩ := hsat.exists_returns
      exact ⟨plan, plan, hplan, by rw [heq, hplan], rfl, fun _ => rfl⟩
    · refine ⟨_, _, by rw [heq]; rfl, by rw [heq']; rfl, rfl, fun hor => ?_⟩
      rw [hsame hor]

/-- A manifest with one import, `N#B#A`. -/
def keySample : GuestLinkManifest where
  valid := true
  symbols := 2
  symbol_records := [{}, { binding := 1, type := 1 }]
  imports := [[0x4e, 0x23, 0x42, 0x23, 0x41]]
  import_symbol_indices := [1]
  modules := [[0x4d]]
  libraries := [[0x4c]]
  module_records := [⟨[0x4d], 0x10200000000⟩]
  library_records := [⟨[0x4c], 0x1000300000000⟩]

/-- The key of the import of `keySample`. -/
def keySampleKey : GuestImportKey := ⟨[0x4e], [0x4c], [0x4d], 3, 1, 2, 1⟩

theorem keySample_validRecords : keySample.ValidRecords :=
  ⟨⟨by decide, by decide⟩, ⟨by decide, by decide⟩⟩

theorem resolveGuestImports_exact_sample :
    ∃ plan, returns (resolveGuestImports keySample [⟨keySampleKey, 0x1000⟩]) = some plan ∧
      plan.addresses_by_symbol = [0, 0x1000] ∧ plan.Complete keySample [⟨keySampleKey, 0x1000⟩] := by
  have hplan : returns (resolveGuestImports keySample [⟨keySampleKey, 0x1000⟩]) = some {
      valid := true
      exports := 1
      matched := 1
      bindings := [⟨1, 1, 0, keySampleKey, 0x1000⟩]
      addresses_by_symbol := [0, 0x1000] } := by decide
  exact ⟨_, hplan, rfl, (resolveGuestImports_exact keySample keySample_validRecords _).1 _ hplan rfl⟩

/-- With both an export without an address and a repeated key, the error is that of the first one in
the list. -/
theorem resolveGuestImports_order_sample : ∃ (manifest : GuestLinkManifest) (exports exports' : List GuestDataExport),
      manifest.ValidRecords ∧ exports'.Perm exports ∧ returns (resolveGuestImports manifest exports') ≠
        returns (resolveGuestImports manifest exports) := by
  refine ⟨keySample, [⟨keySampleKey, 0⟩, ⟨keySampleKey, 0x1000⟩, ⟨keySampleKey, 0x1000⟩],
    [⟨keySampleKey, 0x1000⟩, ⟨keySampleKey, 0x1000⟩, ⟨keySampleKey, 0⟩],
    keySample_validRecords, by decide, by decide⟩

end ShadPS4.Guest
