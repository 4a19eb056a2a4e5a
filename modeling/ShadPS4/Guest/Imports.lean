import ShadPS4.Guest.ManifestSpec
import ShadPS4.Lib.Registry

/-!
# Resolution of guest imports

`ResolveGuestImports` looks every import of a manifest up in a registry of numeric exports.
-/

namespace ShadPS4.Guest

open List

variable {result : GuestImportPlan}

/-! ## The resolver -/

/-- `GuestIdAlphabet`: the letters, the digits, `+` and `-`. -/
def guestIdAlphabet : List UInt8 :=
  ((range 26).map (65 + ·) ++ (range 26).map (97 + ·) ++ (range 10).map (48 + ·) ++
    [43, 45]).map UInt8.ofNat

def guestIdLetter (digit : ℕ) : UInt8 := (guestIdAlphabet[digit]?).getD 0

def encodeGuestId (id : ℕ) : List UInt8 :=
  (if id ≥ 4096 then [guestIdLetter ((id >>> 12) &&& 63)] else []) ++
    (if id ≥ 64 then [guestIdLetter ((id >>> 6) &&& 63)] else []) ++ [guestIdLetter (id &&& 63)]

/-- The digits of an encoded number, most significant first. -/
def decodeDigits : List UInt8 → ℕ → Option ℕ
  | [], value => some value
  | c :: rest, value =>
    match guestIdAlphabet.idxOf? c with
    | none => none
    | some digit => decodeDigits rest (value * 64 + digit)

def decodeGuestId (encoded : List UInt8) : Option ℕ :=
  if encoded = [] ∨ encoded.length > 3 then none
  else match decodeDigits encoded 0 with
    | none => none
    | some value => if value > 65535 ∨ encodeGuestId value ≠ encoded then none else some value

structure GuestImportKey where
  nid : List UInt8 := []
  library : List UInt8 := []
  module_name : List UInt8 := []
  library_version : UInt16 := 0
  module_major : UInt8 := 0
  module_minor : UInt8 := 0
  type : UInt8 := 0
deriving DecidableEq

structure GuestDataExport where
  key : GuestImportKey
  numeric_address : UInt64
deriving DecidableEq

structure GuestImportBinding where
  symbol : ℕ := 0
  library_id : ℕ := 0
  module_id : ℕ := 0
  key : GuestImportKey := {}
  numeric_address : ℕ := 0
deriving DecidableEq

structure GuestImportPlan where
  valid : Bool := false
  /-- why the manifest or the registry was refused -/
  error : String := ""
  exports : ℕ := 0
  matched : ℕ := 0
  /-- the number of imports not found -/
  unresolved : ℕ := 0
  bindings : List GuestImportBinding := []
  addresses_by_symbol : List ℕ := []
deriving DecidableEq

/-- The record returned by `fail`. -/
def GuestImportPlan.failed (result : GuestImportPlan) (error : String) : GuestImportPlan :=
  { result with
    error := error
    matched := 0
    unresolved := 0
    bindings := []
    addresses_by_symbol := [] }

def validGuestKeyPart (text : List UInt8) : Bool :=
  decide (text ≠ [] ∧ text.length ≤ 256) && text.all fun c =>
    decide (33 ≤ c ∧ c ≤ 126 ∧ c ≠ 0x23 ∧ c ≠ 0x7c ∧ c ≠ 0x3b ∧ c ≠ 0x2c)

/-- The loop body over the exports: the registry grows. -/
def registerExport (result : GuestImportPlan) (registry : List (GuestImportKey × ℕ)) (entry : GuestDataExport) :
    Except (Stop GuestImportPlan) (List (GuestImportKey × ℕ)) := do
  failIf (validGuestKeyPart entry.key.nid = false ∨ validGuestKeyPart entry.key.library = false ∨
      validGuestKeyPart entry.key.module_name = false ∨ entry.key.type > 2 ∨
      entry.numeric_address = 0)
    (result.failed "invalid_data_export")
  failIf ((registry.lookup entry.key).isSome) (result.failed "duplicate_export_key")
  pure (registry ++ [(entry.key, entry.numeric_address.toNat)])

/-- The loop body over the modules and over the libraries: their numbers are the high part of the
packed value. -/
def registerDependency (result : GuestImportPlan) (invalid_name duplicate_id : String)
    (dependencies : List (ℕ × GuestLinkDependency)) (entry : GuestLinkDependency) :
    Except (Stop GuestImportPlan) (List (ℕ × GuestLinkDependency)) := do
  failIf (validGuestKeyPart entry.name = false) (result.failed invalid_name)
  failIf ((dependencies.lookup ((entry.packed >>> 48) % 2^16)).isSome) (result.failed duplicate_id)
  pure (dependencies ++ [((entry.packed >>> 48) % 2^16, entry)])

/-- `std::string_view::find` of `#` from an index on. -/
def findHash (name : List UInt8) (start : ℕ) : Option ℕ :=
  ((name.drop start).findIdx? (· == 0x23)).map (start + ·)

/-- The variables of the loop over the imports. -/
structure ResolveState where
  result : GuestImportPlan
  seen : List Bool

variable (manifest : GuestLinkManifest)

/-- The loop body over the imports: import `i`. -/
def resolveImport (registry : List (GuestImportKey × ℕ))
    (libraries modules : List (ℕ × GuestLinkDependency)) (state : ResolveState) (i : ℕ) :
    Except (Stop GuestImportPlan) ResolveState := do
  let result := state.result
  let symbol ← fetch manifest.import_symbol_indices i
  failIf (symbol ≥ manifest.symbols) (result.failed "invalid_or_duplicate_import_symbol")
  let before ← fetch state.seen symbol
  failIf (before = true) (result.failed "invalid_or_duplicate_import_symbol")
  let seen ← put state.seen symbol true
  let info ← fetch manifest.symbol_records symbol
  failIf (info.section_index ≠ 0 ∨ (info.binding ≠ 1 ∧ info.binding ≠ 2))
    (result.failed "invalid_import_symbol_binding")
  let name ← fetch manifest.imports i
  match findHash name 0 with
  | none => .error (.fail (result.failed "invalid_nid_namespace_shape"))
  | some first =>
    match findHash name (first + 1) with
    | none => .error (.fail (result.failed "invalid_nid_namespace_shape"))
    | some second => do
      failIf ((findHash name (second + 1)).isSome ∨ validGuestKeyPart (name.take first) = false)
        (result.failed "invalid_nid_namespace_shape")
      match decodeGuestId ((name.drop (first + 1)).take (second - first - 1)),
        decodeGuestId (name.drop (second + 1)) with
      | some library_id, some module_id =>
        match libraries.lookup library_id, modules.lookup module_id with
        | none, _ => .error (.fail (result.failed "unknown_import_library_id"))
        | some _, none => .error (.fail (result.failed "unknown_import_module_id"))
        | some library, some module_record =>
          let key : GuestImportKey := {
            nid := name.take first
            library := library.name
            module_name := module_record.name
            library_version := UInt16.ofNat (library.packed >>> 32)
            module_major := UInt8.ofNat (module_record.packed >>> 40)
            module_minor := UInt8.ofNat (module_record.packed >>> 32)
            type := UInt8.ofNat info.type }
          let binding : GuestImportBinding := { symbol, library_id, module_id, key }
          match registry.lookup key with
          | none => pure {
              result := { result with
                unresolved := result.unresolved + 1
                bindings := result.bindings ++ [binding] }
              seen }
          | some address => do
            let addresses ← put result.addresses_by_symbol symbol address
            pure {
              result := { result with
                addresses_by_symbol := addresses
                matched := result.matched + 1
                bindings := result.bindings ++ [{ binding with numeric_address := address }] }
              seen }
      | _, _ => .error (.fail (result.failed "invalid_encoded_import_id"))

def resolveGuestImports (exports : List GuestDataExport) :
    Except (Stop GuestImportPlan) GuestImportPlan := do
  let result : GuestImportPlan := {}
  failIf (manifest.valid = false ∨ manifest.symbols > 131072 ∨
      manifest.symbol_records.length ≠ manifest.symbols ∨ manifest.imports.length > 8192 ∨
      manifest.import_symbol_indices.length ≠ manifest.imports.length ∨
      manifest.module_records.length ≠ manifest.modules.length ∨
      manifest.library_records.length ≠ manifest.libraries.length ∨
      manifest.module_records.length + manifest.library_records.length > 512)
    (result.failed "manifest_records_unavailable_or_budget")
  failIf (exports.length > 4096) (result.failed "export_registry_budget")
  let registry ← exports.foldlM (registerExport result) []
  let result := { result with exports := registry.length }
  let modules ← manifest.module_records.foldlM
    (registerDependency result "invalid_module_name" "duplicate_module_id") []
  let libraries ← manifest.library_records.foldlM
    (registerDependency result "invalid_library_name" "duplicate_library_id") []
  let result := { result with addresses_by_symbol := replicate manifest.symbols 0 }
  let state ← (range manifest.imports.length).foldlM
    (resolveImport manifest registry libraries modules)
    { result, seen := replicate manifest.symbols false }
  pure { state.result with valid := true }

/-! ## What the resolver establishes -/

def Unplanned (result : GuestImportPlan) : Prop := result.valid = false

theorem fail_sat {R α : Type} {P : α → Prop} {Q : R → Prop} {result : R} (h : Q result) :
    Sat (.error (.fail result) : Except (Stop R) α) P (Fails Q) := by
  refine ⟨fun _ he => ?_, fun e he => ?_⟩
  · cases he
  · cases he
    exact h

/-- The registry has the keys and addresses of the exports, none of which is zero. -/
structure Registry (exports : List GuestDataExport) (registry : List (GuestImportKey × ℕ)) :
    Prop where
  sound : ∀ key address, (key, address) ∈ registry →
    ∃ entry ∈ exports, entry.key = key ∧ entry.numeric_address.toNat = address
  complete : ∀ entry ∈ exports, (entry.key, entry.numeric_address.toNat) ∈ registry
  nonzero : ∀ key address, (key, address) ∈ registry → address ≠ 0
  distinct : exports.Pairwise fun entry other => entry.key ≠ other.key

theorem registerExports_sat (hv : result.valid = false) (exports : List GuestDataExport) :
    Sat (exports.foldlM (registerExport result) []) (Registry exports) (Fails Unplanned) := by
  apply Sat.foldlM (I := Registry)
  · exact ⟨by simp, by simp, by simp, List.Pairwise.nil⟩
  · intro done entry rest registry _ h
    refine Sat.bind (Sat.failIf fun _ => hv) fun _ hvalid => ?_
    refine Sat.bind (Sat.failIf fun _ => hv) fun _ hnew => ?_
    rw [Option.not_isSome_iff_eq_none] at hnew
    have hne : entry.numeric_address.toNat ≠ 0 := by
      intro he
      refine hvalid (.inr (.inr (.inr (.inr ?_))))
      exact UInt64.toNat_inj.mp (by rw [he]; rfl)
    refine Sat.pure ⟨fun key address hmem => ?_, fun e he => ?_, fun key address hmem => ?_,
      pairwise_append.mpr ⟨h.distinct, pairwise_singleton _ _, fun e he e' he' => ?_⟩⟩
    · rcases mem_append.mp hmem with hmem | hmem
      · obtain ⟨e, he, hspec⟩ := h.sound key address hmem
        exact ⟨e, mem_append_left _ he, hspec⟩
      · obtain ⟨rfl, rfl⟩ := Prod.mk.inj (mem_singleton.mp hmem)
        exact ⟨entry, by simp, rfl, rfl⟩
    · rcases mem_append.mp he with he | he
      · exact mem_append_left _ (h.complete e he)
      · rw [mem_singleton.mp he]
        simp
    · rcases mem_append.mp hmem with hmem | hmem
      · exact h.nonzero key address hmem
      · obtain ⟨rfl, rfl⟩ := Prod.mk.inj (mem_singleton.mp hmem)
        exact hne
    · rw [mem_singleton.mp he']
      intro hkey
      exact not_mem_of_lookup hnew _ (hkey ▸ h.complete e he)

theorem registerDependencies_sat (hv : result.valid = false) (entries : List GuestLinkDependency) :
    Sat (entries.foldlM (registerDependency result invalid_name duplicate_id) [])
      (fun _ => True) (Fails Unplanned) := by
  apply Sat.foldlM (I := fun _ _ => True)
  · trivial
  · intro _ entry _ dependencies _ _
    refine Sat.bind (Sat.failIf fun _ => hv) fun _ _ => ?_
    exact Sat.bind (Sat.failIf fun _ => hv) fun _ _ => Sat.pure trivial

/-- The address of a binding is that of the export with its key, or zero where there is none. -/
def GuestImportBinding.Bound (binding : GuestImportBinding) (exports : List GuestDataExport) : Prop :=
  (binding.numeric_address = 0 ∧ ∀ entry ∈ exports, entry.key ≠ binding.key) ∨
    (binding.numeric_address ≠ 0 ∧ ∃ entry ∈ exports, entry.key = binding.key ∧
      entry.numeric_address.toNat = binding.numeric_address)

/-- What the resolver has established of its plan: the bindings of the imports among `indices`, and
the address of each symbol. -/
structure Resolved (symbols : ℕ) (indices : List ℕ) (exports : List GuestDataExport)
    (plan : GuestImportPlan) : Prop where
  length_eq : plan.addresses_by_symbol.length = symbols
  symbols_eq : plan.bindings.map (·.symbol) = indices
  bound : ∀ binding ∈ plan.bindings, binding.Bound exports
  address : ∀ binding ∈ plan.bindings,
    plan.addresses_by_symbol[binding.symbol]? = some binding.numeric_address
  unbound : ∀ s < symbols, s ∉ indices → plan.addresses_by_symbol[s]? = some 0

/-- The invariant of the loop over the imports, after those among `done`. -/
structure Resolving (symbols : ℕ) (done : List ℕ) (exports : List GuestDataExport)
    (state : ResolveState) : Prop where
  valid : state.result.valid = false
  resolved : Resolved symbols done exports state.result
  seen_length : state.seen.length = symbols
  seen : ∀ s ∈ done, state.seen[s]? = some true

theorem Resolving.bind (h : Resolving symbols done exports state) (hlt : x.symbol < symbols) (hnew : x.symbol ∉ done)
    (hbound : x.Bound exports) (hvalid : result.valid = false)
    (hbindings : result.bindings = state.result.bindings ++ [x]) (haddresses : result.addresses_by_symbol =
      state.result.addresses_by_symbol.set x.symbol x.numeric_address) :
    Resolving symbols (done ++ [x.symbol]) exports { result, seen := state.seen.set x.symbol true } where
  valid := hvalid
  resolved := {
    length_eq := by
      rw [haddresses, length_set, h.resolved.length_eq]
    symbols_eq := by
      rw [hbindings, map_append, h.resolved.symbols_eq, map_singleton]
    bound := by
      intro b hb
      rw [hbindings] at hb
      rcases mem_append.mp hb with hb | hb
      · exact h.resolved.bound b hb
      · rw [mem_singleton.mp hb]
        exact hbound
    address := by
      intro b hb
      rw [hbindings] at hb
      rw [haddresses]
      rcases mem_append.mp hb with hb | hb
      · -- An earlier binding is of another symbol.
        have hmem : b.symbol ∈ done := by
          rw [← h.resolved.symbols_eq]
          exact mem_map_of_mem hb
        have hne : x.symbol ≠ b.symbol := fun he => hnew (he ▸ hmem)
        rw [getElem?_set_ne hne]
        exact h.resolved.address b hb
      · rw [mem_singleton.mp hb, getElem?_set_self]
        rw [h.resolved.length_eq]
        exact hlt
    unbound := by
      intro s hs hnot
      rw [mem_append, mem_singleton, not_or] at hnot
      rw [haddresses, getElem?_set_ne (Ne.symm hnot.2)]
      exact h.resolved.unbound s hs hnot.1 }
  seen_length := by rw [length_set, h.seen_length]
  seen s hs := by
    by_cases he : x.symbol = s
    · subst he
      rw [getElem?_set_self]
      rw [h.seen_length]
      exact hlt
    · rw [getElem?_set_ne he]
      rcases mem_append.mp hs with hs | hs
      · exact h.seen s hs
      · exact absurd (mem_singleton.mp hs).symm he

theorem resolveImport_sat {manifest : GuestLinkManifest} {exports : List GuestDataExport}
    {registry : List (GuestImportKey × ℕ)} (hreg : Registry exports registry)
    {libraries modules : List (ℕ × GuestLinkDependency)} {state : ResolveState} {i : ℕ}
    (hrecords : manifest.symbol_records.length = manifest.symbols)
    (hlen : manifest.import_symbol_indices.length = manifest.imports.length) (hi : i < manifest.imports.length)
    (h : Resolving manifest.symbols (manifest.import_symbol_indices.take i) exports state) :
    Sat (resolveImport manifest registry libraries modules state i)
      (Resolving manifest.symbols (manifest.import_symbol_indices.take (i + 1)) exports) (Fails Unplanned) := by
  have hv : ∀ error, Unplanned (state.result.failed error) := fun _ => h.valid
  refine Sat.bind (Sat.fetch (by omega)) fun symbol hsymbol => ?_
  refine Sat.bind (Sat.failIf fun _ => hv _) fun _ hlt => ?_
  refine Sat.bind (Sat.fetch (by rw [h.seen_length]; omega)) fun before hbefore => ?_
  refine Sat.bind (Sat.failIf fun _ => hv _) fun _ hfirst => ?_
  refine Sat.bind (Sat.put (by rw [h.seen_length]; omega)) fun seen hseen => ?_
  refine Sat.bind (Sat.fetch (by omega)) fun info hinfo => ?_
  refine Sat.bind (Sat.failIf fun _ => hv _) fun _ _ => ?_
  refine Sat.bind (Sat.fetch hi) fun name hname => ?_
  subst hseen
  have hnew : symbol ∉ manifest.import_symbol_indices.take i := by
    intro hmem
    rw [h.seen symbol hmem] at hbefore
    exact hfirst (Option.some.inj hbefore).symm
  have htake : manifest.import_symbol_indices.take (i + 1) = manifest.import_symbol_indices.take i ++ [symbol] := by
    rw [take_add_one, hsymbol]
    rfl
  rw [htake]
  -- The name is taken apart, and the two numbers in it are looked up.
  split
  · exact fail_sat (hv _)
  · split
    · exact fail_sat (hv _)
    · refine Sat.bind (Sat.failIf fun _ => hv _) fun _ _ => ?_
      split
      · split
        · exact fail_sat (hv _)
        · exact fail_sat (hv _)
        · rename_i library_id module_id _ _ _ _ library module_record _ _
          generalize hkey : ({
            nid := _, library := _, module_name := _, library_version := _, module_major := _,
            module_minor := _, type := _ } : GuestImportKey) = key
          simp only
          split
          · rename_i hlookup
            refine Sat.pure ?_
            -- The address of a symbol that no import was seen for is zero already.
            have hzero := h.resolved.unbound symbol (by omega) hnew
            obtain ⟨hs, hs'⟩ := List.getElem?_eq_some_iff.mp hzero
            have hset : state.result.addresses_by_symbol.set symbol 0 = state.result.addresses_by_symbol := by
              rw [← hs']
              exact set_getElem_self hs
            refine h.bind (x := ⟨symbol, library_id, module_id, key, 0⟩) (by simp only; omega)
              hnew (.inl ⟨rfl, fun entry he hk => ?_⟩) h.valid rfl hset.symm
            exact not_mem_of_lookup hlookup _ (hk ▸ hreg.complete entry he)
          · rename_i address hlookup
            refine Sat.bind (Sat.put (by rw [h.resolved.length_eq]; omega)) fun out hout => ?_
            subst hout
            have hmem := mem_of_lookup hlookup
            refine Sat.pure ?_
            refine h.bind (x := ⟨symbol, library_id, module_id, key, address⟩)
              (by simp only; omega) hnew (.inr ⟨hreg.nonzero _ _ hmem, hreg.sound _ _ hmem⟩) h.valid rfl rfl
      · exact fail_sat (hv _)

theorem resolveGuestImports_sat (exports : List GuestDataExport) :
    Sat (resolveGuestImports manifest exports) (fun plan => plan.valid = true ∧
      manifest.symbol_records.length = manifest.symbols ∧
      exports.Pairwise (fun entry other => entry.key ≠ other.key) ∧
      Resolved manifest.symbols manifest.import_symbol_indices exports plan) (Fails Unplanned) := by
  unfold resolveGuestImports
  refine Sat.bind (Sat.failIf fun _ => rfl) fun _ hrecords => ?_
  refine Sat.bind (Sat.failIf fun _ => rfl) fun _ _ => ?_
  refine Sat.bind (registerExports_sat rfl exports) fun registry hreg => ?_
  refine Sat.bind (registerDependencies_sat rfl _) fun modules _ => ?_
  refine Sat.bind (registerDependencies_sat rfl _) fun libraries _ => ?_
  have hlen : manifest.import_symbol_indices.length = manifest.imports.length := by tauto
  have hsym : manifest.symbol_records.length = manifest.symbols := by tauto
  have hloop : Sat ((range manifest.imports.length).foldlM (resolveImport manifest registry libraries modules)
      { result := { ({} : GuestImportPlan) with
          exports := registry.length, addresses_by_symbol := replicate manifest.symbols 0 }
        seen := replicate manifest.symbols false })
      (fun state => Resolving manifest.symbols
        (manifest.import_symbol_indices.take manifest.imports.length) exports state)
      (Fails Unplanned) := by
    apply Sat.foldlM_range (I := fun i state => Resolving manifest.symbols
      (manifest.import_symbol_indices.take i) exports state)
    · refine ⟨rfl, ⟨length_replicate, rfl, by simp, by simp, fun s hs _ => ?_⟩,
        length_replicate, by simp⟩
      rw [getElem?_replicate, if_pos hs]
    · intro i hi state hstate
      exact resolveImport_sat hreg hsym hlen hi hstate
  refine Sat.bind hloop fun state hstate => Sat.pure ⟨rfl, hsym, hreg.distinct, ?_⟩
  have hres := hstate.resolved
  rw [← hlen, take_length] at hres
  exact ⟨hres.length_eq, hres.symbols_eq, hres.bound, hres.address, hres.unbound⟩

end ShadPS4.Guest
