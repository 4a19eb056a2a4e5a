import ShadPS4.Guest.Manifest
import ShadPS4.Guest.PayloadSpec

/-!
# What the link manifest establishes

`InspectGuestLinkManifest` reads nothing out of bounds, and the records of a valid manifest can be used without
further checks: a relocation names a symbol of the table and, where its width is known, a target in one planned
segment, and the imports are exactly the undefined global and weak symbols, in the order of the table and with
their names.
-/

namespace ShadPS4.Guest

open List
open Option (some.inj)

variable {segments : List GuestLoadSegment} {bytes strings symbols : List UInt8}
  {collect_records : Bool} {n : ℕ}

theorem subspan_infix (bytes : List UInt8) (offset size : ℕ) : subspan bytes offset size <:+: bytes := by
  unfold subspan
  exact ( take_prefix size _).isInfix.trans (drop_suffix offset bytes).isInfix

theorem logicalSlice_infix (file : List UInt8) (ranges : List GuestFileRange) (offset size : ℕ) :
    logicalSlice file ranges offset size <:+: file := by
  unfold logicalSlice
  split
  · rename_i found hfound
    have hmem : found ∈ ranges.filterMap (rangeSlice file offset size) := by rw [hfound]; simp
    obtain ⟨range, -, hrange⟩ := mem_filterMap.mp hmem
    unfold rangeSlice at hrange
    simp only at hrange
    split_ifs at hrange
    rw [← some.inj hrange]
    exact subspan_infix _ _ _
  · exact nil_infix

theorem table_contained (tags : List (ℕ × ℕ)) (dynlib : List UInt8) (offset_tag size_tag : ℕ) :
    table tags dynlib offset_tag size_tag <:+: dynlib := by
  unfold table
  split
  · split_ifs
    · exact nil_infix
    · exact subspan_infix _ _ _
  · exact nil_infix

/-- The block of `size` bytes at `address` lies in one of the segments. -/
def InSegment (segments : List GuestLoadSegment) (address size : ℕ) : Prop :=
  ∃ segment ∈ segments, segment.address ≤ address ∧
    address + size ≤ segment.address + segment.memory_size

theorem GuestLoadSegment.holds_iff {segment : GuestLoadSegment} {address size : ℕ} :
    segment.holds address size = true ↔
      segment.address ≤ address ∧ address + size ≤ segment.address + segment.memory_size := by
  unfold GuestLoadSegment.holds
  rw [decide_eq_true_iff]
  omega

theorem mapped_iff {address size : ℕ} : mapped segments address size = true ↔ InSegment segments address size := by
  unfold mapped InSegment
  rw [any_eq_true]
  simp only [GuestLoadSegment.holds_iff]

/-- The name stands at an offset of the string table, up to its terminator. -/
structure NameAt (strings : List UInt8) (offset : ℕ) (name : List UInt8) : Prop where
  stands : name ++ [0] <+: strings.drop offset
  no_zero : 0 ∉ name
  ne_nil : name ≠ []

theorem scanName_spec (h : scanName bytes output = some name) :
    ∃ read, name = output ++ read ∧ read ++ [0] <+: bytes ∧ 0 ∉ read := by
  induction bytes generalizing output with
  | nil => simp [scanName] at h
  | cons byte rest ih =>
    unfold scanName at h
    by_cases hz : byte = 0
    · rw [if_pos hz] at h
      refine ⟨[], ?_, ?_, by simp⟩
      · rw [append_nil]
        exact (some.inj h).symm
      · rw [hz, nil_append]
        exact ⟨rest, rfl⟩
    · rw [if_neg hz] at h
      split_ifs at h
      obtain ⟨read, hname, hstands, hzero⟩ := ih h
      refine ⟨byte :: read, ?_, ?_, ?_⟩
      · rw [hname, append_assoc, singleton_append]
      · rw [cons_append, cons_prefix_cons]
        exact ⟨rfl, hstands⟩
      · rw [mem_cons, not_or]
        exact ⟨Ne.symm hz, hzero⟩

theorem stringAt_spec (h : stringAt strings name_bytes offset = some (name, total)) : NameAt strings offset name := by
  unfold stringAt at h
  split_ifs at h
  split at h
  · exact absurd h (by simp)
  · rename_i output hscan
    split_ifs at h with hok
    obtain ⟨rfl, -⟩ := Prod.mk.inj (some.inj h)
    obtain ⟨read, hname, hstands, hzero⟩ := scanName_spec hscan
    subst hname
    exact ⟨hstands, hzero, hok.1⟩

/-! ## The loops up to the dependencies -/

/-- A manifest that no symbol and no relocation was added to. -/
structure Fresh (result : GuestLinkManifest) : Prop where
  valid : result.valid = false
  symbol_records : result.symbol_records = []
  imports : result.imports = []
  indices : result.import_symbol_indices = []
  relocation_records : result.relocation_records = []
  counters : result.relocations = 0 ∧ result.relative = 0 ∧ result.jump_slots = 0 ∧
    result.symbol_relocations = 0 ∧ result.tls_relocations = 0 ∧ result.other_relocations = 0

def Invalid (result : GuestLinkManifest) : Prop := result.valid = false

/-- The invariant of the loop over the program headers. -/
structure Dynamics (file : List UInt8) (state : DynamicState) : Prop where
  fresh : Fresh state.result
  dynlib : state.dynlib <:+: file

theorem findDynamic_sat (hph : ph + 56 ≤ bytes.length) (h : Dynamics file state) :
    Sat (findDynamic file bytes layout ph state) (Dynamics file) (Fails Invalid) := by
  have hv := h.fresh.valid
  refine Sat.bind (Sat.read (by omega)) fun type _ => ?_
  refine Sat.bind (Sat.read (by omega)) fun offset _ => ?_
  refine Sat.bind (Sat.read (by omega)) fun address _ => ?_
  refine Sat.bind (Sat.read (by omega)) fun size _ => ?_
  refine Sat.bind (Sat.read (by omega)) fun memory _ => ?_
  refine Sat.ite (fun _ => ?_) fun _ => Sat.ite (fun _ => ?_) fun _ => Sat.pure h
  · refine Sat.bind (Sat.failIf fun _ => hv) fun _ _ => ?_
    refine Sat.bind (Sat.failIf fun _ => hv) fun _ _ => ?_
    refine Sat.bind (Sat.failIf fun _ => hv) fun _ _ => ?_
    refine Sat.ite (fun _ => Sat.pure ⟨h.fresh, h.dynlib⟩) fun _ => ?_
    exact Sat.pure ⟨h.fresh, logicalSlice_infix _ _ _ _⟩
  · refine Sat.bind (Sat.failIf fun _ => hv) fun _ _ => ?_
    refine Sat.bind (Sat.read (by omega)) fun alignment _ => ?_
    refine Sat.bind (Sat.failIf fun _ => hv) fun _ _ => ?_
    refine Sat.bind (Sat.failIf fun _ => hv) fun _ _ => ?_
    exact Sat.pure ⟨⟨hv, h.fresh.symbol_records, h.fresh.imports, h.fresh.indices,
      h.fresh.relocation_records, h.fresh.counters⟩, h.dynlib⟩

theorem readTag_sat (hi : i < dynamic.length / 16) (h : Fresh state.result) :
    Sat (readTag dynamic state i) (fun state => Fresh state.result) (Fails Invalid) := by
  have hfresh : Fresh { state.result with dynamic_entries := state.result.dynamic_entries + 1 } :=
    ⟨h.valid, h.symbol_records, h.imports, h.indices, h.relocation_records, h.counters⟩
  refine Sat.ite (fun _ => Sat.pure h) fun _ => ?_
  refine Sat.bind (Sat.read (by omega)) fun tag _ => ?_
  refine Sat.bind (Sat.read (by omega)) fun value _ => ?_
  refine Sat.ite (fun _ => Sat.pure h) fun _ => ?_
  refine Sat.ite (fun _ => ?_) fun _ => Sat.ite (fun _ => ?_) fun _ => Sat.pure hfresh
  · exact Sat.bind (Sat.failIf fun _ => h.valid) fun _ _ => Sat.pure hfresh
  · exact Sat.bind (Sat.failIf fun _ => h.valid) fun _ _ => Sat.pure hfresh

theorem readDependency_sat (h : Fresh state.result) :
    Sat (readDependency strings collect_records state entry) (fun state => Fresh state.result) (Fails Invalid) := by
  unfold readDependency
  simp only
  split
  · refine ⟨fun _ he => ?_, fun e he => ?_⟩
    · cases he
    · cases he
      exact h.valid
  · refine Sat.pure ?_
    obtain ⟨h1, h2, h3, h4, h5, h6⟩ := h
    split_ifs <;> exact ⟨h1, h2, h3, h4, h5, h6⟩

/-! ## The symbols -/

/-- The symbol at index `k` of the symbol table. -/
def symbolAt (symbols : List UInt8) (k : ℕ) : GuestLinkSymbol where
  address := leRead symbols (k * 24 + 8) 8
  size := leRead symbols (k * 24 + 16) 8
  section_index := leRead symbols (k * 24 + 6) 2
  binding := ((symbols[k * 24 + 4]?).getD 0).toNat >>> 4
  type := ((symbols[k * 24 + 4]?).getD 0).toNat &&& 15

theorem readSymbol_sat (hk : k < symbols.length / 24) :
    Sat (readSymbol symbols (k * 24)) (fun symbol => symbol = symbolAt symbols k) (Fails Invalid) := by
  unfold readSymbol
  refine Sat.bind (Sat.fetch (by omega)) fun info hinfo => ?_
  refine Sat.bind (Sat.read (by omega)) fun address haddress => ?_
  refine Sat.bind (Sat.read (by omega)) fun size hsize => ?_
  refine Sat.bind (Sat.read (by omega)) fun section_index hsection => ?_
  refine Sat.pure ?_
  unfold symbolAt
  rw [haddress, hsize, hsection, hinfo, Option.getD_some]

/-- The imports among the first `n` symbols: their indices in order, and the name of each. -/
structure Imports (strings symbols : List UInt8) (n : ℕ) (indices : List ℕ)
    (names : List (List UInt8)) : Prop where
  length_eq : names.length = indices.length
  increasing : indices.Pairwise (· < ·)
  exact : ∀ k, k ∈ indices ↔ k < n ∧ (symbolAt symbols k).isImport = true
  named : ∀ (i k : ℕ) (name : List UInt8), indices[i]? = some k → names[i]? = some name →
    NameAt strings (leRead symbols (k * 24) 4) name

theorem Imports.skip (h : Imports strings symbols n indices names)
    (hn : (symbolAt symbols n).isImport = false) : Imports strings symbols (n + 1) indices names where
  length_eq := h.length_eq
  increasing := h.increasing
  exact k := by
    rw [h.exact k]
    constructor
    · rintro ⟨hk, himp⟩
      exact ⟨by omega, himp⟩
    · rintro ⟨hk, himp⟩
      have hne : k ≠ n := by
        rintro rfl
        rw [hn] at himp
        exact absurd himp (by simp)
      exact ⟨by omega, himp⟩
  named := h.named

theorem Imports.append (h : Imports strings symbols n indices names) (hn : (symbolAt symbols n).isImport = true)
    (hname : NameAt strings (leRead symbols (n * 24) 4) name) :
    Imports strings symbols (n + 1) (indices ++ [n]) (names ++ [name]) where
  length_eq := by simp [h.length_eq]
  increasing := by
    refine pairwise_append.mpr ⟨h.increasing, pairwise_singleton _ _, fun a ha b hb => ?_⟩
    rw [mem_singleton.mp hb]
    exact ((h.exact a).mp ha).1
  exact k := by
    rw [mem_append, mem_singleton, h.exact k]
    constructor
    · rintro (⟨hk, himp⟩ | rfl)
      · exact ⟨by omega, himp⟩
      · exact ⟨by omega, hn⟩
    · rintro ⟨hk, himp⟩
      by_cases hkn : k = n
      · exact .inr hkn
      · exact .inl ⟨by omega, himp⟩
  named i k x hi hx := by
    by_cases hlt : i < indices.length
    · rw [getElem?_append_left hlt] at hi
      rw [getElem?_append_left (by rw [h.length_eq]; exact hlt)] at hx
      exact h.named i k x hi hx
    · have hi' : i = indices.length := by
        have := (List.getElem?_eq_some_iff.mp hi).1
        rw [length_append, length_singleton] at this
        omega
      rw [getElem?_append_right (by omega)] at hi
      rw [getElem?_append_right (by rw [h.length_eq]; omega), h.length_eq] at hx
      rw [hi', Nat.sub_self, getElem?_cons_zero] at hi hx
      rw [← some.inj hi, ← some.inj hx]
      exact hname

/-- The invariant of the loop over the symbols, after `n` of them. -/
structure Symbols (strings symbols : List UInt8) (collect_records : Bool) (n : ℕ)
    (result : GuestLinkManifest) : Prop where
  valid : result.valid = false
  count : result.symbols = symbols.length / 24
  relocation_records : result.relocation_records = []
  counters : result.relocations = 0 ∧ result.relative = 0 ∧ result.jump_slots = 0 ∧
    result.symbol_relocations = 0 ∧ result.tls_relocations = 0 ∧ result.other_relocations = 0
  records : collect_records = true →
    result.symbol_records = (List.range n).map (symbolAt symbols)
  imports : collect_records = true →
    Imports strings symbols n result.import_symbol_indices result.imports

theorem map_range_succ (symbols : List UInt8) (n : ℕ) : (List.range (n + 1)).map (symbolAt symbols) =
      (List.range n).map (symbolAt symbols) ++ [symbolAt symbols n] := by
  rw [range_succ, map_append, map_singleton]

theorem addImport_spec (result : GuestLinkManifest) (symbol : GuestLinkSymbol) (name : List UInt8)
    (collect_records : Bool) (i : ℕ) : let added := addImport result symbol name collect_records i
    added.valid = result.valid ∧ added.symbols = result.symbols ∧
    added.symbol_records = result.symbol_records ∧
    added.relocation_records = result.relocation_records ∧
    (added.relocations = result.relocations ∧ added.relative = result.relative ∧
      added.jump_slots = result.jump_slots ∧
      added.symbol_relocations = result.symbol_relocations ∧
      added.tls_relocations = result.tls_relocations ∧
      added.other_relocations = result.other_relocations) ∧
    added.imports = result.imports ++ [name] ∧
    added.import_symbol_indices = result.import_symbol_indices ++
      if collect_records then [i] else [] := by
  unfold addImport
  cases collect_records <;> simp only [Bool.false_eq_true, if_false, if_true] <;> split_ifs <;>
    simp

theorem addSymbol_sat (hn : n < symbols.length / 24) (h : Symbols strings symbols collect_records n state.result) :
    Sat (addSymbol strings symbols collect_records state n)
      (fun state => Symbols strings symbols collect_records (n + 1) state.result) (Fails Invalid) := by
  unfold addSymbol
  refine Sat.bind (readSymbol_sat hn) fun symbol hsymbol => ?_
  subst hsymbol
  -- The record is added first, whether the symbol is an import or not.
  obtain ⟨result, hresult⟩ : ∃ result, (if collect_records then
      { state.result with
        symbol_records := state.result.symbol_records ++ [symbolAt symbols n] }
      else state.result) = result := ⟨_, rfl⟩
  simp only [hresult]
  have hvalid : result.valid = false := by
    rw [← hresult]
    split_ifs <;> exact h.valid
  have hcount : result.symbols = symbols.length / 24 := by
    rw [← hresult]
    split_ifs <;> exact h.count
  have hrel : result.relocation_records = [] := by
    rw [← hresult]
    split_ifs <;> exact h.relocation_records
  have hcounters : result.relocations = 0 ∧ result.relative = 0 ∧ result.jump_slots = 0 ∧
      result.symbol_relocations = 0 ∧ result.tls_relocations = 0 ∧
      result.other_relocations = 0 := by
    rw [← hresult]
    split_ifs <;> exact h.counters
  have hrecords : collect_records = true → result.symbol_records = (List.range (n + 1)).map (symbolAt symbols) := by
    intro hc
    rw [← hresult, if_pos hc, map_range_succ]
    simp only [h.records hc]
  have himports : collect_records = true → Imports strings symbols n result.import_symbol_indices result.imports := by
    intro hc
    rw [← hresult, if_pos hc]
    exact h.imports hc
  refine Sat.ite (fun hno => ?_) fun hyes => ?_
  · refine Sat.pure ⟨hvalid, hcount, hrel, hcounters, hrecords, fun hc => ?_⟩
    exact (himports hc).skip (by simpa using hno)
  · refine Sat.bind (Sat.failIf fun _ => hvalid) fun _ _ => ?_
    refine Sat.bind (Sat.read (by omega)) fun name_offset hoffset => ?_
    split
    · refine ⟨fun _ he => ?_, fun e he => ?_⟩
      · cases he
      · cases he
        exact hvalid
    · rename_i name name_bytes hname
      rw [hoffset] at hname
      have happend := fun hc => (himports hc).append (by simpa using hyes) (stringAt_spec hname)
      obtain ⟨h1, h2, h3, h4, h5, h6, h7⟩ :=
        addImport_spec result (symbolAt symbols n) name collect_records n
      refine Sat.pure ⟨h1.trans hvalid, h2.trans hcount, h4.trans hrel, ?_, fun hc => ?_,
        fun hc => ?_⟩
      · simp only [h5]
        exact hcounters
      · rw [h3, hrecords hc]
      · simp only
        rw [h6, h7, if_pos hc]
        exact happend hc

/-! ## The relocations -/

structure GuestLinkRelocation.Sound (relocation : GuestLinkRelocation)
    (segments : List GuestLoadSegment) (symbols : ℕ) : Prop where
  symbol_lt : relocation.symbol < symbols
  target : 0 < knownWidth relocation.type →
    InSegment segments relocation.address (knownWidth relocation.type)
  address_lt : relocation.address < 2^64
  addend_lt : relocation.addend_bits < 2^64

/-- The number of records of type zero. -/
def noneCount (records : List GuestLinkRelocation) : ℕ :=
  (records.filter fun r => decide (r.type = 0)).length

/-- The invariant of the loops over the relocation tables. -/
structure Relocations (segments : List GuestLoadSegment) (collect_records : Bool)
    (start result : GuestLinkManifest) : Prop where
  valid : result.valid = false
  symbols_eq : result.symbols = start.symbols
  records_eq : result.symbol_records = start.symbol_records
  imports_eq : result.imports = start.imports
  indices_eq : result.import_symbol_indices = start.import_symbol_indices
  sound : ∀ relocation ∈ result.relocation_records, relocation.Sound segments start.symbols
  counted : collect_records = true → result.relocations = result.relative + result.jump_slots +
    result.symbol_relocations + result.tls_relocations + result.other_relocations +
    noneCount result.relocation_records

theorem countRelocation_spec (result : GuestLinkManifest) (type : ℕ) :
    (countRelocation result type).valid = result.valid ∧ (countRelocation result type).symbols = result.symbols ∧
    (countRelocation result type).symbol_records = result.symbol_records ∧
    (countRelocation result type).imports = result.imports ∧
    (countRelocation result type).import_symbol_indices = result.import_symbol_indices ∧
    (countRelocation result type).relocation_records = result.relocation_records ∧
    (countRelocation result type).relocations = result.relocations ∧
    (countRelocation result type).relative + (countRelocation result type).jump_slots +
      (countRelocation result type).symbol_relocations + (countRelocation result type).tls_relocations +
      (countRelocation result type).other_relocations =
      result.relative + result.jump_slots + result.symbol_relocations + result.tls_relocations +
        result.other_relocations + if type = 0 then 0 else 1 := by
  unfold countRelocation
  refine ⟨?_, ?_, ?_, ?_, ?_, ?_, ?_, ?_⟩
  all_goals split_ifs <;> first | rfl | omega | (simp only; omega)

theorem noneCount_append (records : List GuestLinkRelocation) (r : GuestLinkRelocation) :
    noneCount (records ++ [r]) = noneCount records + if r.type = 0 then 1 else 0 := by
  unfold noneCount
  by_cases h : r.type = 0 <;> simp [h]

theorem addRelocation_sat (hi : i < bytes.length / 24) (h : Relocations segments collect_records start result) :
    Sat (addRelocation segments bytes collect_records result i)
      (Relocations segments collect_records start) (Fails Invalid) := by
  refine Sat.bind (Sat.read (by omega)) fun address haddress => ?_
  refine Sat.bind (Sat.read (by omega)) fun info hinfo => ?_
  refine Sat.bind (Sat.failIf fun _ => h.valid) fun _ hsymbol => ?_
  refine Sat.bind (Sat.read (by omega)) fun addend haddend => ?_
  -- The manifest with the record added, if records are collected, and the relocation counted.
  obtain ⟨added, hadded⟩ : ∃ added, (if collect_records then { result with relocation_records :=
      result.relocation_records ++ [⟨address, addend, info % 2^32, info >>> 32⟩] }
      else result) = added := ⟨_, rfl⟩
  rw [hadded]
  obtain ⟨hv, hsym, hrec, himp, hidx, hrel, htotal, hsum⟩ :=
    countRelocation_spec { added with relocations := added.relocations + 1 } (info % 2^32)
  have hadd : added.valid = false ∧ added.symbols = start.symbols ∧
      added.symbol_records = start.symbol_records ∧ added.imports = start.imports ∧
      added.import_symbol_indices = start.import_symbol_indices := by
    rw [← hadded]
    split_ifs <;> exact ⟨h.valid, h.symbols_eq, h.records_eq, h.imports_eq, h.indices_eq⟩
  have hsame : added.relocations = result.relocations ∧ added.relative = result.relative ∧
      added.jump_slots = result.jump_slots ∧
      added.symbol_relocations = result.symbol_relocations ∧
      added.tls_relocations = result.tls_relocations ∧
      added.other_relocations = result.other_relocations := by
    rw [← hadded]
    split_ifs <;> exact ⟨rfl, rfl, rfl, rfl, rfl, rfl⟩
  have hcounted : collect_records = true → added.relocations + 1 =
      added.relative + added.jump_slots + added.symbol_relocations + added.tls_relocations +
        added.other_relocations + (if info % 2^32 = 0 then 0 else 1) +
        noneCount added.relocation_records := by
    intro hc
    have hrecords : added.relocation_records = result.relocation_records ++
        [⟨address, addend, info % 2^32, info >>> 32⟩] := by rw [← hadded, if_pos hc]
    have hold := h.counted hc
    rw [hrecords, noneCount_append]
    split_ifs <;> omega
  have hsound : (0 < knownWidth (info % 2^32) → InSegment segments address (knownWidth (info % 2^32))) →
      ∀ relocation ∈ added.relocation_records, relocation.Sound segments start.symbols := by
    intro htarget relocation hmem
    rw [← hadded] at hmem
    split_ifs at hmem
    · rcases mem_append.mp hmem with hmem | hmem
      · exact h.sound relocation hmem
      · rw [mem_singleton.mp hmem]
        refine ⟨?_, htarget, ?_, ?_⟩
        · rw [h.symbols_eq] at hsymbol
          simp only
          omega
        · rw [haddress]
          exact leRead_lt _ _ 8
        · rw [haddend]
          exact leRead_lt _ _ 8
    · exact h.sound relocation hmem
  refine Sat.ite (fun hw => ?_) fun hw => ?_
  · refine Sat.pure ⟨hv.trans hadd.1, hsym.trans hadd.2.1, hrec.trans hadd.2.2.1,
      himp.trans hadd.2.2.2.1, hidx.trans hadd.2.2.2.2, ?_, fun hc => ?_⟩
    · rw [hrel]
      exact hsound fun hpos => by omega
    · have := hcounted hc
      rw [htotal, hsum, hrel]
      omega
  · refine Sat.bind (Sat.failIf fun _ => hv.trans hadd.1) fun _ hmapped => ?_
    refine Sat.pure ⟨hv.trans hadd.1, hsym.trans hadd.2.1, hrec.trans hadd.2.2.1,
      himp.trans hadd.2.2.2.1, hidx.trans hadd.2.2.2.2, ?_, fun hc => ?_⟩
    · simp only
      rw [hrel]
      exact hsound fun _ => mapped_iff.mp (by simpa using hmapped)
    · have := hcounted hc
      rw [htotal, hsum, hrel]
      omega

theorem readRelocations_sat  (h : Relocations segments collect_records start result) :
    Sat (readRelocations segments tags dynlib collect_records result jump_table)
      (Relocations segments collect_records start) (Fails Invalid) := by
  unfold readRelocations
  simp only
  split
  · exact Sat.pure h
  · refine Sat.bind (Sat.failIf fun _ => h.valid) fun _ _ => ?_
    apply Sat.foldlM_range (I := fun _ => Relocations segments collect_records start)
    · exact h
    · intro i hi r hr
      exact addRelocation_sat hi hr
  · refine ⟨fun _ he => ?_, fun e he => ?_⟩
    · cases he
    · cases he
      exact h.valid

/-! ## The manifest -/

/-- What a valid manifest of a file establishes, for the segments of its plan. -/
structure Inspected (file : List UInt8) (segments : List GuestLoadSegment)
    (collect_records : Bool) (manifest : GuestLinkManifest) : Prop where
  valid : manifest.valid = true
  tables : collect_records = true → ∃ strings symbols : List UInt8,
    strings <:+: file ∧ symbols <:+: file ∧ manifest.symbols = symbols.length / 24 ∧
    manifest.symbol_records = (List.range manifest.symbols).map (symbolAt symbols) ∧
    Imports strings symbols manifest.symbols manifest.import_symbol_indices manifest.imports
  sound : ∀ relocation ∈ manifest.relocation_records,
    relocation.Sound segments manifest.symbols
  counted : collect_records = true → manifest.relocations = manifest.relative +
    manifest.jump_slots + manifest.symbol_relocations + manifest.tls_relocations +
    manifest.other_relocations + noneCount manifest.relocation_records

theorem readLinkTables_sat (hdynlib : dynlib <:+: file)
    (h : Fresh state.result) (collect_records : Bool) : Sat (readLinkTables segments dynlib state collect_records)
      (Inspected file segments collect_records) (Fails Invalid) := by
  unfold readLinkTables
  have hstrings := (table_contained state.tags dynlib 0x61000035 0x61000037).trans hdynlib
  have hsymbols := (table_contained state.tags dynlib 0x61000039 0x6100003f).trans hdynlib
  generalize table state.tags dynlib 0x61000035 0x61000037 = strings at hstrings ⊢
  generalize table state.tags dynlib 0x61000039 0x6100003f = symbols at hsymbols ⊢
  refine Sat.bind (Sat.failIf fun _ => h.valid) fun _ _ => ?_
  have hnames : Sat (state.names.foldlM (readDependency strings collect_records) { result := state.result, name_bytes := 0 })
      (fun named => Fresh named.result) (Fails Invalid) := by
    apply Sat.foldlM (I := fun _ (named : NameState) => Fresh named.result)
    · exact h
    · intro _ _ _ named _ hnamed
      exact readDependency_sat hnamed
  refine Sat.bind hnames fun named hnamed => ?_
  -- The symbols, from a manifest without any.
  have hloop : Sat ((List.range (symbols.length / 24)).foldlM (addSymbol strings symbols collect_records)
      { named with result := { named.result with symbols := symbols.length / 24 } })
      (fun named => Symbols strings symbols collect_records (symbols.length / 24) named.result)
      (Fails Invalid) := by
    apply Sat.foldlM_range (I := fun n (named : NameState) =>
      Symbols strings symbols collect_records n named.result)
    · refine ⟨hnamed.valid, rfl, hnamed.relocation_records, hnamed.counters, fun _ => ?_,
        fun _ => ?_⟩
      · exact hnamed.symbol_records
      · simp only
        rw [hnamed.imports, hnamed.indices]
        exact ⟨rfl, List.Pairwise.nil, by simp, by simp⟩
    · intro n hn named hsym
      exact addSymbol_sat hn hsym
  refine Sat.bind hloop fun named' hsym => ?_
  -- The two relocation tables.
  have hrel : Sat ([false, true].foldlM (readRelocations segments state.tags dynlib collect_records) named'.result)
      (Relocations segments collect_records named'.result) (Fails Invalid) := by
    apply Sat.foldlM (I := fun _ => Relocations segments collect_records named'.result)
    · refine ⟨hsym.valid, rfl, rfl, rfl, rfl, ?_, fun _ => ?_⟩
      · rw [hsym.relocation_records]
        simp
      · obtain ⟨h1, h2, h3, h4, h5, h6⟩ := hsym.counters
        rw [h1, h2, h3, h4, h5, h6, hsym.relocation_records]
        rfl
    · intro _ _ _ r _ hr
      exact readRelocations_sat hr
  refine Sat.bind hrel fun result hresult => Sat.pure ⟨rfl, fun hc => ?_, ?_, hresult.counted⟩
  · refine ⟨strings, symbols, hstrings, hsymbols, hresult.symbols_eq.trans hsym.count, ?_, ?_⟩
    · simp only
      rw [hresult.records_eq, hsym.records hc, hresult.symbols_eq, hsym.count]
    · simp only
      rw [hresult.imports_eq, hresult.indices_eq, hresult.symbols_eq, hsym.count]
      exact hsym.imports hc
  · simp only
    rw [hresult.symbols_eq]
    exact hresult.sound

theorem inspectGuestLinkManifest_sat (file : List UInt8) (collect_records : Bool) :
    Sat (inspectGuestLinkManifest file collect_records)
      (fun manifest => ∃ layout, returns (planGuestPayloadFile file) = some layout ∧ Located file layout ∧
        Inspected file layout.image.plan.segments collect_records manifest) (Fails Invalid) := by
  unfold inspectGuestLinkManifest
  refine Sat.bind (Sat.call (planGuestPayloadFile_sat file)) fun layout ⟨hlayout, hor⟩ => ?_
  refine Sat.bind (Sat.failIf fun _ => rfl) fun _ haccepted => ?_
  have hlocated : Located file layout := by
    rcases hor with h | h
    · exact h
    · exact absurd h haccepted
  obtain ⟨header, hplan⟩ := hlocated.planned
  refine Sat.bind (Sat.call (inspectGuestPrefix_sat _ _)) fun header' ⟨hret, _⟩ => ?_
  obtain rfl : header' = header := by
    have h1 := hplan.inspected
    exact some.inj (hret.symm.trans h1)
  refine Sat.bind (Sat.failIf fun _ => rfl) fun _ _ => ?_
  have helf := hplan.accepted.elf_le
  have htable := hplan.table_le
  unfold headerBytes at helf htable
  refine Sat.bind (Sat.read (by omega)) fun phoff hphoff => ?_
  subst hphoff
  have hdynamic : Sat ((List.range header'.program_headers).foldlM (fun state i =>
      findDynamic file (file.take (min file.length guestPrefixLimit)) layout
        (header'.elf_offset + leRead (file.take (min file.length guestPrefixLimit))
          (header'.elf_offset + 32) 8 + i * 56) state)
      { result := ({} : GuestLinkManifest), dynamic := [], dynlib := [], have_dynamic := false,
        have_dynlib := false }) (Dynamics file) (Fails Invalid) := by
    apply Sat.foldlM_range (I := fun _ => Dynamics file)
    · exact ⟨⟨rfl, rfl, rfl, rfl, rfl, by simp⟩, nil_infix⟩
    · intro i hi state hstate
      exact findDynamic_sat (by omega) hstate
  refine Sat.bind hdynamic fun state hstate => ?_
  refine Sat.bind (Sat.failIf fun _ => hstate.fresh.valid) fun _ _ => ?_
  have htags : Sat ((List.range (state.dynamic.length / 16)).foldlM (readTag state.dynamic)
      { result := state.result, tags := [], names := [], terminated := false })
      (fun tags => Fresh tags.result) (Fails Invalid) := by
    apply Sat.foldlM_range (I := fun _ (tags : TagState) => Fresh tags.result)
    · exact hstate.fresh
    · intro i hi tags htags
      exact readTag_sat hi htags
  refine Sat.bind htags fun tags htags' => ?_
  refine Sat.bind (Sat.failIf fun _ => htags'.valid) fun _ _ => ?_
  refine (readLinkTables_sat hstate.dynlib htags' collect_records).mono fun manifest hm => ?_
  exact ⟨layout, hlayout, hlocated, hm⟩

/-- For every file and both values of `collect_records`, `InspectGuestLinkManifest` reads nothing out of bounds. -/
theorem inspectGuestLinkManifest_sound (file : List UInt8) (collect_records : Bool) :
    ∃ manifest, returns (inspectGuestLinkManifest file collect_records) = some manifest ∧
      (manifest.valid = true → collect_records = true →
        (∃ layout, returns (planGuestPayloadFile file) = some layout ∧ ∀ relocation ∈ manifest.relocation_records,
            relocation.symbol < manifest.symbol_records.length ∧
            (0 < knownWidth relocation.type → ∃ segment ∈ layout.image.plan.segments,
              segment.address ≤ relocation.address ∧ relocation.address +
                knownWidth relocation.type ≤ segment.address + segment.memory_size)) ∧
        manifest.import_symbol_indices.Pairwise (· < ·) ∧
        manifest.imports.length = manifest.import_symbol_indices.length ∧
        (∀ k, k ∈ manifest.import_symbol_indices ↔ ∃ symbol : GuestLinkSymbol,
          manifest.symbol_records[k]? = some symbol ∧ symbol.section_index = 0 ∧
            (symbol.binding = 1 ∨ symbol.binding = 2)) ∧
        (∃ strings symbols : List UInt8, strings <:+: file ∧ symbols <:+: file ∧
          (∀ k < manifest.symbol_records.length, manifest.symbol_records[k]? = some (symbolAt symbols k)) ∧
          ∀ (i k : ℕ) (name : List UInt8), manifest.import_symbol_indices[i]? = some k →
            manifest.imports[i]? = some name → NameAt strings (leRead symbols (k * 24) 4) name) ∧
        manifest.relocations = manifest.relative + manifest.jump_slots +
          manifest.symbol_relocations + manifest.tls_relocations + manifest.other_relocations +
          noneCount manifest.relocation_records) := by
  obtain ⟨manifest, hret, hor⟩ :=
    (inspectGuestLinkManifest_sat file collect_records).exists_returns
  refine ⟨manifest, hret, fun hvalid hc => ?_⟩
  rcases hor with ⟨layout, hlayout, -, h⟩ | h
  · obtain ⟨strings, symbols, hstrings, hsymbols, -, hrecords, himports⟩ := h.tables hc
    have hlen : manifest.symbol_records.length = manifest.symbols := by
      rw [hrecords, length_map, length_range]
    have hget : ∀ k < manifest.symbols, manifest.symbol_records[k]? = some (symbolAt symbols k) := by
      intro k hk
      rw [hrecords, getElem?_map, getElem?_range hk]
      rfl
    refine ⟨⟨layout, hlayout, fun relocation hmem => ?_⟩, himports.increasing,
      himports.length_eq, fun k => ?_, ⟨strings, symbols, hstrings, hsymbols, ?_,
      himports.named⟩, h.counted hc⟩
    · have hsound := h.sound relocation hmem
      exact ⟨by rw [hlen]; exact hsound.symbol_lt, hsound.target⟩
    · rw [himports.exact k]
      constructor
      · rintro ⟨hk, himp⟩
        refine ⟨_, hget k hk, ?_⟩
        simpa [GuestLinkSymbol.isImport] using himp
      · rintro ⟨symbol, hsymbol, himp⟩
        have hk : k < manifest.symbols := by
          rw [← hlen]
          exact (List.getElem?_eq_some_iff.mp hsymbol).1
        rw [hget k hk] at hsymbol
        refine ⟨hk, ?_⟩
        rw [some.inj hsymbol]
        simpa [GuestLinkSymbol.isImport] using himp
    · rw [hlen]
      exact hget
  · exact absurd hvalid (by unfold Invalid at h; rw [h]; simp)

end ShadPS4.Guest
