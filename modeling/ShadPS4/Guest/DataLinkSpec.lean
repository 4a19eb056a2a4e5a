import ShadPS4.Guest.DataLink

/-!
# What the data linker does to an image

The abstract side of the linker is what each relocation record means: `relocationAction` sorts a record by its type
and symbol, and `Action.value` is the integer that it asks to be written.
-/

namespace ShadPS4.Guest

variable {segments : List GuestLoadSegment} {manifest : GuestLinkManifest}
  {imports : GuestImportPlan} {plan : GuestLoadPlan} {bias : ℕ} {relocation : GuestLinkRelocation}
  {state : LinkState}

/-- The integer that a two's complement word stands for. -/
def signed (bits : ℕ) : ℤ := if bits < 2^63 then bits else bits - 2^64

theorem addGuestSigned_spec (hbase : base < 2^64) (hbits : bits < 2^64)
    (h : addGuestSigned base bits = some value) : (value : ℤ) = base + signed bits ∧ value < 2^64 := by
  unfold addGuestSigned at h
  rw [Nat.shiftRight_eq_div_pow] at h
  unfold signed
  by_cases hneg : bits / 2^63 ≠ 0
  · rw [if_pos hneg] at h
    have hmag : add64 (uint64Max - bits) 1 = 2^64 - bits := by
      unfold add64 uint64Max
      omega
    simp only [hmag] at h
    split_ifs at h with hlt
    have hv : base - (2^64 - bits) = value := by simpa using h
    omega
  · rw [if_neg hneg] at h
    unfold uint64Max at h
    split_ifs at h
    have hv : base + bits = value := by simpa using h
    omega

/-! ## What a relocation asks for -/

/-- What the linker does with a relocation. -/
inductive Action where
  | skip
  | relative
  | dataImport (address : ℕ)
  | localSymbol (address : ℕ)
  | pendingImport
  /-- wait for a symbol that is not local -/
  | pendingBinding
  /-- wait for a type that is not applied here -/
  | pendingType
deriving DecidableEq

section

variable (manifest : GuestLinkManifest)

/-- The action for a relocation record, by its type and symbol. -/
def relocationAction (imports : GuestImportPlan)
    (relocation : GuestLinkRelocation) : Action :=
  if relocation.type = 0 then .skip
  else if relocation.type = 8 then .relative
  else if relocation.type = 1 ∨ relocation.type = 6 ∨ relocation.type = 7 then
    let symbol := (manifest.symbol_records[relocation.symbol]?).getD {}
    if symbol.section_index = 0 then
      let address := (imports.addresses_by_symbol[relocation.symbol]?).getD 0
      if address = 0 then .pendingImport else .dataImport address
    else if symbol.binding ≠ 0 ∨ symbol.section_index ≥ 0xff00 ∨ symbol.type > 2 then
      .pendingBinding
    else .localSymbol symbol.address
  else .pendingType

/-- The addend of a relocation against a symbol, which only the first type has. -/
def GuestLinkRelocation.addend (relocation : GuestLinkRelocation) : ℤ :=
  if relocation.type = 1 then signed relocation.addend_bits else 0

def Action.value (bias : ℕ) (relocation : GuestLinkRelocation) : Action → Option ℤ
  | .relative => some (bias + signed relocation.addend_bits)
  | .dataImport address => some (address + relocation.addend)
  | .localSymbol address => some (bias + address + relocation.addend)
  | _ => none

/-- Whether an action waits for a later stage. -/
def Action.isPending : Action → Bool
  | .pendingImport | .pendingBinding | .pendingType => true
  | _ => false

def relocationPatch (imports : GuestImportPlan) (base bias : ℕ)
    (relocation : GuestLinkRelocation) : Option Patch :=
  ((relocationAction manifest imports relocation).value bias relocation).map fun v =>
    ⟨relocation.address - base, v.toNat, 0⟩

/-- The addresses that a relocation would write, if it has any. -/
def relocationTarget (relocation : GuestLinkRelocation) : Option TargetRange :=
  if relocation.type = 0 then none
  else some ⟨relocation.address, relocation.address + linkWidth relocation.type⟩

/-- The state after one more record. -/
def advance (imports : GuestImportPlan) (base bias : ℕ)
    (state : LinkState) (relocation : GuestLinkRelocation) : LinkState :=
  let state := { state with
    patches := state.patches ++ (relocationPatch manifest imports base bias relocation).toList
    ranges := state.ranges ++ (relocationTarget relocation).toList }
  match relocationAction manifest imports relocation with
  | .skip => { state with result := { state.result with none := state.result.none + 1 } }
  | .relative => { state with relative_count := state.relative_count + 1 }
  | .dataImport _ => { state with import_count := state.import_count + 1 }
  | .localSymbol _ => { state with local_count := state.local_count + 1 }
  | .pendingImport => { state with result := { state.result with
      pending_imports := state.result.pending_imports + 1 } }
  | .pendingBinding => { state with result := { state.result with
      pending_bindings := state.result.pending_bindings + 1 } }
  | .pendingType => { state with result := { state.result with
      pending_types := state.result.pending_types + 1 } }

end

/-- The linker may write to the segment. -/
def GuestLoadSegment.Writable (segment : GuestLoadSegment) : Prop :=
  segment.flags &&& 1 = 0 ∧ (segment.flags &&& 2 ≠ 0 ∨ segment.type = sceRelro)

/-- What the loop body has checked of a record. -/
structure Linkable (manifest : GuestLinkManifest) (imports : GuestImportPlan)
    (segments : List GuestLoadSegment) (bias : ℕ) (relocation : GuestLinkRelocation) : Prop where
  known : relocation.type ≠ 0 → linkKnows relocation.type = true
  word : ∀ v, (relocationAction manifest imports relocation).value bias relocation = some v →
    0 ≤ v ∧ v < 2^64 ∧ ∃ segment ∈ segments, segment.address ≤ relocation.address ∧
      relocation.address + 8 ≤ segment.address + segment.memory_size ∧ segment.Writable
  inImage : ∀ address, relocationAction manifest imports relocation = .localSymbol address →
    ∀ symbol : GuestLinkSymbol, manifest.symbol_records[relocation.symbol]? = some symbol →
      InSegment segments symbol.address (max 1 symbol.size)

theorem mappedFor_spec (h : mappedFor segments address size writable = true) :
    ∃ segment ∈ segments, segment.address ≤ address ∧ address + size ≤ segment.address + segment.memory_size ∧
      (writable = true → segment.Writable) := by
  unfold mappedFor at h
  split at h
  · exact absurd h (by simp)
  · rename_i segment hfind
    have hfound : segment.holds address size = true := by simpa using List.find?_some hfind
    have hholds := GuestLoadSegment.holds_iff.mp hfound
    refine ⟨segment, List.mem_of_find?_eq_some hfind, hholds.1, hholds.2, fun hw => ?_⟩
    simpa [hw, GuestLoadSegment.Writable] using h

def Unlinked (image : List UInt8) (result : GuestDataLink) : Prop :=
  result.valid = false ∧ result.error ≠ "post_write_verification_failed" ∧
    result.payload.image.bytes = image

theorem unlinked_failed {result : GuestDataLink} {error : String} (h : error ≠ "post_write_verification_failed") :
    Unlinked result.payload.image.bytes (result.failed error) := ⟨rfl, h, rfl⟩

theorem selectPatch_sat {value : ℕ} (hlt : value < 2^64)
    (hvalue : (relocationAction manifest imports relocation).value bias relocation =
      some (value : ℤ)) (hknown : linkKnows relocation.type = true)
    (himage : ∀ address, relocationAction manifest imports relocation = .localSymbol address →
      ∀ symbol : GuestLinkSymbol, manifest.symbol_records[relocation.symbol]? = some symbol →
        InSegment plan.segments symbol.address (max 1 symbol.size)) :
    Sat (selectPatch plan relocation value state) (fun s => s = { state with patches := state.patches ++
        (relocationPatch manifest imports plan.base bias relocation).toList } ∧
      Linkable manifest imports plan.segments bias relocation)
      (Fails (Unlinked state.result.payload.image.bytes)) := by
  refine Sat.bind (Sat.failIf fun _ => unlinked_failed (by decide)) fun _ hmapped => ?_
  have hseg := mappedFor_spec (by simpa using hmapped)
  refine Sat.pure ⟨?_, fun _ => hknown, fun v hv => ?_, himage⟩
  · unfold relocationPatch
    rw [hvalue]
    rfl
  · obtain rfl : (value : ℤ) = v := Option.some.inj (hvalue.symm.trans hv)
    obtain ⟨segment, hs, hlo, hhi, hw⟩ := hseg
    exact ⟨by omega, by omega, segment, hs, hlo, hhi, hw rfl⟩

theorem relocationAction_symbol (htype : relocation.type = 1 ∨ relocation.type = 6 ∨ relocation.type = 7)
    (hsymbol : manifest.symbol_records[relocation.symbol]? = some symbol)
    (haddress : imports.addresses_by_symbol[relocation.symbol]? = some address) :
    relocationAction manifest imports relocation =
      if symbol.section_index = 0 then if address = 0 then .pendingImport else .dataImport address
      else if symbol.binding ≠ 0 ∨ symbol.section_index ≥ 0xff00 ∨ symbol.type > 2 then
        .pendingBinding
      else .localSymbol symbol.address := by
  unfold relocationAction
  rw [if_neg (by omega), if_neg (by omega), if_pos htype]
  simp only [hsymbol, haddress, Option.getD_some]

theorem linkKnows_word (h : type = 1 ∨ type = 6 ∨ type = 7 ∨ type = 8) :
    linkKnows type = true ∧ linkWidth type = 8 := by
  rcases h with rfl | rfl | rfl | rfl <;> decide

theorem signed_addend (relocation : GuestLinkRelocation) :
    signed (if relocation.type = 1 then relocation.addend_bits else 0) = relocation.addend := by
  unfold GuestLinkRelocation.addend
  by_cases h : relocation.type = 1
  · rw [if_pos h, if_pos h]
  · rw [if_neg h, if_neg h]
    rfl

theorem relocationPatch_none (h : (relocationAction manifest imports relocation).value bias relocation = none) :
    relocationPatch manifest imports base bias relocation = none := by
  unfold relocationPatch
  rw [h]
  rfl

theorem linkable_of_none (hknown : relocation.type ≠ 0 → linkKnows relocation.type = true)
    (h : (relocationAction manifest imports relocation).value bias relocation = none) :
    Linkable manifest imports segments bias relocation where
  known := hknown
  word v hv := by
    rw [h] at hv
    exact absurd hv (by simp)
  inImage address ha := by
    rw [ha] at h
    exact absurd h (by simp [Action.value])

theorem linkSymbol_sat (hsegments : ∀ segment ∈ plan.segments, segment.address + segment.memory_size < 2^64)
    (htype : relocation.type = 1 ∨ relocation.type = 6 ∨ relocation.type = 7)
    (hsymbol : relocation.symbol < state.result.manifest.symbol_records.length)
    (haddress : relocation.symbol < state.result.imports.addresses_by_symbol.length)
    (haddend : relocation.addend_bits < 2^64)
    (hwords : ∀ address ∈ state.result.imports.addresses_by_symbol, address < 2^64) :
    Sat (linkSymbol plan bias relocation { state with
        ranges := state.ranges ++ (relocationTarget relocation).toList })
      (fun s => s = advance state.result.manifest state.result.imports plan.base bias state
          relocation ∧
        Linkable state.result.manifest state.result.imports plan.segments bias relocation)
      (Fails (Unlinked state.result.payload.image.bytes)) := by
  have hknown : linkKnows relocation.type = true := (linkKnows_word (by tauto)).1
  have hadd : (if relocation.type = 1 then relocation.addend_bits else 0) < 2^64 := by
    split_ifs
    · exact haddend
    · decide
  refine Sat.bind (Sat.fetch hsymbol) fun symbol hs => ?_
  obtain ⟨address, ha⟩ : ∃ address, state.result.imports.addresses_by_symbol[relocation.symbol]? =
      some address := ⟨_, List.getElem?_eq_getElem haddress⟩
  have haction := relocationAction_symbol htype hs ha
  refine Sat.ite (fun hsection => ?_) fun hsection => Sat.ite (fun hbinding => ?_) fun hbinding => ?_
  · -- An import: its address, or zero.
    rw [if_pos hsection] at haction
    refine Sat.bind (Sat.fetch haddress) fun address' ha' => ?_
    obtain rfl : address = address' := Option.some.inj (ha.symm.trans ha')
    refine Sat.ite (fun hzero => ?_) fun hzero => ?_
    · rw [if_pos hzero] at haction
      have hnone : (relocationAction state.result.manifest state.result.imports relocation).value
          bias relocation = none := by rw [haction]; rfl
      refine Sat.pure ⟨?_, linkable_of_none (fun _ => hknown) hnone⟩
      unfold advance
      rw [relocationPatch_none hnone, haction]
      simp
    · rw [if_neg hzero] at haction
      split
      · exact fail_sat (unlinked_failed (by decide))
      · rename_i value hvalue
        obtain ⟨hv, hlt⟩ := addGuestSigned_spec (hwords _ (List.mem_of_getElem? ha)) hadd hvalue
        rw [signed_addend] at hv
        refine (selectPatch_sat hlt (by rw [haction, hv]; rfl) hknown ?_).mono fun s ⟨hs1, hs2⟩ =>
          ⟨?_, hs2⟩
        · intro a hl
          rw [haction] at hl
          exact absurd hl (by simp)
        · rw [hs1]
          unfold advance
          rw [haction]
  · rw [if_neg hsection, if_pos hbinding] at haction
    have hnone : (relocationAction state.result.manifest state.result.imports relocation).value
        bias relocation = none := by rw [haction]; rfl
    refine Sat.pure ⟨?_, linkable_of_none (fun _ => hknown) hnone⟩
    unfold advance
    rw [relocationPatch_none hnone, haction]
    simp
  · -- A local symbol, which must lie in the image.
    rw [if_neg hsection, if_neg hbinding] at haction
    refine Sat.bind (Sat.failIf fun _ => unlinked_failed (by decide)) fun _ hin => ?_
    rw [not_or] at hin
    split
    · exact fail_sat (unlinked_failed (by decide))
    · rename_i value hvalue
      obtain ⟨segment, hseg, hlo, hhi, -⟩ := mappedFor_spec (by simpa using hin.1)
      have hbase : bias + symbol.address < 2^64 := by
        have hend := hsegments segment hseg
        have hroom := hin.2
        unfold uint64Max at hroom
        omega
      obtain ⟨hv, hlt⟩ := addGuestSigned_spec hbase hadd hvalue
      rw [signed_addend] at hv
      refine (selectPatch_sat hlt ?_ hknown ?_).mono fun s ⟨hs1, hs2⟩ => ⟨?_, hs2⟩
      · rw [haction, hv]
        simp [Action.value]
      · intro a _ symbol' hs'
        obtain rfl : symbol = symbol' := Option.some.inj (hs.symm.trans hs')
        exact ⟨segment, hseg, hlo, hhi⟩
      · rw [hs1]
        unfold advance
        rw [haction]

theorem relocationTarget_eq (h : relocation.Sound segments symbols)
    (hsegments : ∀ segment ∈ segments, segment.address + segment.memory_size < 2^64)
    (hknown : linkKnows relocation.type = true) (htype : relocation.type ≠ 0) : relocationTarget relocation = some
      ⟨relocation.address, add64 relocation.address (linkWidth relocation.type)⟩ := by
  have hwidth : knownWidth relocation.type = linkWidth relocation.type ∧ 0 < linkWidth relocation.type := by
    revert hknown
    unfold linkKnows knownWidth linkWidth
    generalize relocation.type = type
    intro hknown
    simp only [Bool.not_eq_true', Bool.and_eq_false_iff, bne_eq_false_iff_eq] at hknown
    rcases hknown with (((((((((rfl | rfl) | rfl) | rfl) | rfl) | rfl) | rfl) | rfl) | rfl) | rfl) |
      rfl <;> decide
  obtain ⟨segment, hs, hlo, hhi⟩ := h.target (by omega)
  have hend := hsegments segment hs
  unfold relocationTarget
  rw [if_neg htype, add64_of_lt (by omega)]

/-- What the linker relies on when it takes up the records. -/
structure Linking (segments : List GuestLoadSegment) (manifest : GuestLinkManifest)
    (imports : GuestImportPlan) : Prop where
  segments_lt : ∀ segment ∈ segments, segment.address + segment.memory_size < 2^64
  sound : ∀ relocation ∈ manifest.relocation_records,
    relocation.Sound segments manifest.symbols
  records : manifest.symbol_records.length = manifest.symbols
  addresses : imports.addresses_by_symbol.length = manifest.symbols
  words : ∀ address ∈ imports.addresses_by_symbol, address < 2^64

theorem linkRelocation_sat (hbias : bias < 2^64)
    (h : Linking plan.segments state.result.manifest state.result.imports)
    (hmem : relocation ∈ state.result.manifest.relocation_records) : Sat (linkRelocation plan bias state relocation)
      (fun s => s = advance state.result.manifest state.result.imports plan.base bias state relocation ∧
        Linkable state.result.manifest state.result.imports plan.segments bias relocation)
      (Fails (Unlinked state.result.payload.image.bytes)) := by
  have hsound := h.sound relocation hmem
  refine Sat.ite (fun hzero => ?_) fun hzero => ?_
  · have haction : relocationAction state.result.manifest state.result.imports relocation = .skip := by
      unfold relocationAction
      rw [if_pos hzero]
    have hnone : (relocationAction state.result.manifest state.result.imports relocation).value
        bias relocation = none := by rw [haction]; rfl
    refine Sat.pure ⟨?_, linkable_of_none (fun hne => absurd hzero hne) hnone⟩
    unfold advance relocationTarget
    rw [relocationPatch_none hnone, haction, if_pos hzero]
    simp
  · refine Sat.bind (Sat.failIf fun _ => unlinked_failed (by decide)) fun _ hunknown => ?_
    have hknown : linkKnows relocation.type = true := by simpa using hunknown
    have htarget := relocationTarget_eq hsound h.segments_lt hknown hzero
    have hlist : [(⟨relocation.address, add64 relocation.address (linkWidth relocation.type)⟩ : TargetRange)] =
        (relocationTarget relocation).toList := by
      rw [htarget]
      rfl
    rw [hlist]
    refine Sat.ite (fun hrelative => ?_) fun hrelative => Sat.ite (fun hword => ?_) fun hword => ?_
    · -- The bias and the addend.
      have haction : relocationAction state.result.manifest state.result.imports relocation = .relative := by
        unfold relocationAction
        rw [if_neg hzero, if_pos hrelative]
      split
      · exact fail_sat (unlinked_failed (by decide))
      · rename_i value hvalue
        obtain ⟨hv, hlt⟩ := addGuestSigned_spec hbias hsound.addend_lt hvalue
        refine (selectPatch_sat hlt (by rw [haction, hv]; rfl) hknown ?_).mono fun s ⟨hs1, hs2⟩ =>
          ⟨?_, hs2⟩
        · intro a hl
          rw [haction] at hl
          exact absurd hl (by simp)
        · rw [hs1]
          unfold advance
          rw [haction]
    · exact linkSymbol_sat h.segments_lt hword (by rw [h.records]; exact hsound.symbol_lt)
        (by rw [h.addresses]; exact hsound.symbol_lt) hsound.addend_lt h.words
    · have haction : relocationAction state.result.manifest state.result.imports relocation = .pendingType := by
        unfold relocationAction
        rw [if_neg hzero, if_neg hrelative, if_neg hword]
      have hnone : (relocationAction state.result.manifest state.result.imports relocation).value
          bias relocation = none := by rw [haction]; rfl
      refine Sat.pure ⟨?_, linkable_of_none (fun _ => hknown) hnone⟩
      unfold advance
      rw [relocationPatch_none hnone, haction]
      simp

def Action.isImport : Action → Bool
  | .dataImport _ => true
  | _ => false

/-- An action that writes the address of a local symbol. -/
def Action.isLocal : Action → Bool
  | .localSymbol _ => true
  | _ => false

/-- The state of the loop after the records among `done`: the counters count the actions, and the
two lists have the words and the targets in order. -/
def collected (manifest : GuestLinkManifest) (imports : GuestImportPlan) (base bias : ℕ)
    (result : GuestDataLink) (done : List GuestLinkRelocation) : LinkState where
  result := { result with
    none := done.countP fun r => relocationAction manifest imports r = .skip
    pending_imports := done.countP fun r => relocationAction manifest imports r = .pendingImport
    pending_bindings := done.countP fun r => relocationAction manifest imports r = .pendingBinding
    pending_types := done.countP fun r => relocationAction manifest imports r = .pendingType }
  patches := done.filterMap (relocationPatch manifest imports base bias)
  ranges := done.filterMap relocationTarget
  relative_count := done.countP fun r => relocationAction manifest imports r = .relative
  local_count := done.countP fun r => (relocationAction manifest imports r).isLocal
  import_count := done.countP fun r => (relocationAction manifest imports r).isImport

theorem advance_collected (manifest : GuestLinkManifest) (imports : GuestImportPlan)
    (base bias : ℕ) (result : GuestDataLink) (done : List GuestLinkRelocation) (relocation : GuestLinkRelocation) :
    advance manifest imports base bias (collected manifest imports base bias result done)
      relocation = collected manifest imports base bias result (done ++ [relocation]) := by
  have hlist : ∀ {α : Type} (f : GuestLinkRelocation → Option α),
      [relocation].filterMap f = (f relocation).toList := by
    intro α f
    cases h : f relocation <;> simp [h]
  unfold advance collected
  simp only [List.filterMap_append, hlist, List.countP_append, List.countP_singleton]
  cases relocationAction manifest imports relocation <;>
    simp [Action.isImport, Action.isLocal]

/-- What holds before the first write: the records were taken one by one, and no two targets meet.
-/
structure Linked (payload : GuestPayload) (manifest : GuestLinkManifest)
    (imports : GuestImportPlan) (bias : ℕ) (require_complete : Bool) (state : LinkState) : Prop where
  state_eq : state = collected manifest imports payload.image.plan.base bias
    { bias, payload, manifest, imports } manifest.relocation_records
  linkable : ∀ relocation ∈ manifest.relocation_records,
    Linkable manifest imports payload.image.plan.segments bias relocation
  overlapping_eq :
    overlapping (state.ranges.insertionSort fun a b => a.start ≤ b.start) = false
  complete : require_complete = true → state.result.pending_imports +
    state.result.pending_bindings + state.result.pending_types = 0

theorem linkRelocations_sat (hbias : bias < 2^64) (h : Linking payload.image.plan.segments manifest imports) :
    Sat (linkRelocations bias require_complete { bias, payload, manifest, imports })
      (Linked payload manifest imports bias require_complete) (Fails (Unlinked payload.image.bytes)) := by
  unfold linkRelocations
  refine Sat.bind (Sat.failIf fun _ => ⟨rfl, by simp [GuestDataLink.failed], rfl⟩) fun _ _ => ?_
  have hloop : Sat (manifest.relocation_records.foldlM (linkRelocation payload.image.plan bias)
      { result := { bias, payload, manifest, imports }, patches := [], ranges := [],
        relative_count := 0, local_count := 0, import_count := 0 })
      (fun state => state = collected manifest imports payload.image.plan.base bias
          { bias, payload, manifest, imports } manifest.relocation_records ∧
        ∀ relocation ∈ manifest.relocation_records,
          Linkable manifest imports payload.image.plan.segments bias relocation)
      (Fails (Unlinked payload.image.bytes)) := by
    apply Sat.foldlM (I := fun done state =>
      state = collected manifest imports payload.image.plan.base bias
        { bias, payload, manifest, imports } done ∧
      ∀ relocation ∈ done,
        Linkable manifest imports payload.image.plan.segments bias relocation)
    · exact ⟨rfl, by simp⟩
    · intro done relocation rest state hrecords hstate
      obtain ⟨rfl, hdone⟩ := hstate
      have hmem : relocation ∈ manifest.relocation_records := by
        rw [hrecords]
        simp
      refine (linkRelocation_sat hbias h hmem).mono fun s hs => ?_
      obtain ⟨rfl, hlinkable⟩ := hs
      refine ⟨advance_collected _ _ _ _ _ _ _, fun r hr => ?_⟩
      rcases List.mem_append.mp hr with hr | hr
      · exact hdone r hr
      · rw [List.mem_singleton.mp hr]
        exact hlinkable
  refine Sat.bind hloop fun state hstate => ?_
  obtain ⟨rfl, hlinkable⟩ := hstate
  refine Sat.bind (Sat.failIf fun _ => ⟨rfl, by simp [GuestDataLink.failed], rfl⟩) fun _ hover => ?_
  refine Sat.bind (Sat.failIf fun _ => ⟨rfl, by simp [GuestDataLink.failed], rfl⟩)
    fun _ hpending => Sat.pure ⟨rfl, hlinkable, by simpa using hover, fun hc => ?_⟩
  rw [not_and, not_not] at hpending
  exact hpending hc

end ShadPS4.Guest
