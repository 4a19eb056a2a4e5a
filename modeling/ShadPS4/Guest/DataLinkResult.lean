import Mathlib.Data.Int.ModEq
import ShadPS4.Guest.DataLinkCommit

/-!
# The linked image

The results about `StageGuestDataLink` as a whole. `RelocatedTo` says what a relocation record asks to be written,
in terms of the symbols, the bindings and the exports alone.
-/

namespace ShadPS4.Guest

open Option (some.inj)

variable {v : ℤ}

/-! ## The checks before the first write -/

/-- `StageGuestDataLink` up to the first write. -/
def linkChecks (file : List UInt8) (bias : UInt64) (require_complete : Bool)
    (exports : List GuestDataExport) : Except (Stop GuestDataLink) LinkState := do
  let payload ← call (stageGuestPayload file)
  let manifest ← call (inspectGuestLinkManifest file true)
  let result : GuestDataLink := { bias := bias.toNat, payload, manifest }
  failIf (payload.ready = false ∨ manifest.valid = false)
    (result.failed "payload_or_manifest_invalid")
  let imports ← call (resolveGuestImports manifest exports)
  let result := { result with imports := imports }
  failIf (imports.valid = false) (result.failed "import_namespace_or_registry_invalid")
  linkRelocations bias.toNat require_complete result

theorem stageGuestDataLink_eq (file : List UInt8) (bias : UInt64) (require_complete : Bool)
    (exports : List GuestDataExport) : stageGuestDataLink file bias require_complete exports =
      linkChecks file bias require_complete exports >>= commitPatches file := by
  unfold stageGuestDataLink linkChecks
  simp only [bind_assoc]

theorem linkChecks_ok   (hpayload : returns (stageGuestPayload file) = some payload) (hready : payload.ready = true)
    (hmanifest : returns (inspectGuestLinkManifest file true) = some manifest)
    (hmanifestValid : manifest.valid = true)
    (himports : returns (resolveGuestImports manifest exports) = some imports)
    (himportsValid : imports.valid = true) (hlink : linkRelocations bias.toNat require_complete
      { bias := bias.toNat, payload, manifest, imports } = .ok state) :
    linkChecks file bias require_complete exports = .ok state := by
  unfold linkChecks
  rw [call_of_returns hpayload, call_of_returns hmanifest]
  have hpass : ¬ (payload.ready = false ∨ manifest.valid = false) := by simp [hready, hmanifestValid]
  have hpass' : ¬ imports.valid = false := by simp [himportsValid]
  change (failIf _ _ >>= fun _ => call (resolveGuestImports manifest exports) >>= _) = _
  rw [failIf_neg hpass, call_of_returns himports]
  change (failIf _ _ >>= fun _ => _) = _
  rw [failIf_neg hpass']
  exact hlink

/-- What the linker has established when its checks have passed. -/
structure Checked (file : List UInt8) (bias : ℕ) (require_complete : Bool)
    (exports : List GuestDataExport) (payload : GuestPayload) (manifest : GuestLinkManifest)
    (imports : GuestImportPlan) (state : LinkState) : Prop where
  payload_eq : returns (stageGuestPayload file) = some payload
  manifest_eq : returns (inspectGuestLinkManifest file true) = some manifest
  imports_eq : returns (resolveGuestImports manifest exports) = some imports
  staged : Staged file payload
  inspected : Inspected file payload.image.plan.segments true manifest
  resolved : Resolved manifest.symbols manifest.import_symbol_indices exports imports
  distinct : exports.Pairwise fun entry other => entry.key ≠ other.key
  linked : Linked payload manifest imports bias require_complete state

/-- A result that was refused has the staged image. -/
def Unstaged (file : List UInt8) (result : GuestDataLink) : Prop :=
  ∃ payload, returns (stageGuestPayload file) = some payload ∧
    Unlinked payload.image.bytes result

theorem Resolved.words (h : Resolved symbols indices exports plan) :
    ∀ address ∈ plan.addresses_by_symbol, address < 2^64 := by
  intro address hmem
  obtain ⟨s, hs⟩ := List.mem_iff_getElem?.mp hmem
  have hlt : s < symbols := by
    rw [← h.length_eq]
    exact (List.getElem?_eq_some_iff.mp hs).1
  by_cases hi : s ∈ indices
  · rw [← h.symbols_eq] at hi
    obtain ⟨binding, hb, rfl⟩ := List.mem_map.mp hi
    obtain rfl : binding.numeric_address = address :=
      some.inj ((h.address binding hb).symm.trans hs)
    rcases h.bound binding hb with ⟨hzero, -⟩ | ⟨-, entry, -, -, he⟩
    · rw [hzero]
      decide
    · rw [← he]
      exact entry.numeric_address.toNat_lt
  · obtain rfl : 0 = address := some.inj ((h.unbound s hlt hi).symm.trans hs)
    decide

theorem linkChecks_sat (file : List UInt8) (bias : UInt64) (require_complete : Bool)
    (exports : List GuestDataExport) :
    Sat (linkChecks file bias require_complete exports) (fun state => ∃ payload manifest imports,
      Checked file bias.toNat require_complete exports payload manifest imports state) (Fails (Unstaged file)) := by
  refine Sat.bind (Sat.call (stageGuestPayload_sat file)) fun payload ⟨hpayload, hstage⟩ => ?_
  refine Sat.bind (Sat.call (inspectGuestLinkManifest_sat file true))
    fun manifest ⟨hmanifest, hinspect⟩ => ?_
  have hrefuse : ∀ result : GuestDataLink, Unlinked payload.image.bytes result →
      Unstaged file result := fun result h => ⟨payload, hpayload, h⟩
  refine Sat.bind (Sat.failIf fun _ => hrefuse _ (unlinked_failed (by decide))) fun _ hready => ?_
  rw [not_or, Bool.not_eq_false, Bool.not_eq_false] at hready
  have hstaged : Staged file payload := by
    have hnot : ¬ Refused payload := by
      intro hr
      have := hready.1
      unfold GuestPayload.ready at this
      unfold Refused at hr
      simp_all
    tauto
  obtain ⟨layout, hlayout, -, hinspected⟩ := hinspect.resolve_right fun hinvalid => by
    unfold Invalid at hinvalid
    rw [hready.2] at hinvalid
    exact absurd hinvalid (by simp)
  have hsegments : Inspected file payload.image.plan.segments true manifest := by
    obtain ⟨start, hstart, hplan⟩ := hstaged.plan_eq
    obtain rfl : start = layout := some.inj (hstart.symm.trans hlayout)
    rw [← hplan]
    exact hinspected
  refine Sat.bind (Sat.call (resolveGuestImports_sat manifest exports))
    fun imports ⟨himports, hresolve⟩ => ?_
  refine Sat.bind (Sat.failIf fun _ => hrefuse _ (unlinked_failed (by decide))) fun _ hvalid => ?_
  obtain ⟨-, hrecords, hdistinct, hresolved⟩ := hresolve.resolve_right hvalid
  obtain ⟨header, hplan⟩ := hstaged.located.planned
  have hlinking : Linking payload.image.plan.segments manifest imports :=
    ⟨fun s hs => (hplan.sound s hs).end_lt, hsegments.sound, hrecords, hresolved.length_eq,
      hresolved.words⟩
  refine ((linkRelocations_sat bias.toNat_lt hlinking).mono fun state hstate => ?_).mono_fault ?_
  · exact ⟨payload, manifest, imports, hpayload, hmanifest, himports, hstaged, hsegments, hresolved,
      hdistinct, hstate⟩
  · intro e he
    cases e with
    | fault => exact he
    | fail result => exact hrefuse result he

theorem stageGuestDataLink_sat (file : List UInt8) (bias : UInt64) (require_complete : Bool)
    (exports : List GuestDataExport) : Sat (stageGuestDataLink file bias require_complete exports)
      (fun result => ∃ payload manifest imports state image,
        Checked file bias.toNat require_complete exports payload manifest imports state ∧
        Patched payload.image.bytes (manifest.relocation_records.filterMap
          (relocationPatch manifest imports payload.image.plan.base bias.toNat)) image ∧
        result = state.committed image) (Fails (Unstaged file)) := by
  rw [stageGuestDataLink_eq]
  refine Sat.bind (linkChecks_sat file bias require_complete exports) fun state hstate => ?_
  obtain ⟨payload, manifest, imports, h⟩ := hstate
  refine (commitPatches_sat h.staged h.linked).mono fun result hresult => ?_
  obtain ⟨image, hpatched, hcommitted⟩ := hresult
  exact ⟨payload, manifest, imports, state, image, h, hpatched, hcommitted⟩

theorem exists_checked  (hret : returns (stageGuestDataLink file bias require_complete exports) = some result)
    (hvalid : result.valid = true) : ∃ payload manifest imports state image,
      Checked file bias.toNat require_complete exports payload manifest imports state ∧
      Patched payload.image.bytes (manifest.relocation_records.filterMap
        (relocationPatch manifest imports payload.image.plan.base bias.toNat)) image ∧
      result = state.committed image := by
  obtain ⟨r, hr, hor⟩ :=
    (stageGuestDataLink_sat file bias require_complete exports).exists_returns
  obtain rfl : r = result := some.inj (hr.symm.trans hret)
  refine hor.resolve_right fun ⟨_, _, hinvalid, _⟩ => ?_
  rw [hvalid] at hinvalid
  exact absurd hinvalid (by simp)

theorem exists_valid_of_linkChecks  (h : linkChecks file bias require_complete exports = .ok state) :
    ∃ image, returns (stageGuestDataLink file bias require_complete exports) = some (state.committed image) := by
  obtain ⟨payload, manifest, imports, hchecked⟩ :=
    (linkChecks_sat file bias require_complete exports).1 state h
  obtain ⟨result, hret, hor⟩ :=
    (commitPatches_sat (R := fun _ => False) hchecked.staged hchecked.linked).exists_returns
  obtain ⟨image, -, rfl⟩ := hor.resolve_right id
  refine ⟨image, ?_⟩
  rw [stageGuestDataLink_eq, h]
  exact hret

/-- For every file, bias, export list and both values of `require_complete`, the linker returns a result, and never
with the error of its own verification: when the checks before the first write have passed, the result is valid and
both verifications succeeded. -/
theorem stageGuestDataLink_verified (file : List UInt8) (bias : UInt64) (require_complete : Bool)
    (exports : List GuestDataExport) :
    ∃ result, returns (stageGuestDataLink file bias require_complete exports) = some result ∧
      result.error ≠ "post_write_verification_failed" ∧
      (∀ state, linkChecks file bias require_complete exports = .ok state →
        result.valid = true ∧ result.writes_verified = true ∧ result.untouched_verified = true) ∧
      (result.valid = true → result.writes_verified = true ∧ result.untouched_verified = true) ∧
      (result.valid = false → ∃ payload, returns (stageGuestPayload file) = some payload ∧
        result.payload.image.bytes = payload.image.bytes) := by
  obtain ⟨result, hret, hor⟩ :=
    (stageGuestDataLink_sat file bias require_complete exports).exists_returns
  have hpassed : ∀ state, linkChecks file bias require_complete exports = .ok state →
      result.valid = true ∧ result.writes_verified = true ∧ result.untouched_verified = true := by
    intro state hstate
    obtain ⟨image, himage⟩ := exists_valid_of_linkChecks hstate
    obtain rfl : result = state.committed image := some.inj (hret.symm.trans himage)
    exact ⟨rfl, rfl, rfl⟩
  refine ⟨result, hret, ?_⟩
  rcases hor with ⟨payload, manifest, imports, state, image, h, -, rfl⟩ |
    ⟨payload, hpayload, hinvalid, herror, hbytes⟩
  · have herror : (state.committed image).error = "" := by
      rw [h.linked.state_eq]
      rfl
    refine ⟨by rw [herror]; decide, hpassed, fun _ => ⟨rfl, rfl⟩, fun hfalse => ?_⟩
    exact absurd hfalse (by simp [LinkState.committed])
  · refine ⟨herror, hpassed, fun hvalid => ?_, fun _ => ⟨payload, hpayload, hbytes⟩⟩
    rw [hinvalid] at hvalid
    exact absurd hvalid (by simp)

/-! ## What is written -/

/-- A 64-bit relocation against a symbol: `R_X86_64_64`, `GLOB_DAT` or `JUMP_SLOT`. -/
def GuestLinkRelocation.OnSymbol (relocation : GuestLinkRelocation) : Prop :=
  relocation.type = 1 ∨ relocation.type = 6 ∨ relocation.type = 7

/-- The relocation is against a local symbol of the image: an untyped symbol, an object or a function,
in an ordinary section. -/
structure GuestLinkRelocation.AgainstLocal (relocation : GuestLinkRelocation)
    (segments : List GuestLoadSegment) (records : List GuestLinkSymbol) (symbol : GuestLinkSymbol) :
    Prop where
  onSymbol : relocation.OnSymbol
  record : records[relocation.symbol]? = some symbol
  binding_eq : symbol.binding = 0
  section_index : symbol.section_index ≠ 0 ∧ symbol.section_index < 0xff00
  type_le : symbol.type ≤ 2
  inImage : InSegment segments symbol.address (max 1 symbol.size)

/-- The integer that a relocation record asks to be written. -/
inductive RelocatedTo (segments : List GuestLoadSegment) (records : List GuestLinkSymbol)
    (bindings : List GuestImportBinding) (exports : List GuestDataExport) (bias : ℕ)
    (relocation : GuestLinkRelocation) : ℤ → Prop
  | relative (h : relocation.type = 8) : RelocatedTo segments records bindings exports bias relocation
      (bias + signed relocation.addend_bits)
  /-- A resolved import: the address of the export with its key, and the addend of the first type. -/
  | resolved (h : relocation.OnSymbol) {binding : GuestImportBinding} (hb : binding ∈ bindings)
      (hsymbol : binding.symbol = relocation.symbol) {entry : GuestDataExport}
      (he : entry ∈ exports) (hkey : entry.key = binding.key) :
      RelocatedTo segments records bindings exports bias relocation
        (entry.numeric_address.toNat + relocation.addend)
  /-- A local symbol of the image: the bias, its address, and the addend of the first type. -/
  | based {symbol : GuestLinkSymbol} (h : relocation.AgainstLocal segments records symbol) :
      RelocatedTo segments records bindings exports bias relocation
        (bias + symbol.address + relocation.addend)

/-- Whether a record is pending: it is of a type that asks for something, and nothing is written. -/
def Pending (segments : List GuestLoadSegment) (records : List GuestLinkSymbol)
    (bindings : List GuestImportBinding) (exports : List GuestDataExport) (bias : ℕ)
    (relocation : GuestLinkRelocation) : Prop :=
  relocation.type ≠ 0 ∧ ∀ v, ¬ RelocatedTo segments records bindings exports bias relocation v

section Checked

variable {file : List UInt8} {bias : ℕ} {require_complete : Bool} {exports : List GuestDataExport}
  {payload : GuestPayload} {manifest : GuestLinkManifest} {imports : GuestImportPlan}
  {state : LinkState}
  (h : Checked file bias require_complete exports payload manifest imports state)

include h

theorem Checked.undefined (hk : k ∈ manifest.import_symbol_indices)
    (hsymbol : manifest.symbol_records[k]? = some symbol) : symbol.section_index = 0 := by
  obtain ⟨strings, symbols, -, -, -, hrecords, himports⟩ := h.inspected.tables rfl
  obtain ⟨hlt, himport⟩ := (himports.exact k).mp hk
  rw [hrecords, List.getElem?_map, List.getElem?_range hlt] at hsymbol
  obtain rfl := some.inj hsymbol
  unfold GuestLinkSymbol.isImport at himport
  simp only [Bool.not_eq_true', Bool.or_eq_false_iff, bne_eq_false_iff_eq] at himport
  exact himport.1

theorem Checked.value_iff (hmem : relocation ∈ manifest.relocation_records) :
    (relocationAction manifest imports relocation).value bias relocation = some v ↔
      RelocatedTo payload.image.plan.segments manifest.symbol_records imports.bindings exports bias relocation v := by
  have hlt := (h.inspected.sound relocation hmem).symbol_lt
  have hlen : manifest.symbol_records.length = manifest.symbols := by
    obtain ⟨strings, symbols, -, -, -, hrecords, -⟩ := h.inspected.tables rfl
    rw [hrecords, List.length_map, List.length_range]
  obtain ⟨symbol, hsymbol⟩ : ∃ symbol, manifest.symbol_records[relocation.symbol]? = some symbol :=
    ⟨_, List.getElem?_eq_getElem (by omega)⟩
  obtain ⟨address, haddress⟩ : ∃ address, imports.addresses_by_symbol[relocation.symbol]? = some address :=
    ⟨_, List.getElem?_eq_getElem (by rw [h.resolved.length_eq]; exact hlt)⟩
  constructor
  · intro hv
    have htype := type_of_value hv
    by_cases hrel : relocation.type = 8
    · have haction : relocationAction manifest imports relocation = .relative := by
        unfold relocationAction
        rw [if_neg (by omega), if_pos hrel]
      rw [haction] at hv
      obtain rfl := some.inj hv
      exact .relative hrel
    · have hon : relocation.OnSymbol := by
        unfold GuestLinkRelocation.OnSymbol
        omega
      have haction := relocationAction_symbol hon hsymbol haddress
      have hlinkable := h.linked.linkable relocation hmem
      by_cases hsection : symbol.section_index = 0
      · rw [if_pos hsection] at haction
        by_cases hzero : address = 0
        · rw [haction, if_pos hzero] at hv
          exact absurd hv (by simp [Action.value])
        · -- An address that is not zero is that of a binding.
          rw [haction, if_neg hzero] at hv
          obtain rfl := some.inj hv
          have hindex : relocation.symbol ∈ manifest.import_symbol_indices := by
            by_contra hnot
            exact hzero (some.inj (haddress.symm.trans (h.resolved.unbound _ hlt hnot)))
          rw [← h.resolved.symbols_eq] at hindex
          obtain ⟨binding, hb, hs⟩ := List.mem_map.mp hindex
          have hnumeric := h.resolved.address binding hb
          rw [hs, haddress] at hnumeric
          obtain rfl := some.inj hnumeric
          rcases h.resolved.bound binding hb with ⟨hnone, -⟩ | ⟨-, entry, he, hkey, hnum⟩
          · exact absurd hnone hzero
          · rw [← hnum]
            exact .resolved hon hb hs he hkey
      · rw [if_neg hsection] at haction
        by_cases hother : symbol.binding ≠ 0 ∨ symbol.section_index ≥ 0xff00 ∨ symbol.type > 2
        · rw [haction, if_pos hother] at hv
          exact absurd hv (by simp [Action.value])
        · rw [if_neg hother] at haction
          rw [haction] at hv
          obtain rfl := some.inj hv
          exact .based ⟨hon, hsymbol, by omega, by omega, by omega,
            hlinkable.inImage _ haction symbol hsymbol⟩
  · intro hto
    cases hto with
    | relative hrel =>
      unfold relocationAction
      rw [if_neg (by omega), if_pos hrel]
      rfl
    | @resolved hon binding hb hs entry he hkey =>
      have hindex : relocation.symbol ∈ manifest.import_symbol_indices := by
        rw [← h.resolved.symbols_eq, ← hs]
        exact List.mem_map_of_mem hb
      have hnumeric := h.resolved.address binding hb
      rw [hs, haddress] at hnumeric
      obtain rfl := some.inj hnumeric
      rcases h.resolved.bound binding hb with ⟨-, hnone⟩ | ⟨hne, entry', he', hkey', hnum⟩
      · exact absurd hkey (hnone entry he)
      · -- Two exports with the key of the binding are the same one.
        obtain rfl : entry = entry' := by
          by_contra hdiff
          have : Std.Symm fun entry other : GuestDataExport => entry.key ≠ other.key :=
            ⟨fun _ _ hab => hab.symm⟩
          exact h.distinct.forall he he' hdiff (hkey.trans hkey'.symm)
        rw [relocationAction_symbol hon hsymbol haddress, if_pos (h.undefined hindex hsymbol), if_neg hne, hnum]
        rfl
    | @based symbol' hl =>
      obtain rfl : symbol = symbol' := some.inj (hsymbol.symm.trans hl.record)
      have h1 := hl.section_index
      have h2 := hl.binding_eq
      have h3 := hl.type_le
      rw [relocationAction_symbol hl.onSymbol hsymbol haddress, if_neg h1.1, if_neg (by omega)]
      rfl

theorem Checked.mem_patches_iff (p : Patch) : p ∈ manifest.relocation_records.filterMap
        (relocationPatch manifest imports payload.image.plan.base bias) ↔
      ∃ relocation ∈ manifest.relocation_records, ∃ v : ℤ,
        RelocatedTo payload.image.plan.segments manifest.symbol_records imports.bindings exports bias
          relocation v ∧ p = ⟨relocation.address - payload.image.plan.base, v.toNat, 0⟩ := by
  rw [List.mem_filterMap]
  constructor
  · rintro ⟨relocation, hmem, hp⟩
    obtain ⟨v, hv, rfl⟩ := Option.map_eq_some_iff.mp hp
    exact ⟨relocation, hmem, v, (h.value_iff hmem).mp hv, rfl⟩
  · rintro ⟨relocation, hmem, v, hv, rfl⟩
    refine ⟨relocation, hmem, ?_⟩
    unfold relocationPatch
    rw [(h.value_iff hmem).mpr hv]
    rfl

theorem Checked.outside_of_not_writable {segment : GuestLoadSegment}
    (hmem : segment ∈ payload.image.plan.segments) (hnot : ¬ segment.Writable) {a : ℕ} (hlo : segment.address ≤ a)
    (hhi : a < segment.address + segment.memory_size) {relocation : GuestLinkRelocation}
    (hr : relocation ∈ manifest.relocation_records)
    (hv : RelocatedTo payload.image.plan.segments manifest.symbol_records imports.bindings exports
      bias relocation v) : ¬ (relocation.address ≤ a ∧ a < relocation.address + 8) := by
  obtain ⟨header, hplan⟩ := h.staged.located.planned
  obtain ⟨-, -, other, hother, holo, hohi, hw⟩ :=
    (h.linked.linkable relocation hr).word v ((h.value_iff hr).mpr hv)
  have hne : segment ≠ other := fun he => hnot (he ▸ hw)
  have hapart := hplan.apart.forall hmem hother hne
  unfold GuestLoadSegment.Apart at hapart
  omega

theorem Checked.pending_iff (hmem : relocation ∈ manifest.relocation_records) :
    (relocationAction manifest imports relocation).isPending = true ↔
      Pending payload.image.plan.segments manifest.symbol_records imports.bindings exports bias relocation := by
  have hskip : relocation.type = 0 ↔ relocationAction manifest imports relocation = .skip := by
    unfold relocationAction
    split_ifs with h0 <;> simp [h0]
    all_goals split_ifs <;> simp
  unfold Pending
  simp only [← h.value_iff hmem, ne_eq, hskip]
  cases relocationAction manifest imports relocation <;> simp [Action.isPending, Action.value]

theorem Checked.complete_iff (image : List UInt8) :
    (state.committed image).complete = true ↔ ∀ relocation ∈ manifest.relocation_records,
      ¬ Pending payload.image.plan.segments manifest.symbol_records imports.bindings exports bias relocation := by
  have hcount : ∀ records : List GuestLinkRelocation,
      records.countP (fun r => relocationAction manifest imports r = .pendingImport) +
        records.countP (fun r => relocationAction manifest imports r = .pendingBinding) +
        records.countP (fun r => relocationAction manifest imports r = .pendingType) = 0 ↔
      ∀ r ∈ records, (relocationAction manifest imports r).isPending ≠ true := by
    intro records
    simp only [Nat.add_eq_zero_iff, List.countP_eq_zero, decide_eq_true_eq, ← forall_and]
    refine forall₂_congr fun r _ => ?_
    cases relocationAction manifest imports r <;> simp [Action.isPending]
  unfold LinkState.committed
  rw [h.linked.state_eq]
  simp only [decide_eq_true_eq]
  exact (hcount _).trans (forall₂_congr fun r hr => not_congr (h.pending_iff hr))

theorem Checked.committed_eq (image : List UInt8) :
    (state.committed image).payload = { payload with image := { payload.image with bytes := image } } ∧
      (state.committed image).manifest = manifest ∧ (state.committed image).imports = imports := by
  rw [h.linked.state_eq]
  exact ⟨rfl, rfl, rfl⟩

end Checked

/-! ## A sample file -/

/-- A field of `count` bytes. -/
def leBytes (value count : ℕ) : List UInt8 := (List.range count).map (leByte value)

def programHeader (type flags offset address file_size memory_size : ℕ) : List UInt8 :=
  leBytes type 4 ++ leBytes flags 4 ++ leBytes offset 8 ++ leBytes address 8 ++ leBytes address 8 ++
    leBytes file_size 8 ++ leBytes memory_size 8 ++ leBytes 1 8

def dynamicEntry (tag value : ℕ) : List UInt8 := leBytes tag 8 ++ leBytes value 8

/-- A raw ELF with a code segment and a data segment without file bytes. -/
def sampleFile : List UInt8 :=
  [0x7f, 0x45, 0x4c, 0x46, 2, 1, 1, 9, 0, 0, 0, 0, 0, 0, 0, 0] ++ leBytes 0xfe10 2 ++
    leBytes 62 2 ++ leBytes 1 4 ++ leBytes 0x400000 8 ++ leBytes 64 8 ++ leBytes 0 12 ++
    leBytes 64 2 ++ leBytes 56 2 ++ leBytes 4 2 ++ leBytes 0 6 ++
  programHeader 1 5 0 0x400000 64 64 ++ programHeader 1 6 0 0x400100 0 64 ++
  programHeader 2 4 288 0 144 144 ++ programHeader 0x61000000 4 432 0 104 104 ++
  dynamicEntry 0x61000035 0 ++ dynamicEntry 0x61000037 8 ++ dynamicEntry 0x61000039 8 ++
  dynamicEntry 0x6100003f 48 ++ dynamicEntry 0x6100003b 24 ++ dynamicEntry 0x6100002f 56 ++
  dynamicEntry 0x61000031 48 ++ dynamicEntry 0x61000033 24 ++ dynamicEntry 0 0 ++
  -- The strings, the two symbols and the two relocations.
  leBytes 0 8 ++ leBytes 0 24 ++
  leBytes 0 4 ++ [3, 0] ++ leBytes 1 2 ++ leBytes 0x400100 8 ++ leBytes 0 8 ++
  leBytes 0x400100 8 ++ leBytes 8 8 ++ leBytes 0x400110 8 ++
  leBytes 0x400108 8 ++ leBytes (2^32 + 1) 8 ++ leBytes 0 8

def samplePlan : GuestLoadPlan where
  valid := true
  raw_elf := true
  base := 0x400000
  image_size := 0x4000
  segments := [⟨0, 0x400000, 64, 64, 5, 0, 1⟩, ⟨0, 0x400100, 0, 64, 6, 1, 1⟩]

def sampleManifest : GuestLinkManifest where
  valid := true
  dynamic_entries := 8
  symbols := 2
  relocations := 2
  relative := 1
  symbol_relocations := 1
  target_checks := 2
  symbol_records := [{}, ⟨0x400100, 0, 1, 0, 3⟩]
  relocation_records := [⟨0x400100, 0x400110, 8, 0⟩, ⟨0x400108, 0, 1, 1⟩]

def sampleImports : GuestImportPlan where
  valid := true
  addresses_by_symbol := [0, 0]

theorem samplePlan_eq : (returns (planGuestPayloadFile sampleFile)).map (·.image) =
    some { plan := samplePlan } := by decide +kernel

theorem sampleManifest_eq :
    returns (inspectGuestLinkManifest sampleFile true) = some sampleManifest := by decide +kernel

theorem sampleImports_eq : returns (resolveGuestImports sampleManifest []) = some sampleImports := by decide

theorem exists_staged (hplan : (returns (planGuestPayloadFile file)).map (·.image) = some image)
    (hvalid : image.plan.valid = true) (herror : image.error = "") (hsize : 0 < image.plan.image_size) :
    ∃ payload, returns (stageGuestPayload file) = some payload ∧ payload.ready = true ∧
      payload.image.plan = image.plan := by
  obtain ⟨start, hstart, rfl⟩ := Option.map_eq_some_iff.mp hplan
  obtain ⟨payload, hret, hor⟩ := (stageGuestPayload_sat file).exists_returns
  refine ⟨payload, hret, ?_⟩
  rcases hor with (⟨hrefused, hp⟩ | hstaged) | hfalse
  · obtain rfl : start = payload := some.inj (hstart.symm.trans hp)
    unfold Refused at hrefused
    simp_all
  · obtain ⟨start', hstart', heq⟩ := hstaged.plan_eq
    obtain rfl : start = start' := some.inj (hstart.symm.trans hstart')
    have hne : payload.image.bytes ≠ [] := by
      rw [← List.length_pos_iff, hstaged.length_eq, ← heq]
      exact hsize
    unfold GuestPayload.ready
    rw [← heq, hvalid, hstaged.located.error_eq, hstaged.bss_verified]
    simpa using hne
  · exact absurd hfalse id

theorem sample_linkRelocations (hbias : bias = 0x10000 ∨ bias = 0x20000)
    (payload : GuestPayload) (h : payload.image.plan = samplePlan) : ∃ state, linkRelocations bias false
      { bias, payload, manifest := sampleManifest, imports := sampleImports } = .ok state := by
  obtain ⟨⟨plan, bytes, error⟩, _, _, _, _, _, _⟩ := payload
  subst h
  rcases hbias with rfl | rfl
  · exact ⟨_, rfl⟩
  · exact ⟨_, rfl⟩

theorem sample_linked (hbias : bias = 0x10000 ∨ bias = 0x20000) :
    ∃ result, returns (stageGuestDataLink sampleFile bias false []) = some result ∧ result.valid = true := by
  obtain ⟨payload, hpayload, hready, hplan⟩ := exists_staged samplePlan_eq rfl rfl (by decide)
  have hword : bias.toNat = 0x10000 ∨ bias.toNat = 0x20000 := by
    rcases hbias with rfl | rfl <;> decide
  obtain ⟨state, hstate⟩ := sample_linkRelocations hword payload hplan
  obtain ⟨image, himage⟩ := exists_valid_of_linkChecks
    (linkChecks_ok hpayload hready sampleManifest_eq rfl sampleImports_eq rfl hstate)
  exact ⟨_, himage, rfl⟩

/-! ## The image and the relocations -/

/-- A valid result is the staged image with the word of every relocation record written: the exact sums of
`RelocatedTo`, which are words, at the place of the record's address. -/
theorem stageGuestDataLink_exact (file : List UInt8) (bias : UInt64) (require_complete : Bool)
    (exports : List GuestDataExport) {result : GuestDataLink}
    (hret : returns (stageGuestDataLink file bias require_complete exports) = some result)
    (hvalid : result.valid = true) : ∃ payload, returns (stageGuestPayload file) = some payload ∧
      returns (inspectGuestLinkManifest file true) = some result.manifest ∧
      returns (resolveGuestImports result.manifest exports) = some result.imports ∧
      result.payload.image.plan = payload.image.plan ∧
      result.payload.image.bytes.length = payload.image.bytes.length ∧
      (∀ relocation ∈ result.manifest.relocation_records, ∀ v : ℤ,
        RelocatedTo payload.image.plan.segments result.manifest.symbol_records
          result.imports.bindings exports bias.toNat relocation v →
        0 ≤ v ∧ v < 2^64 ∧ payload.image.plan.base ≤ relocation.address ∧
        ∀ i < 8, result.payload.image.bytes[relocation.address - payload.image.plan.base + i]? =
          some (leByte v.toNat i)) ∧ (∀ j : ℕ, (∀ relocation ∈ result.manifest.relocation_records, ∀ v : ℤ,
          RelocatedTo payload.image.plan.segments result.manifest.symbol_records
            result.imports.bindings exports bias.toNat relocation v →
          ¬ (relocation.address - payload.image.plan.base ≤ j ∧
            j < relocation.address - payload.image.plan.base + 8)) →
        result.payload.image.bytes[j]? = payload.image.bytes[j]?) ∧
      (∀ segment ∈ payload.image.plan.segments, ¬ segment.Writable → ∀ a, segment.address ≤ a →
        a < segment.address + segment.memory_size → result.payload.image.bytes[a - payload.image.plan.base]? =
          payload.image.bytes[a - payload.image.plan.base]?) ∧
      (result.complete = true ↔ ∀ relocation ∈ result.manifest.relocation_records,
        ¬ Pending payload.image.plan.segments result.manifest.symbol_records
          result.imports.bindings exports bias.toNat relocation) ∧
      (require_complete = true → result.complete = true) := by
  obtain ⟨payload, manifest, imports, state, image, h, hpatched, rfl⟩ := exists_checked hret hvalid
  obtain ⟨hpayload, hmanifest, himports⟩ := h.committed_eq image
  obtain ⟨header, hplan⟩ := h.staged.located.planned
  have hbase : ∀ relocation ∈ manifest.relocation_records, ∀ v : ℤ,
      RelocatedTo payload.image.plan.segments manifest.symbol_records imports.bindings exports
        bias.toNat relocation v →
      0 ≤ v ∧ v < 2^64 ∧ payload.image.plan.base ≤ relocation.address := by
    intro relocation hr v hv
    obtain ⟨hpos, hlt, segment, hs, hlo, -⟩ :=
      (h.linked.linkable relocation hr).word v ((h.value_iff hr).mpr hv)
    have hinside := hplan.inside segment hs
    omega
  have hother : ∀ j : ℕ, (∀ relocation ∈ manifest.relocation_records, ∀ v : ℤ,
      RelocatedTo payload.image.plan.segments manifest.symbol_records imports.bindings exports
        bias.toNat relocation v →
      ¬ (relocation.address - payload.image.plan.base ≤ j ∧
        j < relocation.address - payload.image.plan.base + 8)) →
      image[j]? = payload.image.bytes[j]? := by
    intro j hj
    refine hpatched.other j fun p hp => ?_
    obtain ⟨relocation, hr, v, hv, rfl⟩ := (h.mem_patches_iff p).mp hp
    exact hj relocation hr v hv
  rw [hpayload, hmanifest, himports]
  refine ⟨payload, h.payload_eq, h.manifest_eq, h.imports_eq, rfl, hpatched.length_eq,
    fun relocation hr v hv => ?_, hother, fun segment hs hnot a hlo hhi => ?_, h.complete_iff image,
    fun hrequired => ?_⟩
  · obtain ⟨hpos, hlt, hle⟩ := hbase relocation hr v hv
    exact ⟨hpos, hlt, hle, hpatched.word _ ((h.mem_patches_iff _).mpr ⟨relocation, hr, v, hv, rfl⟩)⟩
  · refine hother _ fun relocation hr v hv => ?_
    have hout := h.outside_of_not_writable hs hnot hlo hhi hr hv
    have hle := (hbase relocation hr v hv).2.2
    have hinside := hplan.inside segment hs
    omega
  · have hnone := h.linked.complete hrequired
    exact decide_eq_true hnone

theorem stageGuestDataLink_exact_sample :
    ∃ result, returns (stageGuestDataLink sampleFile 0x10000 false []) = some result ∧
      result.valid = true ∧ ∃ payload, returns (stageGuestPayload sampleFile) = some payload ∧
        result.payload.image.bytes.length = payload.image.bytes.length := by
  obtain ⟨result, hret, hvalid⟩ := sample_linked (.inl rfl)
  obtain ⟨payload, hpayload, -, -, -, hlen, -⟩ :=
    stageGuestDataLink_exact sampleFile 0x10000 false [] hret hvalid
  exact ⟨result, hret, hvalid, payload, hpayload, hlen⟩

/-- A relocation against a local symbol of the image is left pending when the symbol stands for a
section: the second word of the sample's data segment stays zero. -/
theorem sectionSymbol_not_applied : ¬ ∀ (file : List UInt8) (bias : UInt64) (require_complete : Bool)
        (exports : List GuestDataExport) (result : GuestDataLink),
      returns (stageGuestDataLink file bias require_complete exports) = some result →
      result.valid = true → ∀ relocation ∈ result.manifest.relocation_records,
      relocation.OnSymbol → ∀ symbol : GuestLinkSymbol,
      result.manifest.symbol_records[relocation.symbol]? = some symbol → symbol.binding = 0 →
      symbol.section_index ≠ 0 → InSegment result.payload.image.plan.segments symbol.address (max 1 symbol.size) →
      ∀ i < 8, result.payload.image.bytes[relocation.address - result.payload.image.plan.base + i]? =
        some (leByte ((bias.toNat : ℤ) + symbol.address + relocation.addend).toNat i) := by
  intro hall
  obtain ⟨result, hret, hvalid⟩ := sample_linked (.inl rfl)
  obtain ⟨payload, manifest, imports, state, image, h, hpatched, rfl⟩ := exists_checked hret hvalid
  obtain rfl : sampleManifest = manifest :=
    some.inj (sampleManifest_eq.symm.trans h.manifest_eq)
  obtain rfl : sampleImports = imports :=
    some.inj (sampleImports_eq.symm.trans h.imports_eq)
  have hplan : payload.image.plan = samplePlan := by
    obtain ⟨start, hstart, hplan⟩ := h.staged.plan_eq
    have hsample := samplePlan_eq
    rw [hstart] at hsample
    have himage : start.image = { plan := samplePlan } := some.inj hsample
    rw [← hplan, himage]
  obtain ⟨hpayload, hmanifest, -⟩ := h.committed_eq image
  have hword := hall sampleFile 0x10000 false [] _ hret hvalid
  rw [hpayload, hmanifest] at hword
  simp only [hplan] at hword
  have hbyte := hword ⟨0x400108, 0, 1, 1⟩ (by decide) (.inl rfl) ⟨0x400100, 0, 1, 0, 3⟩ rfl rfl
    (by decide) ⟨⟨0, 0x400100, 0, 64, 6, 1, 1⟩, by decide, by decide, by decide⟩ 1 (by decide)
  -- No word is written there, and no segment has file bytes for it.
  have hstaged : image[0x109]? = some 0 := by
    rw [hpatched.other]
    · have hzero := h.staged.zero 0x400109
      rw [hplan] at hzero
      refine hzero (by decide) (by decide) ?_
      unfold GuestLoadSegment.Backs
      decide
    · rw [hplan]
      decide
  have hbyte' : image[0x109]? = some (leByte 0x410100 1) := hbyte
  rw [hstaged] at hbyte'
  exact absurd hbyte' (by decide)

/-! ## Two biases -/

/-- The relocation writes an address of the image: it is `RELATIVE`, or against a local symbol. -/
def GuestLinkRelocation.Based (relocation : GuestLinkRelocation)
    (segments : List GuestLoadSegment) (records : List GuestLinkSymbol) : Prop :=
  relocation.type = 8 ∨ ∃ symbol, relocation.AgainstLocal segments records symbol

section Bias

variable {segments : List GuestLoadSegment} {records : List GuestLinkSymbol}
  {bindings : List GuestImportBinding} {exports : List GuestDataExport} {bias bias' : ℕ}
  {relocation : GuestLinkRelocation}

theorem RelocatedTo.rebias (h : RelocatedTo segments records bindings exports bias relocation v) (bias' : ℕ) :
    (relocation.Based segments records ∧
      RelocatedTo segments records bindings exports bias' relocation (v + (bias' - bias))) ∨
    RelocatedTo segments records bindings exports bias' relocation v := by
  cases h with
  | relative htype =>
    refine .inl ⟨.inl htype, ?_⟩
    have hsum : (bias + signed relocation.addend_bits + (bias' - bias) : ℤ) =
        bias' + signed relocation.addend_bits := by omega
    rw [hsum]
    exact .relative htype
  | resolved hon hb hs he hkey => exact .inr (.resolved hon hb hs he hkey)
  | @based symbol hl =>
    refine .inl ⟨.inr ⟨symbol, hl⟩, ?_⟩
    have hsum : (bias + symbol.address + relocation.addend + (bias' - bias) : ℤ) =
        bias' + symbol.address + relocation.addend := by omega
    rw [hsum]
    exact .based hl

theorem GuestLinkRelocation.Based.exists_value (h : relocation.Based segments records) :
    ∃ v : ℤ, RelocatedTo segments records bindings exports bias relocation v ∧
      RelocatedTo segments records bindings exports bias' relocation (v + (bias' - bias)) := by
  rcases h with htype | ⟨symbol, hl⟩
  · refine ⟨bias + signed relocation.addend_bits, .relative htype, ?_⟩
    have hsum : (bias + signed relocation.addend_bits + (bias' - bias) : ℤ) =
        bias' + signed relocation.addend_bits := by omega
    rw [hsum]
    exact .relative htype
  · refine ⟨bias + symbol.address + relocation.addend, .based hl, ?_⟩
    have hsum : (bias + symbol.address + relocation.addend + (bias' - bias) : ℤ) =
        bias' + symbol.address + relocation.addend := by omega
    rw [hsum]
    exact .based hl

theorem pending_rebias : Pending segments records bindings exports bias relocation ↔
      Pending segments records bindings exports bias' relocation := by
  have hone : ∀ b b' : ℕ, Pending segments records bindings exports b relocation →
      Pending segments records bindings exports b' relocation := by
    intro b b' hp
    refine ⟨hp.1, fun v hv => ?_⟩
    rcases hv.rebias b with ⟨-, hv'⟩ | hv'
    · exact hp.2 _ hv'
    · exact hp.2 _ hv'
  exact ⟨hone bias bias', hone bias' bias⟩

end Bias

theorem Checked.leRead_eq   (h : Checked file bias require_complete exports payload manifest imports state)
    (hpatched : Patched payload.image.bytes (manifest.relocation_records.filterMap
        (relocationPatch manifest imports payload.image.plan.base bias)) image)
    (hr : relocation ∈ manifest.relocation_records)
    (hv : RelocatedTo payload.image.plan.segments manifest.symbol_records imports.bindings exports
      bias relocation v) : (leRead image (relocation.address - payload.image.plan.base) 8 : ℤ) = v := by
  have hword := hpatched.word _ ((h.mem_patches_iff _).mpr ⟨relocation, hr, v, hv, rfl⟩)
  obtain ⟨hpos, hlt, -⟩ := (h.linked.linkable relocation hr).word v ((h.value_iff hr).mpr hv)
  have hread : leRead image (relocation.address - payload.image.plan.base) 8 = v.toNat % 2^64 :=
    leRead_of_leByte hword
  omega

/-- Of two valid results for one file and export list, the images have the same size and differ only in the words
of `RELATIVE` relocations and of relocations against local symbols, which differ by the difference of the biases.
-/
theorem stageGuestDataLink_rebias (file : List UInt8) (exports : List GuestDataExport)
    (bias bias' : UInt64) (require_complete require_complete' : Bool) {result result' : GuestDataLink}
    (hret : returns (stageGuestDataLink file bias require_complete exports) = some result)
    (hret' : returns (stageGuestDataLink file bias' require_complete' exports) = some result')
    (hvalid : result.valid = true) (hvalid' : result'.valid = true) :
    result.payload.image.plan = result'.payload.image.plan ∧ result.manifest = result'.manifest ∧
      result.imports = result'.imports ∧ result.payload.image.bytes.length = result'.payload.image.bytes.length ∧
      (∀ j : ℕ, (∀ relocation ∈ result.manifest.relocation_records,
          relocation.Based result.payload.image.plan.segments result.manifest.symbol_records →
          ¬ (relocation.address - result.payload.image.plan.base ≤ j ∧
            j < relocation.address - result.payload.image.plan.base + 8)) →
        result.payload.image.bytes[j]? = result'.payload.image.bytes[j]?) ∧
      (∀ relocation ∈ result.manifest.relocation_records,
        relocation.Based result.payload.image.plan.segments result.manifest.symbol_records →
        (leRead result'.payload.image.bytes (relocation.address - result.payload.image.plan.base) 8 : ℤ) -
          leRead result.payload.image.bytes (relocation.address - result.payload.image.plan.base) 8 ≡
          bias'.toNat - bias.toNat [ZMOD 2^64]) ∧ (∀ relocation ∈ result.manifest.relocation_records,
        Pending result.payload.image.plan.segments result.manifest.symbol_records
          result.imports.bindings exports bias.toNat relocation ↔
        Pending result.payload.image.plan.segments result.manifest.symbol_records
          result.imports.bindings exports bias'.toNat relocation) ∧
      result.relative_applied = result'.relative_applied ∧ result.local_applied = result'.local_applied ∧
      result.data_import_applied = result'.data_import_applied ∧ result.pending_imports = result'.pending_imports ∧
      result.pending_bindings = result'.pending_bindings ∧
      result.pending_types = result'.pending_types ∧ result.none = result'.none ∧
      result.complete = result'.complete := by
  obtain ⟨payload, manifest, imports, state, image, h, hpatched, rfl⟩ := exists_checked hret hvalid
  obtain ⟨payload', manifest', imports', state', image', h', hpatched', rfl⟩ :=
    exists_checked hret' hvalid'
  -- The stages before the linker do not see the bias.
  obtain rfl : payload = payload' := some.inj (h.payload_eq.symm.trans h'.payload_eq)
  obtain rfl : manifest = manifest' := some.inj (h.manifest_eq.symm.trans h'.manifest_eq)
  obtain rfl : imports = imports' := some.inj (h.imports_eq.symm.trans h'.imports_eq)
  have hcounters : state.result.none = state'.result.none ∧
      state.result.pending_imports = state'.result.pending_imports ∧
      state.result.pending_bindings = state'.result.pending_bindings ∧
      state.result.pending_types = state'.result.pending_types ∧
      state.relative_count = state'.relative_count ∧ state.local_count = state'.local_count ∧
      state.import_count = state'.import_count := by
    rw [h.linked.state_eq, h'.linked.state_eq]
    exact ⟨rfl, rfl, rfl, rfl, rfl, rfl, rfl⟩
  obtain ⟨hnone, himports, hbindings, htypes, hrelative, hlocal, himport⟩ := hcounters
  obtain ⟨e₁, e₂, e₃⟩ := h.committed_eq image
  obtain ⟨e₁', e₂', e₃'⟩ := h'.committed_eq image'
  rw [e₁, e₂, e₃, e₁', e₂', e₃']
  refine ⟨rfl, rfl, rfl, hpatched.length_eq.trans hpatched'.length_eq.symm, fun j hj => ?_,
    fun relocation hr hbased => ?_, fun relocation _ => pending_rebias, hrelative, hlocal, himport,
    himports, hbindings, htypes, hnone, ?_⟩
  · simp only at hj ⊢
    by_cases hin : ∃ relocation ∈ manifest.relocation_records, ∃ v : ℤ,
        RelocatedTo payload.image.plan.segments manifest.symbol_records imports.bindings exports
          bias.toNat relocation v ∧ relocation.address - payload.image.plan.base ≤ j ∧
        j < relocation.address - payload.image.plan.base + 8
    · -- The word of an import is the same under both biases.
      obtain ⟨relocation, hr, v, hv, hlo, hhi⟩ := hin
      have hv' : RelocatedTo payload.image.plan.segments manifest.symbol_records imports.bindings
          exports bias'.toNat relocation v := by
        rcases hv.rebias bias'.toNat with ⟨hbased, -⟩ | hv'
        · exact absurd ⟨hlo, hhi⟩ (hj relocation hr hbased)
        · exact hv'
      have hbyte := hpatched.word _ ((h.mem_patches_iff _).mpr ⟨relocation, hr, v, hv, rfl⟩)
        (j - (relocation.address - payload.image.plan.base)) (by omega)
      have hbyte' := hpatched'.word _ ((h'.mem_patches_iff _).mpr ⟨relocation, hr, v, hv', rfl⟩)
        (j - (relocation.address - payload.image.plan.base)) (by omega)
      simp only [Nat.add_sub_cancel' hlo] at hbyte hbyte'
      rw [hbyte, hbyte']
    · rw [hpatched.other, hpatched'.other]
      · intro p hp hwindow
        obtain ⟨relocation, hr, v, hv, rfl⟩ := (h'.mem_patches_iff p).mp hp
        rcases hv.rebias bias.toNat with ⟨-, hv'⟩ | hv'
        · exact hin ⟨relocation, hr, _, hv', hwindow⟩
        · exact hin ⟨relocation, hr, _, hv', hwindow⟩
      · intro p hp hwindow
        obtain ⟨relocation, hr, v, hv, rfl⟩ := (h.mem_patches_iff p).mp hp
        exact hin ⟨relocation, hr, v, hv, hwindow⟩
  · obtain ⟨v, hv, hv'⟩ := hbased.exists_value
    rw [h.leRead_eq hpatched hr hv, h'.leRead_eq hpatched' hr hv', add_sub_cancel_left]
  · unfold LinkState.committed
    rw [himports, hbindings, htypes]

theorem stageGuestDataLink_rebias_sample :
    ∃ result result', returns (stageGuestDataLink sampleFile 0x10000 false []) = some result ∧
      returns (stageGuestDataLink sampleFile 0x20000 false []) = some result' ∧
      result.valid = true ∧ result'.valid = true ∧ result.relative_applied = result'.relative_applied := by
  obtain ⟨result, hret, hvalid⟩ := sample_linked (.inl rfl)
  obtain ⟨result', hret', hvalid'⟩ := sample_linked (.inr rfl)
  have h := stageGuestDataLink_rebias sampleFile [] 0x10000 0x20000 false false hret hret' hvalid hvalid'
  exact ⟨result, result', hret, hret', hvalid, hvalid', h.2.2.2.2.2.2.2.1⟩

end ShadPS4.Guest
