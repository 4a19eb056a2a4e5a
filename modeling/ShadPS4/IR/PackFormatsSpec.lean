import ShadPS4.IR.PackFormats

/-!
# Packing and unpacking

The fields of a format follow one another over the whole word. So a word that is unpacked and packed again
is the same, and components that are packed and unpacked again are what their fields hold of them.
-/

namespace ShadPS4.IR

open List

variable {value word : BitVec 32} {fields : List Field} {signed : Bool}

theorem constU32_toNat (h : n ≤ 32) : (constU32 n).toNat = n := by
  unfold constU32
  rw [BitVec.toNat_ofNat, Nat.mod_eq_of_lt (by omega)]

theorem within_of_proper {field : Field} (h : field.Proper 32) :
    Spirv.Within (constU32 field.offset) (constU32 field.size) := by
  obtain ⟨-, hle⟩ := h
  unfold Spirv.Within
  rw [constU32_toNat (by omega), constU32_toNat (by omega)]
  exact hle

theorem extractField_spec {field : Field} (h : field.Proper 32) (is_signed : Bool) (value : BitVec 32) :
    (if is_signed then Spirv.bitFieldSExtract else Spirv.bitFieldUExtract) value
      (constU32 field.offset) (constU32 field.size) =
    some (extractField value field.offset field.size (field.fill is_signed value)) := by
  obtain ⟨hpos, hle⟩ := h
  cases is_signed
  · show Spirv.bitFieldUExtract _ _ _ = _
    unfold Spirv.bitFieldUExtract
    rw [if_pos (within_of_proper ⟨hpos, hle⟩), constU32_toNat (by omega), constU32_toNat (by omega)]
    rfl
  · show Spirv.bitFieldSExtract _ _ _ = _
    unfold Spirv.bitFieldSExtract
    rw [if_pos (within_of_proper ⟨hpos, hle⟩), constU32_toNat (by omega), constU32_toNat (by omega),
      if_neg (by omega)]
    rfl

theorem extractBitFields_spec (h : ∀ field ∈ fields, field.Proper 32) (is_signed : Bool)
    (value : BitVec 32) : extractBitFields is_signed value fields = some (fields.map fun field =>
      extractField value field.offset field.size (field.fill is_signed value)) := by
  unfold extractBitFields
  induction fields with
  | nil => rfl
  | cons field fields ih =>
    rw [mapM_cons, extractField_spec (h field mem_cons_self), ih fun field hmem => h field (mem_cons_of_mem _ hmem)]
    rfl

theorem insertFields_spec (h : ∀ it ∈ values, it.2.Proper 32) (base : BitVec 32) : values.foldlM (fun result it =>
      Spirv.bitFieldInsert result it.1 (constU32 it.2.offset) (constU32 it.2.size)) base =
    some (insertFields base values) := by
  induction values generalizing base with
  | nil => rfl
  | cons it rest ih =>
    have hproper := h it mem_cons_self
    have hinsert : Spirv.bitFieldInsert base it.1 (constU32 it.2.offset) (constU32 it.2.size) =
        some (insertField base it.1 it.2.offset it.2.size) := by
      obtain ⟨hpos, hle⟩ := hproper
      unfold Spirv.bitFieldInsert
      rw [if_pos (within_of_proper ⟨hpos, hle⟩), constU32_toNat (by omega),
        constU32_toNat (by omega)]
    rw [foldlM_cons, hinsert]
    exact ih (fun it hmem => h it (mem_cons_of_mem _ hmem)) _

theorem insertBitFields_spec (values : List (BitVec 32)) (hfields : FieldsFrom 0 fields)
    (hproper : ∀ field ∈ fields, field.Proper 32) (hne : fields ≠ []) (hlength : values.length = fields.length) :
    ∃ word, insertBitFields values fields = some word ∧ ∀ it ∈ values.zip fields, ∀ i < it.2.size,
        word.getLsbD (it.2.offset + i) = it.1.getLsbD i := by
  match values, fields, hne, hlength with
  | [], [], hne, _ => exact absurd rfl hne
  | value :: values, field :: fields, _, hlength =>
    obtain ⟨hoffset, hrest⟩ := hfields
    have hmap : (values.zip fields).map Prod.snd = fields :=
      map_snd_zip (Nat.le_of_eq (Nat.succ.inj hlength).symm)
    have hproper' : ∀ it ∈ values.zip fields, it.2.Proper 32 := fun it hmem =>
      hproper it.2 (mem_cons_of_mem _ (of_mem_zip hmem).2)
    obtain ⟨hlow, hhigh⟩ := getLsbD_insertFields (hmap.symm ▸ hrest) value
    refine ⟨_, insertFields_spec hproper' value, fun it hmem i hi => ?_⟩
    rcases mem_cons.mp hmem with rfl | hmem
    · -- The first component is not masked, but what follows is written over it.
      obtain ⟨-, hle⟩ := hproper field mem_cons_self
      dsimp only at hi ⊢
      rw [hlow _ (by omega) (by omega), hoffset, Nat.zero_add]
    · obtain ⟨-, hle⟩ := hproper' it hmem
      exact hhigh it hmem i hi (by omega)

namespace IntegerFormat

variable (format : IntegerFormat)

theorem fields_spec : FieldsFrom 0 format.fields ∧ (∀ field ∈ format.fields, field.Proper 32) ∧
    format.fields ≠ [] ∧ ∀ i < 32, ∃ field ∈ format.fields, field.offset ≤ i ∧ i < field.offset + field.size := by
  cases format <;> refine ⟨by decide, by decide, by decide, by decide⟩

theorem pack_unpack (word : BitVec 32) : ∃ components, format.emitUnpack word = some components ∧
      format.emitPack components = some word := by
  obtain ⟨hfields, hproper, hne, hcover⟩ := format.fields_spec
  refine ⟨_, extractBitFields_spec hproper format.isSigned word, ?_⟩
  obtain ⟨packed, hpacked, hbits⟩ := insertBitFields_spec (format.fields.map fun field =>
      extractField word field.offset field.size (field.fill format.isSigned word))
    hfields hproper hne (length_map _)
  refine hpacked.trans (congrArg some (BitVec.eq_of_getLsbD_eq fun i hi => ?_))
  obtain ⟨field, hmem, hle, hlt⟩ := hcover i hi
  have hpair : (extractField word field.offset field.size (field.fill format.isSigned word), field) ∈
      (format.fields.map fun field =>
        extractField word field.offset field.size (field.fill format.isSigned word)).zip
        format.fields := by
    have hzip := mem_map_of_mem (f := fun field : Field =>
      (extractField word field.offset field.size (field.fill format.isSigned word), id field)) hmem
    rwa [← zip_map', map_id] at hzip
  have hbit := hbits _ hpair (i - field.offset) (by dsimp only; omega)
  rw [getLsbD_extractField _ _ _ _ (by omega), if_pos (by omega), Nat.add_sub_of_le hle] at hbit
  exact hbit

theorem unpack_pack (hlength : components.length = format.fields.length) :
    ∃ word, format.emitPack components = some word ∧ (format.emitUnpack word = some components ↔
        ∀ it ∈ components.zip format.fields, it.2.Fits format.isSigned it.1) := by
  obtain ⟨hfields, hproper, hne, -⟩ := format.fields_spec
  obtain ⟨word, hword, hbits⟩ := insertBitFields_spec components hfields hproper hne hlength
  refine ⟨word, hword, ?_⟩
  have hunpack : format.emitUnpack word = _ := extractBitFields_spec hproper format.isSigned word
  rw [hunpack, Option.some_inj]
  generalize format.fields = fields at *
  clear hunpack hword hne hfields
  induction fields generalizing components with
  | nil =>
    obtain rfl := length_eq_zero_iff.mp hlength
    exact iff_of_true rfl nofun
  | cons field fields ih =>
    match components, hlength with
    | component :: components, hlength =>
      have hhead := @extractField_eq_iff _ field format.isSigned _ _ (hproper field mem_cons_self)
        (hbits (component, field) mem_cons_self)
      have htail := ih (Nat.succ.inj hlength) (fun field hmem => hproper field (mem_cons_of_mem _ hmem))
        fun it hmem => hbits it (mem_cons_of_mem _ hmem)
      rw [map_cons, List.cons.injEq, zip_cons_cons, forall_mem_cons]
      exact and_congr hhead htail

/-- The visit of an instruction with one opcode, whose operand comes from an instruction with the other, takes
the operand of that one in its place. -/
def Cancels (op reverse : Opcode) : Prop :=
  ∀ (p : Program) (block x y : ℕ), (p.insts x).op = op →
    p.resolved ((p.insts x).arg 0) = some (.inst y) → (p.insts y).op = reverse →
    p.constantPropagation block x = p.replaceUsesWithAndRemove x ((p.insts y).arg 0)

theorem cancels_of {op reverse : Opcode} (hof : Fold.of op = some (.inverseFunc reverse)) : Cancels op reverse := by
  intro p block x y hop harg hop'
  unfold Program.constantPropagation
  rw [hop, hof]
  show p.foldInverseFunc x reverse = _
  have himmediate : p.isImmediate ((p.insts x).arg 0) = some false :=
    Option.map_eq_some_iff.mpr ⟨_, harg, rfl⟩
  have hinst : p.instRecursive ((p.insts x).arg 0) = some y := by
    unfold Program.instRecursive
    rw [harg]
    rfl
  unfold Program.foldInverseFunc Program.foldReverse
  rw [himmediate, hinst]
  exact if_pos hop'

/-- For each integer format packing and unpacking are cancelled, in both orders. -/
theorem inverseFold_iff : Cancels format.toFormat.pack format.toFormat.unpack ∧
    Cancels format.toFormat.unpack format.toFormat.pack ∧
    (∀ word, (format.emitUnpack word).bind format.emitPack = some word) ∧
    ∀ components, components.length = format.fields.length →
      ((format.emitPack components).bind format.emitUnpack = some components ↔
        ∀ it ∈ components.zip format.fields, it.2.Fits format.isSigned it.1) := by
  refine ⟨cancels_of (by cases format <;> rfl), cancels_of (by cases format <;> rfl), ?_, ?_⟩
  · intro word
    obtain ⟨components, hunpack, hpack⟩ := format.pack_unpack word
    rw [hunpack]
    exact hpack
  · intro components hlength
    obtain ⟨word, hpack, hunpack⟩ := format.unpack_pack hlength
    rw [hpack]
    exact hunpack

/-- A component that does not fit is cut, and so it is not what takes the place of the pair. -/
theorem inverseFold_differs : (uint2x16.emitPack [0x12345, 7]).bind uint2x16.emitUnpack = some [0x2345, 7] ∧
    (sint2x16.emitPack [0x8000, 7]).bind sint2x16.emitUnpack = some [0xffff8000, 7] ∧
    (uint2_10_10_10.emitPack [0, 0, 0, 4]).bind uint2_10_10_10.emitUnpack = some [0, 0, 0, 0] := by
  decide +kernel

end IntegerFormat

end ShadPS4.IR
