import ShadPS4.IR.StructuralRuns

/-!
# `FoldPackedAncillary`

The sample and the render target of a fragment are packed into a word, and also attributes of their own.
-/

namespace ShadPS4.IR

open Function
open BitVec (le_def toNat_ofNat ofNat)
open Option (some.inj)

variable {size start : ℕ}

/-- `OpBitFieldUExtract`. -/
def Meaning.field : Meaning
  | [.scalar (.u32 base), .scalar (.u32 offset), .scalar (.u32 bits)] =>
    (Spirv.bitFieldUExtract base offset bits).map fun field => .scalar (.u32 field)
  | _ => none

def Attribute.ofPacked (word : BitVec 32) (attr : ℕ) : Option (BitVec 32) :=
  if attr = packedAncillary then some word
  else if attr = sampleIndex then some (extractField word 8 4 false)
  else if attr = renderTargetIndex then some (extractField word 16 11 false)
  else none

namespace Program

/-- The values of the instructions for a fragment with a packed word. -/
structure Fragment (p : Program) (word : BitVec 32) (extracts : ℕ → Prop) (v : ℕ → Datum) : Prop where
  reads : ∀ y, (p.insts y).op = .getAttributeU32 → ∀ attr part,
    (p.insts y).arg 0 = .imm (.attribute attr) → Attribute.ofPacked word attr = some part →
    v y = .scalar (.u32 part)
  transparent : ∀ y, (p.insts y).op = .identity → ((p.insts y).arg 0).datum v = v y
  fields : ∀ y, extracts y → (p.insts y).op = IntegerOp.bitFieldUExtract.opcode → ∀ d,
    Meaning.field ((p.insts y).data v) = some d → v y = d

/-- An extraction at a constant offset of a constant number of bits. -/
structure ExtractsAt (p : Program) (u : ℕ) (offset bits : BitVec 32) : Prop where
  op : (p.insts u).op = IntegerOp.bitFieldUExtract.opcode
  offset : p.immediate ((p.insts u).arg 1) = some (.u32 offset)
  bits : p.immediate ((p.insts u).arg 2) = some (.u32 bits)

/-- An instruction other than an `Identity` uses a value, maybe through `Identity` instructions. -/
structure UsesThrough (p : Program) (packed u i : ℕ) : Prop where
  ne : u ≠ packed
  op : (p.insts u).op ≠ .identity
  lt : i < (p.insts u).numArgs
  leads : p.Leads ((p.insts u).arg i) (.inst packed)

/-- The value of every instruction that remains is kept when one is folded: its operands have their values,
and so has the instruction that was folded, where it was used; or it is a constant extraction, and extracts
the same. -/
def UsersKept (p : Program) (x : ℕ) (p' : Program) : Prop :=
  ∀ word v, p.Fragment word (· = x) v → ∃ v', p'.Fragment word (p.created ≤ ·) v' ∧
    (∀ y < p.created, (p.insts y).op ≠ .identity → v' y = v y) ∧
    ∀ u < p.created, (p.insts u).op ≠ .identity → (p'.insts u).op ≠ .void →
      (p'.insts u).op = (p.insts u).op ∧
      ((p'.insts u).data v' = (p.insts u).data v ∨
        (∃ offset bits, p.ExtractsAt u offset bits) ∧
          Meaning.field ((p'.insts u).data v') = Meaning.field ((p.insts u).data v))

variable {p p' q q' : Program} {word offset bits : BitVec 32} {x y packed block : ℕ} {op : Opcode}
  {args : List Value} {value w field : Value} {v : ℕ → Datum} {extracts : ℕ → Prop} {d : Datum}

theorem resolve_leads (h : p.resolve turns value = some w) : p.Leads value w ∧ ¬ p.IsIdentity w := by
  induction turns generalizing value with
  | zero => cases h
  | succ turns ih =>
    cases value with
    | inst z =>
      unfold resolve at h
      split at h
      next hop =>
        obtain ⟨hleads, hw⟩ := ih h
        exact ⟨.step hop hleads, hw⟩
      next hop =>
        obtain rfl := some.inj h
        exact ⟨.refl _, hop⟩
    | void =>
      obtain rfl := some.inj h
      exact ⟨.refl _, id⟩
    | imm a =>
      obtain rfl := some.inj h
      exact ⟨.refl _, id⟩

theorem immediate_leads (h : p.immediate value = some a) : p.Leads value (.imm a) := by
  obtain ⟨w, hw, h⟩ := Option.bind_eq_some_iff.mp h
  cases w with
  | imm b =>
    obtain rfl := some.inj h
    exact (resolve_leads hw).1
  | void => cases h
  | inst z => cases h

theorem instRecursive_leads (h : p.instRecursive value = some y) :
    p.Leads value (.inst y) ∧ (p.insts y).op ≠ .identity := by
  obtain ⟨w, hw, h⟩ := Option.bind_eq_some_iff.mp h
  cases w with
  | inst z =>
    obtain rfl := some.inj h
    exact resolve_leads hw
  | void => cases h
  | imm a => cases h

theorem Leads.unique (h : p.Leads value w) (h' : p.Leads value w')
    (hw : ¬ p.IsIdentity w) (hw' : ¬ p.IsIdentity w') : w = w' := by
  induction h with
  | refl => exact (h'.eq_of_not hw).symm
  | step hop _ ih =>
    cases h' with
    | refl => exact absurd hop hw'
    | step _ h' => exact ih h' hw

theorem datum_of_leads (hv : ∀ y, (p.insts y).op = .identity → ((p.insts y).arg 0).datum v = v y)
    (h : p.Leads value w) : value.datum v = w.datum v :=
  (@Leads.val_eq p value w Datum (Value.datum v) (fun y hop => (hv y hop).symm) h).symm

/-! ## What is emitted -/

theorem extractField_extractField (word : BitVec 32) {offset bits : ℕ}
    (h : offset + bits ≤ size) (hsize : start + size ≤ 32) :
    extractField (extractField word start size false) offset bits false =
      extractField word (start + offset) bits false := by
  apply BitVec.eq_of_getLsbD_eq
  intro i hi
  rw [getLsbD_extractField _ _ _ _ hi, getLsbD_extractField _ _ _ _ hi]
  split
  next hlt =>
    rw [getLsbD_extractField _ _ _ _ (by omega), if_pos (by omega), Nat.add_assoc]
  next => rfl

theorem bitFieldUExtract_part (hsize : start + size ≤ 32)
    (hstart : ofNat 32 start ≤ offset) (hend : offset + bits ≤ ofNat 32 (start + size))
    (h : Spirv.bitFieldUExtract (extractField word start size false)
      (offset - ofNat 32 start) bits = some part) : Spirv.bitFieldUExtract word offset bits = some part := by
  obtain ⟨hwithin, h⟩ := Option.ite_none_right_eq_some.mp h
  have hwithin : (offset - ofNat 32 start).toNat + bits.toNat ≤ 32 := hwithin
  rw [le_def, toNat_ofNat, Nat.mod_eq_of_lt (by omega)] at hstart
  rw [le_def, toNat_ofNat, Nat.mod_eq_of_lt (by omega), BitVec.toNat_add] at hend
  have hoffset : (offset - ofNat 32 start).toNat = offset.toNat - start := by
    rw [BitVec.toNat_sub_of_le, toNat_ofNat, Nat.mod_eq_of_lt (by omega)]
    rw [le_def, toNat_ofNat, Nat.mod_eq_of_lt (by omega)]
    exact hstart
  rw [hoffset] at hwithin h
  have hwithin' : Spirv.Within offset bits := show offset.toNat + bits.toNat ≤ 32 by omega
  unfold Spirv.bitFieldUExtract
  rw [if_pos hwithin', ← h, extractField_extractField _ (by omega) hsize, Nat.add_sub_cancel' hstart]

theorem bitFieldUExtract_whole (word : BitVec 32) (hsize : start + size ≤ 32) :
    Spirv.bitFieldUExtract word (ofNat 32 start) (ofNat 32 size) =
      some (extractField word start size false) := by
  have hstart : (ofNat 32 start).toNat = start := by
    rw [toNat_ofNat, Nat.mod_eq_of_lt (by omega)]
  have hcount : (ofNat 32 size).toNat = size := by
    rw [toNat_ofNat, Nat.mod_eq_of_lt (by omega)]
  have hwithin : Spirv.Within (ofNat 32 start) (ofNat 32 size) := by
    unfold Spirv.Within
    omega
  unfold Spirv.bitFieldUExtract
  rw [if_pos hwithin, hstart, hcount]

theorem Inserted.fragment (he : p.Inserted op args p') (hp : p.Linked)
    (hv : p.Fragment word extracts v) (hvalid : ∀ value ∈ args, p.Valid value) (hphi : op ≠ .phi)
    (hidentity : op ≠ .identity)
    (hreads : op = .getAttributeU32 → ∀ attr part, args[0]? = some (.imm (.attribute attr)) →
      Attribute.ofPacked word attr = some part → d = .scalar (.u32 part))
    (hfields : op = IntegerOp.bitFieldUExtract.opcode → ∀ e, Meaning.field (args.map (·.datum v)) = some e → d = e) :
    p'.Fragment word extracts (update v p.created d) := by
  refine ⟨fun y hop attr part harg hpart => ?_, fun y hop => ?_, fun y hy hop e hfield => ?_⟩
  · rcases eq_or_ne y p.created with rfl | hne
    · rw [he.opcode] at hop
      rw [he.arg] at harg
      rw [update_self]
      refine hreads hop attr part ?_ hpart
      cases h : args[0]? with
      | some value => rw [h, Option.getD_some] at harg; rw [harg]
      | none => rw [h] at harg; cases harg
    · obtain ⟨hop', -, harg'⟩ := he.insts y hne
      rw [hop'] at hop
      rw [harg'] at harg
      rw [update_of_ne hne]
      exact hv.reads y hop attr part harg hpart
  · rcases eq_or_ne y p.created with rfl | hne
    · rw [he.opcode] at hop
      exact absurd hop hidentity
    · obtain ⟨hop', -, harg'⟩ := he.insts y hne
      rw [hop'] at hop
      rw [harg', datum_update (hp.valid_arg y 0), update_of_ne hne]
      exact hv.transparent y hop
  · rcases eq_or_ne y p.created with rfl | hne
    · rw [he.opcode] at hop
      rw [he.data_new hphi hvalid] at hfield
      rw [update_self]
      exact hfields hop e hfield
    · rw [(he.insts y hne).1] at hop
      rw [he.data_old hp hne] at hfield
      rw [update_of_ne hne]
      exact hv.fields y hy hop e hfield

/-- What is put in front of an extraction, and the value that is to take its place. -/
structure Placed (p : Program) (offset bits : BitVec 32) (field : Value) (p' : Program) : Prop where
  linked : p'.Linked
  created : p.created ≤ p'.created
  insts : ∀ u < p.created, (p'.insts u).op = (p.insts u).op ∧
    (p'.insts u).numArgs = (p.insts u).numArgs ∧ ∀ i, (p'.insts u).arg i = (p.insts u).arg i
  valid : p'.Valid field
  new : ∃ z, field = .inst z ∧ p.created ≤ z ∧ (p'.insts z).op ≠ .identity
  fresh : ∀ y, p.created ≤ y → ∀ i u, p'.Leads ((p'.insts y).arg i) (.inst u) → p.created ≤ u
  values : ∀ word v d, p.Fragment word (p.created ≤ ·) v →
    (∀ part, Spirv.bitFieldUExtract word offset bits = some part → d = .scalar (.u32 part)) →
    ∃ v', p'.Fragment word (p.created ≤ ·) v' ∧ (∀ u < p.created, v' u = v u) ∧ field.datum v' = d

theorem Inserted.arg_mem (he : p.Inserted op args p') (hp : p.Linked) (hy : p.created ≤ y) (i : ℕ) :
    (p'.insts y).arg i = .void ∨ (p'.insts y).arg i ∈ args := by
  rcases eq_or_ne y p.created with rfl | hne
  · rw [he.arg]
    cases h : args[i]? with
    | some value => exact .inr (List.mem_of_getElem? h)
    | none => exact .inl rfl
  · rw [(he.insts y hne).2.2, hp.fresh y hy]
    exact .inl rfl

theorem inst_mem_of_leads (hargs : ∀ z, .inst z ∈ args → (p.insts z).op ≠ .identity)
    (hvalue : value = .void ∨ value ∈ args) (h : p.Leads value (.inst u)) : .inst u ∈ args := by
  cases value with
  | inst z =>
    have hmem := hvalue.resolve_left nofun
    rwa [h.eq_of_not (hargs z hmem)]
  | void => cases h.eq_of_not id
  | imm a => cases h.eq_of_not id

theorem emitAttributeField_placed (attr start size : ℕ) (hp : p.Linked)
    (hattr : ∀ word, Attribute.ofPacked word attr = some (extractField word start size false))
    (hsize : start + size ≤ 32) (hstart : ofNat 32 start ≤ offset)
    (hend : offset + bits ≤ ofNat 32 (start + size))
    (hwhole : whole = true → offset = ofNat 32 start ∧ bits = ofNat 32 size)
    (h : p.emitAttributeField block x attr whole (offset - ofNat 32 start) bits =
      some (field, p')) : p.Placed offset bits field p' := by
  obtain ⟨⟨index, q⟩, h1, h⟩ := Option.bind_eq_some_iff.mp h
  have hvalid : ∀ value ∈ [.imm (.attribute attr), .imm (.u32 0)], p.Valid value :=
    List.forall_mem_cons.mpr ⟨valid_imm p _, List.forall_mem_singleton.mpr (valid_imm p _)⟩
  obtain ⟨he, hq, rfl⟩ := emit_emitted hp hvalid h1 nofun
  have hcreated := he.created
  have hindex : (q.insts p.created).op ≠ .identity := by
    rw [he.opcode]
    nofun
  -- The attribute has the part of the packed word.
  have hread (word : BitVec 32) (v : ℕ → Datum) (hv : p.Fragment word (p.created ≤ ·) v) :
      q.Fragment word (p.created ≤ ·)
        (update v p.created (.scalar (.u32 (extractField word start size false)))) := by
    refine he.fragment hp hv hvalid nofun nofun (fun _ attr' part hattr' hpart => ?_) nofun
    obtain rfl := Immediate.attribute.inj (Value.imm.inj (some.inj hattr'))
    rw [some.inj ((hattr word).symm.trans hpart)]
  cases whole with
  | true =>
    obtain ⟨rfl, rfl⟩ := Prod.mk.inj (some.inj h)
    obtain ⟨rfl, rfl⟩ := hwhole rfl
    refine ⟨hq, by omega, fun u hu => he.insts u (Nat.ne_of_lt hu), fun y hy => ?_,
      ⟨_, rfl, Nat.le_refl _, hindex⟩, fun y hy i u hu => ?_,
      fun word v d hv hd => ⟨_, hread word v hv, fun u hu => ?_, ?_⟩⟩
    · obtain rfl := some.inj hy
      omega
    · have hmem := inst_mem_of_leads (by simp) (he.arg_mem hp hy i) hu
      simp at hmem
    · exact update_of_ne (Nat.ne_of_lt hu) ..
    · show update v p.created _ p.created = d
      rw [update_self]
      exact (hd _ (bitFieldUExtract_whole word hsize)).symm
  | false =>
    have hvalid' : ∀ value ∈ [.inst p.created, .imm (.u32 (offset - ofNat 32 start)),
        .imm (.u32 bits)], q.Valid value := by
      refine List.forall_mem_cons.mpr ⟨fun y hy => ?_, List.forall_mem_cons.mpr ⟨valid_imm q _,
        List.forall_mem_singleton.mpr (valid_imm q _)⟩⟩
      obtain rfl := some.inj hy
      omega
    obtain ⟨he', hlinked, rfl⟩ := emit_emitted hq hvalid' h nofun
    have hcreated' := he'.created
    have hfield : (p'.insts q.created).op ≠ .identity := by
      rw [he'.opcode]
      nofun
    refine ⟨hlinked, by omega, fun u hu => ?_, fun y hy => ?_,
      ⟨_, rfl, by omega, hfield⟩, fun y hy i u hu => ?_, fun word v d hv hd => ?_⟩
    · obtain ⟨hop, hnum, harg⟩ := he.insts u (Nat.ne_of_lt hu)
      obtain ⟨hop', hnum', harg'⟩ := he'.insts u (by omega)
      exact ⟨hop'.trans hop, hnum'.trans hnum, fun i => (harg' i).trans (harg i)⟩
    · obtain rfl := some.inj hy
      omega
    · rcases Nat.lt_or_ge y q.created with hlt | hge
      · rw [(he'.insts y (Nat.ne_of_lt hlt)).2.2] at hu
        have hmem := inst_mem_of_leads (by simp) (he.arg_mem hp hy i) hu
        simp at hmem
      · have hmem := inst_mem_of_leads (fun z hz => ?_) (he'.arg_mem hq hge i) hu
        · obtain rfl : u = p.created := by simpa using hmem
          exact Nat.le_refl _
        · obtain rfl : z = p.created := by simpa using hz
          rw [(he'.insts _ (by omega)).1]
          exact hindex
    · -- The field of the attribute is what is extracted of the packed word.
      have hv' := hread word v hv
      refine ⟨_, he'.fragment (d := d) hq hv' hvalid' nofun nofun nofun (fun _ e hextract => ?_),
        fun u hu => ?_, ?_⟩
      · have hdatum : Value.datum (update v p.created
            (.scalar (.u32 (extractField word start size false)))) (.inst p.created) = _ :=
          update_self ..
        rw [List.map_cons, List.map_cons, List.map_cons, List.map_nil, hdatum] at hextract
        obtain ⟨part, hpart, rfl⟩ := Option.map_eq_some_iff.mp hextract
        exact hd part (bitFieldUExtract_part hsize hstart hend hpart)
      · rw [update_of_ne (by omega), update_of_ne (by omega)]
      · exact update_self ..

theorem emitAncillaryField_placed (hp : p.Linked)
    (h : p.emitAncillaryField block x offset bits = some (field, p')) : p.Placed offset bits field p' := by
  unfold emitAncillaryField at h
  split at h
  next hsample =>
    exact emitAttributeField_placed Attribute.sampleIndex 8 4 hp (fun _ => rfl) (by omega) hsample.1
      hsample.2 of_decide_eq_true h
  next =>
    split at h
    next htarget =>
      exact emitAttributeField_placed Attribute.renderTargetIndex 16 11 hp (fun _ => rfl) (by omega)
        htarget.1 htarget.2 of_decide_eq_true h
    next => cases h

/-! ## What is replaced -/

/-- What takes the place of a value: the field for the instruction that is folded, and 0 for the packed
word. -/
def substituted (x packed : ℕ) (field value : Value) : Value :=
  if value = .inst x then field else if value = .inst packed then .imm (.u32 0) else value

structure Folded (p : Program) (x packed : ℕ) (field : Value) (p' : Program) : Prop where
  created : p'.created = p.created
  gone : ∀ u, u = x ∨ u = packed → (p'.insts u).op = .void
  op : ∀ u, u ≠ x → u ≠ packed → (p'.insts u).op = (p.insts u).op
  numArgs : ∀ u, u ≠ x → u ≠ packed → (p'.insts u).numArgs = (p.insts u).numArgs
  arg : ∀ u, u ≠ x → u ≠ packed → ∀ i,
    (p'.insts u).arg i = substituted x packed field ((p.insts u).arg i)

theorem folded_of_substituted (hne : x ≠ packed) (hfield : field ≠ .inst packed)
    (h : p.Substituted x field q) (h' : q.Substituted packed (.imm (.u32 0)) p') : p.Folded x packed field p' where
  created := h'.created.trans h.created
  gone u hu := by
    rcases hu with rfl | rfl
    · exact (h'.op u hne).trans h.gone
    · exact h'.gone
  op u hx hpacked := (h'.op u hpacked).trans (h.op u hx)
  numArgs u hx hpacked := (h'.numArgs u hpacked).trans (h.numArgs u hx)
  arg u hx hpacked i := by
    unfold substituted
    rw [h'.arg u hpacked, h.arg u hx]
    rcases eq_or_ne ((p.insts u).arg i) (.inst x) with harg | harg
    · rw [if_pos harg, if_neg hfield, if_pos harg]
    · rw [if_neg harg, if_neg harg]

structure Replaces (p : Program) (x packed : ℕ) (field : Value) : Prop where
  ne : x ≠ packed
  op : (p.insts x).op ≠ .identity
  op_packed : (p.insts packed).op = .getAttributeU32
  field : ∃ z, field = .inst z ∧ z ≠ packed ∧ (p.insts z).op ≠ .identity

theorem Replaces.substituted_packed (hr : p.Replaces x packed field) :
    substituted x packed field (.inst packed) = .imm (.u32 0) := by
  unfold substituted
  rw [if_neg fun heq => hr.ne (Value.inst.inj heq).symm, if_pos rfl]

theorem Folded.leads (h : p.Folded x packed field p') (hr : p.Replaces x packed field) (hvalue : p.Leads value w) :
    p'.Leads (substituted x packed field value) (substituted x packed field w) := by
  induction hvalue with
  | refl => exact .refl _
  | @step y w hidentity _ ih =>
    have hx : y ≠ x := by
      rintro rfl
      exact hr.op hidentity
    have hpacked : y ≠ packed := by
      rintro rfl
      rw [hr.op_packed] at hidentity
      cases hidentity
    have hy : substituted x packed field (.inst y) = .inst y := by
      unfold substituted
      rw [if_neg fun heq => hx (Value.inst.inj heq), if_neg fun heq => hpacked (Value.inst.inj heq)]
    rw [hy]
    refine .step ((h.op y hx hpacked).trans hidentity) ?_
    rw [h.arg y hx hpacked]
    exact ih

/-- The values when the packed word is 0 where it is used. -/
noncomputable def zeroed (p : Program) (packed : ℕ) (v : ℕ → Datum) (y : ℕ) : Datum :=
  open Classical in
  if p.Leads (.inst y) (.inst packed) ∧ y ≠ packed then .scalar (.u32 0) else v y

theorem zeroed_of_ne (hop : (p.insts y).op ≠ .identity) : p.zeroed packed v y = v y := by
  refine if_neg fun ⟨hleads, hne⟩ => hne ?_
  exact (Value.inst.inj (hleads.eq_of_not hop)).symm

theorem Replaces.datum_zero (hr : p.Replaces x packed field) (h : p.Leads value (.inst packed)) :
    (substituted x packed field value).datum (p.zeroed packed v) = .scalar (.u32 0) := by
  unfold substituted
  cases value with
  | inst y =>
    have hx : y ≠ x := by
      rintro rfl
      exact hr.ne (Value.inst.inj (h.eq_of_not hr.op)).symm
    rw [if_neg fun heq => hx (Value.inst.inj heq)]
    split
    next => rfl
    next hne => exact if_pos ⟨h, fun heq => hne (congrArg _ heq)⟩
  | void => cases h.eq_of_not id
  | imm a => cases h.eq_of_not id

theorem Replaces.datum_same (hr : p.Replaces x packed field) (hfield : field.datum v = v x)
    (h : ¬ p.Leads value (.inst packed)) :
    (substituted x packed field value).datum (p.zeroed packed v) = value.datum v := by
  unfold substituted
  cases value with
  | inst y =>
    split
    next hx =>
      obtain ⟨z, rfl, -, hop⟩ := hr.field
      rw [hx]
      exact (zeroed_of_ne hop).trans hfield
    next =>
      have hpacked : Value.inst y ≠ .inst packed := by
        intro heq
        rw [heq] at h
        exact h (.refl _)
      rw [if_neg hpacked]
      exact if_neg fun hand => h hand.1
  | void => rfl
  | imm a => rfl

theorem Folded.fragment (h : p.Folded x packed field p') (hr : p.Replaces x packed field)
    (hfield : field.datum v = v x) (hv : p.Fragment word extracts v)
    (hnew : ∀ y, extracts y → ∀ i, ¬ p.Leads ((p.insts y).arg i) (.inst packed)) :
    p'.Fragment word extracts (p.zeroed packed v) := by
  have hne {y : ℕ} {op : Opcode} (hop : (p'.insts y).op = op) (hvoid : op ≠ .void) : y ≠ x ∧ y ≠ packed :=
    ⟨fun heq => hvoid (hop.symm.trans (h.gone y (.inl heq))),
      fun heq => hvoid (hop.symm.trans (h.gone y (.inr heq)))⟩
  refine ⟨fun y hop attr part harg hpart => ?_, fun y hop => ?_, fun y hy hop d hd => ?_⟩
  · obtain ⟨hx, hpacked⟩ := hne hop nofun
    rw [h.op y hx hpacked] at hop
    rw [h.arg y hx hpacked] at harg
    have harg' : (p.insts y).arg 0 = .imm (.attribute attr) := by
      unfold substituted at harg
      obtain ⟨z, rfl, -, -⟩ := hr.field
      split at harg
      · cases harg
      split at harg
      · cases harg
      · exact harg
    rw [zeroed_of_ne (by rw [hop]; nofun)]
    exact hv.reads y hop attr part harg' hpart
  · obtain ⟨hx, hpacked⟩ := hne hop nofun
    rw [h.op y hx hpacked] at hop
    rw [h.arg y hx hpacked]
    by_cases hleads : p.Leads ((p.insts y).arg 0) (.inst packed)
    · rw [hr.datum_zero hleads]
      exact (if_pos ⟨.step hop hleads, hpacked⟩).symm
    · rw [hr.datum_same hfield hleads, hv.transparent y hop]
      refine (if_neg fun hand => hleads ?_).symm
      cases hand.1 with
      | refl => exact absurd rfl hpacked
      | step _ hleads' => exact hleads'
  · obtain ⟨hx, hpacked⟩ := hne hop nofun
    rw [h.op y hx hpacked] at hop
    rw [zeroed_of_ne (by rw [hop]; nofun)]
    refine hv.fields y hy hop d ?_
    rw [← hd]
    congr 1
    refine (data_congr (h.numArgs y hx hpacked) fun i _ => ?_).symm
    rw [h.arg y hx hpacked, hr.datum_same hfield (hnew y hy i)]

end Program

end ShadPS4.IR
