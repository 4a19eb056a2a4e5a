import ShadPS4.IR.PackedAncillary

/-!
# The users of the packed word

When `FoldPackedAncillary` folds one extraction, the values of the other users of the packed word are kept if
and only if each of them is an extraction of no bits, or of a field that is not within the word.
-/

namespace ShadPS4.IR.Program

open Function
open Option (some.inj bind_eq_some_iff)

variable {i : ℕ}
variable {p p' q : Program} {word offset bits : BitVec 32} {x y u packed block : ℕ}
  {value w field : Value} {v b : ℕ → Datum} {extracts : ℕ → Prop}

/-! ## Extractions -/

theorem bitFieldUExtract_empty (h : bits = 0 ∨ 32 < offset.toNat + bits.toNat) (a b : BitVec 32) :
    Spirv.bitFieldUExtract a offset bits = Spirv.bitFieldUExtract b offset bits := by
  refine ite_congr rfl (fun hwithin => ?_) fun _ => rfl
  obtain rfl : bits = 0 := h.resolve_right (Nat.not_lt.mpr hwithin)
  rfl

theorem empty_of_bitFieldUExtract (h : Spirv.bitFieldUExtract 0 offset bits =
    Spirv.bitFieldUExtract (BitVec.allOnes 32) offset bits) : bits = 0 ∨ 32 < offset.toNat + bits.toNat := by
  by_contra hnot
  obtain ⟨hbits, hlt⟩ := not_or.mp hnot
  have hwithin : Spirv.Within offset bits := Nat.not_lt.mp hlt
  have hpos : 0 < bits.toNat := Nat.pos_of_ne_zero fun hzero => hbits (BitVec.eq_of_toNat_eq hzero)
  unfold Spirv.bitFieldUExtract at h
  rw [if_pos hwithin, if_pos hwithin] at h
  have hbit := congrArg (BitVec.getLsbD · 0) (some.inj h)
  rw [getLsbD_extractField _ _ _ _ (by omega), getLsbD_extractField _ _ _ _ (by omega), if_pos hpos,
    if_pos hpos, BitVec.getLsbD_allOnes, decide_eq_true (by omega)] at hbit
  rw [show (0 : BitVec 32) = 0#32 from rfl, BitVec.getLsbD_zero] at hbit
  cases hbit

theorem ExtractsAt.data (h : p.ExtractsAt u offset bits)
    (hv : ∀ y, (p.insts y).op = .identity → ((p.insts y).arg 0).datum v = v y) : (p.insts u).data v =
      [((p.insts u).arg 0).datum v, .scalar (.u32 offset), .scalar (.u32 bits)] := by
  rw [data_eq h.op nofun]
  show [((p.insts u).arg 0).datum v, ((p.insts u).arg 1).datum v, ((p.insts u).arg 2).datum v] = _
  rw [datum_of_leads hv (immediate_leads h.offset), datum_of_leads hv (immediate_leads h.bits)]
  rfl

theorem ExtractsAt.eq_zero (h : p.ExtractsAt u offset bits) (huse : p.UsesThrough packed u i)
    (hpacked : (p.insts packed).op ≠ .identity) : i = 0 := by
  have hlt := huse.lt
  rw [show (p.insts u).numArgs = 3 by unfold Inst.numArgs; rw [h.op]; rfl] at hlt
  have hnot {a : Immediate} (himm : p.Leads ((p.insts u).arg i) (.imm a)) : False := by
    cases huse.leads.unique himm hpacked id
  rcases (show i = 0 ∨ i = 1 ∨ i = 2 by omega) with rfl | rfl | rfl
  · rfl
  · exact (hnot (immediate_leads h.offset)).elim
  · exact (hnot (immediate_leads h.bits)).elim

theorem ExtractsAt.data_folded (h : p.ExtractsAt u offset bits) (huse : p.UsesThrough packed u 0)
    (hop : (p'.insts u).op = (p.insts u).op) (hleads : ∀ i w, p.Leads ((p.insts u).arg i) w →
      p'.Leads ((p'.insts u).arg i) (substituted x packed field w))
    (hpacked : substituted x packed field (.inst packed) = .imm (.u32 0))
    (hv : ∀ y, (p'.insts y).op = .identity → ((p'.insts y).arg 0).datum v = v y) :
    (p'.insts u).data v = [.scalar (.u32 0), .scalar (.u32 offset), .scalar (.u32 bits)] := by
  rw [data_eq (hop.trans h.op) nofun]
  show [((p'.insts u).arg 0).datum v, ((p'.insts u).arg 1).datum v, ((p'.insts u).arg 2).datum v] = _
  rw [datum_of_leads hv (hleads 0 _ huse.leads), datum_of_leads hv (hleads 1 _ (immediate_leads h.offset)),
    datum_of_leads hv (hleads 2 _ (immediate_leads h.bits)), hpacked]
  rfl

/-! ## Values -/

/-- What a value evaluates to when the instructions have their values that are no `Identity`. -/
noncomputable def settled (p : Program) (b : ℕ → Datum) (value : Value) : Datum :=
  open Classical in
  if h : ∃ w, p.Leads value w ∧ ¬ p.IsIdentity w then h.choose.datum b else .void

theorem settled_of_leads (h : p.Leads value w) (hw : ¬ p.IsIdentity w) : p.settled b value = w.datum b := by
  have hex : ∃ w, p.Leads value w ∧ ¬ p.IsIdentity w := ⟨w, h, hw⟩
  unfold settled
  rw [dif_pos hex, hex.choose_spec.1.unique h hex.choose_spec.2 hw]

theorem settled_identity (hop : (p.insts y).op = .identity) :
    p.settled b (.inst y) = p.settled b ((p.insts y).arg 0) := by
  by_cases h : ∃ w, p.Leads ((p.insts y).arg 0) w ∧ ¬ p.IsIdentity w
  · obtain ⟨w, hleads, hw⟩ := h
    rw [settled_of_leads hleads hw, settled_of_leads (.step hop hleads) hw]
  · unfold settled
    rw [dif_neg h, dif_neg]
    rintro ⟨w, hleads, hw⟩
    cases hleads with
    | refl => exact hw hop
    | step _ hleads => exact h ⟨w, hleads, hw⟩

theorem datum_settled : value.datum (fun y => p.settled b (.inst y)) = p.settled b value := by
  have hrefl {value : Value} (h : ¬ p.IsIdentity value) : value.datum b = p.settled b value :=
    (settled_of_leads (.refl _) h).symm
  cases value with
  | inst y => rfl
  | void => exact hrefl (show ¬ p.IsIdentity .void from id)
  | imm a => exact hrefl (show ¬ p.IsIdentity (.imm a) from id)

def attributeValue (p : Program) (word : BitVec 32) (y : ℕ) : Datum :=
  match (p.insts y).arg 0 with
  | .imm (.attribute attr) =>
    (Attribute.ofPacked word attr).elim .void fun part => .scalar (.u32 part)
  | _ => .void

theorem exists_fragment (hx : p.ExtractsAt x offset bits) (word : BitVec 32)
    (hleads : p.Leads ((p.insts x).arg 0) (.inst packed)) (hpacked : (p.insts packed).op = .getAttributeU32)
    (hattr : (p.insts packed).arg 0 = .imm (.attribute Attribute.packedAncillary)) :
    ∃ v, p.Fragment word (· = x) v := by
  set result := (Meaning.field
    [.scalar (.u32 word), .scalar (.u32 offset), .scalar (.u32 bits)]).getD .void with hresult
  set b := update (p.attributeValue word) x result with hb
  have hplain {y : ℕ} (hop : (p.insts y).op ≠ .identity) : p.settled b (.inst y) = b y :=
    settled_of_leads (.refl _) hop
  have hread {y attr : ℕ} {part : BitVec 32} (hop : (p.insts y).op = .getAttributeU32)
      (harg : (p.insts y).arg 0 = .imm (.attribute attr))
      (hpart : Attribute.ofPacked word attr = some part) :
      p.settled b (.inst y) = .scalar (.u32 part) := by
    have hne : y ≠ x := by
      rintro rfl
      rw [hx.op] at hop
      cases hop
    rw [hplain (by rw [hop]; nofun), hb, update_of_ne hne]
    unfold attributeValue
    rw [harg]
    dsimp only
    rw [hpart]
    rfl
  have htransparent (y : ℕ) (hop : (p.insts y).op = .identity) :
      ((p.insts y).arg 0).datum (fun y => p.settled b (.inst y)) = p.settled b (.inst y) :=
    datum_settled.trans (settled_identity hop).symm
  refine ⟨fun y => p.settled b (.inst y), fun y hop attr part harg hpart => hread hop harg hpart,
    htransparent, fun y hy _ d hd => ?_⟩
  subst hy
  rw [hx.data htransparent, datum_of_leads htransparent hleads] at hd
  change Meaning.field [p.settled b (.inst packed), _, _] = _ at hd
  rw [hread hpacked hattr rfl] at hd
  rw [hplain (by rw [hx.op]; nofun), hb, update_self, hresult, hd]
  rfl

/-! ## The fold -/

theorem Linked.valid_leads (hp : p.Linked) (hvalue : p.Valid value) (h : p.Leads value w) : p.Valid w := by
  induction h with
  | refl => exact hvalue
  | step _ _ ih => exact ih (hp.valid_arg _ 0)

theorem Placed.leads_iff (hplaced : p.Placed offset bits field q) (hp : p.Linked)
    (hvalue : p.Valid value) : q.Leads value w ↔ p.Leads value w := by
  constructor
  · intro h
    induction h with
    | refl => exact .refl _
    | @step y w hop _ ih =>
      obtain ⟨hop', -, harg⟩ := hplaced.insts y (hvalue y rfl)
      rw [harg] at ih
      exact .step (hop'.symm.trans hop) (ih (hp.valid_arg y 0))
  · intro h
    induction h with
    | refl => exact .refl _
    | @step y w hop _ ih =>
      obtain ⟨hop', -, harg⟩ := hplaced.insts y (hvalue y rfl)
      refine .step (hop'.trans hop) ?_
      rw [harg]
      exact ih (hp.valid_arg y 0)

theorem ancillary_spec (hp : p.Linked) (h : p.ancillary x = some (some packed)) :
    p.Leads ((p.insts x).arg 0) (.inst packed) ∧ packed < p.created ∧ (p.insts packed).op = .getAttributeU32 ∧
      (p.insts packed).arg 0 = .imm (.attribute Attribute.packedAncillary) := by
  obtain ⟨immediate0, -, h⟩ := bind_eq_some_iff.mp h
  obtain ⟨immediate1, -, h⟩ := bind_eq_some_iff.mp h
  obtain ⟨immediate2, -, h⟩ := bind_eq_some_iff.mp h
  split at h
  · cases some.inj h
  obtain ⟨y, hy, h⟩ := bind_eq_some_iff.mp h
  split at h
  · cases some.inj h
  next hnot =>
    obtain rfl := some.inj (some.inj h)
    obtain ⟨hop, harg⟩ := not_or.mp hnot
    have hleads := (instRecursive_leads hy).1
    exact ⟨hleads, hp.valid_leads (hp.valid_arg x 0) hleads y rfl, not_not.mp hop, not_not.mp harg⟩

theorem foldPackedAncillary_folded (hp : p.Linked) (hx : x < p.created)
    (hextracts : p.ExtractsAt x offset bits) (hancillary : p.ancillary x = some (some packed))
    (h : p.foldPackedAncillary block x = some (p', true)) :
    ∃ q field, p.Placed offset bits field q ∧ q.Folded x packed field p' ∧ q.Replaces x packed field := by
  obtain ⟨-, hlt, hop, -⟩ := ancillary_spec hp hancillary
  have hne : x ≠ packed := by
    rintro rfl
    rw [hextracts.op] at hop
    cases hop
  unfold foldPackedAncillary at h
  rw [hancillary] at h
  rw [hextracts.offset, hextracts.bits] at h
  change ((p.emitAncillaryField block x offset bits).bind _) = _ at h
  obtain ⟨⟨field, q⟩, h1, h⟩ := bind_eq_some_iff.mp h
  obtain ⟨p2, h2, h⟩ := bind_eq_some_iff.mp h
  obtain ⟨p3, h3, h⟩ := bind_eq_some_iff.mp h
  obtain rfl := (Prod.mk.inj (some.inj h)).1
  have hplaced := emitAncillaryField_placed hp h1
  obtain ⟨z, rfl, hz, hzop⟩ := hplaced.new
  obtain ⟨hopx, -, -⟩ := hplaced.insts x hx
  obtain ⟨hoppacked, -, -⟩ := hplaced.insts packed hlt
  have hr : q.Replaces x packed (.inst z) := by
    refine ⟨hne, ?_, hoppacked.trans hop, z, rfl, by omega, hzop⟩
    rw [hopx, hextracts.op]
    nofun
  obtain ⟨hs, hlinked⟩ := replaceUsesWithAndRemove_spec hplaced.linked hr.op hplaced.valid h2
  have hop2 : (p2.insts packed).op ≠ .identity := by
    rw [hs.op packed hne.symm, hr.op_packed]
    nofun
  obtain ⟨hs', -⟩ := replaceUsesWithAndRemove_spec hlinked hop2 (valid_imm p2 _) h3
  refine ⟨q, .inst z, hplaced, folded_of_substituted hne (fun heq => ?_) hs hs', hr⟩
  obtain rfl := Value.inst.inj heq
  omega

/-- Every other user of the packed word extracts no bits, or a field that is not within it. -/
def OthersEmpty (p : Program) (x packed : ℕ) : Prop :=
  ∀ u i, u ≠ x → p.UsesThrough packed u i → ∃ offset bits, p.ExtractsAt u offset bits ∧
    (bits = 0 ∨ 32 < offset.toNat + bits.toNat)

theorem Folded.usersKept (hp : p.Linked) (hx : x < p.created) (hextracts : p.ExtractsAt x offset bits)
    (hancillary : p.ancillary x = some (some packed)) (hplaced : p.Placed offset bits field q)
    (hfolded : q.Folded x packed field p') (hr : q.Replaces x packed field)
    (hothers : p.OthersEmpty x packed) : p.UsersKept x p' := by
  intro word v hv
  obtain ⟨hleads, hlt, hop, hattr⟩ := ancillary_spec hp hancillary
  have hword : v packed = .scalar (.u32 word) := hv.reads packed hop _ _ hattr rfl
  -- The extraction has the field of the packed word.
  have hvalue (part : BitVec 32) (hpart : Spirv.bitFieldUExtract word offset bits = some part) :
      v x = .scalar (.u32 part) := by
    refine hv.fields x rfl hextracts.op _ ?_
    rw [hextracts.data hv.transparent, datum_of_leads hv.transparent hleads]
    change Meaning.field [v packed, _, _] = _
    rw [hword]
    exact congrArg (Option.map _) hpart
  -- Instructions that were not created extract nothing.
  have hfresh : p.Fragment word (p.created ≤ ·) v := by
    refine ⟨hv.reads, hv.transparent, fun y hy hop d hd => ?_⟩
    rw [data_eq hop nofun] at hd
    change Meaning.field [((p.insts y).arg 0).datum v, _, _] = _ at hd
    rw [hp.fresh y hy] at hd
    cases hd
  obtain ⟨v1, hv1, hsame, hfield⟩ := hplaced.values word v (v x) hfresh hvalue
  have hfield1 : field.datum v1 = v1 x := hfield.trans (hsame x hx).symm
  have hdatum {value : Value} (hvalue : p.Valid value) : value.datum v1 = value.datum v := by
    cases value with
    | inst y => exact hsame y (hvalue y rfl)
    | void => rfl
    | imm a => rfl
  have hfragment : p'.Fragment word (p.created ≤ ·) (q.zeroed packed v1) := by
    refine hfolded.fragment hr hfield1 hv1 fun y hy i h => ?_
    have hle := hplaced.fresh y hy i packed h
    omega
  refine ⟨q.zeroed packed v1, hfragment, fun y hy hne => ?_, fun u hu hne hgone => ?_⟩
  · rw [zeroed_of_ne, hsame y hy]
    rw [(hplaced.insts y hy).1]
    exact hne
  · have hux : u ≠ x := fun heq => hgone (hfolded.gone u (.inl heq))
    have hupacked : u ≠ packed := fun heq => hgone (hfolded.gone u (.inr heq))
    obtain ⟨hop', hnum, harg⟩ := hplaced.insts u hu
    have harg' (i : ℕ) : (p'.insts u).arg i = substituted x packed field ((p.insts u).arg i) := by
      rw [hfolded.arg u hux hupacked, harg]
    refine ⟨(hfolded.op u hux hupacked).trans hop', ?_⟩
    by_cases huses : ∃ i, p.UsesThrough packed u i
    · obtain ⟨i, huse⟩ := huses
      obtain ⟨offset', bits', hextracts', hempty⟩ := hothers u i hux huse
      obtain rfl := hextracts'.eq_zero huse (by rw [hop]; nofun)
      refine .inr ⟨⟨offset', bits', hextracts'⟩, ?_⟩
      have hdata := hextracts'.data_folded huse ((hfolded.op u hux hupacked).trans hop') (fun i w h => by
          rw [harg']
          exact hfolded.leads hr ((hplaced.leads_iff hp (hp.valid_arg u i)).mpr h))
        hr.substituted_packed hfragment.transparent
      rw [hdata, hextracts'.data hv.transparent, datum_of_leads hv.transparent huse.leads]
      change _ = Meaning.field [v packed, _, _]
      rw [hword]
      exact congrArg (Option.map _) (bitFieldUExtract_empty hempty 0 word)
    · refine .inl (data_congr ((hfolded.numArgs u hux hupacked).trans hnum) fun i hi => ?_)
      rw [harg', hr.datum_same hfield1, hdatum (hp.valid_arg u i)]
      rw [hplaced.leads_iff hp (hp.valid_arg u i)]
      exact fun h => huses ⟨i, hupacked, hne, hi, h⟩

theorem data_getElem? {inst : Inst} (hi : i < inst.numArgs) (v : ℕ → Datum) :
    (inst.data v)[i]? = some ((inst.arg i).datum v) := by
  unfold Inst.data Inst.operands
  rw [List.map_map, List.getElem?_map, List.getElem?_range hi]
  rfl

theorem UsesThrough.lt_created (h : p.UsesThrough packed u i) (hp : p.Linked) : u < p.created := by
  by_contra hnot
  have hvoid := h.leads
  rw [hp.fresh u (Nat.not_lt.mp hnot)] at hvoid
  cases hvoid.eq_of_not id

theorem Folded.othersEmpty (hp : p.Linked) (hextracts : p.ExtractsAt x offset bits)
    (hancillary : p.ancillary x = some (some packed)) (hplaced : p.Placed offset bits field q)
    (hfolded : q.Folded x packed field p') (hr : q.Replaces x packed field)
    (hkept : p.UsersKept x p') : p.OthersEmpty x packed := by
  intro u i hux huse
  obtain ⟨hleads, -, hop, hattr⟩ := ancillary_spec hp hancillary
  -- A fragment whose packed word has all bits.
  obtain ⟨v, hv⟩ := exists_fragment hextracts (.allOnes 32) hleads hop hattr
  have hword : v packed = .scalar (.u32 (.allOnes 32)) := hv.reads packed hop _ _ hattr rfl
  obtain ⟨v', hv', -, hkept⟩ := hkept _ v hv
  have hu := huse.lt_created hp
  obtain ⟨hop', hnum, harg⟩ := hplaced.insts u hu
  have hopu : (p'.insts u).op = (p.insts u).op := (hfolded.op u hux huse.ne).trans hop'
  have hgone : (p'.insts u).op ≠ .void := by
    rw [hopu]
    intro hvoid
    have hlt := huse.lt
    unfold Inst.numArgs at hlt
    rw [hvoid] at hlt
    exact absurd hlt (Nat.not_lt_zero i)
  have hmoved (i : ℕ) (w : Value) (h : p.Leads ((p.insts u).arg i) w) :
      p'.Leads ((p'.insts u).arg i) (substituted x packed field w) := by
    rw [hfolded.arg u hux huse.ne, harg]
    exact hfolded.leads hr ((hplaced.leads_iff hp (hp.valid_arg u i)).mpr h)
  rcases (hkept u hu huse.op hgone).2 with hdata | ⟨⟨offset', bits', hextracts'⟩, hfield⟩
  · -- The operand was the packed word, and is 0.
    have hnum' : (p'.insts u).numArgs = (p.insts u).numArgs :=
      (hfolded.numArgs u hux huse.ne).trans hnum
    have helem := congrArg (·[i]?) hdata
    rw [data_getElem? huse.lt, data_getElem? (hnum' ▸ huse.lt),
      datum_of_leads hv'.transparent (hmoved i _ huse.leads), hr.substituted_packed,
      datum_of_leads hv.transparent huse.leads] at helem
    change some (Datum.scalar (.u32 0)) = some (v packed) at helem
    rw [hword] at helem
    exact absurd (Immediate.u32.inj (Datum.scalar.inj (some.inj helem))) (by decide)
  · obtain rfl := hextracts'.eq_zero huse (by rw [hop]; nofun)
    rw [hextracts'.data_folded huse hopu hmoved hr.substituted_packed hv'.transparent,
      hextracts'.data hv.transparent, datum_of_leads hv.transparent huse.leads] at hfield
    change _ = Meaning.field [v packed, _, _] at hfield
    rw [hword] at hfield
    refine ⟨offset', bits', hextracts', empty_of_bitFieldUExtract ?_⟩
    exact Option.map_injective (fun a b h => Immediate.u32.inj (Datum.scalar.inj h)) hfield

theorem UsesThrough.not_kept (packed u : ℕ) (hp : p.Linked)
    (hu : p.UsesThrough packed u 0) (hextracts' : p.ExtractsAt u offset' bits')
    (hbits : bits' ≠ 0 ∧ offset'.toNat + bits'.toNat ≤ 32) (x block : ℕ) (hx : x < p.created)
    (hne : u ≠ x) (hextracts : p.ExtractsAt x offset bits) (hancillary : p.ancillary x = some (some packed))
    (h : p.foldPackedAncillary block x = some (p', true)) : ¬ p.UsersKept x p' := by
  intro hkept
  obtain ⟨q, field, hplaced, hfolded, hr⟩ :=
    foldPackedAncillary_folded hp hx hextracts hancillary h
  obtain ⟨offset, bits, ⟨-, hoffset, hcount⟩, hempty⟩ :=
    hfolded.othersEmpty hp hextracts hancillary hplaced hr hkept u 0 hne hu
  obtain rfl := Immediate.u32.inj (some.inj (hoffset.symm.trans hextracts'.offset))
  obtain rfl := Immediate.u32.inj (some.inj (hcount.symm.trans hextracts'.bits))
  rcases hempty with hzero | hlt
  · exact hbits.1 hzero
  · exact Nat.not_lt.mpr hbits.2 hlt

/-- The fold of an extraction keeps the value of every user of the packed word if and only if each other user
is a constant extraction of no bits, or of a field that is not within the word: whichever extraction is
visited first, and whatever instructions the users are. -/
theorem foldPackedAncillary_iff (hp : p.Linked) (hx : x < p.created)
    (hextracts : p.ExtractsAt x offset bits) (hancillary : p.ancillary x = some (some packed))
    (h : p.foldPackedAncillary block x = some (p', true)) : p.UsersKept x p' ↔ p.OthersEmpty x packed := by
  obtain ⟨q, field, hplaced, hfolded, hr⟩ :=
    foldPackedAncillary_folded hp hx hextracts hancillary h
  exact ⟨hfolded.othersEmpty hp hextracts hancillary hplaced hr,
    hfolded.usersKept hp hx hextracts hancillary hplaced hr⟩

theorem UsesThrough.arg_eq (h : p.UsesThrough packed u i)
    (hop : ∀ y < p.created, (p.insts y).op ≠ .identity) (hp : p.Linked) : (p.insts u).arg i = .inst packed := by
  have hleads := h.leads
  have hvalid := hp.valid_arg u i
  generalize (p.insts u).arg i = value at hleads hvalid
  refine (hleads.eq_of_not ?_).symm
  cases value with
  | inst y => exact hop y (hvalid y rfl)
  | void => exact id
  | imm a => exact id

theorem othersEmpty_of_args (x packed z : ℕ) (hp : p.Linked) (hop : ∀ y < p.created, (p.insts y).op ≠ .identity)
    (hargs : ∀ u < p.created, ∀ i < (p.insts u).numArgs, (p.insts u).arg i = .inst packed → u = x ∨ u = z)
    (hz : p.ExtractsAt z offset bits) (hempty : bits = 0 ∨ 32 < offset.toNat + bits.toNat) :
    p.OthersEmpty x packed := by
  intro u i hne huse
  obtain rfl := (hargs u (huse.lt_created hp) i huse.lt (huse.arg_eq hop hp)).resolve_left hne
  exact ⟨offset, bits, hz, hempty⟩

theorem foldPackedAncillary_sample : ∃ p p' : Program,
    p.foldPackedAncillary 0 1 = some (p', true) ∧ p.UsersKept 1 p' ∧
    (p.insts 3).arg 0 = .inst 1 ∧ (p'.insts 3).arg 0 = .inst 5 ∧
    (p'.insts 5).arg 0 = .imm (.attribute Attribute.sampleIndex) := by
  have hstart : Runs LooksAt {} := .start rfl
  have hrun := hstart.ofGuarded (fun _ _ => looksAt_spec)
    [.prependNewInst 0 0 .getAttributeU32 [.imm (.attribute Attribute.packedAncillary), .imm (.u32 0)] 0,
      .prependNewInst 0 1 IntegerOp.bitFieldUExtract.opcode [.inst 0, .imm (.u32 8), .imm (.u32 4)] 0,
      .prependNewInst 0 2 IntegerOp.bitFieldUExtract.opcode [.inst 0, .imm (.u32 3), .imm (.u32 0)] 0,
      .prependNewInst 0 3 .reference [.inst 1] 0,
      .prependNewInst 0 4 .reference [.inst 2] 0] rfl
  have hp := (Runs.wf hrun).linked
  exact ⟨_, _, rfl, (foldPackedAncillary_iff hp (by decide) ⟨rfl, rfl, rfl⟩ rfl rfl).mpr
    (othersEmpty_of_args 1 0 2 hp (by decide) (by decide) ⟨rfl, rfl, rfl⟩ (.inl rfl)), rfl, rfl, rfl⟩

/-- When both the sample and the render target are extracted, the one that is visited last is 0: its value is
not kept, and the pass replaces it by 0. -/
theorem foldPackedAncillary_differs : ∃ p p' p'' : Program, (p.insts 3).arg 0 = .inst 1 ∧ p.ExtractsAt 1 8 4 ∧
    (p.insts 4).arg 0 = .inst 2 ∧ p.ExtractsAt 2 16 11 ∧
    p.foldPackedAncillary 0 1 = some (p', true) ∧ ¬ p.UsersKept 1 p' ∧ p.constantPropagationPass [0] = some p'' ∧
    (p''.insts 3).arg 0 = .inst 5 ∧ (p''.insts 4).arg 0 = .imm (.u32 0) := by
  have hstart : Runs LooksAt {} := .start rfl
  have hrun := hstart.ofGuarded (fun _ _ => looksAt_spec)
    [.prependNewInst 0 0 .getAttributeU32 [.imm (.attribute Attribute.packedAncillary), .imm (.u32 0)] 0,
      .prependNewInst 0 1 IntegerOp.bitFieldUExtract.opcode [.inst 0, .imm (.u32 8), .imm (.u32 4)] 0,
      .prependNewInst 0 2 IntegerOp.bitFieldUExtract.opcode
        [.inst 0, .imm (.u32 16), .imm (.u32 11)] 0,
      .prependNewInst 0 3 .reference [.inst 1] 0,
      .prependNewInst 0 4 .reference [.inst 2] 0] rfl
  have hp := (Runs.wf hrun).linked
  exact ⟨_, _, _, rfl, ⟨rfl, rfl, rfl⟩, rfl, ⟨rfl, rfl, rfl⟩, rfl,
    UsesThrough.not_kept 0 2 hp ⟨by decide, by decide, by decide, .refl _⟩ ⟨rfl, rfl, rfl⟩
      ⟨by decide, by decide⟩ 1 0 (by decide) (by decide) ⟨rfl, rfl, rfl⟩ rfl rfl, rfl, rfl, rfl⟩

end ShadPS4.IR.Program
