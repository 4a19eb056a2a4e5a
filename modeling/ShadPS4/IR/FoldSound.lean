import ShadPS4.IR.FoldValues

/-!
# Each structural fold keeps the values

A fold takes a value in the place of an instruction that evaluates to the same, or gives an instruction operands of
which it computes the same.
-/

namespace ShadPS4.IR.Program

open Function
open Option (some.inj)

variable {args : List Value}
variable {others : OtherMeanings} {p p' q : Program} {v v' v'' : ℕ → Datum} {x y block : ℕ}
  {value w : Value} {op : Opcode} {f : Meaning}

theorem Keeps.trans (h : p.Keeps others v p' v') (h' : p'.Keeps others v' q v'') : p.Keeps others v q v'' where
  created := Nat.le_trans h.created h'.created
  same x hx := (h'.same x (Nat.lt_of_lt_of_le hx h.created)).trans (h.same x hx)
  consistent := h'.consistent
  op x hx hop := by
    have hop' := h'.op x (Nat.lt_of_lt_of_le hx h.created) hop
    exact hop'.trans (h.op x hx (hop' ▸ hop))
  data x hx hop hnone := by
    have hx' := Nat.lt_of_lt_of_le hx h.created
    have hop' := h'.op x hx' hop
    have hop1 := h.op x hx (hop' ▸ hop)
    exact (h'.data x hx' hop (hop1 ▸ hnone)).trans (h.data x hx (hop' ▸ hop) hnone)

theorem Sound.refl (hp : p.Linked) : p.Sound others p where
  linked := hp
  created := Nat.le_refl _
  keeps v hv := ⟨v, Nat.le_refl _, fun _ _ => rfl, hv, fun _ _ _ => rfl, fun _ _ _ _ => rfl⟩

theorem Sound.trans (h : p.Sound others p') (h' : p'.Sound others q) : p.Sound others q where
  linked := h'.linked
  created := Nat.le_trans h.created h'.created
  keeps v hv := by
    obtain ⟨v', hkeeps⟩ := h.keeps v hv
    obtain ⟨v'', hkeeps'⟩ := h'.keeps v' hkeeps.consistent
    exact ⟨v'', hkeeps.trans hkeeps'⟩

/-! ## Operands -/

theorem Linked.valid_arg (hp : p.Linked) (u i : ℕ) : p.Valid ((p.insts u).arg i) :=
  fun x hx => hp.valid (u, i) x hx

theorem data_eq (hop : (p.insts x).op = op) (hphi : op ≠ .phi) (v : ℕ → Datum) :
    (p.insts x).data v = (List.range op.numArgs).map fun i => ((p.insts x).arg i).datum v := by
  unfold Inst.data Inst.operands Inst.numArgs
  rw [hop, if_neg hphi, List.map_map]
  rfl

theorem of_identity : others.of .identity = some Meaning.same := rfl

theorem of_void : others.of .void = none := by
  unfold OtherMeanings.of
  rw [others.void]
  rfl

theorem resolve_spec (hp : p.Linked) (hv : p.Consistent others v) (hvalue : p.Valid value)
    (h : p.resolve turns value = some w) :
    w.datum v = value.datum v ∧ p.Valid w ∧ ∀ y, w = .inst y → (p.insts y).op ≠ .identity := by
  induction turns generalizing value with
  | zero => cases h
  | succ turns ih =>
    cases value with
    | inst x =>
      unfold resolve at h
      split at h
      next hop =>
        obtain ⟨hdatum, hrest⟩ := ih (hp.valid_arg x 0) h
        have hsame := hv x (hvalue x rfl) _ (hop ▸ of_identity)
        rw [data_eq hop (by decide)] at hsame
        exact ⟨hdatum.trans (some.inj hsame), hrest⟩
      next hop =>
        obtain rfl := some.inj h
        refine ⟨rfl, hvalue, fun y hy => ?_⟩
        obtain rfl := Value.inst.inj hy
        exact hop
    | void =>
      obtain rfl := some.inj h
      exact ⟨rfl, hvalue, by simp⟩
    | imm a =>
      obtain rfl := some.inj h
      exact ⟨rfl, hvalue, by simp⟩

theorem immediate_spec (hp : p.Linked) (hvalue : p.Valid value)
    (h : p.immediate value = some a) (v : ℕ → Datum) (hv : p.Consistent others v) : value.datum v = .scalar a := by
  obtain ⟨w, hw, h⟩ := Option.bind_eq_some_iff.mp h
  obtain ⟨hdatum, -⟩ := resolve_spec hp hv hvalue hw
  cases w with
  | imm b =>
    obtain rfl := some.inj h
    exact hdatum.symm
  | void => cases h
  | inst y => cases h

theorem instRecursive_spec (hp : p.Linked) (hvalue : p.Valid value) (h : p.instRecursive value = some y)
    (v : ℕ → Datum) (hv : p.Consistent others v) : value.datum v = v y ∧ y < p.created := by
  obtain ⟨w, hw, h⟩ := Option.bind_eq_some_iff.mp h
  obtain ⟨hdatum, hvalid, -⟩ := resolve_spec hp hv hvalue hw
  cases w with
  | inst z =>
    obtain rfl := some.inj h
    exact ⟨hdatum.symm, hvalid z rfl⟩
  | void => cases h
  | imm a => cases h

theorem Consistent.unary (hv : p.Consistent others v) (hx : x < p.created) (hop : (p.insts x).op = op)
    (hphi : op ≠ .phi) (hnum : op.numArgs = 1) (hof : others.of op = some f) :
    f [((p.insts x).arg 0).datum v] = some (v x) := by
  have hvalue := hv x hx f (hop ▸ hof)
  rw [data_eq hop hphi, hnum] at hvalue
  exact hvalue

theorem Consistent.binary (hv : p.Consistent others v) (hx : x < p.created) (hop : (p.insts x).op = op)
    (hphi : op ≠ .phi) (hnum : op.numArgs = 2) (hof : others.of op = some f) :
    f [((p.insts x).arg 0).datum v, ((p.insts x).arg 1).datum v] = some (v x) := by
  have hvalue := hv x hx f (hop ▸ hof)
  rw [data_eq hop hphi, hnum] at hvalue
  exact hvalue

theorem Consistent.ternary (hv : p.Consistent others v) (hx : x < p.created)
    (hop : (p.insts x).op = op) (hphi : op ≠ .phi) (hnum : op.numArgs = 3) (hof : others.of op = some f) :
    f [((p.insts x).arg 0).datum v, ((p.insts x).arg 1).datum v, ((p.insts x).arg 2).datum v] = some (v x) := by
  have hvalue := hv x hx f (hop ▸ hof)
  rw [data_eq hop hphi, hnum] at hvalue
  exact hvalue

/-! ## Changes -/

theorem data_congr {a b : Inst} (hnum : b.numArgs = a.numArgs)
    (harg : ∀ i < a.numArgs, (b.arg i).datum v' = (a.arg i).datum v) : b.data v' = a.data v := by
  unfold Inst.data Inst.operands
  rw [hnum, List.map_map, List.map_map]
  exact List.map_congr_left fun i hi => harg i (List.mem_range.mp hi)

theorem sound_replace (hp : p.Linked) (hop : (p.insts x).op ≠ .identity) (hvalue : p.Valid value)
    (hsame : ∀ v, p.Consistent others v → value.datum v = v x)
    (h : p.replaceUsesWithAndRemove x value = some p') : p.Sound others p' := by
  obtain ⟨hr, hlinked⟩ := replaceUsesWithAndRemove_spec hp hop hvalue h
  have hdata (v : ℕ → Datum) (hv : p.Consistent others v) (u : ℕ) (hu : u ≠ x) :
      (p'.insts u).data v = (p.insts u).data v := by
    apply data_congr (hr.numArgs u hu)
    intro i _
    rw [hr.arg u hu]
    split
    next harg => rw [harg, hsame v hv]; rfl
    next => rfl
  refine ⟨hlinked, Nat.le_of_eq hr.created.symm, fun v hv => ⟨v, Nat.le_of_eq hr.created.symm,
    fun _ _ => rfl, fun u hu f hf => ?_, fun u _ hop' => ?_, fun u _ hop' _ => ?_⟩⟩
  · rcases eq_or_ne u x with rfl | hne
    · rw [hr.gone, of_void] at hf
      cases hf
    · rw [hr.op u hne] at hf
      rw [hdata v hv u hne]
      exact hv u (hr.created ▸ hu) f hf
  · exact hr.op u fun heq => hop' (heq ▸ hr.gone)
  · exact hdata v hv u fun heq => hop' (heq ▸ hr.gone)

theorem sound_operands {value0 value1 : Value} {p1 : Program} (hp : p.Linked) (hx : x < p.created)
    (hop : (p.insts x).op = op) (hphi : op ≠ .phi) (hnum : op.numArgs = 2)
    (hof : others.of op = some f) (h0 : p.setArg x 0 value0 = some p1)
    (h1 : p1.setArg x 1 value1 = some p') (hvalid0 : p.Valid value0) (hvalid1 : p.Valid value1)
    (hsame : ∀ v, p.Consistent others v → f [value0.datum v, value1.datum v] = some (v x)) :
    p.Sound others p' ∧ (p'.insts x).op = op ∧ p'.created = p.created := by
  have hs := setArg_stored h0
  have hs' := setArg_stored h1
  have hlinked : p'.Linked := by
    refine (hp.setArg h0 hx hvalid0 fun _ => by omega).setArg h1 ?_ ?_ fun _ => by omega
    · rw [hs.created]
      exact hx
    · intro y hy
      rw [hs.created]
      exact hvalid1 y hy
  have hop' (u : ℕ) : (p'.insts u).op = (p.insts u).op := (hs'.op u).trans (hs.op u)
  have hcreated : p'.created = p.created := hs'.created.trans hs.created
  have hdata (v : ℕ → Datum) (u : ℕ) (hu : u ≠ x) : (p'.insts u).data v = (p.insts u).data v := by
    apply data_congr ((hs'.numArgs u).trans (hs.numArgs u))
    intro i _
    rw [hs'.arg, if_neg fun hand => hu hand.1, hs.arg, if_neg fun hand => hu hand.1]
  refine ⟨⟨hlinked, Nat.le_of_eq hcreated.symm, fun v hv => ⟨v, Nat.le_of_eq hcreated.symm,
    fun _ _ => rfl, fun u hu g hg => ?_, fun u _ _ => hop' u, fun u _ _ hnone => ?_⟩⟩,
    (hop' x).trans hop, hcreated⟩
  · rcases eq_or_ne u x with rfl | hne
    · have hop1 : (p'.insts u).op = op := (hop' u).trans hop
      rw [hop1, hof] at hg
      obtain rfl := some.inj hg
      rw [data_eq hop1 hphi, hnum, ← hsame v hv]
      show f [((p'.insts u).arg 0).datum v, ((p'.insts u).arg 1).datum v] = _
      rw [hs'.arg, hs'.arg, hs.arg, if_neg (by omega), if_pos ⟨rfl, rfl⟩, if_pos ⟨rfl, rfl⟩]
    · rw [hop'] at hg
      rw [hdata v u hne]
      exact hv u (hcreated ▸ hu) g hg
  · refine hdata v u fun heq => ?_
    rw [heq, hop, hof] at hnone
    cases hnone

theorem datum_update (hvalue : p.Valid value) (v : ℕ → Datum) (d : Datum) :
    value.datum (update v p.created d) = value.datum v := by
  cases value with
  | inst y => exact update_of_ne (Nat.ne_of_lt (hvalue y rfl)) ..
  | void => rfl
  | imm a => rfl

theorem Inserted.data_old (he : p.Inserted op args p') (hp : p.Linked) {u : ℕ}
    (hu : u ≠ p.created) (v : ℕ → Datum) (d : Datum) :
    (p'.insts u).data (update v p.created d) = (p.insts u).data v := by
  obtain ⟨-, hnum, harg⟩ := he.insts u hu
  apply data_congr hnum
  intro i _
  rw [harg, datum_update (hp.valid_arg u i)]

theorem Inserted.data_new (he : p.Inserted op args p') (hphi : op ≠ .phi)
    (hvalid : ∀ value ∈ args, p.Valid value) (v : ℕ → Datum) (d : Datum) :
    (p'.insts p.created).data (update v p.created d) = args.map (·.datum v) := by
  rw [data_eq he.opcode hphi, ← he.length]
  apply List.ext_getElem
  · rw [List.length_map, List.length_map, List.length_range]
  · intro i hi hi'
    rw [List.length_map] at hi'
    rw [List.getElem_map, List.getElem_map, List.getElem_range, he.arg,
      List.getElem?_eq_getElem hi', Option.getD_some]
    exact datum_update (hvalid _ (List.getElem_mem hi')) v d

theorem emit_emitted (hp : p.Linked)
    (hvalid : ∀ value ∈ args, p.Valid value) (h : p.emit block x op args = some (result, p'))
    (hphi : op ≠ .phi) : p.Inserted op args p' ∧ p'.Linked ∧ result = .inst p.created := by
  obtain ⟨p1, h1, h⟩ := Option.bind_eq_some_iff.mp h
  obtain ⟨rfl, rfl⟩ := Prod.ext_iff.mp (some.inj h)
  obtain ⟨he, hlinked⟩ := prependNewInst_emitted hp hphi hvalid h1
  exact ⟨he, hlinked, rfl⟩

theorem sound_emit (hp : p.Linked) (hphi : op ≠ .phi)
    (hof : others.of op = some f) (hvalid : ∀ value ∈ args, p.Valid value)
    (hsome : ∀ v, p.Consistent others v → ∃ d, f (args.map (·.datum v)) = some d)
    (h : p.emit block x op args = some (result, p')) :
    p.Sound others p' ∧ p.Inserted op args p' ∧ result = .inst p.created := by
  obtain ⟨he, hlinked, rfl⟩ := emit_emitted hp hvalid h hphi
  refine ⟨⟨hlinked, by rw [he.created]; exact Nat.le_succ _, fun v hv => ?_⟩, he, rfl⟩
  obtain ⟨d, hd⟩ := hsome v hv
  have hold (u : ℕ) (hu : u < p.created) : update v p.created d u = v u :=
    update_of_ne (Nat.ne_of_lt hu) ..
  refine ⟨update v p.created d, by rw [he.created]; exact Nat.le_succ _, hold,
    fun u hu g hg => ?_, fun u hu _ => (he.insts u (Nat.ne_of_lt hu)).1,
    fun u hu _ _ => he.data_old hp (Nat.ne_of_lt hu) v d⟩
  rw [he.created] at hu
  rcases Nat.lt_or_ge u p.created with hlt | hge
  · rw [(he.insts u (Nat.ne_of_lt hlt)).1] at hg
    rw [he.data_old hp (Nat.ne_of_lt hlt), hold u hlt]
    exact hv u hlt g hg
  · obtain rfl : u = p.created := by omega
    rw [he.opcode, hof] at hg
    obtain rfl := some.inj hg
    rw [he.data_new hphi hvalid, update_self]
    exact hd

end ShadPS4.IR.Program
