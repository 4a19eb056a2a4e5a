import ShadPS4.IR.StructuralFolds
import ShadPS4.IR.UsesRuns

/-!
# The structural folds in the pass

`ConstantPropagationPass` makes the structural folds among the others, each on the program that those before it
leave.
-/

namespace ShadPS4.IR

open Function
open Option (some.inj bind_eq_some_iff)

/-- The structural folds: those that look at what an operand comes from, and at one immediate. -/
def Fold.isStructural : Fold → Bool
  | .add | .mul | .bitCastF32U32 | .bitCastU32F32 | .unpack32x2 _ | .select | .logicalAnd | .logicalOr
  | .logicalNot | .compositeExtract _ _ => true
  | _ => false

namespace Program

variable {others : OtherMeanings} {p p' q q' : Program} {x block : ℕ} {op : Opcode} {fold : Fold}
  {value : Value} {args : List Value}

def structuralFolds (p : Program) (block x : ℕ) : Option Program :=
  match Fold.of (p.insts x).op with
  | some fold => if fold.isStructural then fold.call p block x else some p
  | none => some p

/-- A walk over the blocks comes to an instruction with a program. -/
def ComesTo (visit : Program → ℕ → ℕ → Option Program) (p : Program) (program : List ℕ) (q : Program)
    (block x : ℕ) : Prop :=
  ∃ visited todo before after p₁, program.reverse = visited ++ block :: todo ∧
    visited.foldlM (fun p block => (p.blocks block).foldlM (visit · block) p) p = some p₁ ∧
    p₁.blocks block = before ++ x :: after ∧ before.foldlM (visit · block) p₁ = some q

/-! ## The table -/

theorem mem_table (h : Fold.of op = some fold) : (op, fold) ∈ Fold.table := by
  obtain ⟨l1, l2, heq, -⟩ := List.lookup_eq_some_iff.mp h
  rw [heq]
  exact List.mem_append_right _ List.mem_cons_self

section

variable (others : OtherMeanings)

theorem performs_bitCast : Performs others .bitCastF32U32 1 Meaning.bitCastF32U32 ∧
    Performs others .bitCastU32F32 1 Meaning.bitCastU32F32 :=
  ⟨⟨nofun, nofun, rfl, rfl⟩, nofun, nofun, rfl, rfl⟩

theorem performs_32x2 : (Performs others .packUint2x32 1 (Meaning.pack .u64) ∧
      Performs others .unpackUint2x32 1 (Meaning.unpack Immediate.ofU64)) ∧
    Performs others .packDouble2x32 1 (Meaning.pack .f64) ∧
      Performs others .unpackDouble2x32 1 (Meaning.unpack Meaning.ofF64) :=
  ⟨⟨⟨nofun, nofun, rfl, rfl⟩, nofun, nofun, rfl, rfl⟩, ⟨nofun, nofun, rfl, rfl⟩, nofun, nofun, rfl, rfl⟩

theorem performs_select (hop : op = .selectU1 ∨ op = .selectU32 ∨ op = .selectF32) :
    Performs others op 3 Meaning.select := by
  rcases hop with rfl | rfl | rfl <;> exact ⟨nofun, nofun, rfl, rfl⟩

theorem call_sound (hp : p.Linked) (hx : x < p.created) (hop : (p.insts x).op = op)
    (hfold : Fold.of op = some fold) (hstructural : fold.isStructural)
    (h : fold.call p block x = some p') : p.Sound others p' := by
  obtain ⟨hf32, hu32⟩ := performs_bitCast others
  obtain ⟨⟨hpack, hunpack⟩, hpack', hunpack'⟩ := performs_32x2 others
  have hmem := mem_table hfold
  simp only [Fold.table, List.mem_append, List.mem_map, List.mem_cons, List.not_mem_nil, or_false,
    Prod.mk.injEq] at hmem
  rcases hmem with (((hrow | ⟨_, -, -, rfl⟩) | ⟨_, -, -, rfl⟩) | ⟨_, -, -, rfl⟩) |
    ⟨type, -, rfl, rfl⟩
  · rcases hrow with ⟨rfl, rfl⟩ | ⟨rfl, rfl⟩ | ⟨rfl, rfl⟩ | ⟨rfl, rfl⟩ | ⟨rfl, rfl⟩ | ⟨rfl, rfl⟩ |
      ⟨rfl, rfl⟩ | ⟨rfl, rfl⟩ | ⟨rfl, rfl⟩ | ⟨rfl, rfl⟩ | ⟨rfl, rfl⟩ | ⟨rfl, rfl⟩ | ⟨rfl, rfl⟩ |
      ⟨rfl, rfl⟩ | ⟨rfl, rfl⟩ | ⟨rfl, rfl⟩ | ⟨rfl, rfl⟩ | ⟨rfl, rfl⟩ | ⟨rfl, rfl⟩
    · exact foldAdd_sound hp ⟨⟨nofun, nofun, rfl, rfl⟩, hx, hop⟩ h
    · cases hstructural
    · exact foldMul_sound hp ⟨⟨nofun, nofun, rfl, rfl⟩, hx, hop⟩ h
    · cases hstructural
    · exact foldBitCast_sound hp ⟨hf32, hx, hop⟩ hu32 bitCastF32U32_bitCastU32F32 bitCastF32U32_cast h
    · exact foldBitCast_sound hp ⟨hu32, hx, hop⟩ hf32 bitCastU32F32_bitCastF32U32 bitCastU32F32_cast h
    · exact foldUnpack32x2_sound wide_u64 hp ⟨hunpack, hx, hop⟩ hpack h
    · exact foldUnpack32x2_sound wide_f64 hp ⟨hunpack', hx, hop⟩ hpack' h
    · exact foldSelect_sound hp ⟨performs_select others (.inl rfl), hx, hop⟩ h
    · exact foldSelect_sound hp ⟨performs_select others (.inr (.inl rfl)), hx, hop⟩ h
    · exact foldSelect_sound hp ⟨performs_select others (.inr (.inr rfl)), hx, hop⟩ h
    · cases hstructural
    · exact foldLogicalAnd_sound hp ⟨⟨nofun, nofun, rfl, rfl⟩, hx, hop⟩ h
    · exact foldLogicalOr_sound hp ⟨⟨nofun, nofun, rfl, rfl⟩, hx, hop⟩ h
    · exact foldLogicalNot_sound hp ⟨⟨nofun, nofun, rfl, rfl⟩, hx, hop⟩ h
    all_goals cases hstructural
  · cases hstructural
  · cases hstructural
  · cases hstructural
  · exact foldCompositeExtract_sound hp ⟨(performs_composite others type).2.2, hx, hop⟩ h

end

/-! ## All folds -/

/-- What every fold leaves in order. -/
structure Follows (p p' : Program) : Prop where
  linked : p'.Linked
  created : p.created ≤ p'.created
  plain : ∀ x, (p.insts x).op ≠ .identity → (p'.insts x).op ≠ .identity

theorem Follows.refl (hp : p.Linked) : p.Follows p := ⟨hp, Nat.le_refl _, fun _ => id⟩

theorem Follows.trans (h : p.Follows p') (h' : p'.Follows q) : p.Follows q :=
  ⟨h'.linked, Nat.le_trans h.created h'.created, fun x hx => h'.plain x (h.plain x hx)⟩

theorem Follows.valid (h : p.Follows p') (hvalue : p.Valid value) : p'.Valid value :=
  fun y hy => Nat.lt_of_lt_of_le (hvalue y hy) h.created

section

variable (hp : p.Linked)

include hp

theorem replace_follows (hop : (p.insts x).op ≠ .identity) (hvalue : p.Valid value)
    (h : p.replaceUsesWithAndRemove x value = some p') : p.Follows p' := by
  obtain ⟨hr, hlinked⟩ := replaceUsesWithAndRemove_spec hp hop hvalue h
  refine ⟨hlinked, Nat.le_of_eq hr.created.symm, fun y hy => ?_⟩
  rcases eq_or_ne y x with rfl | hne
  · rw [hr.gone]
    nofun
  · rwa [hr.op y hne]

theorem emit_follows (hvalid : ∀ value ∈ args, p.Valid value)
    (h : p.emit block x op args = some (result, p')) (hphi : op ≠ .phi) (hidentity : op ≠ .identity) :
    p.Follows p' ∧ p'.Valid result := by
  obtain ⟨he, hlinked, rfl⟩ := emit_emitted hp hvalid h hphi
  refine ⟨⟨hlinked, ?_, fun y hy => ?_⟩, fun y hy => ?_⟩
  · rw [he.created]
    exact Nat.le_succ _
  · rcases eq_or_ne y p.created with rfl | hne
    · rw [he.opcode]
      exact hidentity
    · rw [(he.insts y hne).1]
      exact hy
  · obtain rfl := some.inj hy
    rw [he.created]
    exact Nat.lt_succ_self _

theorem replaceOpcode_follows (hphi : (p.insts x).op ≠ .phi)
    (hidentity : (p.insts x).op ≠ .identity) (h : p.replaceOpcode x opcode = some p')
    (hidentity' : opcode ≠ .identity) : p.Follows p' := by
  obtain ⟨hphi', h⟩ := Option.ite_none_left_eq_some.mp h
  obtain rfl := some.inj h
  have hbecome : (p.insts x).become opcode = { p.insts x with op := opcode } := if_neg hphi
  have harg (u i : ℕ) : ((p.setInst x ((p.insts x).become opcode)).insts u).arg i = (p.insts u).arg i := by
    rcases eq_or_ne u x with rfl | hne
    · show (update p.insts u _ u).arg i = _
      rw [update_self, hbecome]
      unfold Inst.arg
      rw [if_neg hphi', if_neg hphi]
    · show (update p.insts x _ u).arg i = _
      rw [update_of_ne hne]
  have hop (u : ℕ) : ((p.setInst x ((p.insts x).become opcode)).insts u).op =
      if u = x then opcode else (p.insts u).op := by
    rcases eq_or_ne u x with rfl | hne
    · show (update p.insts u _ u).op = _
      rw [update_self, Inst.become_op, if_pos rfl]
    · show (update p.insts x _ u).op = _
      rw [update_of_ne hne, if_neg hne]
  have hrefs : (p.setInst x ((p.insts x).become opcode)).refs = p.refs := by
    funext k
    unfold refs
    rw [harg]
  refine ⟨⟨?_, fun u hu i => ?_, fun u hu i hi => ?_, hp.placed, fun y hy k => ?_⟩, Nat.le_refl _,
    fun y hy => ?_⟩
  · rw [hrefs]
    exact hp.valid
  · rw [harg]
    exact hp.fresh u hu i
  · rw [harg]
    rw [hop] at hu
    rcases eq_or_ne u x with rfl | hne
    · exact hp.slots u hphi i hi
    · rw [if_neg hne] at hu
      exact hp.slots u hu i hi
  · rw [hrefs, setInst_users (Inst.become_uses ..)]
    apply hp.exact y
    rw [hop] at hy
    rcases eq_or_ne y x with rfl | hne
    · exact hidentity
    · rwa [if_neg hne] at hy
  · rw [hop]
    split
    · exact hidentity'
    · exact hy

theorem foldWhenAllImmediates_follows
    (hop : (p.insts x).op ≠ .identity) (h : p.foldWhenAllImmediates x func = some p') : p.Follows p' := by
  obtain ⟨immediates, -, h⟩ := bind_eq_some_iff.mp h
  split at h
  next =>
    obtain ⟨values, -, h⟩ := bind_eq_some_iff.mp h
    obtain ⟨result, -, h⟩ := bind_eq_some_iff.mp h
    exact replace_follows hp hop (valid_imm p _) h
  next =>
    obtain rfl := some.inj h
    exact .refl hp

theorem foldInverseFunc_follows (hop : (p.insts x).op ≠ .identity)
    (h : p.foldInverseFunc x reverse = some p') : p.Follows p' := by
  obtain ⟨immediate, -, h⟩ := bind_eq_some_iff.mp h
  split at h
  next =>
    obtain rfl := some.inj h
    exact .refl hp
  next =>
    obtain ⟨y, -, h⟩ := bind_eq_some_iff.mp h
    split at h
    next => exact replace_follows hp hop (hp.valid_arg y 0) h
    next =>
      obtain rfl := some.inj h
      exact .refl hp

theorem foldDiscardCond_follows (hphi : (p.insts x).op ≠ .phi)
    (hop : (p.insts x).op ≠ .identity) (h : p.foldDiscardCond x = some p') : p.Follows p' := by
  obtain ⟨immediate, -, h⟩ := bind_eq_some_iff.mp h
  split at h
  next =>
    obtain ⟨a, -, h⟩ := bind_eq_some_iff.mp h
    obtain ⟨flag, -, h⟩ := bind_eq_some_iff.mp h
    split at h
    next => exact replaceOpcode_follows hp hphi hop h nofun
    next =>
      obtain ⟨hc, hlinked⟩ := invalidate_cleared hp h hop
      refine ⟨hlinked, Nat.le_of_eq hc.created.symm, fun y hy => ?_⟩
      rcases eq_or_ne y x with rfl | hne
      · rw [hc.op]
        nofun
      · rwa [(hc.insts y hne).op]
  next =>
    obtain rfl := some.inj h
    exact .refl hp

theorem foldCmpClass_follows (hphi : (p.insts x).op ≠ .phi)
    (hop : (p.insts x).op ≠ .identity) (h : p.foldCmpClass block x = some p') : p.Follows p' := by
  obtain ⟨immediate, -, h⟩ := bind_eq_some_iff.mp h
  split at h
  swap
  · cases h
  obtain ⟨a, -, h⟩ := bind_eq_some_iff.mp h
  obtain ⟨class_mask, -, h⟩ := bind_eq_some_iff.mp h
  split at h
  · exact replaceOpcode_follows hp hphi hop h nofun
  split at h
  · exact replaceOpcode_follows hp hphi hop h nofun
  split at h
  swap
  · cases h
  obtain ⟨⟨nan, p1⟩, h1, h⟩ := bind_eq_some_iff.mp h
  obtain ⟨⟨inf, p2⟩, h2, h⟩ := bind_eq_some_iff.mp h
  obtain ⟨⟨either, p3⟩, h3, h⟩ := bind_eq_some_iff.mp h
  obtain ⟨⟨neither, p4⟩, h4, h⟩ := bind_eq_some_iff.mp h
  obtain ⟨hf1, hnan⟩ := emit_follows hp (List.forall_mem_singleton.mpr (hp.valid_arg x 0)) h1 nofun nofun
  obtain ⟨hf2, hinf⟩ := emit_follows hf1.linked
    (List.forall_mem_singleton.mpr (hf1.valid (hp.valid_arg x 0))) h2 nofun nofun
  obtain ⟨hf3, heither⟩ := emit_follows hf2.linked
    (List.forall_mem_cons.mpr ⟨hf2.valid hnan, List.forall_mem_singleton.mpr hinf⟩) h3 nofun nofun
  obtain ⟨hf4, hneither⟩ := emit_follows hf3.linked (List.forall_mem_singleton.mpr heither) h4 nofun nofun
  have hf := ((hf1.trans hf2).trans hf3).trans hf4
  exact hf.trans (replace_follows hf4.linked (hf.plain x hop) hneither h)

theorem emitAncillaryField_follows
    (h : p.emitAncillaryField block x offset bits = some (result, p')) : p.Follows p' ∧ p'.Valid result := by
  have hattribute {attr : ℕ} {whole : Bool} {offset : BitVec 32}
      (h : p.emitAttributeField block x attr whole offset bits = some (result, p')) :
      p.Follows p' ∧ p'.Valid result := by
    obtain ⟨⟨index, p1⟩, h1, h⟩ := bind_eq_some_iff.mp h
    obtain ⟨hf1, hindex⟩ := emit_follows hp
      (List.forall_mem_cons.mpr ⟨valid_imm p _, List.forall_mem_singleton.mpr (valid_imm p _)⟩) h1 nofun nofun
    cases whole with
    | true =>
      obtain ⟨rfl, rfl⟩ := Prod.ext_iff.mp (some.inj h)
      exact ⟨hf1, hindex⟩
    | false =>
      obtain ⟨hf, hresult⟩ := emit_follows hf1.linked
        (List.forall_mem_cons.mpr ⟨hindex, List.forall_mem_cons.mpr ⟨valid_imm p1 _,
          List.forall_mem_singleton.mpr (valid_imm p1 _)⟩⟩) h nofun nofun
      exact ⟨hf1.trans hf, hresult⟩
  unfold emitAncillaryField at h
  split at h
  · exact hattribute h
  split at h
  · exact hattribute h
  · cases h

theorem foldPackedAncillary_follows
    (hop : (p.insts x).op ≠ .identity) (h : p.foldPackedAncillary block x = some (p', folded)) : p.Follows p' := by
  obtain ⟨ancillary, hancillary, h⟩ := bind_eq_some_iff.mp h
  cases ancillary with
  | none =>
    obtain ⟨rfl, rfl⟩ := Prod.ext_iff.mp (some.inj h)
    exact .refl hp
  | some packed =>
    have hpacked : (p.insts packed).op ≠ .identity := by
      obtain ⟨immediate0, -, hancillary⟩ := bind_eq_some_iff.mp hancillary
      obtain ⟨immediate1, -, hancillary⟩ := bind_eq_some_iff.mp hancillary
      obtain ⟨immediate2, -, hancillary⟩ := bind_eq_some_iff.mp hancillary
      split at hancillary
      · cases some.inj hancillary
      obtain ⟨y, -, hancillary⟩ := bind_eq_some_iff.mp hancillary
      split at hancillary
      · cases some.inj hancillary
      next hnot =>
        obtain rfl := some.inj (some.inj hancillary)
        rw [not_not.mp (not_or.mp hnot).1]
        nofun
    obtain ⟨a, -, h⟩ := bind_eq_some_iff.mp h
    obtain ⟨offset, -, h⟩ := bind_eq_some_iff.mp h
    obtain ⟨b, -, h⟩ := bind_eq_some_iff.mp h
    obtain ⟨bits, -, h⟩ := bind_eq_some_iff.mp h
    obtain ⟨⟨field, p1⟩, h1, h⟩ := bind_eq_some_iff.mp h
    obtain ⟨p2, h2, h⟩ := bind_eq_some_iff.mp h
    obtain ⟨p3, h3, h⟩ := bind_eq_some_iff.mp h
    obtain ⟨rfl, -⟩ := Prod.ext_iff.mp (some.inj h)
    obtain ⟨hf1, hfield⟩ := emitAncillaryField_follows hp h1
    have hf2 := hf1.trans (replace_follows hf1.linked (hf1.plain x hop) hfield h2)
    exact hf2.trans (replace_follows hf2.linked (hf2.plain packed hpacked) (valid_imm p2 _) h3)

end

theorem table_plain : ∀ row ∈ Fold.table, row.1 ≠ .phi ∧ row.1 ≠ .identity := by decide

theorem constantPropagation_linked (hp : p.Linked) (hx : x < p.created)
    (h : p.constantPropagation block x = some p') : p'.Linked ∧ p.created ≤ p'.created := by
  unfold constantPropagation at h
  split at h
  next fold hfold =>
    obtain ⟨hphi, hop⟩ := table_plain _ (mem_table hfold)
    have hsound (hstructural : fold.isStructural) : p'.Linked ∧ p.created ≤ p'.created :=
      have hsound := call_sound ⟨fun _ => none, rfl⟩ hp hx rfl hfold hstructural h
      ⟨hsound.linked, hsound.created⟩
    have hfollows (hf : p.Follows p') : p'.Linked ∧ p.created ≤ p'.created := ⟨hf.linked, hf.created⟩
    cases fold with
    | whenAllImmediates op => exact hfollows (foldWhenAllImmediates_follows hp hop h)
    | convertF32U32 => exact hfollows (foldWhenAllImmediates_follows hp hop h)
    | fpNeg32 => exact hfollows (foldWhenAllImmediates_follows hp hop h)
    | bitFieldUExtract =>
      obtain ⟨⟨p1, folded⟩, h1, h⟩ := bind_eq_some_iff.mp h
      have hf1 := foldPackedAncillary_follows hp hop h1
      cases folded with
      | true =>
        obtain rfl := some.inj h
        exact hfollows hf1
      | false =>
        exact hfollows (hf1.trans (foldWhenAllImmediates_follows hf1.linked (hf1.plain x hop) h))
    | cmpClass => exact hfollows (foldCmpClass_follows hp hphi hop h)
    | inverseFunc reverse => exact hfollows (foldInverseFunc_follows hp hop h)
    | convert opposite => exact hfollows (foldInverseFunc_follows hp hop h)
    | discardCond => exact hfollows (foldDiscardCond_follows hp hphi hop h)
    | _ => exact hsound rfl
  next =>
    obtain rfl := some.inj h
    exact ⟨hp, Nat.le_refl _⟩

/-! ## The walk -/

/-- What a walk needs of a relation between programs: each visit keeps it. -/
structure WalkRule (visit : Program → ℕ → ℕ → Option Program) (R : Program → Program → Prop) :
    Prop where
  refl : ∀ q : Program, q.Linked → R q q
  trans : ∀ q q' r, R q q' → R q' r → R q r
  linked : ∀ q q', R q q' → q'.Linked ∧ q.created ≤ q'.created
  visit : ∀ q block x q', q.Linked → x < q.created → visit q block x = some q' → R q q'

variable {visit : Program → ℕ → ℕ → Option Program} {R : Program → Program → Prop} {program : List ℕ}

theorem WalkRule.insts (hR : WalkRule visit R) {xs : List ℕ} (hp : p.Linked)
    (hxs : ∀ x ∈ xs, x < p.created) (h : xs.foldlM (visit · block) p = some q) : R p q := by
  induction xs generalizing p with
  | nil =>
    obtain rfl := some.inj h
    exact hR.refl p hp
  | cons x xs ih =>
    obtain ⟨p1, h1, hrest⟩ := bind_eq_some_iff.mp h
    have hstep := hR.visit p block x p1 hp (hxs x List.mem_cons_self) h1
    obtain ⟨hp1, hle⟩ := hR.linked p p1 hstep
    exact hR.trans p p1 q hstep
      (ih hp1 (fun y hy => Nat.lt_of_lt_of_le (hxs y (List.mem_cons_of_mem _ hy)) hle) hrest)

theorem WalkRule.walk (hR : WalkRule visit R) {blocks : List ℕ} (hp : p.Linked)
    (h : blocks.foldlM (fun p block => (p.blocks block).foldlM (visit · block) p) p = some q) : R p q := by
  induction blocks generalizing p with
  | nil =>
    obtain rfl := some.inj h
    exact hR.refl p hp
  | cons block blocks ih =>
    obtain ⟨p1, h1, hrest⟩ := bind_eq_some_iff.mp h
    have hblock := hR.insts hp (hp.placed block) h1
    exact hR.trans p p1 q hblock (ih (hR.linked p p1 hblock).1 hrest)

theorem WalkRule.comesTo (hR : WalkRule visit R) (hp : p.Linked)
    (h : p.ComesTo visit program q block x) : R p q ∧ q.Linked ∧ x < q.created := by
  obtain ⟨visited, todo, before, after, p1, -, h1, hblock, hbefore⟩ := h
  have hvisited := hR.walk hp h1
  obtain ⟨hp1, -⟩ := hR.linked p p1 hvisited
  have hplaced := hp1.placed block
  rw [hblock] at hplaced
  have hstep := hR.insts hp1 (fun y hy => hplaced y (List.mem_append_left _ hy)) hbefore
  obtain ⟨hq, hle⟩ := hR.linked p1 q hstep
  exact ⟨hR.trans p p1 q hvisited hstep, hq,
    Nat.lt_of_lt_of_le (hplaced x (List.mem_append_right _ List.mem_cons_self)) hle⟩

theorem structuralFolds_rule : WalkRule structuralFolds (Sound others) where
  refl _ := .refl
  trans _ _ _ h := h.trans
  linked _ _ h := ⟨h.linked, h.created⟩
  visit q block x q' hq hx h := by
    unfold structuralFolds at h
    split at h
    next fold hfold =>
      split at h
      next hstructural => exact call_sound _ hq hx rfl hfold hstructural h
      next =>
        obtain rfl := some.inj h
        exact .refl hq
    next =>
      obtain rfl := some.inj h
      exact .refl hq

theorem constantPropagation_rule : WalkRule constantPropagation fun q q' => q'.Linked ∧ q.created ≤ q'.created where
  refl _ hq := ⟨hq, Nat.le_refl _⟩
  trans _ _ _ h h' := ⟨h'.1, Nat.le_trans h.2 h'.2⟩
  linked _ _ h := h
  visit _ _ _ _ := constantPropagation_linked

theorem Wf.linked (hp : p.Wf) : p.Linked where
  valid := hp.valid
  fresh := hp.fresh
  slots u hphi i hi := hp.slots u i (Nat.le_trans (Inst.numArgs_le_six hphi) hi)
  placed := hp.placed
  exact x _ k := hp.exact.mem_iff x k

/-- The structural folds keep the values of all instructions that remain, whatever the values are of those
that compute nothing: each of them in any run of `ConstantPropagationPass`, on the program that the folds
before it leave, and all of them together. -/
theorem constantPropagationPass_structural (others : OtherMeanings) (hp : p.Linked) (program : List ℕ) :
    (∀ q block x fold q', p.ComesTo constantPropagation program q block x →
      Fold.of (q.insts x).op = some fold → fold.isStructural →
      q.constantPropagation block x = some q' → q.Sound others q') ∧
    ∀ p', p.walk structuralFolds program = some p' → p.Sound others p' := by
  constructor
  · intro q block x fold q' hcomes hfold hstructural h
    obtain ⟨-, hq, hx⟩ := constantPropagation_rule.comesTo hp hcomes
    unfold constantPropagation at h
    rw [hfold] at h
    exact call_sound _ hq hx rfl hfold hstructural h
  · intro p' h
    exact structuralFolds_rule.walk hp h

theorem constantPropagationPass_structural_sample : ∃ p q p' : Program,
    (p.insts 2).arg 1 = .inst 1 ∧ (p.insts 6).arg 0 = .inst 5 ∧
    p.constantPropagation 0 2 = some q ∧ p.Sound ⟨fun _ => none, rfl⟩ q ∧
    (q.insts 2).arg 0 = .inst 0 ∧ (q.insts 2).arg 1 = .imm (.u32 8) ∧ (q.insts 1).uses = [(3, 0)] ∧
    p.walk structuralFolds [0] = some p' ∧ p.Sound ⟨fun _ => none, rfl⟩ p' ∧
    (p'.insts 6).arg 0 = .inst 2 ∧ (p'.insts 5).op = .void := by
  have hstart : Runs LooksAt {} := .start rfl
  have hrun := hstart.ofGuarded (fun _ _ => looksAt_spec) [.prependNewInst 0 0 .getUserData [.imm (.scalarReg 0)] 0,
      .prependNewInst 0 1 IntegerOp.iAdd32.opcode [.inst 0, .imm (.u32 5)] 0,
      .prependNewInst 0 2 IntegerOp.iAdd32.opcode [.imm (.u32 3), .inst 1] 0,
      .prependNewInst 0 3 Composite.u32x2.construct [.inst 1, .inst 2] 0,
      .prependNewInst 0 4 Composite.u32x2.insert [.inst 3, .imm (.u32 7), .imm (.u32 0)] 0,
      .prependNewInst 0 5 Composite.u32x2.extract [.inst 4, .imm (.u32 1)] 0,
      .prependNewInst 0 6 .reference [.inst 5] 0] rfl
  obtain ⟨hstep, hwalk⟩ :=
    constantPropagationPass_structural ⟨fun _ => none, rfl⟩ (Runs.wf hrun).linked [0]
  refine ⟨_, _, _, rfl, rfl, rfl, hstep _ 0 2 .add _ ?_ rfl rfl rfl, rfl, rfl, rfl, rfl, hwalk _ rfl, rfl, rfl⟩
  exact ⟨[], [], [0, 1], [3, 4, 5, 6], _, rfl, rfl, rfl, rfl⟩

/-- Every run of the pass, with all its folds, keeps the uses: those of an instruction that is not an `Identity` are the
operands that refer to it, and no operand refers to an instruction that was not made. -/
theorem constantPropagationPass_uses (hp : p.Linked) (program : List ℕ)
    (h : p.constantPropagationPass program = some p') : p.created ≤ p'.created ∧
      (∀ x, (p'.insts x).op ≠ .identity → ∀ u i, (u, i) ∈ (p'.insts x).uses ↔ (p'.insts u).arg i = .inst x) ∧
      ∀ u i x, (p'.insts u).arg i = .inst x → x < p'.created := by
  obtain ⟨hp', hcreated⟩ := constantPropagation_rule.walk hp h
  have hrefs (u i x : ℕ) : p'.refs (u, i) = some x ↔ (p'.insts u).arg i = .inst x := by
    unfold refs
    cases (p'.insts u).arg i <;> simp [Value.inst?]
  exact ⟨hcreated, fun x hop u i => (hp'.exact x hop (u, i)).trans (hrefs u i x),
    fun u i x harg => hp'.valid (u, i) x ((hrefs u i x).mpr harg)⟩

/-- A product with one, and a sum of two immediates. -/
theorem constantPropagationPass_uses_sample : ∃ p p' : Program, Runs LooksAt p ∧
    p.constantPropagationPass [0] = some p' ∧ (p.insts 1).uses = [(2, 0)] ∧ (2, 0) ∈ (p'.insts 0).uses := by
  have hstart : Runs LooksAt {} := .start rfl
  have hrun := hstart.ofGuarded (fun _ _ => looksAt_spec)
    [.prependNewInst 0 0 .getUserData [.imm (.scalarReg 0)] 0,
      .prependNewInst 0 1 IntegerOp.iMul32.opcode [.inst 0, .imm (.u32 1)] 0,
      .prependNewInst 0 2 .reference [.inst 1] 0] rfl
  have hpass := constantPropagationPass_uses (Runs.wf hrun).linked [0] rfl
  exact ⟨_, _, hrun, rfl, rfl, (hpass.2.1 0 (by decide) 2 0).mpr rfl⟩

end Program

end ShadPS4.IR
