import ShadPS4.IR.Passes
import ShadPS4.Lib.References
import ShadPS4.Lib.Transition

/-!
# The uses are exact

The uses of each instruction are the operands that refer to it, each once.
-/

namespace ShadPS4.IR

open Function List
open Option (some.inj bind_eq_some_iff)

variable {inst : Inst}

/-! ## Instructions but for their uses -/

namespace Inst

variable {a b : Inst}

/-- Two instructions are the same but for their uses. -/
structure Alike (a b : Inst) : Prop where
  op : b.op = a.op
  flags : b.flags = a.flags
  args : b.args = a.args
  phi_args : b.phi_args = a.phi_args

theorem Alike.refl (a : Inst) : Alike a a := ⟨rfl, rfl, rfl, rfl⟩

theorem Alike.trans (h : Alike a b) (h' : Alike b c) : Alike a c where
  op := h'.op.trans h.op
  flags := h'.flags.trans h.flags
  args := h'.args.trans h.args
  phi_args := h'.phi_args.trans h.phi_args

theorem Alike.arg_eq (h : Alike a b) (i : ℕ) : b.arg i = a.arg i := by
  unfold arg
  rw [h.op, h.args, h.phi_args]

theorem Alike.numArgs_eq (h : Alike a b) : b.numArgs = a.numArgs := by
  unfold numArgs
  rw [h.op, h.phi_args]

theorem Alike.store (h : Alike a b) (index : ℕ) (value : Value) :
    Alike (a.store index value) (b.store index value) := by
  unfold Inst.store
  rw [h.op, h.args, h.phi_args]
  split
  · exact ⟨rfl, h.flags, rfl, rfl⟩
  · exact ⟨rfl, h.flags, rfl, rfl⟩

theorem Alike.clear (h : Alike a b) : Alike a.clear b.clear := by
  unfold Inst.clear
  rw [h.op]
  split
  · exact ⟨rfl, h.flags, h.args, rfl⟩
  · exact ⟨rfl, h.flags, rfl, h.phi_args⟩

theorem Alike.become (h : Alike a b) (opcode : Opcode) : Alike (a.become opcode) (b.become opcode) := by
  unfold Inst.become
  rw [h.op]
  split
  · exact ⟨rfl, h.flags, rfl, rfl⟩
  · exact ⟨rfl, h.flags, h.args, h.phi_args⟩

@[simp] theorem store_op (inst : Inst) (index : ℕ) (value : Value) : (inst.store index value).op = inst.op := by
  unfold store
  split <;> rfl

@[simp] theorem store_uses (inst : Inst) (index : ℕ) (value : Value) : (inst.store index value).uses = inst.uses := by
  unfold store
  split <;> rfl

@[simp] theorem store_numArgs (inst : Inst) (index : ℕ) (value : Value) :
    (inst.store index value).numArgs = inst.numArgs := by
  unfold numArgs
  rw [store_op]
  split
  next hop =>
    unfold store
    rw [if_pos hop]
    exact length_modify ..
  next => rfl

theorem store_arg (h : index < inst.numArgs) (value : Value) (i : ℕ) :
    (inst.store index value).arg i = if i = index then value else inst.arg i := by
  unfold arg
  rw [store_op]
  split
  next hop =>
    unfold numArgs at h
    rw [if_pos hop] at h
    unfold store
    rw [if_pos hop]
    rw [getElem?_modify]
    split
    next heq =>
      subst heq
      rw [if_pos rfl, getElem?_eq_getElem h]
      rfl
    next hne =>
      rw [if_neg (Ne.symm hne), id_map']
  next hop =>
    unfold store
    rw [if_neg hop]
    exact update_apply inst.args index value i

theorem emplaceBack_arg (h : inst.op = .phi) (predecessor : ℕ) (value : Value) (i : ℕ) :
    (inst.emplaceBack predecessor value).arg i = if i = inst.numArgs then value else inst.arg i := by
  unfold emplaceBack arg numArgs
  rw [if_pos h, if_pos h, if_pos h]
  rcases Nat.lt_trichotomy i inst.phi_args.length with hi | rfl | hi
  · rw [if_neg (by omega), getElem?_append_left hi]
  · rw [if_pos rfl, getElem?_concat_length]
    rfl
  · rw [if_neg (by omega), getElem?_eq_none (by simp; omega),
      getElem?_eq_none (by omega)]

section

variable (inst : Inst)

@[simp] theorem clear_arg (i : ℕ) : inst.clear.arg i = .void := by
  unfold clear arg
  split
  next => rfl
  next => rfl

@[simp] theorem clear_op : inst.clear.op = inst.op := by
  unfold clear
  split <;> rfl

@[simp] theorem clear_uses : inst.clear.uses = inst.uses := by
  unfold clear
  split <;> rfl

@[simp] theorem become_op (opcode : Opcode) : (inst.become opcode).op = opcode := by
  unfold become
  split <;> rfl

@[simp] theorem become_uses (opcode : Opcode) : (inst.become opcode).uses = inst.uses := by
  unfold become
  split <;> rfl

end

theorem become_arg (hphi : opcode ≠ .phi)
    (h : ∀ i, inst.arg i = .void) (i : ℕ) : (inst.become opcode).arg i = .void := by
  unfold arg
  unfold become
  split
  next => rfl
  next hop =>
    have hi := h i
    unfold arg at hi
    rw [if_neg hop] at hi
    exact hi

theorem numArgs_le_six (h : inst.op ≠ .phi) : inst.numArgs ≤ 6 := by
  unfold numArgs
  rw [if_neg h]
  unfold Opcode.numArgs
  split <;> omega

end Inst

namespace Program

variable {p p' q : Program} {u index x block : ℕ} {value : Value}

/-! ## References and users -/

/-- The instruction that an operand refers to. -/
def refs (p : Program) (k : ℕ × ℕ) : Option ℕ := ((p.insts k.1).arg k.2).inst?

def users (p : Program) (x : ℕ) : List (ℕ × ℕ) := (p.insts x).uses

/-- What holds of the operands and the blocks between the steps. -/
structure Shaped (p : Program) : Prop where
  valid : ∀ k x, p.refs k = some x → x < p.created
  slots : ∀ u i, (p.insts u).numArgs ≤ i → (p.insts u).arg i = .void
  fresh : ∀ u, p.created ≤ u → ∀ i, (p.insts u).arg i = .void
  nodup : ∀ b, (p.blocks b).Nodup
  parent : ∀ b b' x, x ∈ p.blocks b → x ∈ p.blocks b' → b = b'
  placed : ∀ b x, x ∈ p.blocks b → x < p.created

/-- What holds of a program between the steps. -/
structure Wf (p : Program) : Prop extends p.Shaped where
  exact : Referenced p.refs p.users

/-- Nothing changes but the uses. -/
structure SameArgs (p p' : Program) : Prop where
  created : p'.created = p.created
  blocks : p'.blocks = p.blocks
  insts : ∀ w, (p.insts w).Alike (p'.insts w)

theorem SameArgs.refl : p.SameArgs p := ⟨rfl, rfl, fun _ => .refl _⟩

theorem SameArgs.trans (h : p.SameArgs p') (h' : p'.SameArgs q) : p.SameArgs q where
  created := h'.created.trans h.created
  blocks := h'.blocks.trans h.blocks
  insts w := (h.insts w).trans (h'.insts w)

theorem SameArgs.setInst (h : p.SameArgs q) (hab : a.Alike b) (u : ℕ) : (p.setInst u a).SameArgs (q.setInst u b) := by
  refine ⟨h.created, h.blocks, fun w => ?_⟩
  show (update p.insts u a w).Alike (update q.insts u b w)
  rcases eq_or_ne w u with rfl | hw
  · rw [update_self, update_self]
    exact hab
  · rw [update_of_ne hw, update_of_ne hw]
    exact h.insts w

theorem SameArgs.refs (h : p.SameArgs p') : p'.refs = p.refs := by
  funext k
  unfold Program.refs
  rw [(h.insts k.1).arg_eq]

theorem SameArgs.shaped (h : p.SameArgs p') (hs : p.Shaped) : p'.Shaped where
  valid k x hk := by
    rw [h.refs] at hk
    rw [h.created]
    exact hs.valid k x hk
  slots w i hi := by
    rw [(h.insts w).numArgs_eq] at hi
    rw [(h.insts w).arg_eq]
    exact hs.slots w i hi
  fresh w hw i := by
    rw [h.created] at hw
    rw [(h.insts w).arg_eq]
    exact hs.fresh w hw i
  nodup b := by
    rw [h.blocks]
    exact hs.nodup b
  parent b b' x := by
    rw [h.blocks]
    exact hs.parent b b' x
  placed b x := by
    rw [h.blocks, h.created]
    exact hs.placed b x

theorem setUses_same (p : Program) (x : ℕ) (uses : List (ℕ × ℕ)) :
    p.SameArgs (p.setInst x { p.insts x with uses }) := by
  refine ⟨rfl, rfl, fun w => ?_⟩
  show (p.insts w).Alike (update p.insts x _ w)
  rcases eq_or_ne w x with rfl | hw
  · rw [update_self]
    exact ⟨rfl, rfl, rfl, rfl⟩
  · rw [update_of_ne hw]
    exact .refl _

theorem setUses_users (p : Program) (x : ℕ) (uses : List (ℕ × ℕ)) :
    (p.setInst x { p.insts x with uses }).users = update p.users x uses := by
  funext w
  show (update p.insts x _ w).uses = _
  rcases eq_or_ne w x with rfl | hw
  · rw [update_self, update_self]
  · rw [update_of_ne hw, update_of_ne hw]
    rfl

theorem setInst_users (h : inst.uses = (p.insts u).uses) : (p.setInst u inst).users = p.users := by
  funext w
  show (update p.insts u inst w).uses = (p.insts w).uses
  rcases eq_or_ne w u with rfl | hw
  · rw [update_self]
    exact h
  · rw [update_of_ne hw]

theorem setInst_refs (p : Program) (u : ℕ) (inst : Inst) (k : ℕ × ℕ) :
    (p.setInst u inst).refs k = if k.1 = u then (inst.arg k.2).inst? else p.refs k := by
  show ((update p.insts u inst k.1).arg k.2).inst? = _
  split
  next h => rw [h, update_self]
  next h =>
    rw [update_of_ne h]
    rfl

theorem Shaped.setInst (h : p.Shaped) (hvalid : ∀ i x, (inst.arg i).inst? = some x → x < p.created)
    (hslots : ∀ i, inst.numArgs ≤ i → inst.arg i = .void)
    (hfresh : p.created ≤ u → ∀ i, inst.arg i = .void) : (p.setInst u inst).Shaped where
  valid k x hk := by
    rw [setInst_refs] at hk
    split at hk
    · exact hvalid k.2 x hk
    · exact h.valid k x hk
  slots w i hi := by
    rcases eq_or_ne w u with rfl | hw
    · show (update p.insts w inst w).arg i = .void
      change (update p.insts w inst w).numArgs ≤ i at hi
      rw [update_self] at hi ⊢
      exact hslots i hi
    · show (update p.insts u inst w).arg i = .void
      change (update p.insts u inst w).numArgs ≤ i at hi
      rw [update_of_ne hw] at hi ⊢
      exact h.slots w i hi
  fresh w hcreated i := by
    show (update p.insts u inst w).arg i = .void
    rcases eq_or_ne w u with rfl | hw
    · rw [update_self]
      exact hfresh hcreated i
    · rw [update_of_ne hw]
      exact h.fresh w hcreated i
  nodup := h.nodup
  parent := h.parent
  placed := h.placed

theorem unlessImmediate_spec (h : p.unlessImmediate value change = some p')
    (hchange : ∀ x, (change x).looked_through = p.looked_through) (hlooked : p'.looked_through = false) :
    p.looked_through = false ∧ ((value.inst? = none ∧ p' = p) ∨ ∃ x, value = .inst x ∧ p' = change x) := by
  obtain ⟨immediate, -, h⟩ := bind_eq_some_iff.mp h
  cases immediate with
  | true =>
    obtain rfl := some.inj h
    obtain ⟨hp, hvalue⟩ := Bool.or_eq_false_iff.mp hlooked
    have hnone : value.inst? = none := Option.isSome_eq_false_iff.mp hvalue |> Option.isNone_iff_eq_none.mp
    refine ⟨hp, .inl ⟨hnone, ?_⟩⟩
    rw [hvalue, Bool.or_false]
  | false =>
    cases value with
    | inst x =>
      obtain rfl := some.inj h
      exact ⟨(hchange x).symm.trans hlooked, .inr ⟨x, rfl, rfl⟩⟩
    | void => cases h
    | imm value => cases h

theorem undoUse_spec (h : p.unlessImmediate value (fun used => p.undoUse used u index) = some p')
    (hlooked : p'.looked_through = false) :
    p.looked_through = false ∧ p.SameArgs p' ∧ ∀ ref : ℕ × ℕ → Option ℕ, Referenced ref p.users →
      ref (u, index) = value.inst? → Referenced (update ref (u, index) none) p'.users := by
  obtain ⟨hp, ⟨hnone, rfl⟩ | ⟨x, rfl, rfl⟩⟩ := unlessImmediate_spec h (fun _ => rfl) hlooked
  · refine ⟨hp, .refl, fun ref href hk => ?_⟩
    rw [← hnone, ← hk, update_eq_self]
    exact href
  · refine ⟨hp, setUses_same p x _, fun ref href hk => ?_⟩
    unfold undoUse
    rw [setUses_users]
    exact href.unlink hk

theorem use_spec (h : p.unlessImmediate value (fun used => p.use used u index) = some p')
    (hlooked : p'.looked_through = false) :
    p.looked_through = false ∧ p.SameArgs p' ∧ ∀ ref : ℕ × ℕ → Option ℕ, Referenced ref p.users →
      ref (u, index) = none → Referenced (update ref (u, index) value.inst?) p'.users := by
  obtain ⟨hp, ⟨hnone, rfl⟩ | ⟨x, rfl, rfl⟩⟩ := unlessImmediate_spec h (fun _ => rfl) hlooked
  · refine ⟨hp, .refl, fun ref href hk => ?_⟩
    rw [hnone, ← hk, update_eq_self]
    exact href
  · refine ⟨hp, setUses_same p x _, fun ref href hk => ?_⟩
    unfold use
    rw [setUses_users]
    exact href.link x hk

theorem setArg_spec (h : p.setArg u index value = some p') (hlooked : p'.looked_through = false) :
    p.looked_through = false ∧ index < (p.insts u).numArgs ∧
      (p.setInst u ((p.insts u).store index value)).SameArgs p' ∧
      (Referenced p.refs p.users → Referenced p'.refs p'.users) := by
  unfold setArg at h
  split at h
  next => cases h
  next hindex =>
    obtain ⟨p1, h1, h⟩ := bind_eq_some_iff.mp h
    obtain ⟨p2, h2, h⟩ := bind_eq_some_iff.mp h
    obtain rfl := some.inj h
    obtain ⟨hlooked1, hsame2, hmade⟩ := use_spec h2 hlooked
    obtain ⟨hp, hsame1, hdropped⟩ := undoUse_spec h1 hlooked1
    have hlt : index < (p.insts u).numArgs := Nat.lt_of_not_ge hindex
    have hsame := hsame1.trans hsame2
    have hstored := hsame.setInst ((hsame.insts u).store index value) u
    refine ⟨hp, hlt, hstored, fun hexact => ?_⟩
    have hrefs : (p.setInst u ((p.insts u).store index value)).refs =
        update p.refs (u, index) value.inst? := by
      funext k
      rw [setInst_refs]
      rcases eq_or_ne k (u, index) with rfl | hk
      · rw [if_pos rfl, Inst.store_arg hlt, if_pos rfl, update_self]
      · rw [update_of_ne hk]
        split
        next hu =>
          have hi : k.2 ≠ index := fun hi => hk (Prod.ext hu hi)
          rw [Inst.store_arg hlt, if_neg hi, ← hu]
          rfl
        next => rfl
    rw [hstored.refs, hrefs, setInst_users (Inst.store_uses ..)]
    have hgone := hdropped p.refs hexact rfl
    have hdone := hmade _ hgone (update_self ..)
    rw [update_idem] at hdone
    exact hdone

theorem Wf.setArg (hp : p.Wf) (h : p.setArg u index value = some p')
    (hlooked : p'.looked_through = false) (hu : u < p.created) (hvalue : p.Valid value) : p'.Wf := by
  obtain ⟨-, hlt, hsame, hexact⟩ := setArg_spec h hlooked
  refine ⟨hsame.shaped (hp.toShaped.setInst ?_ ?_ fun hcreated => ?_), hexact hp.exact⟩
  · intro i x hx
    rw [Inst.store_arg hlt] at hx
    split at hx
    · exact hvalue x hx
    · exact hp.valid (u, i) x hx
  · intro i hi
    rw [Inst.store_numArgs] at hi
    rw [Inst.store_arg hlt, if_neg (by omega)]
    exact hp.slots u i hi
  · omega

theorem addPhiOperand_spec (h : p.addPhiOperand u predecessor value = some p') (hlooked : p'.looked_through = false) :
    p.looked_through = false ∧ (p.Wf → u < p.created → p.Valid value → p'.Wf) := by
  unfold addPhiOperand at h
  split at h
  next => cases h
  next hop =>
    obtain ⟨p1, h1, h⟩ := bind_eq_some_iff.mp h
    obtain rfl := some.inj h
    obtain ⟨hlooked1, hsame, hmade⟩ := use_spec h1 hlooked
    refine ⟨hlooked1, fun hp hu hvalue => ?_⟩
    have hphi : (p.insts u).op = .phi := not_not.mp hop
    have hphi1 : (p1.insts u).op = .phi := (hsame.insts u).op.trans hphi
    have hlength : (p.insts u).phi_args.length = (p.insts u).numArgs := by
      unfold Inst.numArgs
      rw [if_pos hphi]
    have hp1 : p1.Shaped := hsame.shaped hp.toShaped
    -- The operand that is added was none before.
    have hnone : p.refs (u, (p.insts u).phi_args.length) = none := by
      unfold refs
      rw [hp.slots u _ (by omega)]
      rfl
    have hnumArgs : (p1.insts u).numArgs = (p.insts u).numArgs := (hsame.insts u).numArgs_eq
    constructor
    case toShaped =>
      apply hp1.setInst
      · intro i x hx
        rw [Inst.emplaceBack_arg hphi1] at hx
        split at hx
        · rw [hsame.created]
          exact hvalue x hx
        · exact hp1.valid (u, i) x hx
      · intro i hi
        unfold Inst.emplaceBack Inst.numArgs at hi
        rw [if_pos hphi1, length_append, length_singleton] at hi
        have hnum : (p1.insts u).numArgs = (p1.insts u).phi_args.length := by
          unfold Inst.numArgs
          rw [if_pos hphi1]
        rw [Inst.emplaceBack_arg hphi1, if_neg (by omega)]
        exact hp1.slots u i (by omega)
      · intro hcreated
        rw [hsame.created] at hcreated
        omega
    case exact =>
      have hdone := hmade p.refs hp.exact hnone
      rw [show (p1.setInst u ((p1.insts u).emplaceBack predecessor value)).users = p1.users from
        setInst_users rfl]
      convert hdone using 1
      funext k
      rw [setInst_refs]
      rcases eq_or_ne k (u, (p.insts u).phi_args.length) with rfl | hk
      · rw [if_pos rfl, Inst.emplaceBack_arg hphi1, hnumArgs, if_pos hlength, update_self]
      · rw [update_of_ne hk, hsame.refs]
        split
        next hu =>
          have hi : k.2 ≠ (p1.insts u).numArgs := fun hi =>
            hk (Prod.ext hu (by rw [hi, hnumArgs, hlength]))
          rw [Inst.emplaceBack_arg hphi1, if_neg hi, (hsame.insts u).arg_eq, ← hu]
          rfl
        next => rfl

/-! ## `ClearArgs` and `Invalidate` -/

/-- The references without the operands of an instruction that the loop of `ClearArgs` has left behind. -/
def leftRefs (p : Program) (u : ℕ) (rest : List ℕ) (k : ℕ × ℕ) : Option ℕ :=
  if k.1 = u ∧ k.2 ∉ rest then none else p.refs k

theorem leftRefs_cons (hindex : index ∉ rest) :
    p.leftRefs u rest = update (p.leftRefs u (index :: rest)) (u, index) none := by
  funext k
  rcases eq_or_ne k (u, index) with rfl | hk
  · rw [update_self]
    exact if_pos ⟨rfl, hindex⟩
  · rw [update_of_ne hk]
    have hiff : (k.1 = u ∧ k.2 ∉ rest) ↔ (k.1 = u ∧ k.2 ∉ index :: rest) := by
      rw [mem_cons, not_or]
      refine and_congr_right fun hu => ?_
      exact (and_iff_right fun hi => hk (Prod.ext hu hi)).symm
    exact if_congr hiff rfl rfl

theorem clearUses_spec (h : indices.foldlM (clearUses u) p = some p')
    (hlooked : p'.looked_through = false) (hnodup : indices.Nodup) : p.looked_through = false ∧ p.SameArgs p' ∧
      (Referenced (p.leftRefs u indices) p.users → Referenced (p.leftRefs u []) p'.users) := by
  obtain ⟨hp, hloop⟩ := foldlM_keeps (c := fun q => q.looked_through = false)
    (I := fun rest q => rest.Nodup ∧ p.SameArgs q ∧
      (Referenced (p.leftRefs u indices) p.users → Referenced (p.leftRefs u rest) q.users))
    (fun index rest q q' hq' hclean => by
      obtain ⟨hq, hsame', hdropped⟩ := undoUse_spec hq' hclean
      refine ⟨hq, fun ⟨hnodup, hsame, hexact⟩ => ⟨hnodup.of_cons, hsame.trans hsame', fun href => ?_⟩⟩
      rw [leftRefs_cons (nodup_cons.mp hnodup).1]
      apply hdropped _ (hexact href)
      rw [(hsame.insts u).arg_eq]
      exact if_neg fun hand => hand.2 mem_cons_self)
    h hlooked
  exact ⟨hp, (hloop ⟨hnodup, .refl, id⟩).2⟩

theorem clearArgs_spec (h : p.clearArgs u = some p') (hlooked : p'.looked_through = false) :
    p.looked_through = false ∧ (p.setInst u (p.insts u).clear).SameArgs p' ∧ (p.Wf → p'.Wf) := by
  obtain ⟨p1, h1, h⟩ := bind_eq_some_iff.mp h
  obtain rfl := some.inj h
  obtain ⟨hp, hsame, hdropped⟩ := clearUses_spec h1 hlooked nodup_range
  have hcleared := hsame.setInst (hsame.insts u).clear u
  refine ⟨hp, hcleared, fun hwf => ?_⟩
  constructor
  case toShaped =>
    apply hcleared.shaped
    apply hwf.toShaped.setInst
    · intro i x hx
      rw [Inst.clear_arg] at hx
      cases hx
    · exact fun i _ => Inst.clear_arg ..
    · exact fun _ i => Inst.clear_arg ..
  case exact =>
    rw [hcleared.refs, setInst_users (Inst.clear_uses _)]
    convert hdropped ?_ using 1
    · funext k
      rw [setInst_refs, Inst.clear_arg]
      exact if_congr (and_iff_left not_mem_nil).symm rfl rfl
    · -- The loop goes over every operand that there is.
      convert hwf.exact using 1
      funext k
      refine ite_eq_right_iff.mpr fun ⟨hu, hk⟩ => ?_
      rw [mem_range, Nat.not_lt] at hk
      have hsize : (p.insts u).numArgs ≤ k.2 := by
        split at hk
        next hop =>
          unfold Inst.numArgs
          rwa [if_pos hop]
        next hop => exact Nat.le_trans (Inst.numArgs_le_six hop) hk
      unfold refs
      rw [hu, hwf.slots u k.2 hsize]
      rfl

theorem replaceOpcode_spec (h : p.replaceOpcode u opcode = some p') :
    p' = p.setInst u ((p.insts u).become opcode) ∧ (p.Wf → (∀ i, (p.insts u).arg i = .void) → p'.Wf) := by
  unfold replaceOpcode at h
  split at h
  next => cases h
  next hphi =>
    obtain rfl := some.inj h
    refine ⟨rfl, fun hwf hvoid => ?_⟩
    have hvoid' := Inst.become_arg hphi hvoid
    constructor
    case toShaped =>
      apply hwf.toShaped.setInst
      · intro i x hx
        rw [hvoid'] at hx
        cases hx
      · exact fun i _ => hvoid' i
      · exact fun _ => hvoid'
    case exact =>
      rw [setInst_users (Inst.become_uses ..)]
      convert hwf.exact using 1
      funext k
      rw [setInst_refs, hvoid']
      refine ite_eq_right_iff.mpr fun hu => ?_
      unfold refs
      rw [hu, hvoid]

theorem invalidate_spec (h : p.invalidate u = some p') (hlooked : p'.looked_through = false) :
    p.looked_through = false ∧ (p.setInst u ((p.insts u).clear.become .void)).SameArgs p' ∧ (p.Wf → p'.Wf) := by
  obtain ⟨p1, h1, h⟩ := bind_eq_some_iff.mp h
  obtain ⟨rfl, hreplaced⟩ := replaceOpcode_spec h
  obtain ⟨hp, hcleared, hwf⟩ := clearArgs_spec h1 hlooked
  have hself : (p.setInst u (p.insts u).clear).insts u = (p.insts u).clear := update_self ..
  have halike := hcleared.insts u
  rw [hself] at halike
  refine ⟨hp, ?_, fun hp => hreplaced (hwf hp) fun i => ?_⟩
  · have hdone := hcleared.setInst (halike.become .void) u
    have htwice : (p.setInst u (p.insts u).clear).setInst u ((p.insts u).clear.become .void) =
        p.setInst u ((p.insts u).clear.become .void) := by
      unfold setInst
      rw [update_idem]
    rw [htwice] at hdone
    exact hdone
  · rw [halike.arg_eq, Inst.clear_arg]

theorem setArg_created (h : p.setArg u index value = some p') (hlooked : p'.looked_through = false) :
    p'.created = p.created := (setArg_spec h hlooked).2.2.1.created

theorem invalidate_arg (h : p.invalidate u = some p') (hlooked : p'.looked_through = false) (i : ℕ) :
    (p'.insts u).arg i = .void := by
  obtain ⟨-, hsame, -⟩ := invalidate_spec h hlooked
  have hself : (p.setInst u ((p.insts u).clear.become .void)).insts u =
      (p.insts u).clear.become .void := update_self ..
  rw [(hsame.insts u).arg_eq, hself]
  exact Inst.become_arg (fun hphi => by cases hphi) (Inst.clear_arg _) i

theorem Shaped.user_lt (hp : p.Shaped) (hk : p.refs k = some x) : k.1 < p.created := by
  by_contra hcreated
  unfold refs at hk
  rw [hp.fresh k.1 (Nat.le_of_not_lt hcreated)] at hk
  cases hk

theorem replaceUsesWith_spec (h : p.replaceUsesWith x value preserve = some p')
    (hlooked : p'.looked_through = false) :
    p.looked_through = false ∧ (p.Wf → x < p.created → p.Valid value → p'.Wf) := by
  obtain ⟨p1, h1, h⟩ := bind_eq_some_iff.mp h
  obtain ⟨p2, h2, h⟩ := bind_eq_some_iff.mp h
  -- The operands that referred to the instruction are replaced.
  have hloop (hlooked1 : p1.looked_through = false) := foldlM_keeps (c := fun q => q.looked_through = false)
    (I := fun rest q => (∀ use ∈ rest, use.1 < p.created) ∧ p.Valid value ∧
      q.created = p.created ∧ q.Wf)
    (fun use rest q q' hq' hclean => by
      refine ⟨(setArg_spec hq' hclean).1, fun ⟨huses, hvalue, hcreated, hq⟩ => ?_⟩
      have huse : use.1 < q.created := hcreated ▸ huses use mem_cons_self
      have hvalid : q.Valid value := fun y hy => hcreated ▸ hvalue y hy
      exact ⟨fun use' h' => huses use' (mem_cons_of_mem _ h'), hvalue,
        (setArg_created hq' hclean).trans hcreated, hq.setArg hq' hclean huse hvalid⟩)
    h1 hlooked1
  have hstart (hp : p.Wf) (use : ℕ × ℕ) (huse : use ∈ (p.insts x).uses) : use.1 < p.created :=
    hp.user_lt ((hp.exact.mem_iff x use).mp huse)
  split at h
  next =>
    obtain ⟨p3, h3, h⟩ := bind_eq_some_iff.mp h
    obtain ⟨hlooked3, hindex, -⟩ := setArg_spec h hlooked
    obtain ⟨rfl, hreplaced⟩ := replaceOpcode_spec h3
    obtain ⟨hlooked1, hsame, hinvalid⟩ := invalidate_spec h2 hlooked3
    obtain ⟨hlooked0, hkeep⟩ := hloop hlooked1
    refine ⟨hlooked0, fun hp hx hvalue => ?_⟩
    obtain ⟨-, -, hcreated, hp1⟩ := hkeep ⟨hstart hp, hvalue, rfl, hp⟩
    have hcreated2 : p2.created = p.created := hsame.created.trans hcreated
    have hp3 := hreplaced (hinvalid hp1) (invalidate_arg h2 hlooked3)
    apply hp3.setArg h hlooked
    · exact hcreated2 ▸ hx
    · exact fun y hy => hcreated2 ▸ hvalue y hy
  next =>
    obtain rfl := some.inj h
    obtain ⟨hlooked1, -, hinvalid⟩ := invalidate_spec h2 hlooked
    obtain ⟨hlooked0, hkeep⟩ := hloop hlooked1
    exact ⟨hlooked0, fun hp hx hvalue => hinvalid (hkeep ⟨hstart hp, hvalue, rfl, hp⟩).2.2.2⟩

/-! ## `PrependNewInst` -/

theorem new_arg (op : Opcode) (flags i : ℕ) : ({ op, flags } : Inst).arg i = .void := by
  unfold Inst.arg
  split <;> rfl

theorem Wf.setNew (hp : p.Wf) (op : Opcode) (flags : ℕ) : (p.setInst p.created { op, flags }).Wf := by
  constructor
  case toShaped =>
    apply hp.toShaped.setInst
    · intro i x hx
      rw [new_arg] at hx
      cases hx
    · exact fun i _ => new_arg op flags i
    · exact fun _ => new_arg op flags
  case exact =>
    have hunused : (p.insts p.created).uses = [] := by
      apply hp.exact.eq_nil
      intro k hk
      exact Nat.lt_irrefl _ (hp.valid k _ hk)
    rw [setInst_users hunused.symm]
    convert hp.exact using 1
    funext k
    rw [setInst_refs, new_arg]
    refine ite_eq_right_iff.mpr fun hu => ?_
    unfold refs
    rw [hu, hp.fresh _ (Nat.le_refl _)]

theorem Wf.create (hp : p.Wf)
    (hpoint : insertion_point ≤ (p.blocks block).length) : Wf { p.setInst p.created { op, flags } with
      created := p.created + 1
      blocks := update p.blocks block
        ((p.blocks block).insertIdx insertion_point p.created) } := by
  have hnew := hp.setNew op flags
  have hnotin (b : ℕ) : p.created ∉ p.blocks b := fun hin => Nat.lt_irrefl _ (hp.placed b _ hin)
  have hmem (b y : ℕ) : y ∈ update p.blocks block ((p.blocks block).insertIdx insertion_point p.created) b ↔
      (y = p.created ∧ b = block) ∨ y ∈ p.blocks b := by
    rcases eq_or_ne b block with rfl | hb
    · rw [update_self, mem_insertIdx hpoint, and_iff_left rfl]
    · rw [update_of_ne hb]
      exact (or_iff_right fun hand => hb hand.2).symm
  constructor
  case toShaped =>
    constructor
    case valid => exact fun k y hk => Nat.lt_succ_of_lt (hnew.valid k y hk)
    case slots => exact hnew.slots
    case fresh => exact fun w hw => hnew.fresh w (Nat.le_of_succ_le hw)
    case nodup =>
      intro b
      show (update p.blocks block _ b).Nodup
      rcases eq_or_ne b block with rfl | hb
      · rw [update_self, (perm_insertIdx _ _ hpoint).nodup_iff]
        exact (hp.nodup b).cons (hnotin b)
      · rw [update_of_ne hb]
        exact hp.nodup b
    case parent =>
      intro b b' y hy hy'
      rcases (hmem b y).mp hy with ⟨hnew, hb⟩ | hold
      · rcases (hmem b' y).mp hy' with ⟨-, hb'⟩ | hold'
        · exact hb.trans hb'.symm
        · exact absurd (hnew ▸ hold') (hnotin b')
      · rcases (hmem b' y).mp hy' with ⟨hnew, -⟩ | hold'
        · exact absurd (hnew ▸ hold) (hnotin b)
        · exact hp.parent b b' y hold hold'
    case placed =>
      intro b y hy
      rcases (hmem b y).mp hy with ⟨rfl, -⟩ | hy
      · exact Nat.lt_succ_self _
      · exact Nat.lt_succ_of_lt (hp.placed b y hy)
  case exact => exact hnew.exact

theorem prependNewInst_spec
    (h : p.prependNewInst block insertion_point op args flags = some p') (hlooked : p'.looked_through = false) :
    p.looked_through = false ∧ (p.Wf → insertion_point ≤ (p.blocks block).length →
      (∀ value ∈ args, p.Valid value) → p'.Wf) := by
  unfold prependNewInst at h
  split at h
  next => cases h
  next =>
    obtain ⟨hlooked1, hkeep⟩ := foldlM_keeps (c := fun q => q.looked_through = false)
      (I := fun rest q => (∀ arg ∈ rest, p.Valid arg.1) ∧ q.created = p.created + 1 ∧ q.Wf)
      (fun arg rest q q' hq' hclean => by
        refine ⟨(setArg_spec hq' hclean).1, fun ⟨hvalues, hcreated, hq⟩ => ?_⟩
        have hvalid : q.Valid arg.1 := fun y hy =>
          hcreated ▸ Nat.lt_succ_of_lt (hvalues arg mem_cons_self y hy)
        exact ⟨fun arg' h' => hvalues arg' (mem_cons_of_mem _ h'),
          (setArg_created hq' hclean).trans hcreated, hq.setArg hq' hclean (by omega) hvalid⟩)
      h hlooked
    refine ⟨hlooked1, fun hp hpoint hvalues => (hkeep ⟨fun arg harg => ?_, rfl, hp.create hpoint⟩).2.2⟩
    exact hvalues arg.1 (fst_mem_of_mem_zipIdx harg)

end Program

end ShadPS4.IR
