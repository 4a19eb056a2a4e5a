import ShadPS4.IR.PassesSpec

/-!
# Runs of the intermediate representation

A program is built and changed by the functions of the instructions, and by the passes.
-/

namespace ShadPS4.IR

namespace Program

variable {p p' : Program} {blocks : List ℕ}

theorem Wf.step (hp : p.Wf) (h : p.step o = some p') (hlooked : p'.looked_through = false) : p'.Wf := by
  cases o with
  | prependNewInst block insertion_point op args flags =>
    obtain ⟨⟨hpoint, hvalues⟩, h⟩ := Option.ite_none_right_eq_some.mp h
    exact (prependNewInst_spec h hlooked).2 hp hpoint hvalues
  | setArg u index value =>
    obtain ⟨⟨hu, hvalue⟩, h⟩ := Option.ite_none_right_eq_some.mp h
    exact hp.setArg h hlooked hu hvalue
  | addPhiOperand u predecessor value =>
    obtain ⟨⟨hu, hvalue⟩, h⟩ := Option.ite_none_right_eq_some.mp h
    exact (addPhiOperand_spec h hlooked).2 hp hu hvalue
  | clearArgs u =>
    obtain ⟨-, h⟩ := Option.ite_none_right_eq_some.mp h
    exact (clearArgs_spec h hlooked).2.2 hp
  | invalidate u =>
    obtain ⟨-, h⟩ := Option.ite_none_right_eq_some.mp h
    exact (invalidate_spec h hlooked).2.2 hp
  | replaceUsesWith x replacement preserve =>
    obtain ⟨⟨hx, hvalue⟩, h⟩ := Option.ite_none_right_eq_some.mp h
    exact (replaceUsesWith_spec h hlooked).2 hp hx hvalue
  | deadCodeElimination post_order_blocks =>
    exact (deadCodeElimination_eliminating hp h hlooked).2.wf
  | identityRemoval blocks => exact ((identityRemoval_spec h hlooked).2 hp).1

theorem empty_wf : Wf {} where
  valid k x hk := by cases hk
  slots u i _ := rfl
  fresh u _ i := rfl
  nodup b := List.nodup_nil
  parent b b' x hx := (List.not_mem_nil hx).elim
  placed b x hx := (List.not_mem_nil hx).elim
  exact := ⟨fun x => List.nodup_nil, fun x k => iff_of_false List.not_mem_nil fun hk => by cases hk⟩

/-- The runs from the empty program, in which each step meets a guard. -/
def Runs (guard : Program → IROp → Prop) : Program → Prop :=
  Run (· = {}) (fun p o p' => p.step o = some p') guard

/-- A step takes no operand that is an `Identity` for an immediate. -/
def LooksAt (p : Program) (o : IROp) : Prop := ∀ p', p.step o = some p' → p'.looked_through = false

theorem Runs.wf (h : Runs LooksAt p) : p.Wf := by
  apply Run.invariant h
  · rintro _ rfl
    exact empty_wf
  · exact fun _ _ _ hp hguard hstep => hp.step hstep (hguard _ hstep)

/-- A step that is computed is seen to take no `Identity` for an immediate. -/
def looksAt (p : Program) (o : IROp) : Bool := (p.step o).all fun p' => !p'.looked_through

theorem looksAt_spec (h : p.looksAt o = true) : p.LooksAt o := by
  intro p' hp'
  unfold looksAt at h
  rw [hp', Option.all_some, Bool.not_eq_true'] at h
  exact h

theorem Wf.noVoidOperand (hp : p.Wf) (h : ∀ x < p.created, (p.insts x).op ≠ .void) : p.NoVoidOperand blocks := by
  have hvalid {v w : Value} (hvw : p.Leads v w) (hv : p.Valid v) : p.Valid w := by
    induction hvw with
    | refl => exact hv
    | step _ _ ih => exact ih fun y hy => hp.valid (_, 0) y hy
  intro b _ x _ i y hy
  exact h y (hvalid hy (fun z hz => hp.valid (x, i) z hz) y rfl)

/-- In every state of a run whose steps take no `Identity` for an immediate the uses of an instruction are
the operands that refer to it, each once, and the passes remove only what they may. -/
theorem uses_run (h : Runs LooksAt p) : (∀ x, (p.insts x).uses.Nodup ∧
      ∀ u i, (u, i) ∈ (p.insts x).uses ↔ (p.insts u).arg i = .inst x) ∧
    (∀ blocks p', p.deadCodeElimination blocks = some p' → p'.looked_through = false → p.Eliminated p') ∧
    (∀ blocks p', p.identityRemoval blocks = some p' → p'.looked_through = false →
      p.NoVoidOperand blocks → p.IdentitiesRemoved p' blocks) := by
  have hp := h.wf
  refine ⟨fun x => ⟨hp.exact.nodup x, fun u i => ?_⟩, fun blocks p' h' hlooked => ?_,
    fun blocks p' h' hlooked => ((identityRemoval_spec h' hlooked).2 hp).2⟩
  · refine (hp.exact.mem_iff x (u, i)).trans ?_
    unfold refs
    cases (p.insts u).arg i with
    | inst y => exact ⟨fun hy => congrArg Value.inst (Option.some.inj hy), fun hy => by cases hy; rfl⟩
    | void => exact iff_of_false (fun hy => by cases hy) fun hy => by cases hy
    | imm value => exact iff_of_false (fun hy => by cases hy) fun hy => by cases hy
  · exact (deadCodeElimination_eliminating hp h' hlooked).2.eliminated hp

theorem uses_run_sample : ∃ p p₁ p₂ : Program, Runs LooksAt p ∧
    (p.insts 0).uses = [(3, 0), (1, 0)] ∧ (p.insts 1).uses = [(2, 0)] ∧
    p.deadCodeElimination [0] = some p₁ ∧ p.Eliminated p₁ ∧ p₁.blocks 0 = [0, 1, 2] ∧
    p.identityRemoval [0] = some p₂ ∧ p.IdentitiesRemoved p₂ [0] ∧ p₂.blocks 0 = [0, 2, 3] ∧
    (p₂.insts 2).arg 0 = .inst 0 := by
  have hstart : Runs LooksAt {} := .start rfl
  have hrun := hstart.ofGuarded (fun _ _ => looksAt_spec)
    [.prependNewInst 0 0 (.other 0 0) [] 0, .prependNewInst 0 1 .identity [.inst 0] 0,
      .prependNewInst 0 2 .writeSharedU32 [.inst 1, .imm (.u32 7)] 0,
      .prependNewInst 0 3 (.other 1 1) [.inst 0] 0] rfl
  obtain ⟨-, hdead, hidentity⟩ := uses_run hrun
  refine ⟨_, _, _, hrun, rfl, rfl, rfl, hdead [0] _ rfl rfl, rfl, rfl, hidentity [0] _ rfl rfl ?_, rfl, rfl⟩
  exact Wf.noVoidOperand (Runs.wf hrun) (by decide)

/-- An operand is given that is an `Identity` for an immediate. -/
theorem uses_identity_immediate : ∃ p p' : Program, Runs (fun _ _ => True) p ∧
    (p.insts 1).arg 0 = .inst 0 ∧ (p.insts 0).uses = [] ∧
    p.deadCodeElimination [0] = some p' ∧ p.blocks 0 = [0, 1] ∧ p'.blocks 0 = [1] ∧
    (p'.insts 1).arg 0 = .inst 0 ∧ (p'.insts 0).op = .void := by
  have hstart : Runs (fun _ _ => True) {} := .start rfl
  have hrun := hstart.ofList [.prependNewInst 0 0 .phi [] 0, .replaceUsesWith 0 (.imm (.u32 1)) true,
      .prependNewInst 0 1 .reference [.inst 0] 0] rfl
  exact ⟨_, _, hrun, rfl, rfl, rfl, rfl, rfl, rfl, rfl⟩

end Program

end ShadPS4.IR
