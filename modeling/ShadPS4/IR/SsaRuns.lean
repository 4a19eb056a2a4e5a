import ShadPS4.IR.SsaReads

/-!
# The runs of `SsaRewritePass`

Between the instructions of a block no phi is half built: those whose operands are still to be collected wait for
`SealBlock`, and are no users.
-/

namespace ShadPS4.IR

namespace Ssa

variable {imm_predecessors : ℕ → List ℕ} {s s' : State} {A B : ℕ → Prop} {depth : ℕ} {var : Variable}
  {value : Value} {block phi : ℕ} {waiting : List ℕ}

/-! ## Phis that wait -/

theorem Waiting.kept (h : Waiting s block phi) (hk : Kept s s') : Waiting s' block phi where
  collecting := hk.collecting phi h.collecting
  parent := (hk.parent phi (hk.old phi h.collecting)).trans h.parent
  predecessors := (hk.predecessors phi h.collecting).trans h.predecessors
  unused x hx := h.unused x (hk.uses phi h.collecting x hx)

theorem WaitsFor.moved (h : WaitsFor B s) (hb : Basic imm_predecessors s) (hm : Moved A s s')
    (hincomplete : s'.incomplete_phis = s.incomplete_phis)
    (hA : ∀ b phi, B b → Waiting s b phi → phi ∈ s'.collecting ∧ ¬ A phi) : WaitsFor B s' := by
  intro b hb'
  obtain ⟨hentries, hnodup⟩ := h b hb'
  rw [hincomplete]
  refine ⟨fun e he => ?_, hnodup⟩
  obtain ⟨hin, hnot⟩ := hA b e.2 hb' (hentries e he)
  exact (hentries e he).moved hb hm hnot hin

/-- What holds while `SealBlock` collects the operands of a phi of a block: the others wait, those of the block
that are left and those of the blocks of `B`. -/
structure Filling (imm_predecessors : ℕ → List ℕ) (B : ℕ → Prop) (block phi : ℕ) (waiting preds : List ℕ)
    (s : State) : Prop where
  basic : Basic imm_predecessors s
  collecting : phi ∈ s.collecting
  parent : s.parent phi = block
  predecessors : (s.program.insts phi).predecessors ++ preds = imm_predecessors block
  unused : ∀ y ∈ s.collecting, y ≠ phi → s.Unused y
  waiting : ∀ y ∈ waiting, y ≠ phi ∧ Waiting s block y
  waits : WaitsFor B s

theorem Filling.read (h : Filling imm_predecessors B block phi waiting preds s)
    (hr : Read imm_predecessors B s value s') : Filling imm_predecessors B block phi waiting preds s' where
  basic := hr.basic
  collecting := hr.kept.collecting phi h.collecting
  parent := (hr.kept.parent phi (h.basic.phis phi h.collecting).1).trans h.parent
  predecessors := by
    rw [hr.kept.predecessors phi h.collecting]
    exact h.predecessors
  unused y hy hne := by
    rcases hr.unused y hy with hold | hnone
    · have hin := hr.kept.back y hy hold
      exact fun x hx => h.unused y hin hne x (hr.kept.uses y hin x hx)
    · exact hnone
  waiting y hy := ⟨(h.waiting y hy).1, (h.waiting y hy).2.kept hr.kept⟩
  waits := hr.waits

theorem Filling.addPhiOperand_ends (hs : s.Safe) (hB : ¬ B block)
    (h : Filling imm_predecessors B block phi waiting (imm_pred :: preds) s) (hvalue : s.Knows value) :
    Ends State.Safe (addPhiOperand phi imm_pred value) s fun _ s' =>
      Filling imm_predecessors B block phi waiting preds s' := by
  obtain ⟨hlt, hop⟩ := h.basic.phis phi h.collecting
  have hs' : State.Safe { s with calls := .addPhiOperand (s.program.insts phi) :: s.calls } :=
    List.forall_mem_cons.mpr ⟨hop, hs⟩
  refine Ends.get_bind (Ends.modify_bind ((edit_ends hs' _).mono ?_))
  rintro - s1 - ⟨program, hprogram, rfl⟩
  obtain ⟨he, hop', hpredecessors⟩ := Program.addPhiOperand_edit
    (N := fun u x => u = phi ∧ value.inst? = some x) hprogram fun x hx => ⟨rfl, hx⟩
  have hbasic := h.basic.edit he (fun u x hN => hN.1 ▸ ⟨hlt, hvalue x hN.2⟩) fun w hw =>
    hw ▸ ⟨hlt, fun _ => hop', fun hnot => absurd h.collecting hnot⟩
  have hm' : Moved (· = phi) s { s with program } :=
    Moved.edit he (fun u x hN => hN.1) fun w hw => hw
  have hm : Moved (· = phi) s { s with
      calls := .addPhiOperand (s.program.insts phi) :: s.calls, program } :=
    ⟨hm'.created, hm'.uses, hm'.kept, hm'.parent⟩
  constructor
  case basic =>
    exact ⟨hbasic.refs, hbasic.uses, hbasic.fresh, hbasic.defs, hbasic.complete, hbasic.phis⟩
  case collecting => exact h.collecting
  case parent => exact h.parent
  case predecessors =>
    rw [hpredecessors, List.append_assoc, List.singleton_append]
    exact h.predecessors
  case unused =>
    intro y hy hne x hx
    exact (hm.uses y x hx).elim (h.unused y hy hne x) hne
  case waiting =>
    intro y hy
    obtain ⟨hne, hw⟩ := h.waiting y hy
    exact ⟨hne, hw.moved h.basic hm hne hw.collecting⟩
  case waits =>
    -- The phis that wait in other blocks are others.
    refine h.waits.moved h.basic hm rfl fun b y hb hw => ⟨hw.collecting, ?_⟩
    rintro rfl
    exact hB (h.parent.symm.trans hw.parent ▸ hb)

/-- What holds between the instructions of a block, and between the phis that `SealBlock` fills. -/
structure Between (imm_predecessors : ℕ → List ℕ) (B : ℕ → Prop) (block : ℕ) (waiting : List ℕ)
    (s : State) : Prop where
  basic : Basic imm_predecessors s
  unused : ∀ y ∈ s.collecting, s.Unused y
  waiting : waiting.Nodup ∧ ∀ y ∈ waiting, Waiting s block y
  waits : WaitsFor B s

theorem addPhiOperands_ends (hs : s.Safe) (hB : ¬ B block) (h : Between imm_predecessors B block (phi :: waiting) s) :
    Ends State.Safe (addPhiOperands imm_predecessors depth var phi block) s fun _ s' =>
      Between imm_predecessors B block waiting s' := by
  obtain ⟨hnodup, hall⟩ := h.waiting
  obtain ⟨hnot, hnodup⟩ := List.nodup_cons.mp hnodup
  obtain ⟨hphi, hwaiting⟩ := List.forall_mem_cons.mp hall
  have hstart : Filling imm_predecessors B block phi waiting (imm_predecessors block) s :=
    ⟨h.basic, hphi.collecting, hphi.parent, by rw [hphi.predecessors]; rfl,
      fun y hy _ => h.unused y hy, fun y hy => ⟨fun heq => hnot (heq ▸ hy), hwaiting y hy⟩, h.waits⟩
  refine (Ends.forM (I := fun preds s => Filling imm_predecessors B block phi waiting preds s)
    (fun imm_pred preds s1 hs1 h1 => ?_) hs hstart).bind fun _ s1 hs1 h1 => ?_
  · refine (readVariable_ends hs1 h1.basic h1.waits imm_pred).bind fun value s2 hs2 hr => ?_
    exact (h1.read hr).addPhiOperand_ends hs2 hB hr.knows
  · -- The phi is complete, and no phi that is not is a user.
    obtain ⟨hlt, hop⟩ := h1.basic.phis phi h1.collecting
    have hpredecessors := h1.predecessors
    rw [List.append_nil, ← h1.parent] at hpredecessors
    have hlow : ∀ u x, s1.program.Uses u x → 0 ≤ x → 0 ≤ u := fun _ _ _ _ => Nat.zero_le _
    have hremovable := h1.basic.removable hpredecessors hlow
      fun y hy hne x _ => h1.unused y hy hne x
    have hs1' : State.Safe { s1 with collecting := s1.collecting.filter (· ≠ phi) } := hs1
    refine Ends.modify_bind ((tryRemoveTrivialPhi_ends (by cases var <;> exact nofun) hs1' hremovable
      (Nat.zero_le _) hlt (by simp) hop).mono fun value s2 hs2 h2 => ?_)
    have hm : Moved (Reach 0 (s1.collecting.filter (· ≠ phi))) s1 s2 :=
      ⟨h2.moved.created, h2.moved.uses, h2.moved.kept, h2.moved.parent⟩
    have hmem : ∀ y, y ≠ phi → y ∈ s1.collecting →
        y ∈ s2.collecting ∧ ¬ Reach 0 (s1.collecting.filter (· ≠ phi)) y := by
      intro y hne hy
      have hin : y ∈ s1.collecting.filter (· ≠ phi) :=
        List.mem_filter.mpr ⟨hy, decide_eq_true hne⟩
      rw [h2.books.collecting]
      exact ⟨hin, fun hreach => hreach.2 hin⟩
    constructor
    case basic => exact h2.removable.toBasic
    case unused =>
      intro y hy x hx
      rw [h2.books.collecting] at hy
      obtain ⟨hin, hne⟩ := List.mem_filter.mp hy
      have hne := of_decide_eq_true hne
      exact (hm.uses y x hx).elim (h1.unused y hin hne x) (hmem y hne hin).2
    case waiting =>
      refine ⟨hnodup, fun y hy => ?_⟩
      obtain ⟨hne, hw⟩ := h1.waiting y hy
      obtain ⟨hin, hA⟩ := hmem y hne hw.collecting
      exact hw.moved h1.basic hm hA hin
    case waits =>
      refine h1.waits.moved h1.basic hm h2.books.incomplete_phis fun b y hb hw => ?_
      refine hmem y ?_ hw.collecting
      rintro rfl
      exact hB (h1.parent.symm.trans hw.parent ▸ hb)

/-! ## The pass -/

theorem sealBlock_ends (hs : s.Safe) (hB : ¬ B block)
    (h : Between imm_predecessors (fun b => b = block ∨ B b) block [] s) :
    Ends State.Safe (sealBlock imm_predecessors depth block) s fun _ s' =>
      Between imm_predecessors B block [] s' := by
  obtain ⟨hentries, hnodup⟩ := h.waits block (.inl rfl)
  have hstart : Between imm_predecessors B block ((s.incomplete_phis block).map Prod.snd) s :=
    ⟨h.basic, h.unused, ⟨hnodup, List.forall_mem_map.mpr hentries⟩, fun b hb => h.waits b (.inr hb)⟩
  refine Ends.get_bind ((Ends.forM (I := fun rest s => Between imm_predecessors B block (rest.map Prod.snd) s)
    (fun entry rest s1 hs1 h1 => ?_) hs hstart).bind fun _ s1 hs1 h1 => ?_)
  · refine (addPhiOperands_ends hs1 hB h1).bind fun _ s2 hs2 h2 => .pure hs2 h2
  · refine .modify hs1 ⟨⟨h1.basic.refs, h1.basic.uses, h1.basic.fresh, h1.basic.defs,
      h1.basic.complete, h1.basic.phis⟩, h1.unused, ⟨.nil, nofun⟩, fun b hb => ?_⟩
    obtain ⟨hentries', hnodup'⟩ := h1.waits b hb
    refine ⟨fun e he => ?_, hnodup'⟩
    have hw := hentries' e he
    exact ⟨hw.collecting, hw.parent, hw.predecessors, hw.unused⟩

theorem Between.write_ends (hs : s.Safe) (h : Between imm_predecessors B block [] s)
    (hvalue : s.Knows value) (var : Variable) (b : ℕ) : Ends State.Safe (writeVariable var b value) s fun _ s' =>
      Between imm_predecessors B block [] s' := by
  refine .modify hs ⟨h.basic.write hvalue var b, h.unused, ⟨.nil, nofun⟩, fun b hb => ?_⟩
  obtain ⟨hentries, hnodup⟩ := h.waits b hb
  refine ⟨fun e he => ?_, hnodup⟩
  have hw := hentries e he
  exact ⟨hw.collecting, hw.parent, hw.predecessors, hw.unused⟩

theorem Between.read_ends (hs : s.Safe) (h : Between imm_predecessors B block [] s)
    (hvoid : (s.program.insts inst).op ≠ .void) (hphi : (s.program.insts inst).op ≠ .phi)
    (var : Variable) (b : ℕ) : Ends State.Safe (replaceRead imm_predecessors depth var b inst) s fun _ s' =>
      Between imm_predecessors B block [] s' := by
  refine (readVariable_ends hs h.basic h.waits b).bind fun value s1 hs1 hr => ?_
  refine (edit_ends hs1 _).mono ?_
  rintro - s2 - ⟨program, hprogram, rfl⟩
  have hlt : inst < s.program.created := by
    by_contra hge
    exact hvoid (h.basic.fresh inst (Nat.le_of_not_lt hge))
  have hlt1 : inst < s1.program.created := Nat.lt_of_lt_of_le hlt hr.kept.created
  -- No phi whose operands are to be collected is a user, of the instruction or of another.
  have hnot : inst ∉ s1.collecting := fun hin =>
    hphi (h.basic.phis inst (hr.kept.back inst hin hlt)).2
  have hunused : ∀ y ∈ s1.collecting, s1.Unused y := by
    intro y hy
    rcases hr.unused y hy with hold | hnone
    · have hin := hr.kept.back y hy hold
      exact fun x hx => h.unused y hin x (hr.kept.uses y hin x hx)
    · exact hnone
  obtain ⟨he, hop⟩ := Program.replaceUsesWith_edit
    (N := fun u y => value.inst? = some y ∧ (u = inst ∨ s1.program.Uses u inst)) hprogram
    fun y hy => ⟨⟨hy, .inl rfl⟩, fun k hk => ⟨hy, .inr ⟨k, hk, rfl⟩⟩⟩
  have hbasic : Basic imm_predecessors { s1 with program } := by
    refine hr.basic.edit he (fun u y hN => ?_) fun w hw => ?_
    · obtain ⟨hy, rfl | hu⟩ := hN
      · exact ⟨hlt1, hr.knows y hy⟩
      · exact ⟨(hr.basic.uses u inst hu).1, hr.knows y hy⟩
    · obtain rfl : w = inst := hw
      exact ⟨hlt1, fun hin => absurd hin hnot, fun _ hphi' => by rw [hop] at hphi'; cases hphi'⟩
  have hm : Moved (fun u => u ∉ s1.collecting) s1 { s1 with program } := by
    refine Moved.edit he (fun u y hN => ?_) fun w hw => ?_
    · obtain ⟨-, rfl | hu⟩ := hN
      · exact hnot
      · exact fun hin => hunused u hin inst hu
    · obtain rfl : w = inst := hw
      exact hnot
  refine ⟨hbasic, fun y hy x hx => ?_, ⟨.nil, nofun⟩, ?_⟩
  · exact (hm.uses y x hx).elim (hunused y hy x) fun hA => hA hy
  · exact hr.waits.moved hr.basic hm rfl fun b y hb hw =>
      ⟨hw.collecting, fun hA => hA hw.collecting⟩

/-- A part of the pass that only looks at the state. -/
def Quiet {α : Type} (x : Pass α) : Prop := ∀ s, s.Safe → Ends State.Safe x s fun _ s' => s' = s

theorem Quiet.bind (hx : Quiet x)
    (hs : s.Safe) (hf : ∀ a, Ends State.Safe (f a) s R) : Ends State.Safe (x >>= f) s R :=
  (hx s hs).bind fun a _ _ heq => heq ▸ hf a

theorem quiet_scalarRegOf (value : Value) : Quiet (scalarRegOf value) := by
  intro s hs
  unfold scalarRegOf
  split
  · exact .pure hs rfl
  · exact .failure hs

theorem quiet_vectorRegOf (value : Value) : Quiet (vectorRegOf value) := by
  intro s hs
  unfold vectorRegOf
  split
  · exact .pure hs rfl
  · exact .failure hs

theorem quiet_u32Of (value : Value) : Quiet (u32Of value) := by
  intro s hs
  refine Ends.get_bind ?_
  split
  · exact .pure hs rfl
  · exact .failure hs

theorem visitInst_ends (hs : s.Safe) (h : Between imm_predecessors B block [] s) (b : ℕ) :
    Ends State.Safe (visitInst imm_predecessors depth b inst) s fun _ s' =>
      Between imm_predecessors B block [] s' := by
  have hwrite (i : ℕ) (var : Variable) : Ends State.Safe
      (writeVariable var b ((s.program.insts inst).arg i)) s fun _ s' =>
        Between imm_predecessors B block [] s' :=
    h.write_ends hs (h.basic.refs (inst, i)) var b
  have hread {op : Opcode} (hop : (s.program.insts inst).op = op) (hne : op ≠ .void ∧ op ≠ .phi)
      (var : Variable) : Ends State.Safe (replaceRead imm_predecessors depth var b inst) s fun _ s' =>
        Between imm_predecessors B block [] s' :=
    h.read_ends hs (by rw [hop]; exact hne.1) (by rw [hop]; exact hne.2) var b
  refine Ends.get_bind ?_
  split
  · exact (quiet_scalarRegOf _).bind hs fun _ => hwrite 1 _
  · exact (quiet_scalarRegOf _).bind hs fun _ => hwrite 1 _
  · exact (quiet_vectorRegOf _).bind hs fun _ => hwrite 1 _
  · exact (quiet_u32Of _).bind hs fun _ => hwrite 1 _
  · exact (quiet_vectorRegOf _).bind hs fun _ => (quiet_u32Of _).bind hs fun _ => hwrite 2 _
  · exact hwrite 0 _
  · exact hwrite 0 _
  · exact hwrite 0 _
  · exact hwrite 0 _
  · exact hwrite 0 _
  · exact hwrite 0 _
  next hop => exact (quiet_scalarRegOf _).bind hs fun _ => hread hop ⟨nofun, nofun⟩ _
  next hop => exact (quiet_scalarRegOf _).bind hs fun _ => hread hop ⟨nofun, nofun⟩ _
  next hop => exact (quiet_vectorRegOf _).bind hs fun _ => hread hop ⟨nofun, nofun⟩ _
  next hop => exact (quiet_u32Of _).bind hs fun _ => hread hop ⟨nofun, nofun⟩ _
  next hop =>
    exact (quiet_vectorRegOf _).bind hs fun _ => (quiet_u32Of _).bind hs fun _ =>
      hread hop ⟨nofun, nofun⟩ _
  next hop => exact hread hop ⟨nofun, nofun⟩ _
  next hop => exact hread hop ⟨nofun, nofun⟩ _
  next hop => exact hread hop ⟨nofun, nofun⟩ _
  next hop => exact hread hop ⟨nofun, nofun⟩ _
  next hop => exact hread hop ⟨nofun, nofun⟩ _
  next hop => exact hread hop ⟨nofun, nofun⟩ _
  · exact .pure hs h

theorem visitBlock_ends (hs : s.Safe) (hB : ¬ B block)
    (h : Between imm_predecessors (fun b => b = block ∨ B b) block [] s) :
    Ends State.Safe (visitBlock imm_predecessors depth block) s fun _ s' =>
      Between imm_predecessors B block [] s' := by
  refine Ends.get_bind ((Ends.forM (I := fun _ s => Between imm_predecessors (fun b => b = block ∨ B b) block [] s)
    (fun inst _ s1 hs1 h1 => visitInst_ends hs1 h1 block) hs h).bind fun _ s1 hs1 h1 => ?_)
  exact sealBlock_ends hs1 hB h1

/-- A program that the pass is made for: users and operands are instructions that were created, and a phi has
one operand for each predecessor of its block. -/
structure Ready (imm_predecessors : ℕ → List ℕ) (p : Program) (parent : ℕ → ℕ) : Prop where
  refs : ∀ k x, p.refs k = some x → x < p.created
  uses : ∀ x, ∀ k ∈ p.users x, k.1 < p.created ∧ x < p.created
  fresh : ∀ x, p.created ≤ x → (p.insts x).op = .void
  complete : ∀ x < p.created, (p.insts x).op = .phi →
    (p.insts x).predecessors = imm_predecessors (parent x)

/-- In every run of the pass `TryRemoveTrivialPhi` is only applied to phis that have one operand for each
predecessor of their blocks, and whose operands are not being collected, and `AddPhiOperand` to phis. -/
theorem ssaRewritePass_calls {p : Program} {parent : ℕ → ℕ} (h : Ready imm_predecessors p parent)
    {program : List ℕ} (hnodup : program.Nodup) (depth : ℕ) :
    ∀ call ∈ ((ssaRewritePass imm_predecessors depth program).leaves
      { program := p, parent }).2.calls, call.Safe := by
  have hbasic : Basic imm_predecessors { program := p, parent } :=
    ⟨h.refs, fun u x ⟨k, hk, hu⟩ => hu ▸ h.uses x k hk, h.fresh, fun _ _ => nofun,
      fun x hx hop _ => h.complete x hx hop, nofun⟩
  have hstart : ∀ block, Between imm_predecessors (· ∈ program.reverse) block []
      { program := p, parent } :=
    fun block => ⟨hbasic, nofun, ⟨.nil, nofun⟩, fun b _ => ⟨nofun, .nil⟩⟩
  have hends : Ends State.Safe (forM program.reverse (visitBlock imm_predecessors depth))
      { program := p, parent } fun _ s' =>
        ([] : List ℕ).Nodup ∧ ∀ block, Between imm_predecessors (· ∈ ([] : List ℕ)) block [] s' := by
    refine Ends.forM (I := fun rest s => rest.Nodup ∧ ∀ block, Between imm_predecessors (· ∈ rest) block [] s)
      (fun block rest s hs ⟨hnodup', hbetween⟩ => ?_) (fun _ => nofun)
      ⟨List.nodup_reverse.mpr hnodup, hstart⟩
    obtain ⟨hnot, hrest⟩ := List.nodup_cons.mp hnodup'
    have hb := hbetween block
    simp only [List.mem_cons] at hb
    refine (visitBlock_ends hs hnot hb).mono fun _ _ _ h' => ⟨hrest, fun block' => ?_⟩
    exact ⟨h'.basic, h'.unused, ⟨.nil, nofun⟩, h'.waits⟩
  exact hends.ok

/-- A register is written in front of a loop, and read in the loop and behind it. -/
def loopInsts : ℕ → Inst
  | 0 => { op := .setScalarRegister, args := fun
      | 0 => .imm (.scalarReg 4)
      | 1 => .imm (.u32 7)
      | _ => .void }
  | 1 => { op := .getScalarRegister, args := fun
      | 0 => .imm (.scalarReg 4)
      | _ => .void, uses := [(2, 0)] }
  | 2 => { op := .discardCond, args := fun
      | 0 => .inst 1
      | _ => .void }
  | 3 => { op := .getScalarRegister, args := fun
      | 0 => .imm (.scalarReg 4)
      | _ => .void }
  | _ => {}

/-- The blocks in front of the loop, of the loop, and behind it. -/
def loopProgram : Program where
  insts := loopInsts
  created := 4
  blocks
    | 0 => [0]
    | 1 => [1, 2]
    | 2 => [3]
    | _ => []

def loopPredecessors : ℕ → List ℕ
  | 1 => [0, 1]
  | 2 => [1]
  | _ => []

def loopParent : ℕ → ℕ
  | 1 | 2 => 1
  | 3 => 2
  | _ => 0

theorem loop_ready : Ready loopPredecessors loopProgram loopParent where
  refs := by
    rintro ⟨u, index⟩ x hx
    match u, index with
    | 2, 0 =>
      obtain rfl : 1 = x := Option.some.inj hx
      decide
    | 0, 0 | 0, 1 | 0, _ + 2 | 1, 0 | 1, _ + 1 | 2, _ + 1 | 3, 0 | 3, _ + 1 | _ + 4, _ => cases hx
  uses := by
    intro x k hk
    match x with
    | 1 =>
      obtain rfl := List.mem_singleton.mp hk
      decide
    | 0 | 2 | 3 | _ + 4 => cases hk
  fresh := by
    intro x hx
    match x with
    | 0 | 1 | 2 | 3 => exact absurd hx (by decide)
    | _ + 4 => rfl
  complete := by
    intro x hx hop
    match x with
    | 0 | 1 | 2 | 3 => cases hop
    | _ + 4 => cases hop

theorem ssaRewritePass_calls_sample : ((ssaRewritePass loopPredecessors 20 [2, 1, 0]).leaves
      { program := loopProgram, parent := loopParent }).2.calls.length = 5 ∧
    ∀ call ∈ ((ssaRewritePass loopPredecessors 20 [2, 1, 0]).leaves
      { program := loopProgram, parent := loopParent }).2.calls, call.Safe :=
  ⟨by decide +kernel, ssaRewritePass_calls loop_ready (by decide) 20⟩

end Ssa

end ShadPS4.IR
