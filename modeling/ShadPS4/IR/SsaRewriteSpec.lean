import ShadPS4.IR.SsaEdits

/-!
# When `TryRemoveTrivialPhi` may be called

A phi is seen by the recursion of `TryRemoveTrivialPhi` from the first operand that it gets, so that it could be
taken for trivial while its operands are still being collected.
-/

namespace ShadPS4.IR

open Function
open Option (some.inj)

variable {u : ℕ} {same : Value} {undef_opcode : Opcode}

def Program.Uses (p : Program) (u x : ℕ) : Prop := ∃ k ∈ p.users x, k.1 = u

namespace Ssa

/-- What the statement says of a call: `TryRemoveTrivialPhi` is applied to a phi that has one operand for each
predecessor, and whose operands are not being collected, and `AddPhiOperand` to a phi. -/
def Call.Safe : Call → Prop
  | .tryRemoveTrivialPhi phi inst imm_predecessors collecting =>
    inst.op = .phi ∧ inst.predecessors = imm_predecessors ∧ phi ∉ collecting
  | .addPhiOperand inst => inst.op = .phi

def State.Safe (s : State) : Prop := ∀ call ∈ s.calls, call.Safe

def State.Knows (s : State) (value : Value) : Prop := s.program.Valid value

variable {imm_predecessors : ℕ → List ℕ} {s s' s'' : State} {A : ℕ → Prop} {low phi block depth : ℕ}

/-- What holds between the steps of the pass. -/
structure Basic (imm_predecessors : ℕ → List ℕ) (s : State) : Prop where
  refs : ∀ k x, s.program.refs k = some x → x < s.program.created
  uses : ∀ u x, s.program.Uses u x → u < s.program.created ∧ x < s.program.created
  fresh : ∀ x, s.program.created ≤ x → (s.program.insts x).op = .void
  defs : ∀ var b, s.Knows (s.current_def var b)
  complete : ∀ x < s.program.created, (s.program.insts x).op = .phi → x ∉ s.collecting →
    (s.program.insts x).predecessors = imm_predecessors (s.parent x)
  phis : ∀ x ∈ s.collecting, x < s.program.created ∧ (s.program.insts x).op = .phi

/-- What a part of the pass changes that makes users, and changes instructions, only as given by `A`. -/
structure Moved (A : ℕ → Prop) (s s' : State) : Prop where
  created : s.program.created ≤ s'.program.created
  uses : ∀ u x, s'.program.Uses u x → s.program.Uses u x ∨ A u
  kept : ∀ w < s.program.created, ¬ A w → (s'.program.insts w).op = (s.program.insts w).op ∧
    (s'.program.insts w).predecessors = (s.program.insts w).predecessors
  parent : ∀ w < s.program.created, s'.parent w = s.parent w

theorem Moved.refl (A : ℕ → Prop) (s : State) : Moved A s s :=
  ⟨Nat.le_refl _, fun _ _ => .inl, fun _ _ _ => ⟨rfl, rfl⟩, fun _ _ => rfl⟩

theorem Moved.trans (h : Moved A s s') (h' : Moved A s' s'') : Moved A s s'' where
  created := Nat.le_trans h.created h'.created
  uses u x hu := (h'.uses u x hu).elim (h.uses u x) .inr
  kept w hw hA := by
    obtain ⟨hop, hpreds⟩ := h.kept w hw hA
    obtain ⟨hop', hpreds'⟩ := h'.kept w (Nat.lt_of_lt_of_le hw h.created) hA
    exact ⟨hop'.trans hop, hpreds'.trans hpreds⟩
  parent w hw := (h'.parent w (Nat.lt_of_lt_of_le hw h.created)).trans (h.parent w hw)

/-- The program is not the only thing that the pass keeps books of. -/
structure SameBooks (s s' : State) : Prop where
  collecting : s'.collecting = s.collecting
  incomplete_phis : s'.incomplete_phis = s.incomplete_phis
  sealed : s'.sealed = s.sealed
  current_def : s'.current_def = s.current_def

theorem SameBooks.trans (h : SameBooks s s') (h' : SameBooks s' s'') : SameBooks s s'' :=
  ⟨h'.collecting.trans h.collecting, h'.incomplete_phis.trans h.incomplete_phis,
    h'.sealed.trans h.sealed, h'.current_def.trans h.current_def⟩

/-! ## Edits of the program -/

theorem edit_ends (hs : s.Safe) (change : Program → Option Program) : Ends State.Safe (edit change) s fun _ s' =>
      ∃ program, change s.program = some program ∧ s' = { s with program } := by
  refine Ends.get_bind ?_
  split
  next program hprogram => exact .modify hs ⟨program, hprogram, rfl⟩
  next => exact .failure hs

variable {program : Program} {N : ℕ → ℕ → Prop} {T : ℕ → Prop}

theorem uses_of_edit (he : Program.Edit N T p p') (h : p'.Uses u x) : p.Uses u x ∨ N u x := by
  obtain ⟨k, hk, rfl⟩ := h
  rcases he.users x k hk with hold | hnew
  · exact .inl ⟨k, hold, rfl⟩
  · exact .inr hnew

theorem Basic.edit (h : Basic imm_predecessors s) (he : Program.Edit N T s.program program)
    (hN : ∀ u x, N u x → u < s.program.created ∧ x < s.program.created) (hT : ∀ w, T w → w < s.program.created ∧
      (w ∈ s.collecting → (program.insts w).op = .phi) ∧ (w ∉ s.collecting → (program.insts w).op = .phi →
        (program.insts w).predecessors = imm_predecessors (s.parent w))) :
    Basic imm_predecessors { s with program } where
  refs k x hk := by
    rw [he.created]
    rcases he.refs k x hk with hold | hnew
    · exact h.refs k x hold
    · exact (hN k.1 x hnew).2
  uses u x hu := by
    rw [he.created]
    rcases uses_of_edit he hu with hold | hnew
    · exact h.uses u x hold
    · exact hN u x hnew
  fresh x hx := by
    rw [he.created] at hx
    rw [(he.kept x fun hT' => Nat.not_le_of_lt (hT x hT').1 hx).1]
    exact h.fresh x hx
  defs var b x hx := by
    rw [he.created]
    exact h.defs var b x hx
  complete x hx hop hnot := by
    rw [he.created] at hx
    by_cases hT' : T x
    · exact (hT x hT').2.2 hnot hop
    · obtain ⟨hop', hpreds⟩ := he.kept x hT'
      exact hpreds.trans (h.complete x hx (hop'.symm.trans hop) hnot)
  phis x hx := by
    obtain ⟨hlt, hop⟩ := h.phis x hx
    rw [he.created]
    by_cases hT' : T x
    · exact ⟨hlt, (hT x hT').2.1 hx⟩
    · exact ⟨hlt, (he.kept x hT').1.trans hop⟩

theorem Moved.edit (he : Program.Edit N T s.program program) (hN : ∀ u x, N u x → A u)
    (hT : ∀ w, T w → A w) : Moved A s { s with program } where
  created := Nat.le_of_eq he.created.symm
  uses u x hu := (uses_of_edit he hu).imp_right (hN u x)
  kept w _ hA := he.kept w fun hw => hA (hT w hw)
  parent _ _ := rfl

structure Created (s : State) (inst : Inst) (program : Program) (parent : ℕ → ℕ) : Prop where
  created : program.created = s.program.created + 1
  insts : program.insts = update s.program.insts s.program.created inst
  arg : ∀ i, inst.arg i = .void
  uses : inst.uses = []
  parent : ∀ w < s.program.created, parent w = s.parent w

variable {inst : Inst} {parent : ℕ → ℕ}

theorem Created.insts_of_ne (h : Created s inst program parent) (hw : w ≠ s.program.created) :
    program.insts w = s.program.insts w := by
  rw [h.insts, update_of_ne hw]

theorem Created.insts_self (h : Created s inst program parent) : program.insts s.program.created = inst := by
  rw [h.insts, update_self]

theorem Created.uses_iff (h : Created s inst program parent) (hu : program.Uses u x) : s.program.Uses u x := by
  obtain ⟨k, hk, rfl⟩ := hu
  rcases eq_or_ne x s.program.created with rfl | hx
  · unfold Program.users at hk
    rw [h.insts_self, h.uses] at hk
    cases hk
  · refine ⟨k, ?_, rfl⟩
    unfold Program.users at hk ⊢
    rwa [h.insts_of_ne hx] at hk

theorem Basic.create (h : Basic imm_predecessors s) (hc : Created s inst program parent)
    (hcollecting : (inst.op ≠ .phi ∧ collecting = s.collecting) ∨
      (inst.op = .phi ∧ collecting = s.program.created :: s.collecting)) :
    Basic imm_predecessors { s with program, parent, collecting } where
  refs k x hk := by
    rw [hc.created]
    refine Nat.lt_succ_of_lt (h.refs k x ?_)
    change ((program.insts k.1).arg k.2).inst? = some x at hk
    rcases eq_or_ne k.1 s.program.created with hk' | hk'
    · rw [hk', hc.insts_self, hc.arg] at hk
      cases hk
    · rwa [hc.insts_of_ne hk'] at hk
  uses u x hu := by
    rw [hc.created]
    obtain ⟨hu', hx'⟩ := h.uses u x (hc.uses_iff hu)
    exact ⟨Nat.lt_succ_of_lt hu', Nat.lt_succ_of_lt hx'⟩
  fresh x hx := by
    rw [hc.created] at hx
    rw [hc.insts_of_ne (by omega)]
    exact h.fresh x (by omega)
  defs var b x hx := by
    rw [hc.created]
    exact Nat.lt_succ_of_lt (h.defs var b x hx)
  complete x hx hop hnot := by
    show (program.insts x).predecessors = imm_predecessors (parent x)
    rw [hc.created] at hx
    rcases eq_or_ne x s.program.created with rfl | hne
    · rw [hc.insts_self] at hop
      rcases hcollecting with ⟨hphi, -⟩ | ⟨-, rfl⟩
      · exact absurd hop hphi
      · exact absurd List.mem_cons_self hnot
    · rw [hc.insts_of_ne hne] at hop ⊢
      rw [hc.parent x (by omega)]
      refine h.complete x (by omega) hop fun hin => hnot ?_
      rcases hcollecting with ⟨-, rfl⟩ | ⟨-, rfl⟩
      · exact hin
      · exact List.mem_cons_of_mem _ hin
  phis x hx := by
    rw [hc.created]
    have hold : x ∈ s.collecting → x < s.program.created + 1 ∧ (program.insts x).op = .phi := by
      intro hin
      obtain ⟨hlt, hop⟩ := h.phis x hin
      rw [hc.insts_of_ne (by omega)]
      exact ⟨by omega, hop⟩
    rcases hcollecting with ⟨-, rfl⟩ | ⟨hphi, rfl⟩
    · exact hold hx
    · rcases List.mem_cons.mp hx with rfl | hin
      · rw [hc.insts_self]
        exact ⟨by omega, hphi⟩
      · exact hold hin

theorem Moved.create (hc : Created s inst program parent) (collecting : List ℕ) :
    Moved A s { s with program, parent, collecting } where
  created := by
    rw [hc.created]
    exact Nat.le_succ _
  uses u x hu := .inl (hc.uses_iff hu)
  kept w hw _ := by
    rw [hc.insts_of_ne (by omega)]
    exact ⟨rfl, rfl⟩
  parent := hc.parent

theorem prepend_ends (hs : s.Safe) (block point : ℕ) (op : Opcode) :
    Ends State.Safe (prepend block point op) s fun u s' => u = s.program.created ∧
      ∃ program parent, s' = { s with program, parent } ∧ Created s { op } program parent ∧ parent u = block := by
  refine Ends.get_bind ((edit_ends hs _).bind ?_)
  rintro - s1 hs1 ⟨program, hprogram, rfl⟩
  obtain ⟨hcreated, hinsts⟩ := Program.prependNewInst_insts hprogram
  refine Ends.modify_bind (Ends.pure hs ⟨rfl, program, _, rfl, ⟨hcreated, hinsts, fun i => ?_, rfl, ?_⟩,
    update_self ..⟩)
  · unfold Inst.arg
    split <;> rfl
  · intro w hw
    exact update_of_ne (by omega) ..

/-! ## The recursion -/

/-- What `TryRemoveTrivialPhi` needs, for phis from one on: it goes to younger phis only, and to none whose
operands are being collected. -/
structure Removable (imm_predecessors : ℕ → List ℕ) (low : ℕ) (s : State) : Prop
    extends Basic imm_predecessors s where
  young : ∀ u x, s.program.Uses u x → low ≤ x → low ≤ u
  /-- What is as young is not used by a phi whose operands are being collected. -/
  unused : ∀ y ∈ s.collecting, ∀ x, low ≤ x → ¬ s.program.Uses y x

/-- The instructions that `TryRemoveTrivialPhi` may change, or make users. -/
def Reach (low : ℕ) (collecting : List ℕ) (u : ℕ) : Prop := low ≤ u ∧ u ∉ collecting

theorem Removable.moved (h : Removable imm_predecessors low s) (hbasic : Basic imm_predecessors s')
    (hm : Moved (Reach low s.collecting) s s') (hbooks : SameBooks s s') : Removable imm_predecessors low s' where
  toBasic := hbasic
  young u x hu hx := (hm.uses u x hu).elim (fun hold => h.young u x hold hx) And.left
  unused y hy x hx hu := by
    rw [hbooks.collecting] at hy
    rcases hm.uses y x hu with hold | hnew
    · exact h.unused y hy x hx hold
    · exact hnew.2 hy

theorem Removable.reach (h : Removable imm_predecessors low s) (hphi : low ≤ phi)
    (hu : s.program.Uses u phi) : u < s.program.created ∧ Reach low s.collecting u :=
  ⟨(h.uses u phi hu).1, h.young u phi hu hphi, fun hin => h.unused u hin phi hphi hu⟩

theorem findSame_mem (h : findSame p phi ops same = some (some v)) : v ∈ ops ∨ v = same := by
  induction ops generalizing same with
  | nil => exact .inr (some.inj (some.inj h)).symm
  | cons op rest ih =>
    obtain ⟨op', -, h⟩ := Option.bind_eq_some_iff.mp h
    obtain ⟨same', -, h⟩ := Option.bind_eq_some_iff.mp h
    split_ifs at h with hsame hempty
    · exact (ih h).imp_left (List.mem_cons_of_mem _)
    · cases some.inj h
    · left
      rcases ih h with hin | rfl
      · exact List.mem_cons_of_mem _ hin
      · exact List.mem_cons_self

theorem Basic.knows_same (h : Basic imm_predecessors s)
    (hsame : findSame s.program phi (operands (s.program.insts phi)) .void = some (some same)) : s.Knows same := by
  intro x hx
  rcases findSame_mem hsame with hin | rfl
  · obtain ⟨i, -, rfl⟩ := List.mem_map.mp hin
    exact h.refs (phi, i) x hx
  · cases hx

/-- What `replacePhi` leaves: the value was created, and the users of the phi can be reached. -/
structure Replaced (imm_predecessors : ℕ → List ℕ) (low : ℕ) (s : State) (value : Value)
    (s' : State) : Prop where
  removable : Removable imm_predecessors low s'
  moved : Moved (Reach low s.collecting) s s'
  books : SameBooks s s'
  knows : s'.Knows value

theorem Replaced.trans (h : Replaced imm_predecessors low s v s')
    (h' : Replaced imm_predecessors low s' w s'') : Replaced imm_predecessors low s w s'' where
  removable := h'.removable
  moved := by
    have hm := h'.moved
    rw [h.books.collecting] at hm
    exact h.moved.trans hm
  books := h.books.trans h'.books
  knows := h'.knows

theorem Removable.edit (h : Removable imm_predecessors low s) (he : Program.Edit N T s.program program)
    (hN : ∀ u x, N u x → u < s.program.created ∧ x < s.program.created ∧ Reach low s.collecting u)
    (hT : ∀ w, T w → w < s.program.created ∧ Reach low s.collecting w ∧ (program.insts w).op ≠ .phi)
    (hvalue : s.Knows value) : Replaced imm_predecessors low s value { s with program } := by
  have hm : Moved (Reach low s.collecting) s { s with program } :=
    Moved.edit he (fun u x hN' => (hN u x hN').2.2) fun w hw => (hT w hw).2.1
  have hbasic : Basic imm_predecessors { s with program } := by
    refine h.toBasic.edit he (fun u x hN' => ⟨(hN u x hN').1, (hN u x hN').2.1⟩) fun w hw => ?_
    obtain ⟨hlt, hreach, hop⟩ := hT w hw
    exact ⟨hlt, fun hin => absurd hin hreach.2, fun _ hphi => absurd hphi hop⟩
  have hbooks : SameBooks s { s with program } := ⟨rfl, rfl, rfl, rfl⟩
  exact ⟨h.moved hbasic hm hbooks, hm, hbooks,
    fun x hx => Nat.lt_of_lt_of_le (hvalue x hx) hm.created⟩

theorem setBlock_ends (hs : s.Safe) (h : Removable imm_predecessors low s) (block : ℕ)
    (instructions : List ℕ) (hvalue : s.Knows value) :
    Ends State.Safe (setBlock block instructions) s fun _ s' => Replaced imm_predecessors low s value s' := by
  refine (edit_ends hs _).mono ?_
  rintro - s' - ⟨program, hprogram, rfl⟩
  obtain rfl := some.inj hprogram
  have he : Program.Edit (fun _ _ => False) (fun _ => False) s.program
      { s.program with blocks := update s.program.blocks block instructions } :=
    ⟨rfl, fun _ _ => .inl, fun _ _ => .inl, fun _ _ => ⟨rfl, rfl⟩, fun _ => id⟩
  exact h.edit he (fun _ _ => False.elim) (fun _ => False.elim) hvalue

theorem valueOrUndef_ends (hs : s.Safe) (h : Removable imm_predecessors low s)
    (hundef : undef_opcode ≠ .phi) (block point : ℕ) (hsame : s.Knows same) :
    Ends State.Safe (valueOrUndef block point undef_opcode same) s fun r s' =>
      Replaced imm_predecessors low s r.1 s' := by
  unfold valueOrUndef
  split
  · refine (prepend_ends hs block point undef_opcode).bind ?_
    rintro u s1 hs1 ⟨rfl, program, parent, rfl, hc, -⟩
    have hm : Moved (Reach low s.collecting) s { s with program, parent } :=
      Moved.create hc s.collecting
    have hbasic : Basic imm_predecessors { s with program, parent } :=
      h.toBasic.create hc (.inl ⟨hundef, rfl⟩)
    have hbooks : SameBooks s { s with program, parent } := ⟨rfl, rfl, rfl, rfl⟩
    refine .pure hs1 ⟨h.moved hbasic hm hbooks, hm, hbooks, fun x hx => ?_⟩
    obtain rfl := some.inj hx
    rw [hc.created]
    exact Nat.lt_succ_self _
  · exact .pure hs ⟨h, .refl _ s, ⟨rfl, rfl, rfl, rfl⟩, hsame⟩

theorem replacePhi_ends (hs : s.Safe) (h : Removable imm_predecessors low s) (hlow : low ≤ phi)
    (hphi : phi < s.program.created) (hnot : phi ∉ s.collecting)
    (hundef : undef_opcode ≠ .phi) (hsame : s.Knows same) :
    Ends State.Safe (replacePhi phi block undef_opcode same) s fun r s' => Replaced imm_predecessors low s r.1 s' ∧
        ∀ k ∈ r.2, k.1 < s'.program.created ∧ Reach low s'.collecting k.1 := by
  refine Ends.get_bind ((setBlock_ends hs h _ _ hsame).bind fun _ s1 hs1 h1 => ?_)
  refine (valueOrUndef_ends hs1 h1.removable hundef _ _ h1.knows).bind ?_
  rintro ⟨value, point⟩ s2 hs2 h2
  have h2 := h1.trans h2
  refine Ends.get_bind ((setBlock_ends hs2 h2.removable _ _ h2.knows).bind fun _ s3 hs3 h3 => ?_)
  have hall := h2.trans h3
  refine (edit_ends hs3 _).bind ?_
  rintro - s4 hs4 ⟨program, hprogram, rfl⟩
  have hphi3 : phi < s3.program.created := Nat.lt_of_lt_of_le hphi hall.moved.created
  have hreach : Reach low s3.collecting phi := by
    rw [hall.books.collecting]
    exact ⟨hlow, hnot⟩
  -- The phi and its users become users of the value.
  obtain ⟨he, hop⟩ := Program.replaceUsesWith_edit
    (N := fun u y => value.inst? = some y ∧ (u = phi ∨ s3.program.Uses u phi)) hprogram
    fun y hy => ⟨⟨hy, .inl rfl⟩, fun k hk => ⟨hy, .inr ⟨k, hk, rfl⟩⟩⟩
  have hreplaced := hall.removable.edit he (fun u y hN => by
      obtain ⟨hy, rfl | hu⟩ := hN
      · exact ⟨hphi3, hall.knows y hy, hreach⟩
      · obtain ⟨hlt, hu⟩ := hall.removable.reach hlow hu
        exact ⟨hlt, hall.knows y hy, hu⟩)
    (fun w hw => by
      obtain rfl : w = phi := hw
      rw [hop]
      exact ⟨hphi3, hreach, nofun⟩) hall.knows
  refine .pure hs4 ⟨hall.trans hreplaced, fun k hk => ?_⟩
  obtain ⟨hlt, hu⟩ := h2.removable.reach hlow ⟨k, hk, rfl⟩
  rw [he.created, h3.books.collecting]
  exact ⟨Nat.lt_of_lt_of_le hlt h3.moved.created, hu⟩

theorem tryRemoveTrivialPhi_ends (hundef : undef_opcode ≠ .phi)
    (hs : s.Safe) (h : Removable imm_predecessors low s) (hlow : low ≤ phi)
    (hphi : phi < s.program.created) (hnot : phi ∉ s.collecting) (hop : (s.program.insts phi).op = .phi) :
    Ends State.Safe (tryRemoveTrivialPhi imm_predecessors depth phi block undef_opcode) s fun v s' =>
      Replaced imm_predecessors low s v s' := by
  induction depth generalizing phi block s with
  | zero => exact .failure hs
  | succ depth ih =>
    refine Ends.get_bind ?_
    have hcall : (Call.tryRemoveTrivialPhi phi (s.program.insts phi)
        (imm_predecessors (s.parent phi)) s.collecting).Safe :=
      ⟨hop, h.complete phi hphi hop hnot, hnot⟩
    generalize Call.tryRemoveTrivialPhi phi (s.program.insts phi)
      (imm_predecessors (s.parent phi)) s.collecting = call at hcall ⊢
    have hs1 : State.Safe { s with calls := call :: s.calls } :=
      List.forall_mem_cons.mpr ⟨hcall, hs⟩
    have hrecorded : Replaced imm_predecessors low s (.inst phi) { s with calls := call :: s.calls } :=
      ⟨⟨⟨h.refs, h.uses, h.fresh, h.defs, h.complete, h.phis⟩, h.young, h.unused⟩,
        ⟨Nat.le_refl _, fun _ _ => .inl, fun _ _ _ => ⟨rfl, rfl⟩, fun _ _ => rfl⟩,
        ⟨rfl, rfl, rfl, rfl⟩, fun x hx => some.inj hx ▸ hphi⟩
    refine Ends.modify_bind ?_
    split
    next => exact .failure hs1
    next => exact .pure hs1 hrecorded
    next same hsame =>
      refine (replacePhi_ends hs1 hrecorded.removable hlow hphi hnot hundef (h.knows_same hsame)).bind ?_
      rintro ⟨value, users⟩ s2 hs2 ⟨hreplaced, husers⟩
      have hstart := hrecorded.trans hreplaced
      -- Each user that is still a phi has all its operands, and those that are younger are the only ones that
      -- its users lead to.
      refine (Ends.forM (I := fun rest s' => Replaced imm_predecessors low s value s' ∧
        ∀ k ∈ rest, k.1 < s'.program.created ∧ Reach low s'.collecting k.1) ?_ hs2
          ⟨hstart, husers⟩).bind fun _ s3 hs3 h3 => .pure hs3 h3.1
      rintro user rest s3 hs3 ⟨h3, hrest⟩
      refine Ends.get_bind ?_
      have hrest' : ∀ k ∈ rest, k.1 < s3.program.created ∧ Reach low s3.collecting k.1 :=
        fun k hk => hrest k (List.mem_cons_of_mem _ hk)
      split
      next huser =>
        obtain ⟨hlt, hyoung, hcollecting⟩ := hrest user List.mem_cons_self
        refine (ih hs3 h3.removable hyoung hlt hcollecting huser).bind fun w s4 hs4 h4 => ?_
        refine .pure hs4 ⟨⟨(h3.trans h4).removable, (h3.trans h4).moved, (h3.trans h4).books,
          fun x hx => Nat.lt_of_lt_of_le (h3.knows x hx) h4.moved.created⟩, fun k hk => ?_⟩
        obtain ⟨hlt', hreach⟩ := hrest' k hk
        rw [h4.books.collecting]
        exact ⟨Nat.lt_of_lt_of_le hlt' h4.moved.created, hreach⟩
      next => exact .pure hs3 ⟨h3, hrest'⟩

end Ssa

end ShadPS4.IR
