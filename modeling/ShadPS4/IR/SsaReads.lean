import ShadPS4.IR.SsaRewriteSpec

/-!
# `ReadVariable` and `SealBlock`

`Reading` is the invariant of the loop of `ReadVariable`: the phis on its stack are younger the higher they are,
none of them has older users, and every other phi whose operands are being collected was there before or has no
operands yet.
-/

namespace ShadPS4.IR

open Function List
open Prod (snd)

namespace Ssa

variable {imm_predecessors : ℕ → List ℕ} {s₀ s s' : State} {A B : ℕ → Prop} {depth : ℕ} {var : Variable}
  {value : Value} {frame : ReadState} {rest stack : List ReadState} {top top' : List ℕ}

def State.Unused (s : State) (y : ℕ) : Prop := ∀ x, ¬ s.program.Uses y x

/-- A phi of a block waits for `SealBlock`. -/
structure Waiting (s : State) (block phi : ℕ) : Prop where
  collecting : phi ∈ s.collecting
  parent : s.parent phi = block
  predecessors : (s.program.insts phi).predecessors = []
  unused : s.Unused phi

/-- A frame of the stack holds a phi, and has the predecessors left that it has no operands of. -/
structure Holds (imm_predecessors : ℕ → List ℕ) (s : State) (frame : ReadState) : Prop where
  collecting : frame.phi ∈ s.collecting
  parent : s.parent frame.phi = frame.block
  predecessors : (s.program.insts frame.phi).predecessors ++ frame.preds =
    imm_predecessors frame.block

theorem Waiting.moved (h : Waiting s block phi) (hb : Basic imm_predecessors s)
    (hm : Moved A s s') (hA : ¬ A phi) (hin : phi ∈ s'.collecting) : Waiting s' block phi := by
  have hlt := (hb.phis phi h.collecting).1
  refine ⟨hin, (hm.parent phi hlt).trans h.parent, (hm.kept phi hlt hA).2.trans h.predecessors, ?_⟩
  exact fun x hx => (hm.uses phi x hx).elim (h.unused x) hA

theorem Holds.moved (h : Holds imm_predecessors s frame) (hb : Basic imm_predecessors s)
    (hm : Moved A s s') (hA : ¬ A frame.phi) (hin : frame.phi ∈ s'.collecting) : Holds imm_predecessors s' frame := by
  have hlt := (hb.phis frame.phi h.collecting).1
  refine ⟨hin, (hm.parent _ hlt).trans h.parent, ?_⟩
  rw [(hm.kept _ hlt hA).2]
  exact h.predecessors

/-- What a read leaves of the phis whose operands are being collected when it begins. -/
structure Kept (s₀ s : State) : Prop where
  created : s₀.program.created ≤ s.program.created
  old : ∀ y ∈ s₀.collecting, y < s₀.program.created
  collecting : ∀ y ∈ s₀.collecting, y ∈ s.collecting
  back : ∀ y ∈ s.collecting, y < s₀.program.created → y ∈ s₀.collecting
  uses : ∀ y ∈ s₀.collecting, ∀ x, s.program.Uses y x → s₀.program.Uses y x
  predecessors : ∀ y ∈ s₀.collecting,
    (s.program.insts y).predecessors = (s₀.program.insts y).predecessors
  parent : ∀ w < s₀.program.created, s.parent w = s₀.parent w
  sealed : s.sealed = s₀.sealed

/-! ## The stack -/

def heldPhis (stack : List ReadState) : List ℕ :=
  (stack.filter fun frame => decide (frame.pc = .pushPhiArgument)).map (·.phi)

/-- The frame at the bottom of the stack holds no phi. -/
def Grounded : List ReadState → Prop
  | [] => True
  | [bottom] => bottom.pc ≠ .pushPhiArgument
  | _ :: rest => Grounded rest

/-- The invariant of `ReadVariable`, from the state in which it began, with the phi of a frame that was taken from
the stack. -/
structure Reading (imm_predecessors : ℕ → List ℕ) (B : ℕ → Prop) (s₀ : State) (top : List ℕ)
    (stack : List ReadState) (s : State) : Prop where
  basic : Basic imm_predecessors s
  kept : Kept s₀ s
  grounded : Grounded stack
  knows : ∀ frame ∈ stack, s.Knows frame.result
  holds : ∀ frame ∈ stack, frame.pc = .pushPhiArgument → Holds imm_predecessors s frame
  held : ∀ y ∈ top ++ heldPhis stack, s₀.program.created ≤ y ∧ y ∈ s.collecting
  sorted : (top ++ heldPhis stack).Pairwise (· > ·)
  young : ∀ y ∈ top ++ heldPhis stack, ∀ u x, s.program.Uses u x → y ≤ x → y ≤ u
  origin : ∀ y ∈ s.collecting, y < s₀.program.created ∨ y ∈ top ++ heldPhis stack ∨ s.Unused y
  waits : ∀ b, B b → (∀ e ∈ s.incomplete_phis b, Waiting s b e.2 ∧ e.2 ∉ top ++ heldPhis stack) ∧
    ((s.incomplete_phis b).map snd).Nodup

theorem Reading.moved (h : Reading imm_predecessors B s₀ top stack s)
    (hbasic : Basic imm_predecessors s') (hm : Moved A s s') (hsealed : s'.sealed = s.sealed)
    (hincomplete : s'.incomplete_phis = s.incomplete_phis)
    (hcollecting : ∀ y ∈ s.collecting, y ∉ top → y ∈ s'.collecting ∧ ¬ A y)
    (hnew : ∀ y ∈ s'.collecting, (y ∈ s.collecting ∧ (y ∈ top → y ∈ top')) ∨ y ∈ top' ∨
      (s'.Unused y ∧ s.program.created ≤ y))
    (htop : ∀ y ∈ top', (y ∈ top ∨ s.program.created ≤ y) ∧ y ∈ s'.collecting) (hone : top'.Pairwise (· > ·))
    (hyoung' : ∀ y ∈ top', ∀ u x, s'.program.Uses u x → y ≤ x → y ≤ u)
    (hyoung : ∀ u, A u → ∀ y ∈ heldPhis stack, y ≤ u) : Reading imm_predecessors B s₀ top' stack s' := by
  obtain ⟨-, hsorted, habove⟩ := pairwise_append.mp h.sorted
  have hheld : ∀ y ∈ heldPhis stack, s₀.program.created ≤ y ∧ y ∈ s.collecting :=
    fun y hy => h.held y (mem_append_right _ hy)
  have hnotTop : ∀ y ∈ heldPhis stack, y ∉ top := fun y hy hin => Nat.lt_irrefl y (habove y hin y hy)
  have hnotOld : ∀ y, y < s₀.program.created → y ∉ top := fun y hy hin =>
    Nat.not_le_of_lt hy (h.held y (mem_append_left _ hin)).1
  have hafter : ∀ y ∈ top', s₀.program.created ≤ y := by
    intro y hy
    rcases (htop y hy).1 with hin | hge
    · exact (h.held y (mem_append_left _ hin)).1
    · exact Nat.le_trans h.kept.created hge
  have hold : ∀ y ∈ s₀.collecting, y ∈ s'.collecting ∧ ¬ A y := fun y hy =>
    hcollecting y (h.kept.collecting y hy) (hnotOld y (h.kept.old y hy))
  constructor
  case basic => exact hbasic
  case kept =>
    constructor
    case created => exact Nat.le_trans h.kept.created hm.created
    case old => exact h.kept.old
    case collecting => exact fun y hy => (hold y hy).1
    case back =>
      intro y hy hlt
      rcases hnew y hy with ⟨hin, -⟩ | hin | ⟨-, hge⟩
      · exact h.kept.back y hin hlt
      · exact absurd (hafter y hin) (Nat.not_le_of_lt hlt)
      · exact absurd (Nat.le_trans h.kept.created hge) (Nat.not_le_of_lt hlt)
    case uses =>
      intro y hy x hx
      exact (hm.uses y x hx).elim (h.kept.uses y hy x) fun hA => absurd hA (hold y hy).2
    case predecessors =>
      intro y hy
      have hlt := Nat.lt_of_lt_of_le (h.kept.old y hy) h.kept.created
      exact (hm.kept y hlt (hold y hy).2).2.trans (h.kept.predecessors y hy)
    case parent =>
      intro w hw
      exact (hm.parent w (Nat.lt_of_lt_of_le hw h.kept.created)).trans (h.kept.parent w hw)
    case sealed => exact hsealed.trans h.kept.sealed
  case grounded => exact h.grounded
  case knows => exact fun frame hf x hx => Nat.lt_of_lt_of_le (h.knows frame hf x hx) hm.created
  case holds =>
    intro frame hf hpc
    have hin : frame.phi ∈ heldPhis stack :=
      mem_map_of_mem (mem_filter.mpr ⟨hf, decide_eq_true hpc⟩)
    obtain ⟨hin', hA⟩ := hcollecting _ (hheld _ hin).2 (hnotTop _ hin)
    exact (h.holds frame hf hpc).moved h.basic hm hA hin'
  case held =>
    intro y hy
    rcases mem_append.mp hy with hy | hy
    · exact ⟨hafter y hy, (htop y hy).2⟩
    · exact ⟨(hheld y hy).1, (hcollecting y (hheld y hy).2 (hnotTop y hy)).1⟩
  case sorted =>
    refine pairwise_append.mpr ⟨hone, hsorted, fun y hy y' hy' => ?_⟩
    rcases (htop y hy).1 with hin | hge
    · exact habove y hin y' hy'
    · exact Nat.lt_of_lt_of_le (h.basic.phis y' (hheld y' hy').2).1 hge
  case young =>
    intro y hy u x hu hx
    rcases mem_append.mp hy with hy | hy
    · exact hyoung' y hy u x hu hx
    · exact (hm.uses u x hu).elim (fun ho => h.young y (mem_append_right _ hy) u x ho hx)
        fun hA => hyoung u hA y hy
  case origin =>
    intro y hy
    rcases hnew y hy with ⟨hin, htop'⟩ | hin | ⟨hnone, -⟩
    · by_cases hy' : y ∈ top
      · exact .inr (.inl (mem_append_left _ (htop' hy')))
      · rcases h.origin y hin with hlt | hheld' | hnone
        · exact .inl hlt
        · rcases mem_append.mp hheld' with h' | h'
          · exact absurd h' hy'
          · exact .inr (.inl (mem_append_right _ h'))
        · exact .inr (.inr fun x hx => (hm.uses y x hx).elim (hnone x) (hcollecting y hin hy').2)
    · exact .inr (.inl (mem_append_left _ hin))
    · exact .inr (.inr hnone)
  case waits =>
    intro b hb
    obtain ⟨hentries, hnodup⟩ := h.waits b hb
    rw [hincomplete]
    refine ⟨fun e he => ?_, hnodup⟩
    obtain ⟨hwaiting, hnot⟩ := hentries e he
    have hnotTop' : e.2 ∉ top := fun hin => hnot (mem_append_left _ hin)
    obtain ⟨hin, hA⟩ := hcollecting _ hwaiting.collecting hnotTop'
    refine ⟨hwaiting.moved h.basic hm hA hin, fun hin' => ?_⟩
    rcases mem_append.mp hin' with hin' | hin'
    · rcases (htop _ hin').1 with hin'' | hge
      · exact hnotTop' hin''
      · exact Nat.not_le_of_lt (h.basic.phis _ hwaiting.collecting).1 hge
    · exact hnot (mem_append_right _ hin')

/-! ## Frames that are pushed and popped -/

theorem heldPhis_cons_of_ne (hpc : frame.pc ≠ .pushPhiArgument) : heldPhis (frame :: rest) = heldPhis rest := by
  unfold heldPhis
  rw [filter_cons_of_neg (by simpa using hpc)]

theorem heldPhis_cons_of_eq (hpc : frame.pc = .pushPhiArgument) :
    heldPhis (frame :: rest) = frame.phi :: heldPhis rest := by
  unfold heldPhis
  rw [filter_cons_of_pos (by simpa using hpc), map_cons]

theorem heldPhis_setResult (value : Value) (stack : List ReadState) :
    heldPhis (setResult value stack) = heldPhis stack := by
  cases stack with
  | nil => rfl
  | cons frame rest =>
    unfold heldPhis setResult
    rw [filter_cons, filter_cons]
    split <;> rfl

theorem grounded_cons (hne : stack ≠ []) : Grounded (frame :: stack) ↔ Grounded stack := by
  cases stack with
  | nil => exact absurd rfl hne
  | cons frame' rest => exact Iff.rfl

theorem Grounded.tail (h : Grounded (frame :: stack)) : Grounded stack := by
  cases stack with
  | nil => trivial
  | cons frame' rest => exact h

theorem grounded_setResult (value : Value) (stack : List ReadState) :
    Grounded (setResult value stack) ↔ Grounded stack := by
  match stack with
  | [] => exact Iff.rfl
  | [_] => exact Iff.rfl
  | _ :: _ :: _ => exact Iff.rfl

theorem Reading.restack (h : Reading imm_predecessors B s₀ top stack s)
    (hheld : top' ++ heldPhis stack' = top ++ heldPhis stack) (hgrounded : Grounded stack')
    (hknows : ∀ frame ∈ stack', s.Knows frame.result)
    (hholds : ∀ frame ∈ stack', frame.pc = .pushPhiArgument → Holds imm_predecessors s frame) :
    Reading imm_predecessors B s₀ top' stack' s where
  basic := h.basic
  kept := h.kept
  grounded := hgrounded
  knows := hknows
  holds := hholds
  held := by rw [hheld]; exact h.held
  sorted := by rw [hheld]; exact h.sorted
  young := by rw [hheld]; exact h.young
  origin := by rw [hheld]; exact h.origin
  waits := by rw [hheld]; exact h.waits

theorem Reading.push (h : Reading imm_predecessors B s₀ top stack s) (hknows : s.Knows frame.result)
    (hpc : frame.pc ≠ .pushPhiArgument) : Reading imm_predecessors B s₀ top (frame :: stack) s :=
  h.restack (by rw [heldPhis_cons_of_ne hpc]) (by cases stack <;> [exact hpc; exact h.grounded])
    (forall_mem_cons.mpr ⟨hknows, h.knows⟩) (forall_mem_cons.mpr ⟨fun hpc' => absurd hpc' hpc, h.holds⟩)

theorem Reading.hold (h : Reading imm_predecessors B s₀ [frame.phi] stack s) (hne : stack ≠ [])
    (hknows : s.Knows frame.result) (hholds : Holds imm_predecessors s frame)
    (hpc : frame.pc = .pushPhiArgument) : Reading imm_predecessors B s₀ [] (frame :: stack) s :=
  h.restack (by rw [heldPhis_cons_of_eq hpc]; rfl) ((grounded_cons hne).mpr h.grounded)
    (forall_mem_cons.mpr ⟨hknows, h.knows⟩) (forall_mem_cons.mpr ⟨fun _ => hholds, h.holds⟩)

theorem Reading.pop (h : Reading imm_predecessors B s₀ top (frame :: stack) s)
    (hpc : frame.pc ≠ .pushPhiArgument) : Reading imm_predecessors B s₀ top stack s :=
  h.restack (by rw [heldPhis_cons_of_ne hpc]) h.grounded.tail (forall_mem_cons.mp h.knows).2
    (forall_mem_cons.mp h.holds).2

theorem Reading.take (h : Reading imm_predecessors B s₀ [] (frame :: stack) s)
    (hpc : frame.pc = .pushPhiArgument) : Reading imm_predecessors B s₀ [frame.phi] stack s :=
  h.restack (by rw [heldPhis_cons_of_eq hpc]; rfl) h.grounded.tail (forall_mem_cons.mp h.knows).2
    (forall_mem_cons.mp h.holds).2

theorem Reading.setResult (h : Reading imm_predecessors B s₀ top stack s) (hvalue : s.Knows value) :
    Reading imm_predecessors B s₀ top (setResult value stack) s := by
  refine h.restack (by rw [heldPhis_setResult]) ((grounded_setResult value stack).mpr h.grounded) ?_ ?_
  · cases stack with
    | nil => exact h.knows
    | cons frame rest =>
      exact forall_mem_cons.mpr ⟨hvalue, (forall_mem_cons.mp h.knows).2⟩
  · cases stack with
    | nil => exact h.holds
    | cons frame rest =>
      obtain ⟨hframe, hrest⟩ := forall_mem_cons.mp h.holds
      refine forall_mem_cons.mpr ⟨fun hpc => ?_, hrest⟩
      exact ⟨(hframe hpc).collecting, (hframe hpc).parent, (hframe hpc).predecessors⟩

/-! ## The turns of the loop -/

theorem Basic.write (h : Basic imm_predecessors s) (hvalue : s.Knows value) (var : Variable)
    (block : ℕ) : Basic imm_predecessors { s with
      current_def := update s.current_def var.entry
        (update (s.current_def var.entry) block value) } where
  refs := h.refs
  uses := h.uses
  fresh := h.fresh
  defs v b := by
    show s.program.Valid (update s.current_def var.entry
      (update (s.current_def var.entry) block value) v b)
    rcases eq_or_ne v var.entry with rfl | hv
    · rw [update_self]
      rcases eq_or_ne b block with rfl | hb
      · rw [update_self]
        exact hvalue
      · rw [update_of_ne hb]
        exact h.defs _ b
    · rw [update_of_ne hv]
      exact h.defs v b
  complete := h.complete
  phis := h.phis

theorem Reading.writeVariable_ends (hs : s.Safe) (h : Reading imm_predecessors B s₀ top stack s)
    (hvalue : s.Knows value) (var : Variable) (block : ℕ) :
    Ends State.Safe (writeVariable var block value) s fun _ s' =>
      Reading imm_predecessors B s₀ top stack s' ∧ s'.program = s.program ∧ s'.parent = s.parent ∧
        s'.collecting = s.collecting := by
  refine .modify hs ⟨?_, rfl, rfl, rfl⟩
  exact h.moved (A := fun _ => False) (h.basic.write hvalue var block)
    ⟨Nat.le_refl _, fun _ _ => .inl, fun _ _ _ => ⟨rfl, rfl⟩, fun _ _ => rfl⟩ rfl rfl
    (fun y hy _ => ⟨hy, id⟩) (fun y hy => .inl ⟨hy, id⟩)
    (fun y hy => ⟨.inl hy, (h.held y (mem_append_left _ hy)).2⟩)
    (pairwise_append.mp h.sorted).1 (fun y hy => h.young y (mem_append_left _ hy))
    (fun _ => False.elim)

theorem setValue_ends (hs : s.Safe) (h : Reading imm_predecessors B s₀ [] rest s)
    (hvalue : s.Knows value) (var : Variable) (block : ℕ) :
    Ends State.Safe (setValue var block value rest) s fun stack s' => Reading imm_predecessors B s₀ [] stack s' := by
  refine (h.writeVariable_ends hs hvalue var block).bind fun _ s' hs' ⟨h', hprogram, _⟩ => ?_
  refine .pure hs' (h'.setResult ?_)
  unfold State.Knows
  rw [hprogram]
  exact hvalue

theorem newPhi_eq (hs : s.Safe) (var : Variable) (block : ℕ) :
    Ends State.Safe (newPhi var block) s fun phi s' => phi = s.program.created ∧ ∃ inst program parent, s' = { s with
        program, parent, collecting := s.program.created :: s.collecting } ∧
        Created s inst program parent ∧ inst.op = .phi ∧ inst.predecessors = [] ∧
        parent s.program.created = block := by
  refine (prepend_ends hs block 0 .phi).bind ?_
  rintro phi s1 hs1 ⟨rfl, program, parent, rfl, hc, hparent⟩
  refine (edit_ends hs1 _).bind ?_
  rintro - s2 hs2 ⟨program', hprogram', rfl⟩
  obtain rfl := Option.some.inj hprogram'
  refine Ends.modify_bind (.pure hs2 ⟨rfl, { op := .phi, flags := var.type }, _, parent, rfl,
    ⟨hc.created, ?_, fun i => ?_, rfl, hc.parent⟩, rfl, rfl, hparent⟩)
  · show update program.insts s.program.created
      { program.insts s.program.created with flags := var.type } = _
    rw [hc.insts_self, hc.insts, update_idem]
  · unfold Inst.arg
    split <;> rfl

theorem newPhi_ends (hs : s.Safe) (h : Reading imm_predecessors B s₀ [] rest s) (var : Variable)
    (block : ℕ) : Ends State.Safe (newPhi var block) s fun phi s' =>
      s.program.created ≤ phi ∧ phi < s'.program.created ∧
        s'.incomplete_phis = s.incomplete_phis ∧ Waiting s' block phi ∧
        ∀ top', top' = [] ∨ top' = [phi] → Reading imm_predecessors B s₀ top' rest s' := by
  refine (newPhi_eq hs var block).mono ?_
  rintro phi s' - ⟨rfl, inst, program, parent, rfl, hc, hop, hpredecessors, hparent⟩
  have hbasic := h.basic.create hc (.inr ⟨hop, rfl⟩)
  have hunused : ∀ x, ¬ program.Uses s.program.created x := fun x hx =>
    Nat.lt_irrefl _ (h.basic.uses _ x (hc.uses_iff hx)).1
  refine ⟨Nat.le_refl _, (hbasic.phis _ mem_cons_self).1, rfl,
    ⟨mem_cons_self, hparent, ?_, hunused⟩, fun top' htop' => ?_⟩
  · show (program.insts s.program.created).predecessors = []
    rw [hc.insts_self, hpredecessors]
  · have hmem : ∀ y ∈ top', y = s.program.created := by
      rcases htop' with rfl | rfl
      · nofun
      · exact fun y hy => mem_singleton.mp hy
    refine h.moved (A := fun _ => False) hbasic (Moved.create hc _) rfl rfl ?_ ?_ ?_ ?_ ?_ ?_
    · exact fun y hy _ => ⟨mem_cons_of_mem _ hy, id⟩
    · intro y hy
      rcases mem_cons.mp hy with rfl | hin
      · exact .inr (.inr ⟨hunused, Nat.le_refl _⟩)
      · exact .inl ⟨hin, nofun⟩
    · intro y hy
      obtain rfl := hmem y hy
      exact ⟨.inr (Nat.le_refl _), mem_cons_self⟩
    · rcases htop' with rfl | rfl
      · exact .nil
      · exact pairwise_singleton _ _
    · intro y hy u x hu hx
      obtain rfl := hmem y hy
      exact absurd (h.basic.uses u x (hc.uses_iff hu)).2 (Nat.not_lt_of_le hx)
    · exact fun _ => False.elim

theorem Basic.removable (h : Basic imm_predecessors s)
    (hcomplete : (s.program.insts phi).predecessors = imm_predecessors (s.parent phi))
    (hyoung : ∀ u x, s.program.Uses u x → low ≤ x → low ≤ u)
    (hunused : ∀ y ∈ s.collecting, y ≠ phi → ∀ x, low ≤ x → ¬ s.program.Uses y x) :
    Removable imm_predecessors low { s with collecting := s.collecting.filter (· ≠ phi) } where
  refs := h.refs
  uses := h.uses
  fresh := h.fresh
  defs := h.defs
  complete x hx hop hnot := by
    rcases eq_or_ne x phi with rfl | hne
    · exact hcomplete
    · exact h.complete x hx hop fun hin => hnot (mem_filter.mpr ⟨hin, decide_eq_true hne⟩)
  phis x hx := h.phis x (mem_filter.mp hx).1
  young := hyoung
  unused y hy x hx := by
    obtain ⟨hin, hne⟩ := mem_filter.mp hy
    exact hunused y hin (of_decide_eq_true hne) x hx

theorem preparePhiOperand_ends (hs : s.Safe) (h : Reading imm_predecessors B s₀ [frame.phi] rest s)
    (hne : rest ≠ []) (hholds : Holds imm_predecessors s frame) (hknows : s.Knows frame.result) :
    Ends State.Safe (preparePhiOperand imm_predecessors depth var frame rest) s fun stack s' =>
      Reading imm_predecessors B s₀ [] stack s' := by
  unfold preparePhiOperand
  split
  next hpreds =>
    obtain ⟨hin, hparent, hpredecessors⟩ := hholds
    rw [hpreds, append_nil, ← hparent] at hpredecessors
    obtain ⟨hlt, hop⟩ := h.basic.phis _ hin
    have hhead : frame.phi ∈ [frame.phi] ++ heldPhis rest := mem_cons_self
    have hbelow : ∀ y ∈ heldPhis rest, y < frame.phi :=
      fun y hy => (pairwise_cons.mp h.sorted).1 y hy
    -- The other phis whose operands are being collected are older, or no users.
    have hremovable := h.basic.removable hpredecessors (h.young _ hhead) fun y hy hne x hx hu => by
      rcases h.origin y hy with hold | hheld | hnone
      · have hyoung := h.young _ hhead y x hu hx
        have hafter := (h.held _ hhead).1
        omega
      · rcases mem_cons.mp hheld with rfl | hheld
        · exact hne rfl
        · exact Nat.not_le_of_lt (hbelow y hheld) (h.young _ hhead y x hu hx)
      · exact hnone x hu
    have hs' : State.Safe { s with collecting := s.collecting.filter (· ≠ frame.phi) } := hs
    refine Ends.modify_bind ((tryRemoveTrivialPhi_ends ?_ hs' hremovable (Nat.le_refl _) hlt ?_
      hop).bind fun value s1 hs1 h1 => ?_)
    · cases var <;> exact nofun
    · simp
    · refine Ends.modify_bind (.pure hs1 (Reading.setResult (Reading.moved h
        (h1.removable.toBasic.write h1.knows var frame.block)
        ⟨h1.moved.created, h1.moved.uses, h1.moved.kept, h1.moved.parent⟩ h1.books.sealed
        h1.books.incomplete_phis ?_ ?_ nofun .nil nofun ?_) h1.knows))
      · intro y hy hne
        have hin' : y ∈ s.collecting.filter (· ≠ frame.phi) :=
          mem_filter.mpr ⟨hy, decide_eq_true fun heq => hne (heq ▸ mem_singleton_self _)⟩
        refine ⟨?_, fun hreach => hreach.2 hin'⟩
        rw [h1.books.collecting]
        exact hin'
      · intro y hy
        rw [h1.books.collecting] at hy
        obtain ⟨hin', hne⟩ := mem_filter.mp hy
        exact .inl ⟨hin', fun htop => absurd (mem_singleton.mp htop) (of_decide_eq_true hne)⟩
      · exact fun u hu y hy => Nat.le_trans (Nat.le_of_lt (hbelow y hy)) hu.1
  next imm_pred preds hpreds =>
    have hheld : Reading imm_predecessors B s₀ [] ({ frame with pc := .pushPhiArgument } :: rest) s :=
      Reading.hold h hne hknows ⟨hholds.collecting, hholds.parent, hholds.predecessors⟩ rfl
    exact .pure hs (hheld.push nofun nofun)

theorem pushPhiArgument_ends (hs : s.Safe) (h : Reading imm_predecessors B s₀ [frame.phi] rest s)
    (hholds : Holds imm_predecessors s frame) (hknows : s.Knows frame.result)
    (hpreds : frame.preds = imm_pred :: preds) :
    Ends State.Safe (addPhiOperand frame.phi imm_pred frame.result) s fun _ s' =>
      Reading imm_predecessors B s₀ [frame.phi] rest s' ∧
        Holds imm_predecessors s' { frame with preds } ∧ s'.Knows frame.result := by
  obtain ⟨hin, hparent, hpredecessors⟩ := hholds
  obtain ⟨hlt, hop⟩ := h.basic.phis _ hin
  have hs' : State.Safe { s with
      calls := .addPhiOperand (s.program.insts frame.phi) :: s.calls } :=
    forall_mem_cons.mpr ⟨hop, hs⟩
  refine Ends.get_bind (Ends.modify_bind ((edit_ends hs' _).mono ?_))
  rintro - s1 - ⟨program, hprogram, rfl⟩
  -- The phi, and no other instruction, becomes a user.
  obtain ⟨he, hop', hpredecessors'⟩ := Program.addPhiOperand_edit
    (N := fun u x => u = frame.phi ∧ frame.result.inst? = some x) hprogram fun x hx => ⟨rfl, hx⟩
  have hbasic := h.basic.edit he (fun u x hN => hN.1 ▸ ⟨hlt, hknows x hN.2⟩) fun w hw =>
    hw ▸ ⟨hlt, fun _ => hop', fun hnot => absurd hin hnot⟩
  have hm : Moved (· = frame.phi) s { s with program } :=
    Moved.edit he (fun u x hN => hN.1) fun w hw => hw
  have hheld := h.held frame.phi mem_cons_self
  refine ⟨h.moved ⟨hbasic.refs, hbasic.uses, hbasic.fresh, hbasic.defs, hbasic.complete, hbasic.phis⟩
    ⟨hm.created, hm.uses, hm.kept, hm.parent⟩ rfl rfl ?_ ?_ ?_ (pairwise_singleton _ _) ?_ ?_,
    ⟨hin, hparent, ?_⟩, fun x hx => Nat.lt_of_lt_of_le (hknows x hx) hm.created⟩
  · exact fun y hy hne => ⟨hy, fun heq => hne (heq ▸ mem_singleton_self _)⟩
  · exact fun y hy => .inl ⟨hy, id⟩
  · intro y hy
    obtain rfl := mem_singleton.mp hy
    exact ⟨.inl hy, hin⟩
  · intro y hy u x hu hx
    obtain rfl := mem_singleton.mp hy
    rcases hm.uses u x hu with hold | rfl
    · exact h.young _ mem_cons_self u x hold hx
    · exact Nat.le_refl _
  · intro u hu y hy
    obtain rfl : u = frame.phi := hu
    exact Nat.le_of_lt ((pairwise_cons.mp h.sorted).1 y hy)
  · show (program.insts frame.phi).predecessors ++ preds = _
    rw [hpredecessors', append_assoc, singleton_append, ← hpreds]
    exact hpredecessors

theorem State.knows_inst (h : x < s.program.created) : s.Knows (.inst x) := by
  intro y hy
  obtain rfl := Option.some.inj hy
  exact h

theorem before_asymm {v w : Variable} (h : v.before w = true) : w.before v = false := by
  unfold Variable.before at h ⊢
  simp only [Bool.or_eq_true, Bool.and_eq_true, decide_eq_true_eq, Bool.or_eq_false_iff,
    Bool.and_eq_false_iff, decide_eq_false_iff_not] at h ⊢
  omega

theorem nodup_insertOrAssign {entries : List (Variable × ℕ)} {phi : ℕ}
    (h : (entries.map snd).Nodup) (hphi : ∀ e ∈ entries, e.2 ≠ phi) :
    ((entries.filter (·.1.before var) ++ (var, phi) :: entries.filter (var.before ·.1)).map snd).Nodup := by
  rw [map_append, map_cons, nodup_middle, nodup_cons, mem_append]
  have hsub : ∀ p : Variable × ℕ → Bool, ((entries.filter p).map snd).Nodup :=
    fun p => h.sublist (filter_sublist.map _)
  have hnot : ∀ p : Variable × ℕ → Bool, phi ∉ (entries.filter p).map snd := by
    intro p hin
    obtain ⟨e, he, heq⟩ := mem_map.mp hin
    exact hphi e (mem_filter.mp he).1 heq
  refine ⟨not_or.mpr ⟨hnot _, hnot _⟩, nodup_append.mpr ⟨hsub _, hsub _, ?_⟩⟩
  -- An entry with the same phi is the same, and does not lie on both sides.
  rintro x hx y hy rfl
  obtain ⟨e, he, rfl⟩ := mem_map.mp hx
  obtain ⟨e', he', heq⟩ := mem_map.mp hy
  obtain ⟨hin, hbefore⟩ := mem_filter.mp he
  obtain ⟨hin', hafter⟩ := mem_filter.mp he'
  obtain rfl := inj_on_of_nodup_map h hin' hin heq
  rw [before_asymm hbefore] at hafter
  cases hafter

theorem Reading.wait (h : Reading imm_predecessors B s₀ [] rest s) (var : Variable) {block phi : ℕ}
    (hwaiting : Waiting s block phi) (hheld : phi ∉ heldPhis rest)
    (hphi : ∀ e ∈ s.incomplete_phis block, B block → e.2 ≠ phi) : Reading imm_predecessors B s₀ [] rest { s with
      incomplete_phis := update s.incomplete_phis block
        ((s.incomplete_phis block).filter (·.1.before var) ++ (var, phi) ::
          (s.incomplete_phis block).filter (var.before ·.1)) } where
  basic := ⟨h.basic.refs, h.basic.uses, h.basic.fresh, h.basic.defs, h.basic.complete, h.basic.phis⟩
  kept := ⟨h.kept.created, h.kept.old, h.kept.collecting, h.kept.back, h.kept.uses,
    h.kept.predecessors, h.kept.parent, h.kept.sealed⟩
  grounded := h.grounded
  knows := h.knows
  holds frame hf hpc := ⟨(h.holds frame hf hpc).collecting, (h.holds frame hf hpc).parent,
    (h.holds frame hf hpc).predecessors⟩
  held := h.held
  sorted := h.sorted
  young := h.young
  origin := h.origin
  waits b hb := by
    obtain ⟨hentries, hnodup⟩ := h.waits b hb
    show (∀ e ∈ update s.incomplete_phis block _ b, _) ∧
      ((update s.incomplete_phis block _ b).map snd).Nodup
    rcases eq_or_ne b block with rfl | hne
    · rw [update_self]
      refine ⟨fun e he => ?_, nodup_insertOrAssign hnodup fun e he => hphi e he hb⟩
      have hcases : e = (var, phi) ∨ e ∈ s.incomplete_phis b := by
        rcases mem_append.mp he with he | he
        · exact .inr (mem_filter.mp he).1
        · exact (mem_cons.mp he).imp_right fun he => (mem_filter.mp he).1
      rcases hcases with rfl | he
      · exact ⟨⟨hwaiting.collecting, hwaiting.parent, hwaiting.predecessors, hwaiting.unused⟩, hheld⟩
      · obtain ⟨hw, hnot⟩ := hentries e he
        exact ⟨⟨hw.collecting, hw.parent, hw.predecessors, hw.unused⟩, hnot⟩
    · rw [update_of_ne hne]
      refine ⟨fun e he => ?_, hnodup⟩
      obtain ⟨hw, hnot⟩ := hentries e he
      exact ⟨⟨hw.collecting, hw.parent, hw.predecessors, hw.unused⟩, hnot⟩

theorem startRead_ends (hs : s.Safe) (h : Reading imm_predecessors B s₀ [] rest s)
    (hne : rest ≠ []) (hknows : s.Knows frame.result) :
    Ends State.Safe (startRead imm_predecessors depth var frame rest) s fun stack s' =>
      Reading imm_predecessors B s₀ [] stack s' := by
  refine Ends.get_bind ?_
  split_ifs with hdef hsealed
  · exact setValue_ends hs h (h.basic.defs _ _) var frame.block
  · refine (newPhi_ends hs h var frame.block).bind ?_
    rintro phi s1 hs1 ⟨hfresh, hlt, hincomplete, hwaiting, hreading⟩
    have hheld : phi ∉ heldPhis rest := fun hin =>
      Nat.not_le_of_lt (h.basic.phis phi (h.held phi hin).2).1 hfresh
    have hentries : ∀ e ∈ s1.incomplete_phis frame.block, B frame.block → e.2 ≠ phi := by
      rw [hincomplete]
      rintro e he hb rfl
      exact Nat.not_le_of_lt (h.basic.phis e.2 ((h.waits _ hb).1 e he).1.collecting).1 hfresh
    have hwaits := (hreading [] (.inl rfl)).wait var hwaiting hheld hentries
    refine Ends.modify_bind (setValue_ends (?_ : State.Safe _) hwaits ?_ var frame.block)
    · exact hs1
    · exact State.knows_inst hlt
  · split
    next imm_pred _ =>
      have h1 : Reading imm_predecessors B s₀ [] ({ frame with pc := .setValue } :: rest) s :=
        h.push hknows nofun
      exact .pure hs (h1.push nofun nofun)
    next =>
      refine (newPhi_ends hs h var frame.block).bind ?_
      rintro phi s1 hs1 ⟨hfresh, hlt, -, hwaiting, hreading⟩
      refine ((hreading [phi] (.inr rfl)).writeVariable_ends hs1 (State.knows_inst hlt) var frame.block).bind ?_
      rintro - s2 hs2 ⟨h2, hprogram, hparent, hcollecting⟩
      refine preparePhiOperand_ends hs2 h2 hne ⟨?_, ?_, ?_⟩ fun x hx => ?_
      · rw [hcollecting]
        exact hwaiting.collecting
      · rw [hparent]
        exact hwaiting.parent
      · rw [hprogram]
        rw [hwaiting.predecessors]
        rfl
      · rw [hprogram]
        exact Nat.lt_trans (Nat.lt_of_lt_of_le (hknows x hx) hfresh) hlt

theorem readStep_ends (hs : s.Safe) (h : Reading imm_predecessors B s₀ [] (frame :: rest) s) (hne : rest ≠ []) :
    Ends State.Safe (readStep imm_predecessors depth var frame rest) s fun stack s' =>
      Reading imm_predecessors B s₀ [] stack s' := by
  have hknows := h.knows frame mem_cons_self
  unfold readStep
  split
  next hpc => exact startRead_ends hs (h.pop (by rw [hpc]; exact nofun)) hne hknows
  next hpc => exact setValue_ends hs (h.pop (by rw [hpc]; exact nofun)) hknows var frame.block
  next hpc =>
    split
    next => exact .failure hs
    next imm_pred preds hpreds =>
      have hholds := h.holds frame mem_cons_self hpc
      refine (pushPhiArgument_ends hs (h.take hpc) hholds hknows hpreds).bind ?_
      rintro - s1 hs1 ⟨h1, hholds1, hknows1⟩
      exact preparePhiOperand_ends hs1 h1 hne hholds1 hknows1

/-- The phis of some blocks wait for `SealBlock`, each once. -/
def WaitsFor (B : ℕ → Prop) (s : State) : Prop := ∀ b, B b →
  (∀ e ∈ s.incomplete_phis b, Waiting s b e.2) ∧ ((s.incomplete_phis b).map snd).Nodup

structure Read (imm_predecessors : ℕ → List ℕ) (B : ℕ → Prop) (s₀ : State) (value : Value)
    (s : State) : Prop where
  basic : Basic imm_predecessors s
  kept : Kept s₀ s
  knows : s.Knows value
  unused : ∀ y ∈ s.collecting, y < s₀.program.created ∨ s.Unused y
  waits : WaitsFor B s

theorem Reading.done (h : Reading imm_predecessors B s₀ [] [bottom] s) :
    Read imm_predecessors B s₀ bottom.result s := by
  have hnone : heldPhis [bottom] = [] := heldPhis_cons_of_ne h.grounded
  refine ⟨h.basic, h.kept, h.knows bottom (mem_singleton_self _), fun y hy => ?_, fun b hb => ?_⟩
  · have horigin := h.origin y hy
    rw [hnone] at horigin
    exact horigin.imp_right fun hor => hor.resolve_left not_mem_nil
  · exact ⟨fun e he => ((h.waits b hb).1 e he).1, (h.waits b hb).2⟩

theorem readLoop_ends (hs : s.Safe) (h : Reading imm_predecessors B s₀ [] (frame :: rest) s) (hne : rest ≠ []) :
    Ends State.Safe (readLoop imm_predecessors depth var turns (frame :: rest)) s fun value s' =>
      Read imm_predecessors B s₀ value s' := by
  induction turns generalizing frame rest s with
  | zero => exact .failure hs
  | succ turns ih =>
    refine (readStep_ends hs h hne).bind fun stack s' hs' h' => ?_
    match stack with
    | [] => cases turns <;> exact .failure hs'
    | [bottom] => exact .pure hs' h'.done
    | frame' :: frame'' :: rest' => exact ih hs' h' (cons_ne_nil _ _)

theorem readVariable_ends (hs : s.Safe) (h : Basic imm_predecessors s) (hwaits : WaitsFor B s) (root_block : ℕ) :
    Ends State.Safe (readVariable imm_predecessors depth var root_block) s fun value s' =>
      Read imm_predecessors B s value s' := by
  refine readLoop_ends hs ?_ (cons_ne_nil _ _)
  constructor
  case basic => exact h
  case kept =>
    exact ⟨Nat.le_refl _, fun y hy => (h.phis y hy).1, fun _ => id, fun _ hy _ => hy, fun _ _ _ => id,
      fun _ _ => rfl, fun _ _ => rfl, rfl⟩
  case grounded => rintro ⟨⟩
  case knows => simp [State.Knows, Program.Valid, Value.inst?]
  case holds => simp
  case held => simp [heldPhis]
  case sorted => exact .nil
  case young => simp [heldPhis]
  case origin => exact fun y hy => .inl (h.phis y hy).1
  case waits => exact fun b hb => ⟨fun e he => ⟨(hwaits b hb).1 e he, by simp [heldPhis]⟩, (hwaits b hb).2⟩

end Ssa

end ShadPS4.IR
