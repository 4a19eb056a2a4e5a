import ShadPS4.IR.UsesSpec

/-!
# What the passes leave

`DeadCodeEliminationPass` removes instructions one by one, each of which has no side effects and is used by none
but those that were removed before it.
-/

namespace ShadPS4.IR

open Function List
open Option (some.inj)

namespace Program

variable {p p' q q' : Program} {block x u index : ℕ} {removed blocks : List ℕ} {v w : Value}

/-- The instructions of a block that have side effects, in their order. -/
def effects (p : Program) (b : ℕ) : List ℕ :=
  (p.blocks b).filter fun x => (p.insts x).op.mayHaveSideEffects

theorem SameArgs.erase (h : p.SameArgs q) (block x : ℕ) : (p.erase block x).SameArgs (q.erase block x) where
  created := h.created
  blocks := by
    unfold Program.erase
    rw [h.blocks]
  insts := h.insts

theorem Wf.erase (hp : p.Wf) (block x : ℕ) : (p.erase block x).Wf := by
  have hsub (b : ℕ) : ((p.erase block x).blocks b).Sublist (p.blocks b) := by
    show (update p.blocks block ((p.blocks block).erase x) b).Sublist _
    rcases eq_or_ne b block with rfl | hb
    · rw [update_self]
      exact erase_sublist
    · rw [update_of_ne hb]
  exact {
    valid := hp.valid
    slots := hp.slots
    fresh := hp.fresh
    nodup := fun b => (hsub b).nodup (hp.nodup b)
    parent := fun b b' y hy hy' => hp.parent b b' y ((hsub b).subset hy) ((hsub b').subset hy')
    placed := fun b y hy => hp.placed b y ((hsub b).subset hy)
    exact := hp.exact }

theorem Shaped.erase_blocks (hp : p.Shaped) (hx : x ∈ p.blocks block) (b : ℕ) :
    (p.erase block x).blocks b = (p.blocks b).filter (· != x) := by
  show update p.blocks block ((p.blocks block).erase x) b = _
  rcases eq_or_ne b block with rfl | hb
  · rw [update_self, (hp.nodup b).erase_eq_filter]
  · rw [update_of_ne hb]
    refine (filter_eq_self.mpr fun y hy => bne_iff_ne.mpr fun heq => ?_).symm
    exact hb (hp.parent b block x (heq ▸ hy) hx)

/-! ## `DeadCodeEliminationPass` -/

def without (p : Program) (removed : List ℕ) : Program :=
  { p with
    insts := fun x => if x ∈ removed then (p.insts x).clear.become .void else p.insts x
    blocks := fun b => (p.blocks b).filter (· ∉ removed) }

/-- The instructions of a list, the last one first, have no side effects, and are used by none but those
that come before. -/
inductive Eliminable (p : Program) : List ℕ → Prop
  | nil : Eliminable p []
  | cons {removed : List ℕ} {x : ℕ} (h : Eliminable p removed) (hnew : x ∉ removed)
    (hpure : (p.insts x).op.mayHaveSideEffects = false) (huses : ∀ use ∈ p.users x, use.1 ∈ removed) :
    Eliminable p (x :: removed)

theorem Eliminable.pure (h : p.Eliminable removed) (hx : x ∈ removed) :
    (p.insts x).op.mayHaveSideEffects = false := by
  induction h with
  | nil => cases hx
  | cons _ _ hpure _ ih =>
    rcases mem_cons.mp hx with rfl | hx
    · exact hpure
    · exact ih hx

theorem Eliminable.users (h : p.Eliminable removed) (hx : x ∈ removed) {use : ℕ × ℕ}
    (huse : use ∈ p.users x) : use.1 ∈ removed := by
  induction h with
  | nil => cases hx
  | cons _ _ _ huses ih =>
    apply mem_cons_of_mem
    rcases mem_cons.mp hx with rfl | hx
    · exact huses use huse
    · exact ih hx

theorem without_insts (hx : x ∉ removed) : (p.without removed).insts x = p.insts x := if_neg hx

theorem without_arg (hx : x ∈ removed) (i : ℕ) : ((p.without removed).insts x).arg i = .void := by
  have hinst : (p.without removed).insts x = (p.insts x).clear.become .void := if_pos hx
  rw [hinst]
  exact Inst.become_arg (fun hphi => by cases hphi) (Inst.clear_arg _) i

theorem filter_cons (x : ℕ) (removed l : List ℕ) :
    (l.filter (· ∉ removed)).filter (· != x) = l.filter (· ∉ x :: removed) := by
  rw [filter_filter]
  apply filter_congr
  intro y _
  rw [Bool.eq_iff_iff, Bool.and_eq_true, bne_iff_ne, decide_eq_true_iff, decide_eq_true_iff, mem_cons, not_or]

theorem without_cons (hp : p.Shaped) (hnew : x ∉ removed) (hx : x ∈ p.blocks block) :
    ((p.without removed).setInst x (((p.without removed).insts x).clear.become .void)).erase block x =
      p.without (x :: removed) := by
  have hinsts : update (p.without removed).insts x
      (((p.without removed).insts x).clear.become .void) = (p.without (x :: removed)).insts := by
    funext y
    rcases eq_or_ne y x with rfl | hy
    · rw [update_self, without_insts hnew]
      exact (if_pos mem_cons_self).symm
    · rw [update_of_ne hy]
      have hiff : y ∈ removed ↔ y ∈ x :: removed := by
        rw [mem_cons]
        exact (or_iff_right hy).symm
      exact if_congr hiff rfl rfl
  have hblocks : update (p.without removed).blocks block
      (((p.without removed).blocks block).erase x) = (p.without (x :: removed)).blocks := by
    funext b
    show _ = (p.blocks b).filter (· ∉ x :: removed)
    rw [← filter_cons]
    rcases eq_or_ne b block with rfl | hb
    · rw [update_self]
      exact ((hp.nodup b).filter _).erase_eq_filter x
    · rw [update_of_ne hb]
      refine (filter_eq_self.mpr fun y hy => bne_iff_ne.mpr fun heq => ?_).symm
      exact hb (hp.parent b block x (heq ▸ (mem_filter.mp hy).1) hx)
  exact congrArg₂ (fun insts blocks => { p with insts, blocks }) hinsts hblocks

/-- How far a run of `DeadCodeEliminationPass` over a program has come. -/
structure Eliminating (p q : Program) : Prop where
  wf : q.Wf
  removed : ∃ removed, p.Eliminable removed ∧ (∀ x ∈ removed, ∃ b, x ∈ p.blocks b) ∧
    (p.without removed).SameArgs q

theorem eliminate_spec (hp : p.Wf) (h : eliminate block q x = some q')
    (hlooked : q'.looked_through = false) : q.looked_through = false ∧ (p.Eliminating q → x ∈ q.blocks block →
        p.Eliminating q' ∧ ∀ y ∈ q.blocks block, y ≠ x → y ∈ q'.blocks block) := by
  unfold eliminate at h
  split at h
  next hdead =>
    obtain ⟨hunused, hpure⟩ := hdead
    obtain ⟨q1, h1, h⟩ := Option.bind_eq_some_iff.mp h
    obtain rfl := some.inj h
    obtain ⟨hq, hsame1, hwf1⟩ := invalidate_spec h1 hlooked
    refine ⟨hq, fun hinv hx => ?_⟩
    obtain ⟨hwf, removed, heliminable, hplaced, hsame⟩ := hinv
    have hin : x ∈ (p.blocks block).filter (· ∉ removed) := by
      have hblocks : q.blocks block = (p.blocks block).filter (· ∉ removed) := congrFun hsame.blocks block
      exact hblocks ▸ hx
    obtain ⟨hxp, hnew⟩ := mem_filter.mp hin
    have hnew : x ∉ removed := of_decide_eq_true hnew
    have halike := hsame.insts x
    rw [without_insts hnew] at halike
    constructor
    · refine ⟨(hwf1 hwf).erase block x, x :: removed, .cons heliminable hnew ?_ ?_,
        forall_mem_cons.mpr ⟨⟨block, hxp⟩, hplaced⟩, ?_⟩
      · rw [← halike.op]
        exact hpure
      · -- A user that is left would be among the uses, of which there are none.
        intro use huse
        by_contra hleft
        have hrefs : q.refs use = some x := by
          rw [hsame.refs]
          unfold refs
          rw [without_insts hleft]
          exact (hp.exact.mem_iff x use).mp huse
        exact hwf.exact.ne_of_nil hunused use hrefs
      · rw [← without_cons hp.toShaped hnew hxp]
        apply SameArgs.erase
        have halike' : ((p.without removed).insts x).Alike (q.insts x) := hsame.insts x
        exact (hsame.setInst (halike'.clear.become .void) x).trans hsame1
    · intro y hy hne
      show y ∈ update q1.blocks block ((q1.blocks block).erase x) block
      rw [update_self, mem_erase_of_ne hne]
      exact (congrFun hsame1.blocks block).symm ▸ hy
  next =>
    obtain rfl := some.inj h
    exact ⟨hlooked, fun hinv _ => ⟨hinv, fun _ hy _ => hy⟩⟩

theorem deadCodeElimination_eliminating (hp : p.Wf) (h : p.deadCodeElimination blocks = some p')
    (hlooked : p'.looked_through = false) : p.looked_through = false ∧ p.Eliminating p' := by
  have hstart : p.Eliminating p :=
    ⟨hp, [], .nil, fun _ hx => (not_mem_nil hx).elim, rfl,
      funext fun _ => (filter_eq_self.mpr fun _ _ => rfl).symm, fun _ => .refl _⟩
  obtain ⟨hlooked0, hkeep⟩ := foldlM_keeps (c := fun q => q.looked_through = false) (fun block _ q q' hq' hclean => by
      -- What the loop over the block has not come to is in it.
      obtain ⟨hq, hblock⟩ := foldlM_keeps (c := fun q => q.looked_through = false)
        (I := fun rest q => p.Eliminating q ∧ rest.Nodup ∧ ∀ x ∈ rest, x ∈ q.blocks block)
        (fun x rest q q' hq' hclean => by
          obtain ⟨hq, hturn⟩ := eliminate_spec hp hq' hclean
          refine ⟨hq, fun ⟨hinv, hnodup, hrest⟩ => ?_⟩
          obtain ⟨hinv', hleft⟩ := hturn hinv (hrest x mem_cons_self)
          have hnotin : x ∉ rest := (nodup_cons.mp hnodup).1
          refine ⟨hinv', hnodup.of_cons, fun y hy => ?_⟩
          apply hleft y (hrest y (mem_cons_of_mem _ hy))
          exact fun heq => hnotin (heq ▸ hy))
        hq' hclean
      refine ⟨hq, fun hinv => (hblock ⟨hinv, ?_, fun x hx => ?_⟩).1⟩
      · exact nodup_reverse.mpr (hinv.wf.nodup block)
      · exact mem_reverse.mp hx)
    h hlooked
  exact ⟨hlooked0, hkeep hstart⟩

def Removed (p p' : Program) (x : ℕ) : Prop := ∃ b, x ∈ p.blocks b ∧ x ∉ p'.blocks b

/-- What `DeadCodeEliminationPass` makes of a program. -/
structure Eliminated (p p' : Program) : Prop where
  removed : ∃ removed, p.Eliminable removed ∧ ∀ x, p.Removed p' x ↔ x ∈ removed
  unused : ∀ x, p.Removed p' x → p'.users x = []
  unreferred : ∀ x, p.Removed p' x → ∀ k, p'.refs k ≠ some x
  effects : ∀ b, p'.effects b = p.effects b
  kept : ∀ b, ∀ x ∈ p'.blocks b, (p.insts x).Alike (p'.insts x)

theorem Eliminating.eliminated (hp : p.Wf) (h : p.Eliminating p') : p.Eliminated p' := by
  obtain ⟨hwf, removed, heliminable, hplaced, hsame⟩ := h
  have hblocks (b : ℕ) : p'.blocks b = (p.blocks b).filter (· ∉ removed) := congrFun hsame.blocks b
  have hremoved (x : ℕ) : p.Removed p' x ↔ x ∈ removed := by
    constructor
    · intro ⟨b, hin, hout⟩
      by_contra hleft
      rw [hblocks, mem_filter] at hout
      exact hout ⟨hin, decide_eq_true hleft⟩
    · intro hx
      obtain ⟨b, hin⟩ := hplaced x hx
      refine ⟨b, hin, fun hleft => ?_⟩
      rw [hblocks, mem_filter] at hleft
      exact of_decide_eq_true hleft.2 hx
  have hunreferred (x : ℕ) (hx : p.Removed p' x) (k : ℕ × ℕ) : p'.refs k ≠ some x := by
    intro hk
    rw [hsame.refs] at hk
    unfold refs at hk
    by_cases hgone : k.1 ∈ removed
    · rw [without_arg hgone] at hk
      cases hk
    · rw [without_insts hgone] at hk
      exact hgone (heliminable.users ((hremoved x).mp hx) ((hp.exact.mem_iff x k).mpr hk))
  have hkept (x : ℕ) (hx : x ∉ removed) : (p.insts x).Alike (p'.insts x) := by
    have halike := hsame.insts x
    rw [without_insts hx] at halike
    exact halike
  constructor
  case removed => exact ⟨removed, heliminable, hremoved⟩
  case unused => exact fun x hx => hwf.exact.eq_nil (hunreferred x hx)
  case unreferred => exact hunreferred
  case effects =>
    intro b
    unfold effects
    rw [hblocks, filter_filter]
    apply filter_congr
    intro x _
    by_cases hx : x ∈ removed
    · rw [heliminable.pure hx, decide_eq_false (not_not_intro hx), Bool.and_false]
    · rw [(hkept x hx).op, decide_eq_true hx, Bool.and_true]
  case kept =>
    intro b x hx
    rw [hblocks, mem_filter] at hx
    exact hkept x (of_decide_eq_true hx.2)

/-! ## `IdentityRemovalPass` -/

/-- A value leads to another through `Identity` instructions. -/
inductive Leads (p : Program) : Value → Value → Prop
  | refl (v : Value) : Leads p v v
  | step {x : ℕ} {w : Value} (hop : (p.insts x).op = .identity) (h : Leads p ((p.insts x).arg 0) w) :
    Leads p (.inst x) w

theorem Leads.trans (h : p.Leads v w) (h' : p.Leads w v') : p.Leads v v' := by
  induction h with
  | refl => exact h'
  | step hop _ ih => exact .step hop (ih h')

theorem Leads.eq_of_not (h : p.Leads v w) (hv : ¬ p.IsIdentity v) : w = v := by
  cases h with
  | refl => rfl
  | step hop _ => exact absurd hop hv

theorem Leads.val_eq {α : Type} {val : Value → α}
    (hval : ∀ x, (p.insts x).op = .identity → val (.inst x) = val ((p.insts x).arg 0))
    (h : p.Leads v w) : val w = val v := by
  induction h with
  | refl => rfl
  | step hop _ ih => exact ih.trans (hval _ hop).symm

/-- Each operand is replaced by a value that it leads to. -/
structure Skipped (p q : Program) : Prop where
  created : q.created = p.created
  op : ∀ w, (q.insts w).op = (p.insts w).op
  numArgs : ∀ w, (q.insts w).numArgs = (p.insts w).numArgs
  leads : ∀ w i, p.Leads ((p.insts w).arg i) ((q.insts w).arg i)

theorem Skipped.refl (p : Program) : p.Skipped p := ⟨rfl, fun _ => rfl, fun _ => rfl, fun _ _ => .refl _⟩

theorem Skipped.isIdentity_iff (h : p.Skipped q) (v : Value) : q.IsIdentity v ↔ p.IsIdentity v := by
  cases v with
  | inst x =>
    show (q.insts x).op = .identity ↔ (p.insts x).op = .identity
    rw [h.op]
  | void => exact Iff.rfl
  | imm value => exact Iff.rfl

theorem Skipped.leads_of (h : p.Skipped q) (hvw : q.Leads v w) : p.Leads v w := by
  induction hvw with
  | refl => exact .refl _
  | step hop _ ih => exact .step ((h.op _).symm.trans hop) ((h.leads _ 0).trans ih)

theorem Skipped.trans (h : p.Skipped q) (h' : q.Skipped q') : p.Skipped q' where
  created := h'.created.trans h.created
  op := fun w => (h'.op w).trans (h.op w)
  numArgs := fun w => (h'.numArgs w).trans (h.numArgs w)
  leads := fun w i => (h.leads w i).trans (h.leads_of (h'.leads w i))

theorem Skipped.arg_eq (h : p.Skipped q) (hv : ¬ p.IsIdentity ((p.insts u).arg index)) :
    (q.insts u).arg index = (p.insts u).arg index := (h.leads u index).eq_of_not hv

theorem store_skipped (hlt : index < (q.insts u).numArgs) (hlead : q.Leads ((q.insts u).arg index) w) :
    q.Skipped (q.setInst u ((q.insts u).store index w)) := by
  have hinst (y : ℕ) : (update q.insts u ((q.insts u).store index w) y).op = (q.insts y).op ∧
      (update q.insts u ((q.insts u).store index w) y).numArgs = (q.insts y).numArgs ∧
      ∀ i, q.Leads ((q.insts y).arg i)
        ((update q.insts u ((q.insts u).store index w) y).arg i) := by
    rcases eq_or_ne y u with rfl | hy
    · rw [update_self]
      refine ⟨Inst.store_op .., Inst.store_numArgs .., fun i => ?_⟩
      rw [Inst.store_arg hlt]
      split
      next hi => exact hi ▸ hlead
      next => exact .refl _
    · rw [update_of_ne hy]
      exact ⟨rfl, rfl, fun _ => .refl _⟩
  exact ⟨rfl, fun y => (hinst y).1, fun y => (hinst y).2.1, fun y => (hinst y).2.2⟩

theorem SameArgs.skipped (h : q.SameArgs q') : q.Skipped q' where
  created := h.created
  op := fun y => (h.insts y).op
  numArgs := fun y => (h.insts y).numArgs_eq
  leads := fun y i => (h.insts y).arg_eq i ▸ .refl _

theorem skipIdentities_spec (h : skipIdentities u index turns q = some q')
    (hlooked : q'.looked_through = false) : q.looked_through = false ∧
      (q.Wf → u < q.created → q'.Wf ∧ q.Skipped q' ∧ q'.blocks = q.blocks ∧
        ¬ q'.IsIdentity ((q'.insts u).arg index)) := by
  induction turns generalizing q with
  | zero => cases h
  | succ turns ih =>
    unfold skipIdentities at h
    split at h
    next x hx =>
      split at h
      next hop =>
        obtain ⟨q1, h1, h⟩ := Option.bind_eq_some_iff.mp h
        obtain ⟨hlooked1, hrest⟩ := ih h
        obtain ⟨hq, hlt, hsame, -⟩ := setArg_spec h1 hlooked1
        refine ⟨hq, fun hwf hu => ?_⟩
        have hlead : q.Leads ((q.insts u).arg index) ((q.insts x).arg 0) := by
          rw [hx]
          exact .step hop (.refl _)
        have hwf1 : q1.Wf := hwf.setArg h1 hlooked1 hu fun y hy => hwf.valid (x, 0) y hy
        obtain ⟨hwf', hskipped, hblocks, hbare⟩ := hrest hwf1 (hsame.created ▸ hu)
        exact ⟨hwf', ((store_skipped hlt hlead).trans hsame.skipped).trans hskipped,
          hblocks.trans hsame.blocks, hbare⟩
      next hop =>
        obtain rfl := some.inj h
        refine ⟨hlooked, fun hwf _ => ⟨hwf, .refl _, rfl, ?_⟩⟩
        rw [hx]
        exact hop
    next hinst =>
      obtain rfl := some.inj h
      refine ⟨hlooked, fun hwf _ => ⟨hwf, .refl _, rfl, fun hidentity => ?_⟩⟩
      cases hvalue : (q.insts u).arg index with
      | inst x => exact hinst x hvalue
      | void => rw [hvalue] at hidentity; exact hidentity
      | imm value => rw [hvalue] at hidentity; exact hidentity

theorem skipOperands_spec (h : q.skipOperands u = some q') (hlooked : q'.looked_through = false) :
    q.looked_through = false ∧ (q.Wf → u < q.created → q'.Wf ∧ q.Skipped q' ∧ q'.blocks = q.blocks ∧
      ∀ i, ¬ q'.IsIdentity ((q'.insts u).arg i)) := by
  obtain ⟨hq, hkeep⟩ := foldlM_keeps (c := fun r => r.looked_through = false)
    (I := fun rest r => u < q.created ∧ r.Wf ∧ q.Skipped r ∧ r.blocks = q.blocks ∧
      ∀ i < (q.insts u).numArgs, i ∉ rest → ¬ r.IsIdentity ((r.insts u).arg i))
    (fun index rest r r' hr' hclean => by
      obtain ⟨hr, hloop⟩ := skipIdentities_spec hr' hclean
      refine ⟨hr, fun ⟨hu, hwf, hskipped, hblocks, hbare⟩ => ?_⟩
      obtain ⟨hwf', hskipped', hblocks', hdone⟩ := hloop hwf (hskipped.created ▸ hu)
      refine ⟨hu, hwf', hskipped.trans hskipped', hblocks'.trans hblocks, fun i hi hrest => ?_⟩
      rcases eq_or_ne i index with rfl | hne
      · exact hdone
      · have hbefore := hbare i hi fun hin => hrest ((mem_cons.mp hin).resolve_left hne)
        rw [hskipped'.arg_eq hbefore, hskipped'.isIdentity_iff]
        exact hbefore)
    h hlooked
  refine ⟨hq, fun hwf hu => ?_⟩
  obtain ⟨-, hwf', hskipped, hblocks, hbare⟩ := hkeep ⟨hu, hwf, .refl _, rfl, fun i hi hrest =>
    absurd (mem_range.mpr hi) hrest⟩
  refine ⟨hwf', hskipped, hblocks, fun i => ?_⟩
  rcases Nat.lt_or_ge i (q.insts u).numArgs with hi | hi
  · exact hbare i hi not_mem_nil
  · rw [hwf'.slots u i ((hskipped.numArgs u).symm ▸ hi)]
    exact id

/-- An instruction that the pass leaves: neither it nor an operand is an `Identity`. -/
structure Bare (q : Program) (x : ℕ) : Prop where
  arg : ∀ i, ¬ q.IsIdentity ((q.insts x).arg i)
  identity : (q.insts x).op ≠ .identity
  void : (q.insts x).op ≠ .void

theorem Bare.skipped (h : q.Bare x) (hskipped : q.Skipped q') : q'.Bare x where
  arg := fun i => by
    rw [hskipped.arg_eq (h.arg i), hskipped.isIdentity_iff]
    exact h.arg i
  identity := hskipped.op x ▸ h.identity
  void := hskipped.op x ▸ h.void

/-- How far a run of `IdentityRemovalPass` over a program has come, with the instructions that it has taken
out of the blocks. -/
structure Removing (p q : Program) (gone : List ℕ) : Prop where
  wf : q.Wf
  skipped : p.Skipped q
  blocks : ∀ b, q.blocks b = (p.blocks b).filter (· ∉ gone)
  gone : ∀ x ∈ gone, (p.insts x).op = .identity ∨ (p.insts x).op = .void

theorem removeIdentity_spec (h : removeIdentity block r x = some r')
    (hlooked : r'.1.looked_through = false) : r.1.looked_through = false ∧
      (p.Removing r.1 r.2 → x ∈ r.1.blocks block →
        p.Removing r'.1 r'.2 ∧ r.1.Skipped r'.1 ∧ (∀ b, r'.1.blocks b ⊆ r.1.blocks b) ∧
        (∀ y ∈ r.1.blocks block, y ≠ x → y ∈ r'.1.blocks block) ∧ (x ∈ r'.1.blocks block → r'.1.Bare x)) := by
  obtain ⟨p1, h1, h⟩ := Option.bind_eq_some_iff.mp h
  split at h
  next hop =>
    obtain rfl := some.inj h
    obtain ⟨hq, hloop⟩ := skipOperands_spec h1 hlooked
    refine ⟨hq, fun hinv hx => ?_⟩
    obtain ⟨hwf, hskipped, hblocks, -⟩ := hloop hinv.wf (hinv.wf.placed block x hx)
    have herase : ∀ b, (p1.erase block x).blocks b = (r.1.blocks b).filter (· != x) := fun b => by
      rw [hwf.erase_blocks (by rw [hblocks]; exact hx), hblocks]
    have hskipped' : r.1.Skipped (p1.erase block x) :=
      ⟨hskipped.created, hskipped.op, hskipped.numArgs, hskipped.leads⟩
    refine ⟨⟨hwf.erase block x, hinv.skipped.trans hskipped', fun b => ?_, ?_⟩, hskipped', ?_, ?_, ?_⟩
    · rw [herase, hinv.blocks, filter_cons]
      apply filter_congr
      intro y _
      rw [decide_eq_decide, mem_cons, mem_append, mem_singleton, or_comm]
    · intro y hy
      rcases mem_append.mp hy with hy | hy
      · exact hinv.gone y hy
      · obtain rfl := mem_singleton.mp hy
        have hop1 : (p1.insts y).op = (p.insts y).op := (hskipped.op y).trans (hinv.skipped.op y)
        rw [← hop1]
        exact hop
    · intro b y hy
      rw [herase] at hy
      exact (mem_filter.mp hy).1
    · intro y hy hne
      rw [herase]
      exact mem_filter.mpr ⟨hy, bne_iff_ne.mpr hne⟩
    · intro hin
      rw [herase] at hin
      exact absurd rfl (bne_iff_ne.mp (mem_filter.mp hin).2)
  next hop =>
    obtain rfl := some.inj h
    obtain ⟨hq, hloop⟩ := skipOperands_spec h1 hlooked
    refine ⟨hq, fun hinv hx => ?_⟩
    obtain ⟨hwf, hskipped, hblocks, hbare⟩ := hloop hinv.wf (hinv.wf.placed block x hx)
    obtain ⟨hidentity, hvoid⟩ := not_or.mp hop
    refine ⟨⟨hwf, hinv.skipped.trans hskipped, fun b => ?_, hinv.gone⟩, hskipped, ?_, ?_, ?_⟩
    · rw [hblocks]
      exact hinv.blocks b
    · exact fun b => hblocks ▸ fun y hy => hy
    · exact fun y hy _ => hblocks ▸ hy
    · exact fun _ => ⟨hbare, hidentity, hvoid⟩

theorem removeIdentities_spec {r r' : Program × List ℕ} (P : ℕ → Prop)
    (h : (r.1.blocks block).foldlM (removeIdentity block) r = some r')
    (hlooked : r'.1.looked_through = false) : r.1.looked_through = false ∧
      (p.Removing r.1 r.2 → (∀ b, P b → b ≠ block → ∀ x ∈ r.1.blocks b, r.1.Bare x) →
        p.Removing r'.1 r'.2 ∧ ∀ b, P b → ∀ x ∈ r'.1.blocks b, r'.1.Bare x) := by
  obtain ⟨hr, hkeep⟩ := foldlM_keeps (c := fun r => r.1.looked_through = false)
    (I := fun rest r => rest.Nodup ∧ (∀ x ∈ rest, x ∈ r.1.blocks block) ∧ p.Removing r.1 r.2 ∧
      ∀ b, P b → ∀ x ∈ r.1.blocks b, (b = block ∧ x ∈ rest) ∨ r.1.Bare x)
    (fun x rest r r' hr' hclean => by
      obtain ⟨hr, hturn⟩ := removeIdentity_spec (p := p) hr' hclean
      refine ⟨hr, fun ⟨hnodup, hrest, hinv, hbare⟩ => ?_⟩
      obtain ⟨hinv', hskipped, hsub, hleft, hdone⟩ := hturn hinv (hrest x mem_cons_self)
      have hnotin : x ∉ rest := (nodup_cons.mp hnodup).1
      refine ⟨hnodup.of_cons, fun y hy => ?_, hinv', fun b hb y hy => ?_⟩
      · exact hleft y (hrest y (mem_cons_of_mem _ hy)) fun heq => hnotin (heq ▸ hy)
      · rcases hbare b hb y (hsub b hy) with ⟨rfl, hin⟩ | hbefore
        · rcases mem_cons.mp hin with rfl | hin
          · exact .inr (hdone hy)
          · exact .inl ⟨rfl, hin⟩
        · exact .inr (hbefore.skipped hskipped))
    h hlooked
  refine ⟨hr, fun hinv hbare => ?_⟩
  obtain ⟨-, -, hinv', hbare'⟩ := hkeep ⟨hinv.wf.nodup block, fun _ hx => hx, hinv, fun b hb x hx => by
    rcases eq_or_ne b block with rfl | hne
    · exact .inl ⟨rfl, hx⟩
    · exact .inr (hbare b hb hne x hx)⟩
  refine ⟨hinv', fun b hb x hx => ?_⟩
  exact (hbare' b hb x hx).resolve_left fun hand => not_mem_nil hand.2

theorem invalidate_all_spec {gone : List ℕ} (h : gone.foldlM (fun p x => p.invalidate x) q = some q')
    (hlooked : q'.looked_through = false) : q.looked_through = false ∧ (q.Wf → q'.Wf) ∧
      q'.blocks = q.blocks ∧ ∀ y, y ∉ gone → (q.insts y).Alike (q'.insts y) := by
  obtain ⟨hq, hkeep⟩ := foldlM_keeps (c := fun r => r.looked_through = false)
    (I := fun rest r => rest ⊆ gone ∧ (q.Wf → r.Wf) ∧ r.blocks = q.blocks ∧
      ∀ y, y ∉ gone → (q.insts y).Alike (r.insts y))
    (fun x rest r r' hr' hclean => by
      obtain ⟨hr, hsame, hwf⟩ := invalidate_spec hr' hclean
      refine ⟨hr, fun ⟨hrest, hq, hblocks, halike⟩ => ⟨fun y hy => hrest (mem_cons_of_mem _ hy),
        fun h => hwf (hq h), hsame.blocks.trans hblocks, fun y hy => ?_⟩⟩
      have hne : y ≠ x := fun heq => hy (heq ▸ hrest mem_cons_self)
      have halike' : (update r.insts x _ y).Alike (r'.insts y) := hsame.insts y
      rw [update_of_ne hne] at halike'
      exact (halike y hy).trans halike')
    h hlooked
  obtain ⟨-, hwf, hblocks, halike⟩ :=
    hkeep ⟨fun _ hy => hy, id, rfl, fun _ _ => .refl _⟩
  exact ⟨hq, hwf, hblocks, halike⟩

/-- No operand in the blocks leads to a `Void`, an instruction that was invalidated while it was used. -/
def NoVoidOperand (p : Program) (blocks : List ℕ) : Prop :=
  ∀ b ∈ blocks, ∀ x ∈ p.blocks b, ∀ i y, p.Leads ((p.insts x).arg i) (.inst y) → (p.insts y).op ≠ .void

/-- What `IdentityRemovalPass` makes of a program. -/
structure IdentitiesRemoved (p p' : Program) (blocks : List ℕ) : Prop where
  removed : ∀ x, p.Removed p' x → (p.insts x).op = .identity ∨ (p.insts x).op = .void
  left : ∀ b ∈ blocks, ∀ x ∈ p'.blocks b, (p'.insts x).op ≠ .identity ∧ (p'.insts x).op ≠ .void
  bare : ∀ b ∈ blocks, ∀ x ∈ p'.blocks b, ∀ i y, p'.refs (x, i) = some y →
    (p'.insts y).op ≠ .identity ∧ (p'.insts y).op ≠ .void
  unreferred : ∀ b ∈ blocks, ∀ x ∈ p'.blocks b, ∀ i y, p'.refs (x, i) = some y → ¬ p.Removed p' y
  effects : ∀ b, p'.effects b = p.effects b
  kept : ∀ b, ∀ x ∈ p'.blocks b, (p'.insts x).op = (p.insts x).op ∧
    (p'.insts x).numArgs = (p.insts x).numArgs
  /-- Where an `Identity` has the value of its operand, the operands of what is left have the values that
  they had. -/
  values : ∀ (α : Type) (val : Value → α),
    (∀ x, (p.insts x).op = .identity → val (.inst x) = val ((p.insts x).arg 0)) →
    ∀ b, ∀ x ∈ p'.blocks b, ∀ i, val ((p'.insts x).arg i) = val ((p.insts x).arg i)

theorem identityRemoval_spec (h : p.identityRemoval blocks = some p')
    (hlooked : p'.looked_through = false) : p.looked_through = false ∧
      (p.Wf → p'.Wf ∧ (p.NoVoidOperand blocks → p.IdentitiesRemoved p' blocks)) := by
  obtain ⟨⟨q, gone⟩, hq, h⟩ := Option.bind_eq_some_iff.mp h
  obtain ⟨hlooked1, hwf, hblocks, halike⟩ := invalidate_all_spec h hlooked
  obtain ⟨hp, hkeep⟩ := foldlM_keeps (c := fun r => r.1.looked_through = false)
    (I := fun rest r => p.Removing r.1 r.2 ∧
      ∀ b, b ∈ blocks ∧ b ∉ rest → ∀ x ∈ r.1.blocks b, r.1.Bare x)
    (fun block rest r r' hr' hclean => by
      obtain ⟨hr, hloop⟩ := removeIdentities_spec (p := p) (fun b => b ∈ blocks ∧ b ∉ rest) hr' hclean
      refine ⟨hr, fun ⟨hinv, hbare⟩ => hloop hinv fun b hb hne => hbare b ⟨hb.1, fun hin => ?_⟩⟩
      exact hb.2 ((mem_cons.mp hin).resolve_left hne))
    hq hlooked1
  refine ⟨hp, fun hwf0 => ?_⟩
  have hstart : p.Removing p [] := ⟨hwf0, .refl p,
    fun _ => (filter_eq_self.mpr fun _ _ => rfl).symm, fun _ hx => (not_mem_nil hx).elim⟩
  obtain ⟨hinv, hbare⟩ := hkeep ⟨hstart, fun b hb => absurd hb.1 hb.2⟩
  have hblocks' (b : ℕ) : p'.blocks b = (p.blocks b).filter (· ∉ gone) :=
    (congrFun hblocks b).trans (hinv.blocks b)
  have hleft {b x : ℕ} (hx : x ∈ p'.blocks b) : (q.insts x).Alike (p'.insts x) := by
    rw [hblocks', mem_filter] at hx
    exact halike x (of_decide_eq_true hx.2)
  have hbare' {b x : ℕ} (hb : b ∈ blocks) (hx : x ∈ p'.blocks b) : q.Bare x :=
    hbare b ⟨hb, not_mem_nil⟩ x (congrFun hblocks b ▸ hx)
  have hgone (x : ℕ) (hx : p.Removed p' x) : (p.insts x).op = .identity ∨ (p.insts x).op = .void := by
    obtain ⟨b, hin, hout⟩ := hx
    apply hinv.gone
    by_contra hleft
    rw [hblocks', mem_filter] at hout
    exact hout ⟨hin, decide_eq_true hleft⟩
  refine ⟨hwf hinv.wf, fun hvoid => ?_⟩
  -- An operand refers to what it led to, which is neither an `Identity` nor a `Void`.
  have hrefs (b : ℕ) (hb : b ∈ blocks) (x : ℕ) (hx : x ∈ p'.blocks b) (i y : ℕ)
      (hy : p'.refs (x, i) = some y) : (p.insts y).op ≠ .identity ∧ (p.insts y).op ≠ .void := by
    have harg : (q.insts x).arg i = .inst y := by
      unfold refs at hy
      rw [(hleft hx).arg_eq] at hy
      cases hvalue : (q.insts x).arg i with
      | inst z =>
        rw [hvalue] at hy
        rw [some.inj hy]
      | void => rw [hvalue] at hy; cases hy
      | imm value => rw [hvalue] at hy; cases hy
    constructor
    · intro hop
      apply (hbare' hb hx).arg i
      rw [harg]
      exact (hinv.skipped.op y).trans hop
    · have hin : x ∈ p.blocks b := by
        rw [hblocks', mem_filter] at hx
        exact hx.1
      exact hvoid b hb x hin i y (harg ▸ hinv.skipped.leads x i)
  have hkept (y : ℕ) (hy : (p.insts y).op ≠ .identity ∧ (p.insts y).op ≠ .void) :
      (p'.insts y).op = (p.insts y).op := by
    have hnot : y ∉ gone := fun hin => (hinv.gone y hin).elim hy.1 hy.2
    exact (halike y hnot).op.trans (hinv.skipped.op y)
  constructor
  case removed => exact hgone
  case left =>
    intro b hb x hx
    rw [(hleft hx).op]
    exact ⟨(hbare' hb hx).identity, (hbare' hb hx).void⟩
  case bare =>
    intro b hb x hx i y hy
    rw [hkept y (hrefs b hb x hx i y hy)]
    exact hrefs b hb x hx i y hy
  case unreferred =>
    intro b hb x hx i y hy hremoved
    obtain ⟨hidentity, hvoid⟩ := hrefs b hb x hx i y hy
    exact (hgone y hremoved).elim hidentity hvoid
  case effects =>
    intro b
    unfold effects
    rw [hblocks', filter_filter]
    apply filter_congr
    intro x _
    by_cases hx : x ∈ gone
    · rw [decide_eq_false (not_not_intro hx), Bool.and_false]
      rcases hinv.gone x hx with hop | hop
      · rw [hop]
        rfl
      · rw [hop]
        rfl
    · rw [decide_eq_true hx, Bool.and_true, (halike x hx).op, hinv.skipped.op]
  case kept =>
    intro b x hx
    exact ⟨(hleft hx).op.trans (hinv.skipped.op x), (hleft hx).numArgs_eq.trans (hinv.skipped.numArgs x)⟩
  case values =>
    intro α val hval b x hx i
    rw [(hleft hx).arg_eq]
    exact (hinv.skipped.leads x i).val_eq hval

end Program

end ShadPS4.IR
