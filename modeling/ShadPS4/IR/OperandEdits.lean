import ShadPS4.IR.ConstantPropagation
import ShadPS4.IR.UsesSpec

/-!
# What the functions that change operands leave

The opcodes and the operands after `SetArg`, `ReplaceUsesWithAndRemove` and `PrependNewInst`.
-/

namespace ShadPS4.IR.Program

open Function List
open Option (some.inj bind_eq_some_iff)

variable {p p' q q' : Program} {u x index block : ℕ} {value : Value}

/-- What holds of a program between the folds. -/
structure Linked (p : Program) : Prop where
  valid : ∀ k x, p.refs k = some x → x < p.created
  fresh : ∀ u, p.created ≤ u → ∀ i, (p.insts u).arg i = .void
  slots : ∀ u, (p.insts u).op ≠ .phi → ∀ i, 6 ≤ i → (p.insts u).arg i = .void
  placed : ∀ b, ∀ x ∈ p.blocks b, x < p.created
  exact : ∀ x, (p.insts x).op ≠ .identity → ∀ k, k ∈ p.users x ↔ p.refs k = some x

theorem isImmediate_inst (h : (p.insts x).op ≠ .identity) : p.isImmediate (.inst x) = some false := by
  unfold isImmediate resolve
  rw [if_neg h]
  rfl

theorem unlessImmediate_cases (h : p.unlessImmediate value change = some p') :
    (p.SameArgs p' ∧ p'.users = p.users ∧ ∀ x, value = .inst x → (p.insts x).op = .identity) ∨
    ∃ y, value = .inst y ∧ p' = change y := by
  obtain ⟨immediate, himmediate, h⟩ := bind_eq_some_iff.mp h
  cases immediate with
  | true =>
    obtain rfl := some.inj h
    refine .inl ⟨⟨rfl, rfl, fun _ => .refl _⟩, rfl, ?_⟩
    rintro x rfl
    by_contra hop
    rw [isImmediate_inst hop] at himmediate
    cases himmediate
  | false =>
    cases value with
    | inst y =>
      obtain rfl := some.inj h
      exact .inr ⟨y, rfl, rfl⟩
    | void => cases h
    | imm value => cases h

theorem changeUses_spec (change : List (ℕ × ℕ) → List (ℕ × ℕ)) (h : p.unlessImmediate value
      (fun used => p.setInst used { p.insts used with uses := change (p.users used) }) = some p') :
    p.SameArgs p' ∧ ∀ x, (p.insts x).op ≠ .identity →
      p'.users x = if value = .inst x then change (p.users x) else p.users x := by
  rcases unlessImmediate_cases h with ⟨hsame, husers, hidentity⟩ | ⟨y, rfl, rfl⟩
  · refine ⟨hsame, fun x hop => ?_⟩
    rw [husers, if_neg fun heq => hop (hidentity x heq)]
  · refine ⟨setUses_same p y _, fun x _ => ?_⟩
    rw [setUses_users]
    rcases eq_or_ne x y with rfl | hne
    · rw [update_self, if_pos rfl]
    · rw [update_of_ne hne, if_neg fun heq => hne (Value.inst.inj heq).symm]

/-! ## `SetArg` -/

/-- What `SetArg` leaves. -/
structure Stored (u index : ℕ) (value : Value) (p p' : Program) : Prop where
  created : p'.created = p.created
  blocks : p'.blocks = p.blocks
  op : ∀ w, (p'.insts w).op = (p.insts w).op
  numArgs : ∀ w, (p'.insts w).numArgs = (p.insts w).numArgs
  arg : ∀ w i, (p'.insts w).arg i = if w = u ∧ i = index then value else (p.insts w).arg i

theorem setArg_stored (h : p.setArg u index value = some p') : p.Stored u index value p' := by
  unfold setArg at h
  split at h
  next => cases h
  next hindex =>
    obtain ⟨p1, h1, h⟩ := bind_eq_some_iff.mp h
    obtain ⟨p2, h2, h⟩ := bind_eq_some_iff.mp h
    obtain rfl := some.inj h
    have hlt : index < (p.insts u).numArgs := Nat.lt_of_not_ge hindex
    obtain ⟨hsame1, -⟩ := changeUses_spec (filter (· ≠ (u, index))) h1
    obtain ⟨hsame2, -⟩ := changeUses_spec (List.cons (u, index)) h2
    have hsame := hsame1.trans hsame2
    have hlt2 : index < (p2.insts u).numArgs := by rw [(hsame.insts u).numArgs_eq]; exact hlt
    have hinst (w : ℕ) : (p2.setInst u ((p2.insts u).store index value)).insts w =
        if w = u then (p2.insts u).store index value else p2.insts w := update_apply ..
    refine ⟨hsame.created, hsame.blocks, fun w => ?_, fun w => ?_, fun w i => ?_⟩
    · rw [hinst, ← (hsame.insts w).op]
      split
      next hw => rw [Inst.store_op, hw]
      next => rfl
    · rw [hinst, ← (hsame.insts w).numArgs_eq]
      split
      next hw => rw [Inst.store_numArgs, hw]
      next => rfl
    · rw [hinst, ← (hsame.insts w).arg_eq]
      split
      next hw =>
        subst hw
        rw [Inst.store_arg hlt2]
        exact if_congr (and_iff_right rfl).symm rfl rfl
      next hw => rw [if_neg fun hand => hw hand.1]

theorem Linked.setArg (hp : p.Linked) (h : p.setArg u index value = some p') (hu : u < p.created)
    (hvalue : p.Valid value) (hindex : (p.insts u).op ≠ .phi → index < 6) : p'.Linked := by
  have hstored := setArg_stored h
  have hrefs : p'.refs = update p.refs (u, index) value.inst? := by
    funext k
    unfold refs
    rw [hstored.arg, update_apply]
    split
    next heq => rw [if_pos (Prod.ext heq.1 heq.2)]
    next hne => rw [if_neg fun heq => hne ⟨congrArg Prod.fst heq, congrArg Prod.snd heq⟩]
  refine ⟨fun k x hk => ?_, fun w hw i => ?_, fun w hop i hi => ?_, fun b x hx => ?_,
    fun x hop k => ?_⟩
  · rw [hrefs, update_apply] at hk
    rw [hstored.created]
    split at hk
    · exact hvalue x hk
    · exact hp.valid k x hk
  · rw [hstored.created] at hw
    rw [hstored.arg, if_neg fun hand => by omega]
    exact hp.fresh w hw i
  · rw [hstored.op] at hop
    have hne : ¬ (w = u ∧ i = index) := by
      rintro ⟨rfl, rfl⟩
      exact Nat.not_le_of_lt (hindex hop) hi
    rw [hstored.arg, if_neg hne]
    exact hp.slots w hop i hi
  · rw [hstored.blocks] at hx
    rw [hstored.created]
    exact hp.placed b x hx
  · rw [hstored.op] at hop
    have hexact := hp.exact x hop
    -- The use of the operand before is dropped, and the use of the value is made.
    unfold Program.setArg at h
    split at h
    next => cases h
    next =>
      obtain ⟨p1, h1, h⟩ := bind_eq_some_iff.mp h
      obtain ⟨p2, h2, h⟩ := bind_eq_some_iff.mp h
      obtain rfl := some.inj h
      obtain ⟨hsame1, husers1⟩ := changeUses_spec (filter (· ≠ (u, index))) h1
      obtain ⟨hsame2, husers2⟩ := changeUses_spec (List.cons (u, index)) h2
      have hop1 : (p1.insts x).op ≠ .identity := by rw [(hsame1.insts x).op]; exact hop
      rw [setInst_users (Inst.store_uses ..), husers2 x hop1, husers1 x hop, hrefs]
      have hold : p.refs (u, index) = some x ↔ (p.insts u).arg index = .inst x := by
        unfold refs
        cases (p.insts u).arg index <;> simp [Value.inst?]
      have hnew : value.inst? = some x ↔ value = .inst x := by
        cases value <;> simp [Value.inst?]
      rw [update_apply]
      by_cases hk : k = (u, index)
      · subst hk
        rw [if_pos rfl, hnew]
        by_cases hvalue' : value = .inst x
        · rw [if_pos hvalue']
          exact iff_of_true mem_cons_self hvalue'
        · rw [if_neg hvalue']
          refine iff_of_false (fun hin => ?_) hvalue'
          split at hin
          next => exact of_decide_eq_true (mem_filter.mp hin).2 rfl
          next harg => exact harg (hold.mp ((hexact _).mp hin))
      · rw [if_neg hk, ← hexact]
        have hfilter : k ∈ (if (p.insts u).arg index = .inst x then
            (p.users x).filter (· ≠ (u, index)) else p.users x) ↔ k ∈ p.users x := by
          split
          · rw [mem_filter]
            exact and_iff_left (decide_eq_true hk)
          · rfl
        split
        · rw [mem_cons, or_iff_right hk]
          exact hfilter
        · exact hfilter

/-! ## `Invalidate` -/

/-- What `Invalidate` leaves. -/
structure Cleared (x : ℕ) (p p' : Program) : Prop where
  created : p'.created = p.created
  blocks : p'.blocks = p.blocks
  insts : ∀ w, w ≠ x → (p.insts w).Alike (p'.insts w)
  op : (p'.insts x).op = .void
  arg : ∀ i, (p'.insts x).arg i = .void

theorem clearUses_cases {indices : List ℕ} (h : indices.foldlM (clearUses u) q = some q')
    (hexact : ∀ y, (q.insts y).op ≠ .identity → ∀ k, k ∈ q.users y → q.refs k = some y) :
    q.SameArgs q' ∧ ∀ y, (q.insts y).op ≠ .identity → ∀ k,
      k ∈ q'.users y ↔ k ∈ q.users y ∧ ¬ (k.1 = u ∧ k.2 ∈ indices) := by
  induction indices generalizing q with
  | nil =>
    obtain rfl := some.inj h
    exact ⟨.refl, fun y _ k => (and_iff_left fun hand => not_mem_nil hand.2).symm⟩
  | cons index rest ih =>
    obtain ⟨q1, h1, hrest⟩ := bind_eq_some_iff.mp h
    obtain ⟨hsame1, husers1⟩ := changeUses_spec (filter (· ≠ (u, index))) h1
    have hstep : ∀ y, (q.insts y).op ≠ .identity → ∀ k, k ∈ q1.users y ↔ k ∈ q.users y ∧ k ≠ (u, index) := by
      intro y hop k
      rw [husers1 y hop]
      split
      next => rw [mem_filter, decide_eq_true_eq]
      next harg =>
        refine (and_iff_left_of_imp ?_).symm
        rintro hk rfl
        have href := hexact y hop _ hk
        unfold refs at href
        cases hvalue : (q.insts u).arg index with
        | inst z =>
          rw [hvalue] at href
          exact harg (hvalue.trans (congrArg _ (some.inj href)))
        | void => rw [hvalue] at href; cases href
        | imm value => rw [hvalue] at href; cases href
    obtain ⟨hsame, husers⟩ := ih hrest fun y hop k hk => by
      rw [(hsame1.insts y).op] at hop
      rw [hsame1.refs]
      exact hexact y hop k ((hstep y hop k).mp hk).1
    refine ⟨hsame1.trans hsame, fun y hop k => ?_⟩
    have hop1 : (q1.insts y).op ≠ .identity := by rw [(hsame1.insts y).op]; exact hop
    rw [husers y hop1, hstep y hop, and_assoc, mem_cons]
    refine and_congr_right fun _ => ⟨fun ⟨hne, hnot⟩ => ?_, fun hnot => ⟨?_, fun hand => ?_⟩⟩
    · rintro ⟨hu, hi | hi⟩
      · exact hne (Prod.ext hu hi)
      · exact hnot ⟨hu, hi⟩
    · rintro rfl
      exact hnot ⟨rfl, .inl rfl⟩
    · exact hnot ⟨hand.1, .inr hand.2⟩

theorem invalidate_cleared (hp : p.Linked) (h : p.invalidate x = some p')
    (hop : (p.insts x).op ≠ .identity) : Cleared x p p' ∧ p'.Linked := by
  obtain ⟨p2, h2, h⟩ := bind_eq_some_iff.mp h
  obtain ⟨rfl, -⟩ := replaceOpcode_spec h
  obtain ⟨p1, h1, h2⟩ := bind_eq_some_iff.mp h2
  obtain rfl := some.inj h2
  obtain ⟨hsame, husers⟩ := clearUses_cases h1 fun y hy k hk => (hp.exact y hy k).mp hk
  set cleared := (p1.insts x).clear with hcleared
  have hself : (p1.setInst x cleared).insts x = cleared := update_self ..
  have hinst (w : ℕ) : ((p1.setInst x cleared).setInst x (((p1.setInst x cleared).insts x).become .void)).insts w =
      if w = x then cleared.become .void else p1.insts w := by
    rw [hself]
    show update (update p1.insts x cleared) x (cleared.become .void) w = _
    rw [update_idem]
    exact update_apply ..
  have hvoid (i : ℕ) : (cleared.become .void).arg i = .void :=
    Inst.become_arg (fun hphi => by cases hphi) (Inst.clear_arg _) i
  have hdone : Cleared x p ((p1.setInst x cleared).setInst x (((p1.setInst x cleared).insts x).become .void)) := by
    refine ⟨hsame.created, hsame.blocks, fun w hw => ?_, ?_, fun i => ?_⟩
    · rw [hinst, if_neg hw]
      exact hsame.insts w
    · rw [hinst, if_pos rfl, Inst.become_op]
    · rw [hinst, if_pos rfl, hvoid]
  refine ⟨hdone, fun k y hk => ?_, fun w hw i => ?_, fun w hphi i hi => ?_, fun b y hy => ?_,
    fun y hy k => ?_⟩
  · rw [hdone.created]
    rcases eq_or_ne k.1 x with hk' | hk'
    · unfold refs at hk
      rw [hk', hdone.arg] at hk
      cases hk
    · unfold refs at hk
      rw [(hdone.insts _ hk').arg_eq] at hk
      exact hp.valid k y hk
  · rw [hdone.created] at hw
    rcases eq_or_ne w x with rfl | hw'
    · exact hdone.arg i
    · rw [(hdone.insts w hw').arg_eq]
      exact hp.fresh w hw i
  · rcases eq_or_ne w x with rfl | hw'
    · exact hdone.arg i
    · rw [(hdone.insts w hw').op] at hphi
      rw [(hdone.insts w hw').arg_eq]
      exact hp.slots w hphi i hi
  · rw [hdone.blocks] at hy
    rw [hdone.created]
    exact hp.placed b y hy
  · have hy0 : (p.insts y).op ≠ .identity := by
      rcases eq_or_ne y x with rfl | hne
      · exact hop
      · rwa [(hdone.insts y hne).op] at hy
    have husers' : ((p1.setInst x cleared).setInst x
        (((p1.setInst x cleared).insts x).become .void)).users y = p1.users y := by
      show (Program.insts _ y).uses = _
      rw [hinst]
      split
      next heq => rw [Inst.become_uses, hcleared, Inst.clear_uses, heq]; rfl
      next => rfl
    rw [husers', husers y hy0, hp.exact y hy0]
    rcases eq_or_ne k.1 x with hk | hk
    · have hnone : Program.refs ((p1.setInst x cleared).setInst x
          (((p1.setInst x cleared).insts x).become .void)) k = none := by
        unfold refs
        rw [hk, hdone.arg]
        rfl
      rw [hnone]
      refine iff_of_false (fun ⟨href, hnot⟩ => ?_) nofun
      -- The loop goes over every operand that there is.
      refine hnot ⟨hk, mem_range.mpr ?_⟩
      by_contra hlt
      have harg : (p.insts x).arg k.2 = .void := by
        split at hlt
        next hphi =>
          unfold Inst.arg
          rw [if_pos hphi, getElem?_eq_none (Nat.le_of_not_lt hlt)]
          rfl
        next hphi => exact hp.slots x hphi _ (Nat.le_of_not_lt hlt)
      unfold refs at href
      rw [hk, harg] at href
      cases href
    · have hrefs : Program.refs ((p1.setInst x cleared).setInst x
          (((p1.setInst x cleared).insts x).become .void)) k = p.refs k := by
        unfold refs
        rw [(hdone.insts _ hk).arg_eq]
      rw [hrefs]
      exact and_iff_left fun hand => hk hand.1

/-! ## `ReplaceUsesWithAndRemove` -/

/-- What `ReplaceUsesWithAndRemove` leaves. -/
structure Substituted (x : ℕ) (value : Value) (p p' : Program) : Prop where
  created : p'.created = p.created
  blocks : p'.blocks = p.blocks
  op : ∀ w, w ≠ x → (p'.insts w).op = (p.insts w).op
  numArgs : ∀ w, w ≠ x → (p'.insts w).numArgs = (p.insts w).numArgs
  arg : ∀ w, w ≠ x → ∀ i, (p'.insts w).arg i =
    if (p.insts w).arg i = .inst x then value else (p.insts w).arg i
  gone : (p'.insts x).op = .void
  bare : ∀ i, (p'.insts x).arg i = .void

/-- What the loop of `ReplaceUsesWith` leaves after some of the uses. -/
structure Replacing (uses : List (ℕ × ℕ)) (value : Value) (p q : Program) : Prop where
  created : q.created = p.created
  blocks : q.blocks = p.blocks
  op : ∀ w, (q.insts w).op = (p.insts w).op
  numArgs : ∀ w, (q.insts w).numArgs = (p.insts w).numArgs
  arg : ∀ w i, (q.insts w).arg i = if (w, i) ∈ uses then value else (p.insts w).arg i

theorem replaceUses_spec (hp : p.Linked) (hvalue : p.Valid value)
    (huses : ∀ use ∈ uses, use.1 < p.created ∧ ((p.insts use.1).op ≠ .phi → use.2 < 6))
    (h : uses.foldlM (fun p use => p.setArg use.1 use.2 value) p = some p') :
    p.Replacing uses value p' ∧ p'.Linked := by
  induction uses generalizing p with
  | nil =>
    obtain rfl := some.inj h
    exact ⟨⟨rfl, rfl, fun _ => rfl, fun _ => rfl, fun _ _ => rfl⟩, hp⟩
  | cons use rest ih =>
    obtain ⟨p1, h1, hrest⟩ := bind_eq_some_iff.mp h
    obtain ⟨hu, hindex⟩ := huses use mem_cons_self
    have hstored := setArg_stored h1
    obtain ⟨hr, hlinked⟩ := ih (hp.setArg h1 hu hvalue hindex)
      (fun y hy => by rw [hstored.created]; exact hvalue y hy)
      (fun use' hmem => by
        rw [hstored.created, hstored.op]
        exact huses use' (mem_cons_of_mem _ hmem)) hrest
    refine ⟨⟨hr.created.trans hstored.created, hr.blocks.trans hstored.blocks,
      fun w => (hr.op w).trans (hstored.op w), fun w => (hr.numArgs w).trans (hstored.numArgs w),
      fun w i => ?_⟩, hlinked⟩
    rw [hr.arg, hstored.arg]
    by_cases hrest' : (w, i) ∈ rest
    · rw [if_pos hrest', if_pos (mem_cons_of_mem _ hrest')]
    · rw [if_neg hrest']
      refine if_congr ?_ rfl rfl
      rw [mem_cons, or_iff_left hrest']
      exact (Prod.ext_iff (x := (w, i)) (y := use)).symm

theorem replaceUsesWithAndRemove_spec (hp : p.Linked) (hop : (p.insts x).op ≠ .identity)
    (hvalue : p.Valid value) (h : p.replaceUsesWithAndRemove x value = some p') :
    p.Substituted x value p' ∧ p'.Linked := by
  obtain ⟨p1, h1, h⟩ := bind_eq_some_iff.mp h
  obtain ⟨p2, h2, h⟩ := bind_eq_some_iff.mp h
  obtain rfl := some.inj h
  have hmem (k : ℕ × ℕ) : k ∈ (p.insts x).uses ↔ (p.insts k.1).arg k.2 = .inst x := by
    refine (hp.exact x hop k).trans ?_
    unfold refs
    cases (p.insts k.1).arg k.2 <;> simp [Value.inst?]
  have huses (use : ℕ × ℕ) (huse : use ∈ (p.insts x).uses) :
      use.1 < p.created ∧ ((p.insts use.1).op ≠ .phi → use.2 < 6) := by
    have harg := (hmem use).mp huse
    constructor
    · by_contra hge
      rw [hp.fresh use.1 (Nat.le_of_not_lt hge)] at harg
      cases harg
    · intro hphi
      by_contra hge
      rw [hp.slots use.1 hphi use.2 (Nat.le_of_not_lt hge)] at harg
      cases harg
  obtain ⟨hr, hlinked1⟩ := replaceUses_spec hp hvalue huses h1
  obtain ⟨hcleared, hlinked⟩ := invalidate_cleared hlinked1 h2 (by rw [hr.op]; exact hop)
  refine ⟨⟨hcleared.created.trans hr.created, hcleared.blocks.trans hr.blocks, fun w hw => ?_,
    fun w hw => ?_, fun w hw i => ?_, hcleared.op, hcleared.arg⟩, hlinked⟩
  · rw [(hcleared.insts w hw).op, hr.op]
  · rw [(hcleared.insts w hw).numArgs_eq, hr.numArgs]
  · rw [(hcleared.insts w hw).arg_eq, hr.arg]
    exact if_congr (hmem (w, i)) rfl rfl

/-! ## `PrependNewInst` -/

/-- What `PrependNewInst` leaves. -/
structure Inserted (op : Opcode) (args : List Value) (p p' : Program) : Prop where
  created : p'.created = p.created + 1
  length : args.length = op.numArgs
  opcode : (p'.insts p.created).op = op
  arg : ∀ i, (p'.insts p.created).arg i = args[i]?.getD .void
  insts : ∀ w, w ≠ p.created → (p'.insts w).op = (p.insts w).op ∧
    (p'.insts w).numArgs = (p.insts w).numArgs ∧ ∀ i, (p'.insts w).arg i = (p.insts w).arg i

theorem setArgs_spec {args : List Value} {n : ℕ} (hp : p.Linked) (hu : u < p.created)
    (hlength : n + args.length ≤ 6) (hvalid : ∀ value ∈ args, p.Valid value)
    (h : (args.zipIdx n).foldlM (fun p arg => p.setArg u arg.2 arg.1) p = some p') :
    p'.Linked ∧ p'.created = p.created ∧ p'.blocks = p.blocks ∧
      (∀ w, (p'.insts w).op = (p.insts w).op ∧ (p'.insts w).numArgs = (p.insts w).numArgs) ∧
      ∀ w i, (p'.insts w).arg i = if w = u ∧ n ≤ i ∧ i < n + args.length then args[i - n]?.getD .void
        else (p.insts w).arg i := by
  induction args generalizing p n with
  | nil =>
    obtain rfl := some.inj h
    refine ⟨hp, rfl, rfl, fun _ => ⟨rfl, rfl⟩, fun w i => (if_neg ?_).symm⟩
    rintro ⟨-, hle, hlt⟩
    exact Nat.not_lt_of_le hle hlt
  | cons value rest ih =>
    obtain ⟨p1, h1, hrest⟩ := bind_eq_some_iff.mp h
    rw [length_cons] at hlength
    have hstored := setArg_stored h1
    obtain ⟨hlinked, hcreated, hblocks, hops, hargs⟩ := ih (n := n + 1)
      (hp.setArg h1 hu (hvalid value mem_cons_self) fun _ => by omega)
      (by rw [hstored.created]; exact hu) (by omega)
      (fun value hmem y hy => by
        rw [hstored.created]
        exact hvalid value (mem_cons_of_mem _ hmem) y hy) hrest
    refine ⟨hlinked, hcreated.trans hstored.created, hblocks.trans hstored.blocks, fun w => ?_,
      fun w i => ?_⟩
    · obtain ⟨hop, hnum⟩ := hops w
      exact ⟨hop.trans (hstored.op w), hnum.trans (hstored.numArgs w)⟩
    · rw [hargs, hstored.arg, length_cons]
      rcases eq_or_ne w u with rfl | hw
      swap
      · rw [if_neg fun hand => hw hand.1, if_neg fun hand => hw hand.1, if_neg fun hand => hw hand.1]
      rcases Nat.lt_trichotomy i n with hi | rfl | hi
      · rw [if_neg (by omega), if_neg (by omega), if_neg (by omega)]
      · rw [if_neg (by omega), if_pos ⟨rfl, rfl⟩, if_pos ⟨rfl, by omega⟩, Nat.sub_self]
        rfl
      · rw [if_neg (c := w = w ∧ i = n) (by omega)]
        refine if_congr (by omega) ?_ rfl
        rw [show i - n = i - (n + 1) + 1 by omega, getElem?_cons_succ]

theorem mem_insertIdx_cases {l : List ℕ} {n a y : ℕ} (h : y ∈ l.insertIdx n a) : y = a ∨ y ∈ l := by
  rcases Nat.lt_or_ge l.length n with hlt | hge
  · rw [insertIdx_of_length_lt hlt] at h
    exact .inr h
  · exact (mem_insertIdx hge).mp h

theorem prependNewInst_emitted {insertion_point flags : ℕ} {op : Opcode} {args : List Value}
    (hp : p.Linked) (hphi : op ≠ .phi) (hvalid : ∀ value ∈ args, p.Valid value)
    (h : p.prependNewInst block insertion_point op args flags = some p') : p.Inserted op args p' ∧ p'.Linked := by
  unfold prependNewInst at h
  split at h
  next => cases h
  next hnum =>
    have hlength : args.length = op.numArgs := (not_not.mp hnum).symm
    have hsix : op.numArgs ≤ 6 := by
      have hle := @Inst.numArgs_le_six { op } hphi
      unfold Inst.numArgs at hle
      rwa [if_neg hphi] at hle
    set p1 : Program := { p.setInst p.created { op, flags } with
      created := p.created + 1
      blocks := update p.blocks block
        ((p.blocks block).insertIdx insertion_point p.created) } with hp1
    have hinst (w : ℕ) : p1.insts w = if w = p.created then { op, flags } else p.insts w :=
      update_apply ..
    have hargs (w i : ℕ) : (p1.insts w).arg i = (p.insts w).arg i := by
      rw [hinst]
      split
      next hw => rw [new_arg, hw, hp.fresh _ (Nat.le_refl _)]
      next => rfl
    have hlinked1 : p1.Linked := by
      refine ⟨fun k y hk => ?_, fun w hw i => ?_, fun w hphi' i hi => ?_, fun b y hy => ?_,
        fun y hy k => ?_⟩
      · unfold refs at hk
        rw [hargs] at hk
        exact Nat.lt_succ_of_lt (hp.valid k y hk)
      · rw [hargs]
        exact hp.fresh w (Nat.le_of_succ_le hw) i
      · rw [hinst] at hphi' ⊢
        split at hphi'
        next hw => rw [if_pos hw, new_arg]
        next hw => rw [if_neg hw]; exact hp.slots w hphi' i hi
      · change y ∈ update p.blocks block _ b at hy
        rcases eq_or_ne b block with rfl | hb
        · rw [update_self] at hy
          rcases mem_insertIdx_cases hy with rfl | hy
          · exact Nat.lt_succ_self _
          · exact Nat.lt_succ_of_lt (hp.placed b y hy)
        · rw [update_of_ne hb] at hy
          exact Nat.lt_succ_of_lt (hp.placed b y hy)
      · have hrefs : p1.refs k = p.refs k := by
          unfold refs
          rw [hargs]
        rw [hrefs]
        show k ∈ (p1.insts y).uses ↔ _
        rw [hinst] at hy ⊢
        split at hy
        next hw =>
          rw [if_pos hw]
          refine iff_of_false not_mem_nil fun hk => ?_
          have hlt := hp.valid k y hk
          omega
        next hw =>
          rw [if_neg hw]
          exact hp.exact y hy k
    obtain ⟨hlinked, hcreated, -, hops, hset⟩ := setArgs_spec hlinked1 (Nat.lt_succ_self p.created)
      (by omega) (fun value hmem y hy => Nat.lt_succ_of_lt (hvalid value hmem y hy)) h
    refine ⟨⟨hcreated, hlength, ?_, fun i => ?_, fun w hw => ?_⟩, hlinked⟩
    · rw [(hops _).1, hinst, if_pos rfl]
    · rw [hset, hargs, hp.fresh _ (Nat.le_refl _)]
      split
      next => rw [Nat.sub_zero]
      next hnot =>
        rw [getElem?_eq_none (by omega)]
        rfl
    · have heq : p1.insts w = p.insts w := by rw [hinst, if_neg hw]
      refine ⟨(hops w).1.trans (by rw [heq]), (hops w).2.trans (by rw [heq]), fun i => ?_⟩
      rw [hset, if_neg fun hand => hw hand.1, heq]

end ShadPS4.IR.Program
