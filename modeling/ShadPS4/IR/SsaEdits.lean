import ShadPS4.IR.SsaRewrite
import ShadPS4.IR.UsesSpec

/-!
# What an edit changes

The functions that change operands, by the little that `SsaRewritePass` needs of them: who may have become a
user of what, and which instructions may have another opcode. None of it needs the uses to be exact.
-/

namespace ShadPS4.IR

open Function
open Option (some.inj bind_eq_some_iff)

def Inst.predecessors (inst : Inst) : List ℕ := inst.phi_args.map Prod.fst

namespace Inst

variable {inst : Inst}

@[simp] theorem store_predecessors (inst : Inst) (index : ℕ) (value : Value) :
    (inst.store index value).predecessors = inst.predecessors := by
  unfold store predecessors
  split
  · dsimp only
    apply List.ext_getElem?
    intro i
    rw [List.getElem?_map, List.getElem?_map, List.getElem?_modify]
    split <;> cases inst.phi_args[i]? <;> rfl
  · rfl

theorem store_arg_cases (inst : Inst) (index : ℕ) (value : Value) (i : ℕ) :
    (inst.store index value).arg i = inst.arg i ∨ (inst.store index value).arg i = value := by
  unfold arg
  rw [store_op]
  split
  next hop =>
    unfold store
    rw [if_pos hop]
    rw [List.getElem?_modify]
    split
    next => cases inst.phi_args[i]? with
      | none => exact .inl rfl
      | some pair => exact .inr rfl
    next => rw [id_map']; exact .inl rfl
  next hop =>
    unfold store
    rw [if_neg hop]
    rcases eq_or_ne i index with rfl | hi
    · exact .inr (update_self ..)
    · exact .inl (update_of_ne hi ..)

theorem become_arg_cases (hphi : opcode ≠ .phi) (i : ℕ) :
    (inst.become opcode).arg i = inst.arg i ∨ (inst.become opcode).arg i = .void := by
  unfold arg
  unfold become
  split
  next => exact .inr rfl
  next => exact .inl rfl

end Inst

namespace Program

variable {p p' q : Program} {u x index : ℕ} {value : Value} {N N' : ℕ → ℕ → Prop} {T T' : ℕ → Prop}

/-- What the functions change that edit operands: there are new users as given by `N`, and other opcodes for
the instructions of `T`. -/
structure Edit (N : ℕ → ℕ → Prop) (T : ℕ → Prop) (p p' : Program) : Prop where
  created : p'.created = p.created
  users : ∀ x k, k ∈ p'.users x → k ∈ p.users x ∨ N k.1 x
  refs : ∀ k x, p'.refs k = some x → p.refs k = some x ∨ N k.1 x
  kept : ∀ w, ¬ T w → (p'.insts w).op = (p.insts w).op ∧
    (p'.insts w).predecessors = (p.insts w).predecessors
  phi : ∀ w, (p'.insts w).op = .phi → (p.insts w).op = .phi

theorem Edit.refl : Edit N T p p :=
  ⟨rfl, fun _ _ => .inl, fun _ _ => .inl, fun _ _ => ⟨rfl, rfl⟩, fun _ => id⟩

theorem Edit.trans (h : Edit N T p p') (h' : Edit N T p' q) : Edit N T p q where
  created := h'.created.trans h.created
  users x k hk := (h'.users x k hk).elim (h.users x k) .inr
  refs k x hk := (h'.refs k x hk).elim (h.refs k x) .inr
  kept w hw := by
    obtain ⟨hop, hpreds⟩ := h.kept w hw
    obtain ⟨hop', hpreds'⟩ := h'.kept w hw
    exact ⟨hop'.trans hop, hpreds'.trans hpreds⟩
  phi w hw := h.phi w (h'.phi w hw)

theorem Edit.mono (h : Edit N T p p') (hN : ∀ u x, N u x → N' u x) (hT : ∀ w, T w → T' w) : Edit N' T' p p' where
  created := h.created
  users x k hk := (h.users x k hk).imp_right (hN k.1 x)
  refs k x hk := (h.refs k x hk).imp_right (hN k.1 x)
  kept w hw := h.kept w fun hT' => hw (hT w hT')
  phi := h.phi

theorem setInst_edit (husers : ∀ k ∈ inst.uses, k ∈ p.users u ∨ N k.1 u)
    (hrefs : ∀ i x, (inst.arg i).inst? = some x → ((p.insts u).arg i).inst? = some x ∨ N u x)
    (hkept : ¬ T u → inst.op = (p.insts u).op ∧ inst.predecessors = (p.insts u).predecessors)
    (hphi : inst.op = .phi → (p.insts u).op = .phi) : Edit N T p (p.setInst u inst) where
  created := rfl
  users x k hk := by
    change k ∈ (update p.insts u inst x).uses at hk
    rcases eq_or_ne x u with rfl | hx
    · rw [update_self] at hk
      exact husers k hk
    · rw [update_of_ne hx] at hk
      exact .inl hk
  refs k x hk := by
    rw [setInst_refs] at hk
    split at hk
    next hu => rw [hu]; unfold Program.refs; rw [hu]; exact hrefs k.2 x hk
    next => exact .inl hk
  kept w hw := by
    show (update p.insts u inst w).op = _ ∧ (update p.insts u inst w).predecessors = _
    rcases eq_or_ne w u with rfl | hne
    · rw [update_self]
      exact hkept hw
    · rw [update_of_ne hne]
      exact ⟨rfl, rfl⟩
  phi w hw := by
    change (update p.insts u inst w).op = .phi at hw
    rcases eq_or_ne w u with rfl | hne
    · rw [update_self] at hw
      exact hphi hw
    · rwa [update_of_ne hne] at hw

theorem unlessImmediate_edit (h : p.unlessImmediate value change = some p')
    (hchange : ∀ x, value = .inst x → Edit N T p (change x)) : Edit N T p p' := by
  obtain ⟨immediate, -, h⟩ := bind_eq_some_iff.mp h
  cases immediate with
  | true =>
    obtain rfl := some.inj h
    exact ⟨rfl, fun _ _ => .inl, fun _ _ => .inl, fun _ _ => ⟨rfl, rfl⟩, fun _ => id⟩
  | false =>
    cases value with
    | inst x =>
      obtain rfl := some.inj h
      exact hchange x rfl
    | void => cases h
    | imm value => cases h

theorem undoUse_edit (h : p.unlessImmediate value (fun used => p.undoUse used u index) = some p') : Edit N T p p' :=
  unlessImmediate_edit h fun _ _ => setInst_edit (fun _ hk => .inl (List.mem_filter.mp hk).1)
    (fun _ _ => .inl) (fun _ => ⟨rfl, rfl⟩) id

theorem use_edit (h : p.unlessImmediate value (fun used => p.use used u index) = some p')
    (hN : ∀ x, value.inst? = some x → N u x) : Edit N T p p' := by
  refine unlessImmediate_edit h fun x hx => setInst_edit ?_ (fun _ _ => .inl) (fun _ => ⟨rfl, rfl⟩) id
  intro k hk
  rcases List.mem_cons.mp hk with rfl | hk
  · exact .inr (hN x (by rw [hx]; rfl))
  · exact .inl hk

theorem setArg_edit (h : p.setArg u index value = some p')
    (hN : ∀ x, value.inst? = some x → N u x) : Edit N T p p' := by
  unfold setArg at h
  split at h
  next => cases h
  next hindex =>
    obtain ⟨p1, h1, h⟩ := bind_eq_some_iff.mp h
    obtain ⟨p2, h2, h⟩ := bind_eq_some_iff.mp h
    obtain rfl := some.inj h
    refine ((undoUse_edit h1).trans (use_edit h2 hN)).trans (setInst_edit ?_ ?_ ?_ ?_)
    · intro k hk
      rw [Inst.store_uses] at hk
      exact .inl hk
    · intro i x hx
      rcases (p2.insts u).store_arg_cases index value i with heq | heq
      · rw [heq] at hx
        exact .inl hx
      · rw [heq] at hx
        exact .inr (hN x hx)
    · exact fun _ => ⟨Inst.store_op .., Inst.store_predecessors ..⟩
    · rw [Inst.store_op]
      exact id

theorem addPhiOperand_edit (h : p.addPhiOperand u predecessor value = some p')
    (hN : ∀ x, value.inst? = some x → N u x) : Edit N (· = u) p p' ∧ (p'.insts u).op = .phi ∧
      (p'.insts u).predecessors = (p.insts u).predecessors ++ [predecessor] := by
  unfold addPhiOperand at h
  split at h
  next => cases h
  next hop =>
    obtain ⟨p1, h1, h⟩ := bind_eq_some_iff.mp h
    obtain rfl := some.inj h
    have huse : Edit N (fun _ => False) p p1 := use_edit h1 hN
    obtain ⟨hop1, hpreds1⟩ := huse.kept u id
    have hphi : (p1.insts u).op = .phi := hop1.trans (not_not.mp hop)
    have hself : ((p1.setInst u ((p1.insts u).emplaceBack predecessor value)).insts u) =
        (p1.insts u).emplaceBack predecessor value := update_self ..
    refine ⟨(huse.mono (fun _ _ => id) (fun _ => False.elim)).trans (setInst_edit ?_ ?_ ?_ ?_), ?_, ?_⟩
    · exact fun k hk => .inl hk
    · intro i x hx
      rw [Inst.emplaceBack_arg hphi] at hx
      split at hx
      · exact .inr (hN x hx)
      · exact .inl hx
    · exact fun hne => absurd rfl hne
    · exact fun _ => hphi
    · rw [hself]
      exact hphi
    · rw [hself, ← hpreds1]
      unfold Inst.emplaceBack Inst.predecessors
      rw [List.map_append, List.map_singleton]

theorem clearArgs_edit (h : p.clearArgs u = some p') : Edit N (· = u) p p' := by
  obtain ⟨p1, h1, h⟩ := bind_eq_some_iff.mp h
  obtain rfl := some.inj h
  have hloop : ∀ (indices : List ℕ) (q q' : Program), indices.foldlM (clearUses u) q = some q' →
      Edit N (· = u) q q' := by
    intro indices
    induction indices with
    | nil =>
      intro q q' hq
      obtain rfl := some.inj hq
      exact .refl
    | cons index rest ih =>
      intro q q' hq
      obtain ⟨q1, hq1, hrest⟩ := bind_eq_some_iff.mp hq
      exact (undoUse_edit hq1).trans (ih q1 q' hrest)
  refine (hloop _ p p1 h1).trans (setInst_edit ?_ ?_ ?_ ?_)
  · intro k hk
    rw [Inst.clear_uses] at hk
    exact .inl hk
  · intro i x hx
    rw [Inst.clear_arg] at hx
    cases hx
  · exact fun hne => absurd rfl hne
  · rw [Inst.clear_op]
    exact id

theorem replaceOpcode_edit (h : p.replaceOpcode u opcode = some p') :
    Edit N (· = u) p p' ∧ (p'.insts u).op = opcode := by
  unfold replaceOpcode at h
  split at h
  next => cases h
  next hphi =>
    obtain rfl := some.inj h
    have hself : (p.setInst u ((p.insts u).become opcode)).insts u = (p.insts u).become opcode :=
      update_self ..
    refine ⟨setInst_edit ?_ ?_ ?_ ?_, ?_⟩
    · intro k hk
      rw [Inst.become_uses] at hk
      exact .inl hk
    · intro i x hx
      rcases (p.insts u).become_arg_cases hphi i with heq | heq
      · rw [heq] at hx
        exact .inl hx
      · rw [heq] at hx
        cases hx
    · exact fun hne => absurd rfl hne
    · intro hop
      rw [Inst.become_op] at hop
      exact absurd hop hphi
    · rw [hself, Inst.become_op]

theorem invalidate_edit (h : p.invalidate u = some p') : Edit N (· = u) p p' := by
  obtain ⟨p1, h1, h⟩ := bind_eq_some_iff.mp h
  exact (clearArgs_edit h1).trans (replaceOpcode_edit h).1

theorem replaceUsesWith_edit (h : p.replaceUsesWith x value true = some p')
    (hN : ∀ y, value.inst? = some y → N x y ∧ ∀ k ∈ p.users x, N k.1 y) :
    Edit N (· = x) p p' ∧ (p'.insts x).op = .identity := by
  obtain ⟨p1, h1, h⟩ := bind_eq_some_iff.mp h
  obtain ⟨p2, h2, h⟩ := bind_eq_some_iff.mp h
  rw [if_pos rfl] at h
  obtain ⟨p3, h3, h⟩ := bind_eq_some_iff.mp h
  have hloop : ∀ (uses : List (ℕ × ℕ)) (q q' : Program), (∀ k ∈ uses, k ∈ p.users x) →
      uses.foldlM (fun p use => p.setArg use.1 use.2 value) q = some q' → Edit N (· = x) q q' := by
    intro uses
    induction uses with
    | nil =>
      intro q q' _ hq
      obtain rfl := some.inj hq
      exact .refl
    | cons use rest ih =>
      intro q q' hall hq
      obtain ⟨q1, hq1, hrest⟩ := bind_eq_some_iff.mp hq
      have hset : Edit N (· = x) q q1 :=
        setArg_edit hq1 fun y hy => (hN y hy).2 use (hall use List.mem_cons_self)
      exact hset.trans (ih q1 q' (fun k hk => hall k (List.mem_cons_of_mem _ hk)) hrest)
  obtain ⟨hreplaced, hop⟩ := replaceOpcode_edit (N := N) h3
  have hset : Edit N (fun _ => False) p3 p' := setArg_edit h fun y hy => (hN y hy).1
  have hall := (((hloop _ p p1 (fun k hk => hk) h1).trans (invalidate_edit h2)).trans hreplaced).trans
    (hset.mono (fun _ _ => id) (fun _ => False.elim))
  exact ⟨hall, (hset.kept x id).1.trans hop⟩

theorem prependNewInst_insts (h : p.prependNewInst block point op [] flags = some p') :
    p'.created = p.created + 1 ∧ p'.insts = update p.insts p.created { op, flags } := by
  unfold prependNewInst at h
  split at h
  next => cases h
  next =>
    obtain rfl := some.inj h
    exact ⟨rfl, rfl⟩

end Program

end ShadPS4.IR
