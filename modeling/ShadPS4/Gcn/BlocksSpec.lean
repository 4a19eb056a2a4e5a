import ShadPS4.Gcn.ControlFlowGraph

/-!
# The blocks of a shader

What the construction of blocks comes to: the addresses of the instructions, the set of labels, the blocks between
them, and where the last instruction of a block leads.
-/

namespace ShadPS4.Gcn

open List
open Option (some.inj some.injEq)

variable {blocks' : List Block}

/-- The address of an instruction, or of the end of the list. -/
def pcOf (insts : List GcnInst) (i : ℕ) : ℕ := ((insts.take i).map (·.length)).sum

/-- The addresses of all instructions and of the end of the list. -/
def pcMap (insts : List GcnInst) : List ℕ := (range (insts.length + 1)).map (pcOf insts)

variable {insts : List GcnInst} {inst : GcnInst} {i j : ℕ}

theorem pcOf_zero (insts : List GcnInst) : pcOf insts 0 = 0 := rfl

theorem pcOf_succ (h : insts[i]? = some inst) : pcOf insts (i + 1) = pcOf insts i + inst.length := by
  unfold pcOf
  rw [take_add_one, h]
  simp

theorem pcOf_le (insts : List GcnInst) (hij : i ≤ j) : pcOf insts i ≤ pcOf insts j := by
  induction hij with
  | refl => exact Nat.le_refl _
  | step _ ih =>
    apply ih.trans
    unfold pcOf
    rw [take_add_one, map_append, sum_append]
    exact Nat.le_add_right _ _

/-- What a decoder returns of a shader. -/
structure WellFormed (insts : List GcnInst) : Prop where
  lengths : ∀ inst ∈ insts, 0 < inst.length
  size : pcOf insts insts.length < 2^32
  last : ∃ inst, insts.getLast? = some inst ∧ inst.opcode = Opcode.sEndpgm

theorem WellFormed.pcOf_lt (h : WellFormed insts) (hij : i < j) (hj : j ≤ insts.length) :
    pcOf insts i < pcOf insts j := by
  have hi : i < insts.length := by omega
  have hsucc := pcOf_succ (getElem?_eq_getElem hi)
  have hpos := h.lengths _ (getElem_mem hi)
  calc pcOf insts i < pcOf insts (i + 1) := by omega
    _ ≤ pcOf insts j := pcOf_le insts hij

theorem WellFormed.pcOf_inj (h : WellFormed insts) (hi : i ≤ insts.length) (hj : j ≤ insts.length)
    (heq : pcOf insts i = pcOf insts j) : i = j := by
  rcases Nat.lt_trichotomy i j with hlt | rfl | hlt
  · have := h.pcOf_lt hlt hj
    omega
  · rfl
  · have := h.pcOf_lt hlt hi
    omega

theorem WellFormed.pcOf_word (h : WellFormed insts) (hi : i ≤ insts.length) : pcOf insts i < 2^32 := by
  have := pcOf_le insts hi
  have := h.size
  omega

theorem WellFormed.next (h : WellFormed insts) (hi : insts[i]? = some inst) :
    (pcOf insts i + inst.length) % 2^32 = pcOf insts (i + 1) := by
  have hlt := (List.getElem?_eq_some_iff.mp hi).1
  rw [← pcOf_succ hi]
  exact Nat.mod_eq_of_lt (h.pcOf_word hlt)

theorem WellFormed.getIndex_eq (h : WellFormed insts) (hi : i ≤ insts.length) :
    getIndex (pcMap insts) (pcOf insts i) = i := by
  unfold getIndex
  split_ifs with hzero
  · exact (h.pcOf_inj hi (Nat.zero_le _) (hzero.trans (pcOf_zero insts).symm)).symm
  · have hlt : i < (pcMap insts).length := by
      simp only [pcMap, length_map, length_range]
      omega
    apply (findIdx_eq hlt).mpr
    constructor
    · simp [pcMap]
    · intro k hk
      have := h.pcOf_lt hk hi
      simp [pcMap]
      omega

/-! ## Labels -/

/-- The address that a branch leads to: the jump, or the case that the branch is taken. -/
def targetOf (insts : List GcnInst) (i : ℕ) (inst : GcnInst) : Option ℕ :=
  if inst.opcode = Opcode.sSetpcB64 then resolveSetPcTarget insts i (pcMap insts)
  else if inst.isUnconditionalBranch ∨ inst.isCbranch then some (inst.branchTarget (pcOf insts i))
  else none

/-- The branches of a list lead to instructions of the list. -/
def TargetsInside (insts : List GcnInst) : Prop :=
  ∀ i inst, insts[i]? = some inst →
    (inst.isUnconditionalBranch = true ∨ inst.isCbranch = true) →
    ∃ j < insts.length, targetOf insts i inst = some (pcOf insts j)

/-- A conditional branch to the instruction behind it. -/
def Degenerate (insts : List GcnInst) (i : ℕ) (inst : GcnInst) : Prop :=
  inst.isCbranch = true ∧ targetOf insts i inst = some (pcOf insts (i + 1))

instance (insts : List GcnInst) (i : ℕ) (inst : GcnInst) : Decidable (Degenerate insts i inst) :=
  inferInstanceAs (Decidable (_ ∧ _))

def PutsLabels (insts : List GcnInst) (i : ℕ) (inst : GcnInst) : Prop :=
  (inst.isUnconditionalBranch = true ∨ inst.isCbranch = true ∨ inst.opcode = Opcode.sEndpgm) ∧
    ¬ Degenerate insts i inst

/-- The instruction is the first one, it is behind one that puts labels, or a branch that puts labels
leads to it. -/
def IsLeader (insts : List GcnInst) (j : ℕ) : Prop :=
  j = 0 ∨ ∃ i inst, insts[i]? = some inst ∧ PutsLabels insts i inst ∧
    (j = i + 1 ∨ targetOf insts i inst = some (pcOf insts j))

theorem resolveSetPcTarget_congr (h : 3 ≤ i → pc_map[i - 3]? = pc_map'[i - 3]?) :
    resolveSetPcTarget insts i pc_map = resolveSetPcTarget insts i pc_map' := by
  unfold resolveSetPcTarget
  split_ifs with hlt
  · rfl
  · rw [h (by omega)]

theorem resolve_pcMap (hi : i < insts.length) : resolveSetPcTarget insts i ((range (i + 1)).map (pcOf insts)) =
      resolveSetPcTarget insts i (pcMap insts) := by
  apply resolveSetPcTarget_congr
  intro hle
  unfold pcMap
  rw [getElem?_map, getElem?_map, getElem?_range (by omega),
    getElem?_range (by omega)]

theorem GcnInst.isCbranch_of_isUnconditionalBranch (h : inst.isUnconditionalBranch = true) :
    inst.isCbranch = false ∧ inst.isCdbg = false ∧ inst.isFork = false ∧ inst.opcode ≠ Opcode.sEndpgm := by
  unfold GcnInst.isUnconditionalBranch at h
  unfold GcnInst.isCbranch GcnInst.isCdbg GcnInst.isFork
  simp only [Bool.or_eq_true, decide_eq_true_eq] at h
  rcases h with h | h <;> rw [h] <;> decide

theorem GcnInst.isCdbg_of_isCbranch (h : inst.isCbranch = true) :
    inst.isCdbg = false ∧ inst.isFork = false ∧ inst.opcode ≠ Opcode.sSetpcB64 ∧ inst.opcode ≠ Opcode.sEndpgm := by
  unfold GcnInst.isCbranch at h
  unfold GcnInst.isCdbg GcnInst.isFork
  simp only [Bool.or_eq_true, decide_eq_true_eq] at h
  rcases h with ((((h | h) | h) | h) | h) | h <;> rw [h] <;> decide

theorem GcnInst.isCdbg_of_endpgm (h : inst.opcode = Opcode.sEndpgm) : inst.isCdbg = false ∧ inst.isFork = false := by
  unfold GcnInst.isCdbg GcnInst.isFork
  rw [h]
  decide

theorem instLabels_spec (h : WellFormed insts) (hinside : TargetsInside insts) (hi : insts[i]? = some inst) :
    (inst.isCdbg = true ∧ instLabels insts ((range (i + 1)).map (pcOf insts)) i (pcOf insts i)
      inst = .error .unimplemented) ∨
    (inst.isCdbg = false ∧ ∃ added, instLabels insts ((range (i + 1)).map (pcOf insts)) i
      (pcOf insts i) inst = .ok added ∧ ∀ a, a ∈ added ↔ PutsLabels insts i inst ∧
        (a = pcOf insts (i + 1) ∨ targetOf insts i inst = some a)) := by
  have hlt := (List.getElem?_eq_some_iff.mp hi).1
  unfold instLabels setPcTarget
  rw [h.next hi, resolve_pcMap hlt]
  by_cases huncond : inst.isUnconditionalBranch = true
  · -- A jump adds its target and the label behind it.
    obtain ⟨hcbranch, hcdbg, -, -⟩ := inst.isCbranch_of_isUnconditionalBranch huncond
    obtain ⟨j, -, htarget⟩ := hinside i inst hi (.inl huncond)
    right
    refine ⟨hcdbg, [pcOf insts j, pcOf insts (i + 1)], ?_, fun a => ?_⟩
    · rw [if_pos huncond]
      unfold targetOf at htarget
      split_ifs at htarget ⊢ with hsetpc
      · rw [htarget]
        rfl
      · rw [← some.inj htarget]
        rfl
    · have hputs : PutsLabels insts i inst :=
        ⟨.inl huncond, by simp [Degenerate, hcbranch]⟩
      rw [htarget]
      simp only [mem_cons, not_mem_nil, or_false, hputs, true_and, some.injEq]
      exact ⟨fun ha => ha.symm.imp_right Eq.symm, fun ha => ha.symm.imp_left Eq.symm⟩
  · rw [if_neg huncond]
    unfold GcnInst.isConditionalBranch
    by_cases hcbranch : inst.isCbranch = true
    · -- A conditional branch adds both labels, unless they are the same.
      obtain ⟨hcdbg, -, hsetpc, -⟩ := inst.isCdbg_of_isCbranch hcbranch
      have htarget : targetOf insts i inst = some (inst.branchTarget (pcOf insts i)) := by
        unfold targetOf
        rw [if_neg hsetpc, if_pos (.inr hcbranch)]
      right
      refine ⟨hcdbg, if inst.branchTarget (pcOf insts i) ≠ pcOf insts (i + 1) then
        [inst.branchTarget (pcOf insts i), pcOf insts (i + 1)] else [], ?_, fun a => ?_⟩
      · rw [if_pos hcbranch]
        rfl
      · have hdegenerate : Degenerate insts i inst ↔ inst.branchTarget (pcOf insts i) = pcOf insts (i + 1) := by
          unfold Degenerate
          rw [htarget]
          simp [hcbranch]
        unfold PutsLabels
        rw [htarget, hdegenerate]
        split_ifs with hne
        · simp only [mem_cons, not_mem_nil, or_false, hcbranch, true_or, or_true, hne,
            not_false_eq_true, and_self, true_and, some.injEq]
          exact ⟨fun ha => ha.symm.imp_right Eq.symm, fun ha => ha.symm.imp_left Eq.symm⟩
        · simp [not_not.mp hne]
    · rw [if_neg hcbranch]
      by_cases hcdbg : inst.isCdbg = true
      · left
        rw [if_pos hcdbg]
        exact ⟨hcdbg, rfl⟩
      · right
        refine ⟨by simpa using hcdbg, if inst.opcode = Opcode.sEndpgm then [pcOf insts (i + 1)]
          else [], ?_, fun a => ?_⟩
        · rw [if_neg hcdbg]
          split_ifs <;> rfl
        · have htarget : targetOf insts i inst = none := by
            unfold targetOf
            rw [if_neg, if_neg]
            · rintro (hu | hc)
              · exact huncond hu
              · exact hcbranch hc
            · rintro hsetpc
              apply huncond
              simp [GcnInst.isUnconditionalBranch, hsetpc]
          have hdegenerate : ¬ Degenerate insts i inst := fun hd => hcbranch hd.1
          unfold PutsLabels
          rw [htarget]
          split_ifs with hend
          · simp [hend, hdegenerate]
          · simp [hend, huncond, hcbranch]

theorem foldl_addLabel (added labels : List ℕ) (hnodup : labels.Nodup) : (added.foldl addLabel labels).Nodup ∧
      ∀ a, a ∈ added.foldl addLabel labels ↔ a ∈ labels ∨ a ∈ added := by
  induction added generalizing labels with
  | nil => exact ⟨hnodup, by simp⟩
  | cons a added ih =>
    have hadd : (addLabel labels a).Nodup ∧ ∀ x, x ∈ addLabel labels a ↔ x ∈ labels ∨ x = a := by
      unfold addLabel
      split_ifs with hin
      · refine ⟨hnodup, fun x => ⟨.inl, ?_⟩⟩
        rintro (hx | rfl)
        · exact hx
        · exact hin
      · refine ⟨?_, by simp⟩
        rw [nodup_append]
        exact ⟨hnodup, by simp, by simpa using fun x hx (heq : x = a) => hin (heq ▸ hx)⟩
    obtain ⟨hnodup', hmem⟩ := ih _ hadd.1
    refine ⟨hnodup', fun x => ?_⟩
    rw [foldl_cons, hmem, hadd.2, mem_cons, or_assoc]

/-- The labels that the instructions from `i` on add. -/
def AddedFrom (insts : List GcnInst) (i a : ℕ) : Prop :=
  ∃ k inst, i ≤ k ∧ insts[k]? = some inst ∧ PutsLabels insts k inst ∧
    (a = pcOf insts (k + 1) ∨ targetOf insts k inst = some a)

theorem emitLabelsFrom_spec (h : WellFormed insts) (hinside : TargetsInside insts)
    (hinsts : insts = done ++ rest) (hnodup : labels.Nodup) :
    ((∃ inst ∈ rest, inst.isCdbg = true) ∧ emitLabelsFrom insts rest done.length (pcOf insts done.length)
        ((range done.length).map (pcOf insts)) labels = .error .unimplemented) ∨
    ((∀ inst ∈ rest, inst.isCdbg = false) ∧ ∃ labels', emitLabelsFrom insts rest done.length (pcOf insts done.length)
        ((range done.length).map (pcOf insts)) labels = .ok (pcMap insts, labels') ∧
      labels'.Nodup ∧ ∀ a, a ∈ labels' ↔ a ∈ labels ∨ AddedFrom insts done.length a) := by
  induction rest generalizing done labels with
  | nil =>
    right
    have hlength : insts.length = done.length := by simp [hinsts]
    refine ⟨by simp, labels, ?_, hnodup, fun a => ?_⟩
    · unfold emitLabelsFrom pcMap
      rw [hlength, range_succ, map_append]
      rfl
    · constructor
      · exact .inl
      · rintro (ha | ⟨k, inst, hk, hget, -⟩)
        · exact ha
        · have := (List.getElem?_eq_some_iff.mp hget).1
          omega
  | cons inst rest ih =>
    have hi : insts[done.length]? = some inst := by simp [hinsts]
    have hmap : (range done.length).map (pcOf insts) ++ [pcOf insts done.length] =
        (range (done.length + 1)).map (pcOf insts) := by
      rw [range_succ, map_append]
      rfl
    unfold emitLabelsFrom
    dsimp only
    rw [hmap, h.next hi]
    rcases instLabels_spec h hinside hi with ⟨hcdbg, hadd⟩ | ⟨hcdbg, added, hadd, hmem⟩
    · left
      refine ⟨⟨inst, by simp, hcdbg⟩, ?_⟩
      rw [hadd]
      rfl
    · obtain ⟨hnodup', hfold⟩ := foldl_addLabel added labels hnodup
      have hrest : insts = (done ++ [inst]) ++ rest := by simp [hinsts]
      have hnext := ih hrest hnodup'
      rw [length_append, length_singleton] at hnext
      rw [hadd]
      rcases hnext with ⟨⟨inst', hin, hcdbg'⟩, herror⟩ | ⟨hnone, labels', hok, hnodup'', hmem'⟩
      · left
        exact ⟨⟨inst', by simp [hin], hcdbg'⟩, herror⟩
      · right
        refine ⟨?_, labels', hok, hnodup'', fun a => ?_⟩
        · intro inst' hin
          rcases mem_cons.mp hin with rfl | hin
          · exact hcdbg
          · exact hnone inst' hin
        · rw [hmem', hfold, hmem]
          constructor
          · rintro ((ha | ha) | ⟨k, inst', hk, hget, hputs⟩)
            · exact .inl ha
            · exact .inr ⟨done.length, inst, Nat.le_refl _, hi, ha⟩
            · exact .inr ⟨k, inst', by omega, hget, hputs⟩
          · rintro (ha | ⟨k, inst', hk, hget, hputs⟩)
            · exact .inl (.inl ha)
            · rcases Nat.eq_or_lt_of_le hk with rfl | hlt
              · rw [hi] at hget
                obtain rfl := some.inj hget
                exact .inl (.inr hputs)
              · exact .inr ⟨k, inst', hlt, hget, hputs⟩

theorem emitLabels_spec (h : WellFormed insts) (hinside : TargetsInside insts) :
    ((∃ inst ∈ insts, inst.isCdbg = true) ∧ emitLabels insts = .error .unimplemented) ∨
    ((∀ inst ∈ insts, inst.isCdbg = false) ∧ ∃ leaders : List ℕ,
      emitLabels insts = .ok (pcMap insts, leaders.map (pcOf insts)) ∧
      leaders.Pairwise (· < ·) ∧ ∀ j, j ∈ leaders ↔ j ≤ insts.length ∧ IsLeader insts j) := by
  have hinit : addLabel [] 0 = [0] := rfl
  have hfrom := emitLabelsFrom_spec h hinside (nil_append insts).symm (nodup_singleton 0)
  unfold emitLabels
  rw [hinit]
  rcases hfrom with ⟨hcdbg, herror⟩ | ⟨hcdbg, labels, hok, hnodup, hmem⟩
  · left
    refine ⟨hcdbg, ?_⟩
    rw [show emitLabelsFrom insts insts 0 0 [] [0] = .error .unimplemented from herror]
    rfl
  · right
    -- Every label is the address of an instruction, or of the end.
    have haddr : ∀ a ∈ labels, ∃ j ≤ insts.length, a = pcOf insts j ∧ IsLeader insts j := by
      intro a ha
      rcases (hmem a).mp ha with hzero | ⟨k, inst, -, hget, hputs, ha'⟩
      · exact ⟨0, Nat.zero_le _, mem_singleton.mp hzero, .inl rfl⟩
      · have hlt := (List.getElem?_eq_some_iff.mp hget).1
        rcases ha' with rfl | htarget
        · exact ⟨k + 1, hlt, rfl, .inr ⟨k, inst, hget, hputs, .inl rfl⟩⟩
        · have hbranch : inst.isUnconditionalBranch = true ∨ inst.isCbranch = true := by
            unfold targetOf at htarget
            split_ifs at htarget with hsetpc hb
            · left
              simp [GcnInst.isUnconditionalBranch, hsetpc]
            · exact hb
          obtain ⟨j, hj, htarget'⟩ := hinside k inst hget hbranch
          rw [htarget] at htarget'
          obtain rfl := some.inj htarget'
          exact ⟨j, hj.le, rfl, .inr ⟨k, inst, hget, hputs, .inr htarget⟩⟩
    refine ⟨hcdbg, (labels.mergeSort (· ≤ ·)).map (getIndex (pcMap insts)), ?_, ?_, fun j => ?_⟩
    · rw [show emitLabelsFrom insts insts 0 0 [] [0] = .ok (pcMap insts, labels) from hok]
      have hback : (labels.mergeSort (· ≤ ·)).map (fun a => pcOf insts (getIndex (pcMap insts) a)) =
          labels.mergeSort (· ≤ ·) := by
        calc (labels.mergeSort (· ≤ ·)).map (fun a => pcOf insts (getIndex (pcMap insts) a))
          _ = (labels.mergeSort (· ≤ ·)).map id := map_congr_left fun a ha => by
            obtain ⟨j, hj, rfl, -⟩ := haddr a (List.mem_mergeSort.mp ha)
            rw [h.getIndex_eq hj, id]
          _ = labels.mergeSort (· ≤ ·) := map_id _
      rw [map_map]
      exact congrArg (fun l => Except.ok (pcMap insts, l)) hback.symm
    · -- The labels are sorted and different, and addresses increase with the index.
      have hsorted : (labels.mergeSort (· ≤ ·)).Pairwise fun a b => a < b := by
        have hle : (labels.mergeSort (· ≤ ·)).Pairwise fun a b => decide (a ≤ b) = true :=
          pairwise_mergeSort (by simp; omega) (by simp; omega) labels
        have hne : (labels.mergeSort (· ≤ ·)).Nodup :=
          (mergeSort_perm labels _).nodup_iff.mpr hnodup
        apply (hle.and hne).imp
        rintro a b ⟨h1, h2⟩
        exact Nat.lt_of_le_of_ne (by simpa using h1) h2
      rw [pairwise_map]
      apply hsorted.imp_of_mem
      intro a b ha hb hlt
      obtain ⟨j, hj, rfl, -⟩ := haddr a (List.mem_mergeSort.mp ha)
      obtain ⟨k, hk, rfl, -⟩ := haddr b (List.mem_mergeSort.mp hb)
      rw [h.getIndex_eq hj, h.getIndex_eq hk]
      by_contra hge
      have := pcOf_le insts (Nat.le_of_not_lt hge)
      omega
    · simp only [mem_map, mem_mergeSort]
      constructor
      · rintro ⟨a, ha, rfl⟩
        obtain ⟨k, hk, rfl, hleader⟩ := haddr a ha
        rw [h.getIndex_eq hk]
        exact ⟨hk, hleader⟩
      · rintro ⟨hj, hleader⟩
        refine ⟨pcOf insts j, (hmem _).mpr ?_, h.getIndex_eq hj⟩
        rcases hleader with rfl | ⟨k, inst, hget, hputs, rfl | htarget⟩
        · exact .inl (by simp [pcOf_zero])
        · exact .inr ⟨k, inst, Nat.zero_le _, hget, hputs, .inl rfl⟩
        · exact .inr ⟨k, inst, Nat.zero_le _, hget, hputs, .inr htarget⟩

/-! ## Blocks -/

/-- A block lies between two leaders that follow each other. -/
structure Spans (insts : List GcnInst) (leaders : List ℕ) (k : ℕ) (b : Block) : Prop where
  id : b.id = k
  first : leaders[k]? = some b.begin_index
  next : leaders[k + 1]? = some (b.end_index + 1)
  begin_pc : b.begin_pc = pcOf insts b.begin_index
  end_pc : b.end_pc = pcOf insts (b.end_index + 1)
  end_inst : insts[b.end_index]? = some b.end_inst

/-- A block as `EmitBlocks` makes it. -/
structure Emitted (insts : List GcnInst) (leaders : List ℕ) (k : ℕ) (b : Block) : Prop
    extends Spans insts leaders k b where
  cond : b.cond = makeCondition b.end_inst
  branch_true : b.branch_true = none
  branch_false : b.branch_false = none

theorem emitBlocksFrom_spec (h : WellFormed insts)
    (hleaders : leaders = done ++ rest) (hsorted : leaders.Pairwise (· < ·))
    (hle : ∀ j ∈ leaders, j ≤ insts.length) : ∃ blocks,
    emitBlocksFrom insts (pcMap insts) done.length (rest.map (pcOf insts)) = .ok blocks ∧
      blocks.length = rest.length - 1 ∧ ∀ k b, blocks[k]? = some b → Emitted insts leaders (done.length + k) b := by
  induction rest generalizing done with
  | nil => exact ⟨[], rfl, rfl, by simp⟩
  | cons i rest ih =>
    cases rest with
    | nil => exact ⟨[], rfl, rfl, by simp⟩
    | cons j rest =>
      have hi : i ∈ leaders := by simp [hleaders]
      have hj : j ∈ leaders := by simp [hleaders]
      have hlt : i < j := by
        rw [hleaders, pairwise_append, pairwise_cons] at hsorted
        exact hsorted.2.1.1 j (by simp)
      have hjle := hle j hj
      have hrest : leaders = (done ++ [i]) ++ j :: rest := by simp [hleaders]
      obtain ⟨blocks, hok, hlength, hspec⟩ := ih hrest
      rw [length_append, length_singleton] at hok hspec
      obtain ⟨inst, hinst⟩ : ∃ inst, insts[j - 1]? = some inst :=
        ⟨_, getElem?_eq_getElem (by omega)⟩
      simp only [map_cons] at hok ⊢
      rw [emitBlocksFrom, h.getIndex_eq hjle, h.getIndex_eq (hle i hi)]
      rw [hinst]
      rw [hok]
      refine ⟨_, rfl, by simp [hlength], fun k b hb => ?_⟩
      cases k with
      | zero =>
        obtain rfl := some.inj hb
        have hsucc : j - 1 + 1 = j := by omega
        refine ⟨⟨rfl, ?_, ?_, rfl, ?_, hinst⟩, rfl, rfl, rfl⟩
        · simp [hleaders]
        · dsimp only
          rw [hsucc, hleaders]
          simp
        · dsimp only
          rw [hsucc]
      | succ k =>
        have := hspec k b hb
        rwa [Nat.add_assoc, Nat.add_comm 1 k] at this

/-- The blocks fill the instructions from one to another, in order. -/
def Tiles : ℕ → List Block → ℕ → Prop
  | first, [], stop => first = stop
  | first, b :: blocks, stop =>
    b.begin_index = first ∧ first ≤ b.end_index ∧ Tiles (b.end_index + 1) blocks stop

theorem tiles_of_spans (hsorted : leaders.Pairwise (· < ·)) (hlength : leaders.length = k + blocks.length + 1)
    (hfirst : leaders[k]? = some first) (hstop : leaders.getLast? = some stop)
    (hspans : ∀ n b, blocks[n]? = some b → Spans insts leaders (k + n) b) : Tiles first blocks stop := by
  induction blocks generalizing first k with
  | nil =>
    have hk : k = leaders.length - 1 := by simp at hlength; omega
    rw [getLast?_eq_getElem?, ← hk, hfirst] at hstop
    exact some.inj hstop
  | cons b blocks ih =>
    have hb := hspans 0 b rfl
    rw [Nat.add_zero] at hb
    have hbegin : b.begin_index = first := by
      have := hb.first
      rw [hfirst] at this
      exact (some.inj this).symm
    refine ⟨hbegin, ?_, ?_⟩
    · obtain ⟨h1, e1⟩ := List.getElem?_eq_some_iff.mp hfirst
      obtain ⟨h2, e2⟩ := List.getElem?_eq_some_iff.mp hb.next
      have := pairwise_iff_getElem.mp hsorted k (k + 1) h1 h2 (by omega)
      omega
    · apply ih (k := k + 1) (by simp at hlength; omega) hb.next
      intro n b' hb'
      have := hspans (n + 1) b' hb'
      rwa [Nat.add_comm n 1, ← Nat.add_assoc] at this

/-! ## Where a block leads -/

inductive Flow
  | exit
  | jump (target : ℕ)
  /-- to one address where a condition holds, and to another where it does not -/
  | branch (taken : Condition) (target next : ℕ)

def takenWhen (inst : GcnInst) : Condition :=
  if inst.opcode = Opcode.sCbranchScc0 then .scc0
  else if inst.opcode = Opcode.sCbranchScc1 then .scc1
  else if inst.opcode = Opcode.sCbranchVccz then .vccz
  else if inst.opcode = Opcode.sCbranchVccnz then .vccnz
  else if inst.opcode = Opcode.sCbranchExecz then .execz
  else .execnz

/-- Where the instruction at an index leads. -/
def flowOf (insts : List GcnInst) (i : ℕ) (inst : GcnInst) : Flow :=
  if inst.opcode = Opcode.sEndpgm then .exit
  else match targetOf insts i inst with
    | none => .jump (pcOf insts (i + 1))
    | some target => if inst.isCbranch then .branch (takenWhen inst) target (pcOf insts (i + 1))
      else .jump target

def PointsTo (blocks : List Block) (pointer : Option ℕ) (address : ℕ) : Prop :=
  ∃ b ∈ blocks, pointer = some b.id ∧ b.begin_pc = address

/-- A block leads where an instruction does. -/
def Block.Follows (blocks : List Block) (b : Block) : Flow → Prop
  | .exit => b.end_class = .exit
  | .jump target => b.end_class = .branch ∧ b.cond = .true ∧ PointsTo blocks b.branch_true target
  | .branch taken target next => b.end_class = .branch ∧ b.cond = taken ∧
    PointsTo blocks b.branch_true target ∧ PointsTo blocks b.branch_false next

theorem makeCondition_of_isCbranch (h : inst.isCbranch = true) :
    makeCondition inst = takenWhen inst ∧ inst.isCmpx = false := by
  unfold GcnInst.isCbranch at h
  unfold makeCondition takenWhen GcnInst.isCmpx
  simp only [Bool.or_eq_true, decide_eq_true_eq] at h
  rcases h with ((((h | h) | h) | h) | h) | h <;> rw [h] <;> decide

theorem makeCondition_of_not_isCbranch (h : inst.isCbranch = false) :
    makeCondition inst = if inst.isCmpx then .execnz else .true := by
  unfold GcnInst.isCbranch at h
  simp only [Bool.or_eq_false_iff, decide_eq_false_iff_not] at h
  obtain ⟨⟨⟨⟨⟨h1, h2⟩, h3⟩, h4⟩, h5⟩, h6⟩ := h
  unfold makeCondition
  rw [if_neg h1, if_neg h2, if_neg h3, if_neg h4, if_neg h5, if_neg h6]

theorem getBlock_spec (hspans : ∀ n b, blocks[n]? = some b → Spans insts leaders n b)
    (hlength : leaders.length = blocks.length + 1) (hj : j ∈ leaders)
    (hlast : leaders.getLast? ≠ some j) : ∃ id, getBlock blocks (pcOf insts j) = .ok id ∧
      PointsTo blocks (some id) (pcOf insts j) := by
  obtain ⟨k, hk, hget⟩ := getElem_of_mem hj
  have hklt : k < blocks.length := by
    by_contra hge
    have hkeq : k = leaders.length - 1 := by omega
    rw [getLast?_eq_getElem?, ← hkeq, getElem?_eq_getElem hk, hget] at hlast
    exact hlast rfl
  have hb := hspans k _ (getElem?_eq_getElem hklt)
  have hbegin : blocks[k].begin_index = j := by
    have := hb.first
    rw [getElem?_eq_getElem hk, hget] at this
    exact (some.inj this).symm
  cases hfind : blocks.find? (·.begin_pc = pcOf insts j) with
  | none =>
    rw [find?_eq_none] at hfind
    have := hfind _ (getElem_mem hklt)
    rw [hb.begin_pc, hbegin] at this
    simp at this
  | some b =>
    have hmem := mem_of_find?_eq_some hfind
    have haddr := find?_some hfind
    refine ⟨b.id, ?_, b, hmem, rfl, by simpa using haddr⟩
    unfold getBlock
    rw [hfind]

theorem WellFormed.succ_ne (h : WellFormed insts) (hi : insts[i]? = some inst)
    (hend : inst.opcode ≠ Opcode.sEndpgm) : i + 1 ≠ insts.length := by
  obtain ⟨last, hlast, hopcode⟩ := h.last
  rw [getLast?_eq_getElem?] at hlast
  intro heq
  rw [show insts.length - 1 = i by omega, hi] at hlast
  exact hend (some.inj hlast ▸ hopcode)

structure Layout (insts : List GcnInst) (leaders : List ℕ) (blocks : List Block) : Prop where
  wf : WellFormed insts
  inside : TargetsInside insts
  sorted : leaders.Pairwise (· < ·)
  leader : ∀ j, j ∈ leaders ↔ j ≤ insts.length ∧ IsLeader insts j
  length : leaders.length = blocks.length + 1
  emitted : ∀ k b, blocks[k]? = some b → Emitted insts leaders k b

variable {leaders : List ℕ} {blocks : List Block} {b : Block}

theorem Layout.getLast? (h : Layout insts leaders blocks) : leaders.getLast? = some insts.length := by
  have hend : insts.length ∈ leaders := by
    apply (h.leader _).mpr
    obtain ⟨last, hlast, hopcode⟩ := h.wf.last
    rw [getLast?_eq_getElem?] at hlast
    have hlt := (List.getElem?_eq_some_iff.mp hlast).1
    refine ⟨Nat.le_refl _, .inr ⟨insts.length - 1, last, hlast, ⟨.inr (.inr hopcode), ?_⟩, .inl ?_⟩⟩
    · rintro ⟨hbranch, -⟩
      exact (last.isCdbg_of_isCbranch hbranch).2.2.2 hopcode
    · omega
  -- No leader is greater, and the last one is the greatest.
  obtain ⟨k, hk, hget⟩ := getElem_of_mem hend
  rw [getLast?_eq_getElem?, getElem?_eq_getElem (by omega)]
  have hle := ((h.leader _).mp (getElem_mem (l := leaders) (n := leaders.length - 1) (by omega))).1
  rcases Nat.lt_or_ge k (leaders.length - 1) with hlt | hge
  · have := pairwise_iff_getElem.mp h.sorted k (leaders.length - 1) hk (by omega) hlt
    omega
  · congr 1
    rw [← hget]
    congr 1
    omega

theorem Layout.getBlock (h : Layout insts leaders blocks) (hj : j < insts.length)
    (hleader : IsLeader insts j) : ∃ id, getBlock blocks (pcOf insts j) = .ok id ∧
      PointsTo blocks (some id) (pcOf insts j) := by
  apply getBlock_spec (fun n b hb => (h.emitted n b hb).toSpans) h.length ((h.leader j).mpr ⟨hj.le, hleader⟩)
  rw [h.getLast?, ne_eq, some.injEq]
  omega

structure LinkedTo (insts : List GcnInst) (blocks : List Block) (b b' : Block) : Prop where
  same : b'.id = b.id ∧ b'.begin_pc = b.begin_pc ∧ b'.begin_index = b.begin_index ∧
    b'.end_index = b.end_index ∧ b'.end_inst = b.end_inst
  follows : b.end_inst.isCmpx = false → b'.Follows blocks (flowOf insts b.end_index b.end_inst)
  cmpx : b.end_inst.isCmpx = true → b'.end_class = .branch ∧ b'.cond = .execnz ∧
    b'.branch_false = none

theorem GcnInst.isCmpx_of_ends (h : inst.isUnconditionalBranch = true ∨
    inst.opcode = Opcode.sEndpgm) : inst.isCmpx = false := by
  unfold GcnInst.isUnconditionalBranch at h
  unfold GcnInst.isCmpx
  simp only [Bool.or_eq_true, decide_eq_true_eq] at h
  rcases h with (h | h) | h <;> rw [h] <;> decide

theorem linkBlock_spec (h : Layout insts leaders blocks) (hcdbg : ∀ inst ∈ insts, inst.isCdbg = false)
    (hb : b ∈ blocks) : (b.end_inst.isFork = true ∧ linkBlock insts (pcMap insts) blocks b = .error .unreachable) ∨
    (b.end_inst.isFork = false ∧ ∃ b', linkBlock insts (pcMap insts) blocks b = .ok b' ∧
      LinkedTo insts blocks b b') := by
  obtain ⟨k, hk, rfl⟩ := getElem_of_mem hb
  have hemitted := h.emitted k _ (getElem?_eq_getElem hk)
  generalize blocks[k] = b at hemitted
  have hinst := hemitted.end_inst
  have hlt := (List.getElem?_eq_some_iff.mp hinst).1
  have hcd := hcdbg _ (mem_of_getElem? hinst)
  have hpc : b.end_pc - b.end_inst.length = pcOf insts b.end_index := by
    rw [hemitted.end_pc, pcOf_succ hinst, Nat.add_sub_cancel]
  -- The block behind, where the instruction does not end the program.
  have hnext : b.end_inst.opcode ≠ Opcode.sEndpgm → ∃ id, getBlock blocks b.end_pc = .ok id ∧
      PointsTo blocks (some id) (pcOf insts (b.end_index + 1)) := by
    intro hend
    have hne := h.wf.succ_ne hinst hend
    rw [hemitted.end_pc]
    exact h.getBlock (by omega) ((h.leader _).mp (mem_of_getElem? hemitted.next)).2
  unfold linkBlock
  by_cases huncond : b.end_inst.isUnconditionalBranch = true
  · -- A jump leads to its target.
    obtain ⟨hcbranch, -, hfork, hend⟩ := b.end_inst.isCbranch_of_isUnconditionalBranch huncond
    obtain ⟨j, hj, htarget⟩ := h.inside _ _ hinst (.inl huncond)
    have hleader : IsLeader insts j :=
      .inr ⟨_, _, hinst, ⟨.inl huncond, by simp [Degenerate, hcbranch]⟩, .inr htarget⟩
    obtain ⟨id, hget, hpoints⟩ := h.getBlock hj hleader
    have hresolve : (if b.end_inst.opcode = Opcode.sSetpcB64 then
        setPcTarget insts b.end_index (pcMap insts)
      else .ok (b.end_inst.branchTarget (b.end_pc - b.end_inst.length))) =
        Except.ok (pcOf insts j) := by
      rw [hpc]
      unfold targetOf at htarget
      unfold setPcTarget
      split_ifs at htarget ⊢
      · rw [htarget]
      · rw [some.inj htarget]
    right
    refine ⟨hfork, { b with branch_true := some id, end_class := .branch }, ?_, ?_⟩
    · simp only [huncond, if_true, bind, Except.bind, hresolve, hget, true_or, not_true_eq_false,
        if_false, pure, Except.pure]
    · refine ⟨⟨rfl, rfl, rfl, rfl, rfl⟩, fun hcmpx => ?_, fun hcmpx => ?_⟩
      · unfold flowOf
        rw [if_neg hend, htarget]
        dsimp only
        rw [if_neg (by simp [hcbranch])]
        refine ⟨rfl, ?_, hpoints⟩
        rw [hemitted.cond, makeCondition_of_not_isCbranch hcbranch, if_neg (by simp [hcmpx])]
      · rw [GcnInst.isCmpx_of_ends (.inl huncond)] at hcmpx
        exact absurd hcmpx (by decide)
  · have hsetpc : b.end_inst.opcode ≠ Opcode.sSetpcB64 := by
      intro hc
      apply huncond
      simp [GcnInst.isUnconditionalBranch, hc]
    by_cases hcbranch : b.end_inst.isCbranch = true
    · -- A conditional branch leads to its target and to the next block.
      obtain ⟨-, hfork, -, hend⟩ := b.end_inst.isCdbg_of_isCbranch hcbranch
      obtain ⟨j, hj, htarget⟩ := h.inside _ _ hinst (.inr hcbranch)
      obtain ⟨next, hgetNext, hpointsNext⟩ := hnext hend
      have hleader : IsLeader insts j := by
        by_cases hdegenerate : Degenerate insts b.end_index b.end_inst
        · have heq := hdegenerate.2
          rw [htarget, some.injEq] at heq
          obtain rfl := h.wf.pcOf_inj hj.le hlt heq
          exact ((h.leader _).mp (mem_of_getElem? hemitted.next)).2
        · exact .inr ⟨_, _, hinst, ⟨.inr (.inl hcbranch), hdegenerate⟩, .inr htarget⟩
      obtain ⟨id, hget, hpoints⟩ := h.getBlock hj hleader
      have hbranch : b.end_inst.branchTarget (b.end_pc - b.end_inst.length) = pcOf insts j := by
        rw [hpc]
        unfold targetOf at htarget
        rw [if_neg hsetpc, if_pos (.inr hcbranch)] at htarget
        exact some.inj htarget
      obtain ⟨hcond, hcmpx⟩ := makeCondition_of_isCbranch hcbranch
      right
      refine ⟨hfork, { b with
        branch_true := some id
        branch_false := some next
        end_class := .branch }, ?_, ?_⟩
      · simp only [huncond, if_false, GcnInst.isConditionalBranch, hcbranch, if_true, bind,
          Except.bind, hsetpc, hbranch, hget, hgetNext, true_or, or_true, not_true_eq_false, pure,
          Except.pure, Bool.false_eq_true]
      · refine ⟨⟨rfl, rfl, rfl, rfl, rfl⟩, fun _ => ?_, fun hc => ?_⟩
        · unfold flowOf
          rw [if_neg hend, htarget]
          dsimp only
          rw [if_pos hcbranch]
          exact ⟨rfl, hemitted.cond.trans hcond, hpoints, hpointsNext⟩
        · rw [hcmpx] at hc
          exact absurd hc (by decide)
    · have htarget : targetOf insts b.end_index b.end_inst = none := by
        unfold targetOf
        rw [if_neg hsetpc, if_neg fun hc => hc.elim huncond hcbranch]
      by_cases hfork : b.end_inst.isFork = true
      · left
        refine ⟨hfork, ?_⟩
        have hend : b.end_inst.opcode ≠ Opcode.sEndpgm := by
          intro hc
          rw [(GcnInst.isCdbg_of_endpgm hc).2] at hfork
          exact absurd hfork (by decide)
        simp only [huncond, if_false, GcnInst.isConditionalBranch, hcbranch, hcd, bind,
          Except.bind, hsetpc, hfork, hend, or_true, or_false, not_true_eq_false,
          Bool.false_eq_true]
      · right
        refine ⟨by simpa using hfork, ?_⟩
        by_cases hend : b.end_inst.opcode = Opcode.sEndpgm
        · refine ⟨{ b with end_class := .exit }, ?_, ⟨rfl, rfl, rfl, rfl, rfl⟩, fun _ => ?_,
            fun hc => ?_⟩
          · simp only [huncond, if_false, GcnInst.isConditionalBranch, hcbranch, hcd, bind,
              Except.bind, hsetpc, pure, Except.pure, Bool.false_eq_true, if_pos hend]
            exact if_neg (by simp [hend])
          · unfold flowOf
            rw [if_pos hend]
            rfl
          · rw [GcnInst.isCmpx_of_ends (.inr hend)] at hc
            exact absurd hc (by decide)
        · -- Any other instruction leads to the next block.
          obtain ⟨next, hgetNext, hpointsNext⟩ := hnext hend
          have hcond := hemitted.cond
          rw [makeCondition_of_not_isCbranch (by simpa using hcbranch)] at hcond
          refine ⟨{ b with branch_true := some next, end_class := .branch }, ?_,
            ⟨rfl, rfl, rfl, rfl, rfl⟩, fun hcmpx => ?_, fun hcmpx => ?_⟩
          · simp only [huncond, if_false, GcnInst.isConditionalBranch, hcbranch, hcd, bind,
              Except.bind, hfork, hend, or_false, not_false_eq_true, if_true, hgetNext, pure,
              Except.pure, Bool.false_eq_true]
          · unfold flowOf
            rw [if_neg hend, htarget]
            exact ⟨rfl, by rw [hcond, if_neg (by simp [hcmpx])], hpointsNext⟩
          · exact ⟨rfl, by rw [hcond, if_pos hcmpx], hemitted.branch_false⟩

/-! ## The graph -/

/-- The instruction ends a block: a branch, or the end of the program. -/
def GcnInst.isTerminate (inst : GcnInst) : Bool :=
  inst.isUnconditionalBranch || inst.isCbranch || inst.isCdbg || inst.isFork ||
    inst.opcode = Opcode.sEndpgm

structure BlocksOf (insts : List GcnInst) (blocks : List Block) : Prop where
  tiles : Tiles 0 blocks insts.length
  ids : (blocks.map (·.id)).Nodup
  ends : ∀ i inst, insts[i]? = some inst → inst.isTerminate = true → ¬ Degenerate insts i inst →
    ∃ b ∈ blocks, b.end_index = i
  follows : ∀ b ∈ blocks, insts[b.end_index]? = some b.end_inst ∧
    b.Follows blocks (flowOf insts b.end_index b.end_inst)
  both : ∀ b ∈ blocks, b.end_class = .branch → b.cond ≠ .true → b.cond ≠ .false →
    b.branch_true.isSome = true ∧ b.branch_false.isSome = true

/-- No branch for a debugger, no fork or join, and no `V_CMPX` before the target of a branch. -/
structure Supported (insts : List GcnInst) : Prop where
  plain : ∀ inst ∈ insts, inst.isCdbg = false ∧ inst.isFork = false
  cmpx : ∀ i inst, insts[i]? = some inst → inst.isCmpx = true → ¬ IsLeader insts (i + 1)

theorem emit_spec (h : WellFormed insts) (hinside : TargetsInside insts) :
    ((∃ inst ∈ insts, inst.isCdbg = true) ∧ buildBlocks insts = .error .unimplemented) ∨
    ((∀ inst ∈ insts, inst.isCdbg = false) ∧ ∃ leaders blocks, Layout insts leaders blocks ∧
      buildBlocks insts = linkBlocks insts (pcMap insts) blocks) := by
  unfold buildBlocks
  rcases emitLabels_spec h hinside with ⟨hcdbg, herror⟩ | ⟨hcdbg, leaders, hok, hsorted, hmem⟩
  · left
    rw [herror]
    exact ⟨hcdbg, rfl⟩
  · right
    have hle : ∀ j ∈ leaders, j ≤ insts.length := fun j hj => ((hmem j).mp hj).1
    obtain ⟨blocks, hblocks, hlength, hspec⟩ :=
      emitBlocksFrom_spec h (nil_append leaders).symm hsorted hle
    have hzero : 0 ∈ leaders := (hmem 0).mpr ⟨Nat.zero_le _, .inl rfl⟩
    have hpos := length_pos_of_mem hzero
    refine ⟨hcdbg, leaders, blocks, ⟨h, hinside, hsorted, hmem, by omega, fun k b hb => ?_⟩, ?_⟩
    · have := hspec k b hb
      rwa [length_nil, Nat.zero_add] at this
    · rw [hok]
      simp only [bind, Except.bind]
      rw [show emitBlocks insts (pcMap insts) (leaders.map (pcOf insts)) = .ok blocks from hblocks]

theorem PointsTo.linked (h : PointsTo blocks pointer address)
    (hlinked : List.Forall₂ (LinkedTo insts blocks) blocks blocks') : PointsTo blocks' pointer address := by
  obtain ⟨b, hb, rfl, rfl⟩ := h
  obtain ⟨k, hk, rfl⟩ := getElem_of_mem hb
  have hk' : k < blocks'.length := hlinked.length_eq ▸ hk
  have hlink := (List.forall₂_iff_get.mp hlinked).2 k hk hk'
  exact ⟨blocks'[k], getElem_mem hk', congrArg some hlink.same.1.symm, hlink.same.2.1⟩

theorem Layout.exists_end (h : Layout insts leaders blocks) (hi : i < insts.length)
    (hleader : IsLeader insts (i + 1)) : ∃ b ∈ blocks, b.end_index = i := by
  obtain ⟨k, hk, hget⟩ := getElem_of_mem ((h.leader (i + 1)).mpr ⟨hi, hleader⟩)
  have hzero : 0 ∈ leaders := (h.leader 0).mpr ⟨Nat.zero_le _, .inl rfl⟩
  -- The leader is not the first one.
  obtain ⟨n, rfl⟩ : ∃ n, k = n + 1 := by
    cases k with
    | succ n => exact ⟨n, rfl⟩
    | zero =>
      obtain ⟨m, hm, hgetm⟩ := getElem_of_mem hzero
      rcases Nat.eq_zero_or_pos m with rfl | hpos
      · omega
      · have := pairwise_iff_getElem.mp h.sorted 0 m hk hm hpos
        omega
  have hlength := h.length
  have hn : n < blocks.length := by omega
  have hnext := (h.emitted n _ (getElem?_eq_getElem hn)).next
  rw [getElem?_eq_getElem hk, hget, some.injEq] at hnext
  exact ⟨blocks[n], getElem_mem hn, by omega⟩

theorem Layout.leader_end (h : Layout insts leaders blocks) (hb : b ∈ blocks) :
    insts[b.end_index]? = some b.end_inst ∧ IsLeader insts (b.end_index + 1) := by
  obtain ⟨k, hk, rfl⟩ := getElem_of_mem hb
  have hemitted := h.emitted k _ (getElem?_eq_getElem hk)
  exact ⟨hemitted.end_inst, ((h.leader _).mp (mem_of_getElem? hemitted.next)).2⟩

theorem putsLabels_of_isTerminate (hcdbg : inst.isCdbg = false) (hfork : inst.isFork = false)
    (hends : inst.isTerminate = true) (hdegenerate : ¬ Degenerate insts i inst) : PutsLabels insts i inst := by
  unfold GcnInst.isTerminate at hends
  rw [hcdbg, hfork] at hends
  simp only [Bool.or_false, Bool.or_eq_true, decide_eq_true_eq, or_assoc] at hends
  exact ⟨hends, hdegenerate⟩

theorem Block.Follows.both (h : b.Follows blocks flow) (hclass : b.end_class = .branch)
    (htrue : b.cond ≠ .true) : b.branch_true.isSome = true ∧ b.branch_false.isSome = true := by
  cases flow with
  | exit =>
    have := hclass.symm.trans h
    exact absurd this (by decide)
  | jump target => exact absurd h.2.1 htrue
  | branch taken target next =>
    obtain ⟨-, -, ⟨_, -, htarget, -⟩, ⟨_, -, hnext, -⟩⟩ := h
    rw [htarget, hnext]
    exact ⟨rfl, rfl⟩

theorem Block.Follows.linked (h : b.Follows blocks flow)
    (hlinked : List.Forall₂ (LinkedTo insts blocks) blocks blocks') : b.Follows blocks' flow := by
  cases flow with
  | exit => exact h
  | jump target => exact ⟨h.1, h.2.1, h.2.2.linked hlinked⟩
  | branch taken target next =>
    exact ⟨h.1, h.2.1, h.2.2.1.linked hlinked, h.2.2.2.linked hlinked⟩

theorem linkBlocks_ok (h : Layout insts leaders blocks) (hcdbg : ∀ inst ∈ insts, inst.isCdbg = false) (hok : linkBlocks insts (pcMap insts) blocks = .ok blocks') :
    List.Forall₂ (fun b b' => b.end_inst.isFork = false ∧ LinkedTo insts blocks b b') blocks blocks' := by
  have hall := mapM_eq_ok.mp hok
  rw [forall₂_iff_get] at hall ⊢
  refine ⟨hall.1, fun k hk hk' => ?_⟩
  have hlink := hall.2 k hk hk'
  rcases linkBlock_spec h hcdbg (getElem_mem hk) with ⟨-, herror⟩ | ⟨hfork, b', hb', hto⟩
  · rw [get_eq_getElem, herror] at hlink
    exact absurd hlink (by simp)
  · rw [get_eq_getElem, hb'] at hlink
    exact ⟨hfork, Except.ok.inj hlink ▸ hto⟩

theorem tiles_linked (h : Tiles first xs stop)
    (hlinked : List.Forall₂ (LinkedTo insts blocks) xs ys) : Tiles first ys stop := by
  induction hlinked generalizing first with
  | nil => exact h
  | cons hto _ ih =>
    obtain ⟨-, -, hbegin, hend, -⟩ := hto.same
    exact ⟨hbegin.trans h.1, hend ▸ h.2.1, hend ▸ ih h.2.2⟩

theorem Layout.tiles (h : Layout insts leaders blocks) :
    Tiles 0 blocks insts.length ∧ blocks.map (·.id) = range blocks.length := by
  constructor
  · have hzero : 0 ∈ leaders := (h.leader 0).mpr ⟨Nat.zero_le _, .inl rfl⟩
    have hfirst : leaders[0]? = some 0 := by
      obtain ⟨m, hm, hget⟩ := getElem_of_mem hzero
      rcases Nat.eq_zero_or_pos m with rfl | hpos
      · rw [getElem?_eq_getElem hm, hget]
      · have := pairwise_iff_getElem.mp h.sorted 0 m (by omega) hm hpos
        omega
    apply tiles_of_spans h.sorted (k := 0) (by have := h.length; omega) hfirst h.getLast?
    intro n b hb
    rw [Nat.zero_add]
    exact (h.emitted n b hb).toSpans
  · apply ext_getElem (by simp)
    intro k h1 h2
    rw [length_map] at h1
    rw [getElem_map, getElem_range]
    exact (h.emitted k _ (getElem?_eq_getElem h1)).id

theorem supported_of_blocksOf (h : WellFormed insts) (hinside : TargetsInside insts) (hbuild : buildBlocks insts = .ok blocks') (hof : BlocksOf insts blocks') :
    Supported insts := by
  rcases emit_spec h hinside with ⟨-, herror⟩ | ⟨hcdbg, leaders, blocks, hlayout, heq⟩
  · -- An instruction that is not implemented stops the construction.
    rw [herror] at hbuild
    exact absurd hbuild (by simp)
  · have hok := heq.symm.trans hbuild
    have hall := List.forall₂_iff_get.mp (linkBlocks_ok hlayout hcdbg hok)
    constructor
    · intro inst hin
      refine ⟨hcdbg inst hin, ?_⟩
      by_contra hfork
      rw [Bool.not_eq_false] at hfork
      obtain ⟨i, hi, rfl⟩ := getElem_of_mem hin
      have hdegenerate : ¬ Degenerate insts i insts[i] := fun hd => by
        rw [(GcnInst.isCdbg_of_isCbranch hd.1).2.1] at hfork
        exact absurd hfork (by decide)
      obtain ⟨b', hb', hend⟩ := hof.ends i _ (getElem?_eq_getElem hi)
        (by simp [GcnInst.isTerminate, hfork]) hdegenerate
      -- The block that ends in the fork could not be linked.
      obtain ⟨k, hk, rfl⟩ := getElem_of_mem hb'
      have hk' : k < blocks.length := hall.1 ▸ hk
      obtain ⟨hnot, hto⟩ := hall.2 k hk' hk
      rw [get_eq_getElem] at hnot hto
      have hinst := (hlayout.leader_end (getElem_mem hk')).1
      rw [← hto.same.2.2.2.1, get_eq_getElem, hend, getElem?_eq_getElem hi] at hinst
      rw [← some.inj hinst, hfork] at hnot
      exact absurd hnot (by decide)
    · intro i inst hi hcmpx hleader
      obtain ⟨b, hb, hend⟩ := hlayout.exists_end (List.getElem?_eq_some_iff.mp hi).1 hleader
      obtain ⟨k, hk, rfl⟩ := getElem_of_mem hb
      have hk' : k < blocks'.length := hall.1 ▸ hk
      have hto := (hall.2 k hk hk').2
      rw [get_eq_getElem, get_eq_getElem] at hto
      have hinst := (hlayout.leader_end (getElem_mem hk)).1
      rw [hend, hi, some.injEq] at hinst
      obtain ⟨hclass, hcond, hnone⟩ := hto.cmpx (hinst ▸ hcmpx)
      have hboth := hof.both _ (getElem_mem hk') hclass (by rw [hcond]; decide)
        (by rw [hcond]; decide)
      rw [hnone] at hboth
      exact absurd hboth.2 (by decide)

theorem blocksOf_of_supported (h : WellFormed insts) (hinside : TargetsInside insts)
    (hsupported : Supported insts) : ∃ blocks', buildBlocks insts = .ok blocks' ∧ BlocksOf insts blocks' := by
  rcases emit_spec h hinside with ⟨⟨inst, hin, hcdbg⟩, -⟩ | ⟨hcdbg, leaders, blocks, hlayout, heq⟩
  · rw [(hsupported.plain inst hin).1] at hcdbg
    exact absurd hcdbg (by decide)
  · rw [heq]
    have hplain : ∀ b ∈ blocks, b.end_inst.isFork = false ∧ b.end_inst.isCmpx = false := by
      intro b hb
      obtain ⟨hinst, hleader⟩ := hlayout.leader_end hb
      refine ⟨(hsupported.plain _ (mem_of_getElem? hinst)).2, ?_⟩
      by_contra hcmpx
      exact hsupported.cmpx _ _ hinst (by simpa using hcmpx) hleader
    obtain ⟨blocks', hok, hlinked⟩ : ∃ blocks', linkBlocks insts (pcMap insts) blocks =
        .ok blocks' ∧ List.Forall₂ (LinkedTo insts blocks) blocks blocks' := by
      apply exists_mapM_ok
      intro b hb
      rcases linkBlock_spec hlayout hcdbg hb with ⟨hfork, -⟩ | ⟨-, b', hb', hto⟩
      · rw [(hplain b hb).1] at hfork
        exact absurd hfork (by decide)
      · exact ⟨b', hb', hto⟩
    have hall := List.forall₂_iff_get.mp hlinked
    -- Each linked block comes from a block with the same last instruction.
    have hfrom : ∀ b' ∈ blocks', ∃ b ∈ blocks, LinkedTo insts blocks b b' := by
      intro b' hb'
      obtain ⟨k, hk, rfl⟩ := getElem_of_mem hb'
      have hk' : k < blocks.length := hall.1 ▸ hk
      exact ⟨blocks[k], getElem_mem hk', hall.2 k hk' hk⟩
    obtain ⟨htiles, hids⟩ := hlayout.tiles
    have hfollows : ∀ b ∈ blocks', insts[b.end_index]? = some b.end_inst ∧
        b.Follows blocks' (flowOf insts b.end_index b.end_inst) := by
      intro b' hb'
      obtain ⟨b, hb, hto⟩ := hfrom b' hb'
      obtain ⟨-, -, -, hend, hinst⟩ := hto.same
      rw [hend, hinst]
      exact ⟨(hlayout.leader_end hb).1, (hto.follows (hplain b hb).2).linked hlinked⟩
    refine ⟨blocks', hok, tiles_linked htiles hlinked, ?_, fun i inst hi hends hdegenerate => ?_,
      hfollows, fun b hb hclass htrue _ => (hfollows b hb).2.both hclass htrue⟩
    · have heq : blocks'.map (·.id) = blocks.map (·.id) := by
        apply ext_getElem (by simp [hall.1])
        intro k h1 h2
        rw [length_map] at h1 h2
        rw [getElem_map, getElem_map]
        exact (hall.2 k h2 h1).same.1
      rw [heq, hids]
      exact nodup_range
    · obtain ⟨hcd, hfork⟩ := hsupported.plain inst (mem_of_getElem? hi)
      have hputs := putsLabels_of_isTerminate hcd hfork hends hdegenerate
      obtain ⟨b, hb, hend⟩ := hlayout.exists_end (List.getElem?_eq_some_iff.mp hi).1
        (.inr ⟨i, inst, hi, hputs, .inl rfl⟩)
      obtain ⟨k, hk, rfl⟩ := getElem_of_mem hb
      have hk' : k < blocks'.length := hall.1 ▸ hk
      exact ⟨blocks'[k], getElem_mem hk', (hall.2 k hk hk').same.2.2.2.1.trans hend⟩

def endpgm : GcnInst where
  opcode := Opcode.sEndpgm
  category := .flowControl

/-- A comparison that writes the mask, and a loop that starts behind it. -/
def cmpxBeforeLoop : List GcnInst :=
  [{ opcode := Opcode.vCmpxFF32, category := .vectorALU },
    { opcode := Opcode.sAddU32, category := .scalarALU },
    { opcode := Opcode.sCbranchScc1, category := .flowControl, simm := -2 },
    endpgm]

end ShadPS4.Gcn
