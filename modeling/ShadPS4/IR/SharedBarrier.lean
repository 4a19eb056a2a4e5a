import Mathlib.Data.Int.Bitwise
import Mathlib.Data.List.Nodup

/-!
# Barriers for shared memory

Without barriers of its own, a program gets one between accesses of shared memory that may meet: within
a block, at the end of a block, and behind conditions on which the invocations part.
-/

namespace ShadPS4.IR.SharedBarrier

open Function List

variable {insts : List Inst} {s : State}

/-- An instruction, as far as the pass tells it from others. -/
inductive Inst
  | phi | load | write | barrier | other
deriving DecidableEq

def Inst.isAccess : Inst → Bool
  | .load | .write => true
  | _ => false

inductive BarrierAction
  | none | barrierOnWrite | barrierOnRead
deriving DecidableEq

/-- The loop of `EmitBarrierInBlock`, with the action that is left. -/
def emitLoop : BarrierAction → List Inst → List Inst × BarrierAction
  | action, [] => ([], action)
  | action, .load :: rest =>
    let r := emitLoop .barrierOnWrite rest
    (if action = .barrierOnRead then .barrier :: .load :: r.1 else .load :: r.1, r.2)
  | action, .write :: rest =>
    let r := emitLoop .barrierOnRead rest
    (if action = .barrierOnWrite then .barrier :: .write :: r.1 else .write :: r.1, r.2)
  | action, inst :: rest =>
    let r := emitLoop action rest
    (inst :: r.1, r.2)

/-- `EmitBarrierInBlock`. The last barrier goes before the last instruction. -/
def emitBarrierInBlock (insts : List Inst) : List Inst :=
  let r := emitLoop .none insts
  if r.2 = .none then r.1 else r.1.dropLast ++ .barrier :: r.1.getLast?.toList

/-- The barrier of a block in which the invocations meet again. -/
def emitBarrierInMerge (insts : List Inst) : List Inst :=
  insts.takeWhile (· = .phi) ++ .barrier :: insts.dropWhile (· = .phi)

/-- `AbstractSyntaxNode`. -/
inductive Node
  | block (id : ℕ)
  | ifNode (is_divergent_cond : Bool) (merge : ℕ)
  | endIf (merge : ℕ)
  | other

structure State where
  blocks : ℕ → List Inst
  divergence_depth : ℤ
  divergence_end : List ℕ

/-- The body of the loop of `SharedMemoryBarrierPass`. -/
def State.step (s : State) : Node → State
  | .endIf merge =>
    if merge ∈ s.divergence_end then { s with divergence_depth := s.divergence_depth - 1 } else s
  | .ifNode is_divergent_cond merge =>
    if is_divergent_cond then
      { blocks := if s.divergence_depth = 0 then
          update s.blocks merge (emitBarrierInMerge (s.blocks merge)) else s.blocks
        divergence_depth := s.divergence_depth + 1
        divergence_end := merge :: s.divergence_end }
    else s
  | .block id =>
    if s.divergence_depth = 0 then
      { s with blocks := update s.blocks id (emitBarrierInBlock (s.blocks id)) }
    else s
  | .other => s

def pass (nodes : List Node) (blocks : ℕ → List Inst) : State :=
  nodes.foldl State.step ⟨blocks, 0, []⟩

/-- The lists in which `If` and `EndIf` are nested. -/
inductive Asl
  | nil
  | block (id : ℕ) (rest : Asl)
  | cond (is_divergent_cond : Bool) (merge : ℕ) (body rest : Asl)
  | other (rest : Asl)

namespace Asl

def nodes : Asl → List Node
  | nil => []
  | block id rest => .block id :: rest.nodes
  | cond is_divergent_cond merge body rest =>
    .ifNode is_divergent_cond merge :: (body.nodes ++ .endIf merge :: rest.nodes)
  | other rest => .other :: rest.nodes

def merges : Asl → List ℕ
  | nil => []
  | block _ rest => rest.merges
  | cond _ merge body rest => merge :: (body.merges ++ rest.merges)
  | other rest => rest.merges

/-- The blocks inside divergent conditions or outside of them. -/
def blocksAt (inside : Bool) : Bool → Asl → List ℕ
  | _, nil => []
  | diverged, block id rest => (if diverged = inside then [id] else []) ++ blocksAt inside diverged rest
  | diverged, cond is_divergent_cond _ body rest =>
    blocksAt inside (diverged || is_divergent_cond) body ++ blocksAt inside diverged rest
  | diverged, other rest => blocksAt inside diverged rest

/-- The blocks that end the outermost divergent conditions. -/
def fences : Asl → List ℕ
  | nil => []
  | block _ rest => rest.fences
  | cond is_divergent_cond merge body rest =>
    (if is_divergent_cond then [merge] else body.fences) ++ rest.fences
  | other rest => rest.fences

/-- Conditions end in different blocks, and a block inside a divergent condition is not outside, nor the end
of one. -/
structure Placed (a : Asl) : Prop where
  nodup : a.merges.Nodup
  apart : ∀ id ∈ a.blocksAt true false, id ∉ a.blocksAt false false ∧ id ∉ a.fences

end Asl

def LastOk (insts : List Inst) : Prop := ∀ inst ∈ insts.getLast?, inst.isAccess = false

/-- A step through the instructions of a path, each of which is outside of the divergent conditions or not, with
the access that a barrier has to follow. -/
def next (action : BarrierAction) : Inst × Bool → Option BarrierAction
  | (.barrier, _) => some .none
  | (.load, true) => if action = .barrierOnRead then none else some .barrierOnWrite
  | (.write, true) => if action = .barrierOnWrite then none else some .barrierOnRead
  | _ => some action

def trace (blocks : ℕ → List Inst) (outside : List ℕ) (path : List ℕ) : List (Inst × Bool) :=
  path.flatMap fun id => (blocks id).map (·, decide (id ∈ outside))

def NeverBelow (low : ℤ) (s : State) : List Node → Prop
  | [] => low ≤ s.divergence_depth
  | node :: rest => low ≤ s.divergence_depth ∧ NeverBelow low (s.step node) rest

/-! ## Blocks -/

/-- The accesses of the block have barriers between and behind them, if the last one is no access. -/
def Fenced (insts : List Inst) : Prop := (insts.map (·, true)).foldlM next .none = some .none

theorem emitLoop_scan (insts : List Inst) (h : pending = a ∨ pending = .none) : ∃ result,
      ((emitLoop a insts).1.map (·, true)).foldlM next pending = some result ∧
        (result = (emitLoop a insts).2 ∨ result = .none) := by
  induction insts generalizing a pending with
  | nil => exact ⟨pending, rfl, h⟩
  | cons inst rest ih =>
    cases inst with
    | load =>
      obtain ⟨result, hresult, hcases⟩ := ih (a := .barrierOnWrite) (.inl rfl)
      refine ⟨result, ?_, hcases⟩
      rw [← hresult]
      rcases h with rfl | rfl
      · cases pending <;> rfl
      · cases a <;> rfl
    | write =>
      obtain ⟨result, hresult, hcases⟩ := ih (a := .barrierOnRead) (.inl rfl)
      refine ⟨result, ?_, hcases⟩
      rw [← hresult]
      rcases h with rfl | rfl
      · cases pending <;> rfl
      · cases a <;> rfl
    | barrier => exact ih (.inr rfl)
    | phi => exact ih h
    | other => exact ih h

theorem emitLoop_getLast? (a : BarrierAction) : (emitLoop a insts).1.getLast? = insts.getLast? := by
  induction insts generalizing a with
  | nil => rfl
  | cons inst rest ih =>
    have hcons (a : BarrierAction) : (inst :: (emitLoop a rest).1).getLast? = (inst :: rest).getLast? := by
      rw [getLast?_cons, getLast?_cons, ih a]
    cases inst <;> simp only [emitLoop]
    case load => split_ifs <;> exact hcons _
    case write => split_ifs <;> exact hcons _
    all_goals exact hcons _

/-- The block has its barriers when it does not end with an access. -/
theorem LastOk.emit (h : LastOk insts) : Fenced (emitBarrierInBlock insts) ∧ LastOk (emitBarrierInBlock insts) := by
  obtain ⟨result, hscan, hresult⟩ := emitLoop_scan insts (a := .none) (.inl rfl)
  unfold emitBarrierInBlock
  dsimp only
  split_ifs with hnone
  · rw [hnone, or_self] at hresult
    rw [hresult] at hscan
    exact ⟨hscan, by rw [LastOk, emitLoop_getLast?]; exact h⟩
  · rw [LastOk, ← emitLoop_getLast? .none] at h
    generalize (emitLoop .none insts).1 = r at *
    rcases eq_nil_or_concat' r with rfl | ⟨front, last, rfl⟩
    · exact ⟨rfl, fun inst hinst => by cases hinst; rfl⟩
    rw [getLast?_concat] at h ⊢
    rw [dropLast_concat, Option.toList_some]
    have hlast := h last rfl
    refine ⟨?_, fun inst hinst => ?_⟩
    · -- The last barrier is behind every access.
      rw [map_append, foldlM_append] at hscan
      obtain ⟨pending, hfront, -⟩ := Option.bind_eq_some_iff.mp hscan
      unfold Fenced
      rw [map_append, foldlM_append, hfront]
      cases last <;> first | rfl | cases hlast
    · have hsame : (front ++ [.barrier, last]).getLast? = some last := by simp
      rw [hsame] at hinst
      exact Option.some.inj hinst ▸ hlast

theorem phis_scan (insts : List Inst) :
    ((insts.takeWhile (· = .phi)).map (·, true)).foldlM next .none = some .none := by
  induction insts with
  | nil => rfl
  | cons inst rest ih => cases inst <;> first | rfl | exact ih

theorem Fenced.merge (h : Fenced insts) : Fenced (emitBarrierInMerge insts) := by
  unfold Fenced emitBarrierInMerge at *
  rw [← takeWhile_append_dropWhile (p := (· = .phi)) (l := insts), map_append, foldlM_append, phis_scan] at h
  rw [map_append, foldlM_append, phis_scan]
  exact h

theorem LastOk.merge (h : LastOk insts) : LastOk (emitBarrierInMerge insts) := by
  unfold LastOk emitBarrierInMerge at *
  rw [← takeWhile_append_dropWhile (p := (· = .phi)) (l := insts)] at h
  rw [getLast?_append, getLast?_cons]
  rw [getLast?_append] at h
  intro inst hinst
  cases hrest : (insts.dropWhile (· = .phi)).getLast? with
  | none =>
    rw [hrest] at hinst
    cases hinst
    rfl
  | some last =>
    rw [hrest] at hinst h
    exact h inst hinst

/-! ## The pass -/

/-- What the loop does to a nested list. -/
structure Ran (a : Asl) (s s' : State) : Prop where
  depth : s'.divergence_depth = s.divergence_depth
  ends : ∀ m ∈ s'.divergence_end, m ∈ s.divergence_end ∨ m ∈ a.merges
  kept : ∀ m ∈ s.divergence_end, m ∈ s'.divergence_end
  low : NeverBelow s.divergence_depth s a.nodes
  last : ∀ id, LastOk (s.blocks id) → LastOk (s'.blocks id)
  fenced : ∀ id, LastOk (s.blocks id) → Fenced (s.blocks id) ∨
    s.divergence_depth = 0 ∧ id ∈ a.blocksAt false false → Fenced (s'.blocks id)
  same : ∀ id, s.divergence_depth ≠ 0 ∨ id ∉ a.blocksAt false false ∧ id ∉ a.fences →
    s'.blocks id = s.blocks id

theorem NeverBelow.mono (h : NeverBelow low s nodes) (hle : low' ≤ low) : NeverBelow low' s nodes := by
  induction nodes generalizing s with
  | nil => exact Int.le_trans hle h
  | cons node rest ih => exact ⟨Int.le_trans hle h.1, ih h.2⟩

theorem NeverBelow.append (h : NeverBelow low s nodes)
    (h' : NeverBelow low (nodes.foldl State.step s) nodes') : NeverBelow low s (nodes ++ nodes') := by
  induction nodes generalizing s with
  | nil => exact h'
  | cons node rest ih => exact ⟨h.1, ih h.2 h'⟩

theorem blocksAt_diverged (a : Asl) : a.blocksAt false true = [] := by
  induction a with
  | nil => rfl
  | block id rest ih => exact ih
  | cond is_divergent_cond merge body rest ihbody ihrest =>
    rw [Asl.blocksAt, Bool.true_or, ihbody, ihrest, append_nil]
  | other rest ih => exact ih

theorem ran (a : Asl) (hnodup : a.merges.Nodup) (hapart : ∀ m ∈ a.merges, m ∉ s.divergence_end)
    (hdepth : 0 ≤ s.divergence_depth) : Ran a s (a.nodes.foldl State.step s) := by
  induction a generalizing s with
  | nil =>
    exact ⟨rfl, fun m hm => .inl hm, fun m hm => hm, Int.le_refl _, fun _ hlast => hlast,
      fun id _ h => h.resolve_right fun hin => not_mem_nil hin.2, fun _ _ => rfl⟩
  | other rest ih =>
    obtain ⟨hd, he, hk, hlow, hlast, hfenced, hsame⟩ := ih hnodup hapart hdepth
    exact ⟨hd, he, hk, ⟨Int.le_refl _, hlow⟩, hlast, hfenced, hsame⟩
  | block id rest ih =>
    have hstep : (s.step (.block id)).divergence_depth = s.divergence_depth ∧
        (s.step (.block id)).divergence_end = s.divergence_end ∧
        ∀ u, (s.step (.block id)).blocks u = if s.divergence_depth = 0 ∧ u = id then
          emitBarrierInBlock (s.blocks u) else s.blocks u := by
      unfold State.step
      split_ifs with hzero
      · refine ⟨rfl, rfl, fun u => ?_⟩
        split_ifs with hu <;> simp_all
      · exact ⟨rfl, rfl, fun u => by rw [if_neg fun h => hzero h.1]⟩
    obtain ⟨hd1, he1, hb1⟩ := hstep
    obtain ⟨hd, he, hk, hlow, hlast, hfenced, hsame⟩ := ih hnodup (he1 ▸ hapart) (hd1 ▸ hdepth)
    rw [hd1] at hd hlow hfenced hsame
    rw [he1] at he hk
    have hlast1 (u : ℕ) (hu : LastOk (s.blocks u)) : LastOk ((s.step (.block id)).blocks u) := by
      rw [hb1]
      split_ifs
      · exact hu.emit.2
      · exact hu
    refine ⟨hd, he, hk, ⟨Int.le_refl _, hlow⟩, fun u hu => hlast u (hlast1 u hu), fun u hu h => ?_,
      fun u h => ?_⟩
    · refine hfenced u (hlast1 u hu) ?_
      rw [hb1]
      split_ifs with hblock
      · exact .inl hu.emit.1
      · refine h.imp_right fun hin => ⟨hin.1, ?_⟩
        exact (mem_append.mp hin.2).resolve_left fun hid =>
          hblock ⟨hin.1, by simpa using hid⟩
    · have hout : s.divergence_depth ≠ 0 ∨ id ≠ u ∧ u ∉ rest.blocksAt false false ∧ u ∉ rest.fences :=
        h.imp_right fun hout => by simpa [Asl.blocksAt, Asl.fences, and_assoc, eq_comm] using hout
      refine (hsame u (hout.imp_right And.right)).trans ?_
      rw [hb1, if_neg]
      exact fun hblock => hout.elim (fun hne => hne hblock.1) fun hne => hne.1 hblock.2.symm
  | cond is_divergent_cond merge body rest ihbody ihrest =>
    obtain ⟨hmerge, hnodup⟩ := nodup_cons.mp hnodup
    obtain ⟨hnbody, hnrest, hdisj⟩ := nodup_append.mp hnodup
    have hstep : (s.step (.ifNode is_divergent_cond merge)).divergence_depth =
          s.divergence_depth + (if is_divergent_cond then 1 else 0) ∧
        (∀ m, m ∈ (s.step (.ifNode is_divergent_cond merge)).divergence_end ↔
          m ∈ s.divergence_end ∨ is_divergent_cond = true ∧ m = merge) ∧
        ∀ u, (s.step (.ifNode is_divergent_cond merge)).blocks u =
          if is_divergent_cond = true ∧ s.divergence_depth = 0 ∧ u = merge then
            emitBarrierInMerge (s.blocks u) else s.blocks u := by
      cases is_divergent_cond with
      | false => exact ⟨(Int.add_zero _).symm, fun m => by simp [State.step], fun u => by simp [State.step]⟩
      | true =>
        refine ⟨rfl, fun m => by simp [State.step, or_comm], fun u => ?_⟩
        simp only [State.step, if_true, true_and]
        by_cases hzero : s.divergence_depth = 0
        · rw [if_pos hzero, update_apply]
          split_ifs with hu <;> simp_all
        · rw [if_neg hzero, if_neg fun h => hzero h.1]
    obtain ⟨s1, hs1⟩ : ∃ s1, s1 = s.step (.ifNode is_divergent_cond merge) := ⟨_, rfl⟩
    rw [← hs1] at hstep
    obtain ⟨hd1, he1, hb1⟩ := hstep
    have hle : s.divergence_depth ≤ s1.divergence_depth := by
      rw [hd1]
      split_ifs <;> omega
    have hbody := ihbody hnbody (s := s1) (fun m hm hin => ((he1 m).mp hin).elim
      (hapart m (mem_cons_of_mem _ (mem_append_left _ hm)))
      fun heq => hmerge (mem_append_left _ (heq.2 ▸ hm))) (Int.le_trans hdepth hle)
    obtain ⟨s2, hs2⟩ : ∃ s2, s2 = body.nodes.foldl State.step s1 := ⟨_, rfl⟩
    rw [← hs2] at hbody
    -- The end of the condition is known exactly when the invocations part on it.
    have hend : merge ∈ s2.divergence_end ↔ is_divergent_cond = true := by
      constructor
      · intro hin
        rcases hbody.ends merge hin with hin | hin
        · exact (((he1 merge).mp hin).resolve_left (hapart merge mem_cons_self)).1
        · exact absurd (mem_append_left _ hin) hmerge
      · exact fun hcond => hbody.kept merge ((he1 merge).mpr (.inr ⟨hcond, rfl⟩))
    obtain ⟨s3, hs3⟩ : ∃ s3, s3 = s2.step (.endIf merge) := ⟨_, rfl⟩
    have hend3 : s3.divergence_depth = s.divergence_depth ∧ s3.divergence_end = s2.divergence_end ∧
        s3.blocks = s2.blocks := by
      have hd2 := hbody.depth.trans hd1
      rw [hs3]
      unfold State.step
      dsimp only
      split_ifs with hin
      · rw [if_pos (hend.mp hin)] at hd2
        exact ⟨by dsimp only; omega, rfl, rfl⟩
      · rw [if_neg fun hcond => hin (hend.mpr hcond)] at hd2
        exact ⟨by omega, rfl, rfl⟩
    obtain ⟨hd3, he3, hb3⟩ := hend3
    have hrest := ihrest hnrest (s := s3) (fun m hm hin => by
      rw [he3] at hin
      rcases hbody.ends m hin with hin | hin
      · rcases (he1 m).mp hin with hin | heq
        · exact hapart m (mem_cons_of_mem _ (mem_append_right _ hm)) hin
        · exact hmerge (mem_append_right _ (heq.2 ▸ hm))
      · exact hdisj m hin m hm rfl) (hd3 ▸ hdepth)
    have hnodes : (Asl.cond is_divergent_cond merge body rest).nodes.foldl State.step s =
        rest.nodes.foldl State.step s3 := by
      rw [hs3, hs2, hs1, Asl.nodes, foldl_cons, foldl_append, foldl_cons]
    rw [hnodes]
    have hlast1 (u : ℕ) (hu : LastOk (s.blocks u)) : LastOk (s1.blocks u) := by
      rw [hb1]
      split_ifs
      · exact hu.merge
      · exact hu
    have hlast3 (u : ℕ) (hu : LastOk (s.blocks u)) : LastOk (s3.blocks u) :=
      hb3 ▸ hbody.last u (hlast1 u hu)
    have hdiv (hcond : is_divergent_cond = true) : s1.divergence_depth ≠ 0 := by
      rw [hd1, if_pos hcond]
      omega
    refine ⟨hrest.depth.trans hd3, fun m hm => ?_, fun m hm => ?_, ⟨Int.le_refl _, ?_⟩,
      fun u hu => hrest.last u (hlast3 u hu), fun u hu h => ?_, fun u h => ?_⟩
    · rcases hrest.ends m hm with hin | hin
      · rw [he3] at hin
        rcases hbody.ends m hin with hin | hin
        · exact ((he1 m).mp hin).imp_right fun ⟨_, hmerge⟩ => hmerge ▸ mem_cons_self
        · exact .inr (mem_cons_of_mem _ (mem_append_left _ hin))
      · exact .inr (mem_cons_of_mem _ (mem_append_right _ hin))
    · exact hrest.kept m (he3 ▸ hbody.kept m ((he1 m).mpr (.inl hm)))
    · rw [← hs1]
      refine (hbody.low.mono hle).append ?_
      rw [← hs2]
      exact ⟨by rw [hbody.depth]; exact hle, by rw [← hs3, ← hd3]; exact hrest.low⟩
    · -- The barriers of a block are there before the condition, come in its body or come behind it.
      have hfenced1 (hold : Fenced (s.blocks u)) : Fenced (s1.blocks u) := by
        rw [hb1]
        split_ifs
        · exact hold.merge
        · exact hold
      have hfenced3 (hold : Fenced (s1.blocks u)) : Fenced (s3.blocks u) :=
        hb3 ▸ hbody.fenced u (hlast1 u hu) (.inl hold)
      refine hrest.fenced u (hlast3 u hu) ?_
      rcases h with hold | ⟨hzero, hin⟩
      · exact .inl (hfenced3 (hfenced1 hold))
      rcases mem_append.mp hin with hin | hin
      · cases is_divergent_cond with
        | true => exact absurd (blocksAt_diverged body ▸ hin) not_mem_nil
        | false =>
          refine .inl (hb3 ▸ hbody.fenced u (hlast1 u hu) (.inr ⟨?_, hin⟩))
          rw [hd1, hzero]
          rfl
      · exact .inr ⟨hd3.trans hzero, hin⟩
    · have hbody1 : s2.blocks u = s1.blocks u := by
        refine hbody.same u ?_
        cases hcond : is_divergent_cond with
        | true => exact .inl (hdiv hcond)
        | false =>
          rw [hd1, hcond]
          refine h.imp (by simp) fun hout => ?_
          simp only [Asl.blocksAt, Asl.fences, hcond, mem_append, not_or] at hout
          exact ⟨hout.1.1, hout.2.1⟩
      have hfirst : s1.blocks u = s.blocks u := by
        rw [hb1, if_neg]
        rintro ⟨hcond, hzero, rfl⟩
        refine (h.resolve_left fun hne => hne hzero).2 ?_
        rw [Asl.fences, if_pos hcond]
        exact mem_append_left _ mem_cons_self
      have hout : s3.divergence_depth ≠ 0 ∨ u ∉ rest.blocksAt false false ∧ u ∉ rest.fences := by
        rw [hd3]
        exact h.imp_right fun hout => ⟨fun hin => hout.1 (mem_append_right _ hin),
          fun hin => hout.2 (mem_append_right _ hin)⟩
      exact (hrest.same u hout).trans ((congrFun hb3 u).trans (hbody1.trans hfirst))

/-! ## Paths -/

/-- An access waits for the other kind until a barrier comes. -/
theorem pending_stays {ys : List (Inst × Bool)} {action result : BarrierAction} (haction : action ≠ .none)
    (hno : ∀ outside, (.barrier, outside) ∉ ys) (h : ys.foldlM next action = some result) : result = action := by
  induction ys with
  | nil => exact (Option.some.inj h).symm
  | cons y rest ih =>
    obtain ⟨after, hnext, hrest⟩ := Option.bind_eq_some_iff.mp h
    have hafter : after = action := by
      obtain ⟨inst, outside⟩ := y
      cases inst <;> cases outside <;> cases action <;> simp_all [next]
    exact ih (fun outside hin => hno outside (mem_cons_of_mem _ hin)) (hafter ▸ hrest)

/-- A path is scanned without a missing barrier when the blocks outside have theirs. -/
theorem trace_scan (h : ∀ id ∈ path, id ∈ outside → Fenced (blocks id)) :
    (trace blocks outside path).foldlM next .none = some .none := by
  induction path with
  | nil => rfl
  | cons id rest ih =>
    have hfirst : ((blocks id).map (·, decide (id ∈ outside))).foldlM next .none = some .none := by
      by_cases hin : id ∈ outside
      · rw [decide_eq_true hin]
        exact h id mem_cons_self hin
      · rw [decide_eq_false hin]
        induction blocks id with
        | nil => rfl
        | cons inst insts ihinsts => cases inst <;> exact ihinsts
    rw [trace, flatMap_cons, foldlM_append, hfirst]
    exact ih fun u hu => h u (mem_cons_of_mem _ hu)

/-- On every path, a write and a later read, or a read and a later write, have a barrier between them, provided
that no block of the path outside the divergent conditions ends with an access. -/
theorem barrier_run {a : Asl} (hp : a.Placed) {blocks : ℕ → List Inst} {path : List ℕ}
    (hpath : ∀ id ∈ path, id ∈ a.blocksAt false false → LastOk (blocks id)) :
    (∀ xs x ys y zs, trace (pass a.nodes blocks).blocks (a.blocksAt false false) path =
        xs ++ (x, true) :: (ys ++ (y, true) :: zs) →
      x = .write ∧ y = .load ∨ x = .load ∧ y = .write → ∃ outside, (.barrier, outside) ∈ ys) ∧
      (∀ id ∈ a.blocksAt true false, (pass a.nodes blocks).blocks id = blocks id) ∧
      NeverBelow 0 ⟨blocks, 0, []⟩ a.nodes := by
  have hran := ran a (s := ⟨blocks, 0, []⟩) hp.nodup (fun _ _ => not_mem_nil) (Int.le_refl 0)
  refine ⟨fun xs x ys y zs htrace hxy => ?_, fun id hid => hran.same id (.inr (hp.apart id hid)), hran.low⟩
  by_contra hno
  have hscan := trace_scan fun id hin hout => hran.fenced id (hpath id hin hout) (.inr ⟨rfl, hout⟩)
  rw [show a.nodes.foldl State.step ⟨blocks, 0, []⟩ = pass a.nodes blocks from rfl, htrace, foldlM_append] at hscan
  obtain ⟨before, -, hscan⟩ := Option.bind_eq_some_iff.mp hscan
  obtain ⟨pending, hx, hscan⟩ := Option.bind_eq_some_iff.mp hscan
  rw [foldlM_append] at hscan
  obtain ⟨after, hys, hscan⟩ := Option.bind_eq_some_iff.mp hscan
  -- Without a barrier, the second access would find the first one waiting.
  have hpending : pending = (if x = .write then .barrierOnRead else .barrierOnWrite) := by
    rcases hxy with ⟨rfl, -⟩ | ⟨rfl, -⟩ <;> cases before <;> simp_all [next]
  have hafter := pending_stays (by rw [hpending]; split_ifs <;> decide) (not_exists.mp hno) hys
  rcases hxy with ⟨rfl, rfl⟩ | ⟨rfl, rfl⟩ <;> simp_all [next]

theorem barrier_run_sample :
    let blocks : ℕ → List Inst := fun id => if id = 0 then [.write, .other] else [.load, .other]
    let ys := [(Inst.barrier, true), (.other, true)]
    trace (pass (Asl.block 0 (.block 1 .nil)).nodes blocks).blocks [0, 1] [0, 1] =
      [] ++ (.write, true) :: (ys ++ (.load, true) :: ys) ∧ ∃ outside, (.barrier, outside) ∈ ys := by
  intro blocks ys
  have hpath : ∀ id ∈ [0, 1], id ∈ [0, 1] → LastOk (blocks id) := by
    unfold LastOk
    decide
  have htrace : trace (pass (Asl.block 0 (.block 1 .nil)).nodes blocks).blocks [0, 1] [0, 1] =
      [] ++ (.write, true) :: (ys ++ (.load, true) :: ys) := by decide
  exact ⟨htrace, (barrier_run (a := .block 0 (.block 1 .nil)) ⟨nodup_nil, by decide⟩ hpath).1
    _ _ _ _ _ htrace (.inl ⟨rfl, rfl⟩)⟩

/-- A block that ends with a write has its barrier before it, and nothing between the write and the load of the
next block. -/
theorem ends_unfenced : ¬ ∀ (a : Asl) (blocks : ℕ → List Inst) (path : List ℕ) xs x ys y zs, a.Placed →
    trace (pass a.nodes blocks).blocks (a.blocksAt false false) path = xs ++ (x, true) :: (ys ++ (y, true) :: zs) →
      x = .write ∧ y = .load ∨ x = .load ∧ y = .write → ∃ outside, (.barrier, outside) ∈ ys := by
  intro h
  obtain ⟨_, hin⟩ := h (.block 0 (.block 1 .nil)) (fun id => if id = 0 then [.write] else [.load, .other]) [0, 1]
    [(.barrier, true)] .write [] .load [(.barrier, true), (.other, true)] ⟨nodup_nil, by decide⟩
    (by decide) (by decide)
  exact not_mem_nil hin

end ShadPS4.IR.SharedBarrier
