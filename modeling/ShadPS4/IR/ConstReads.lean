import ShadPS4.IR.FlattenPass
import ShadPS4.IR.SrtGvnSpec

/-!
# What the reads of a shader read

An execution gives each instruction a value. Of it is asked only that user data and the reads from constant memory
have the dwords that are in memory, and that a pointer is made of its two halves.
-/

namespace ShadPS4.IR

open Option (some.inj)

variable {Ks : List Key}

/-! ## The height of a key -/

mutual

def Key.height : Key → ℕ
  | .leaf _ => 0
  | .node _ _ args => Key.heights args + 1

def Key.heights : List Key → ℕ
  | [] => 0
  | K :: Ks => max (Key.height K) (Key.heights Ks)

end

theorem Key.height_le (h : K ∈ Ks) : K.height ≤ Key.heights Ks := by
  induction Ks with
  | nil => cases h
  | cons L Ks ih =>
    rcases List.mem_cons.mp h with rfl | h
    · exact Nat.le_max_left _ _
    · exact Nat.le_trans (ih h) (Nat.le_max_right _ _)

theorem Key.heights_le (h : ∀ K ∈ Ks, K.height ≤ d) : Key.heights Ks ≤ d := by
  induction Ks with
  | nil => exact Nat.zero_le d
  | cons L Ks ih =>
    exact Nat.max_le.mpr ⟨h L List.mem_cons_self, ih fun K hK => h K (List.mem_cons_of_mem _ hK)⟩

theorem Key.height_lt (op : Opcode) (flags : ℕ) (h : K ∈ Ks) : K.height < (Key.node op flags Ks).height := by
  exact Nat.lt_succ_of_le (Key.height_le h)

namespace Program

variable {p : Program} {d d' x y : ℕ} {v w v' w' : Value} {K : Key}

theorem HasKey.height_le (h : p.HasKey d v K) : K.height ≤ d := by
  induction h with
  | leaf => exact Nat.zero_le _
  | node _ _ _ _ ih =>
    apply Nat.succ_le_succ
    apply Key.heights_le
    intro K hK
    obtain ⟨i, hi⟩ := List.mem_iff_getElem?.mp hK
    exact ih i K hi

def Same (p : Program) (v w : Value) : Prop := ∃ d d' K, p.HasKey d v K ∧ p.HasKey d' w K

theorem Same.symm (h : p.Same v w) : p.Same w v := by
  obtain ⟨d, d', K, hv, hw⟩ := h
  exact ⟨d', d, K, hw, hv⟩

theorem Same.trans (h : p.Same v w) (h' : p.Same w v') : p.Same v v' := by
  obtain ⟨d, d', K, hv, hw⟩ := h
  obtain ⟨e, e', K', hw', hv'⟩ := h'
  rw [← hw.unique hw'] at hv'
  exact ⟨d, e', K, hv, hv'⟩

def operand (p : Program) (x i : ℕ) : Value := (p.resolved ((p.insts x).arg i)).getD .void

theorem HasKey.operands (h : p.HasKey d (.inst x) K) (h' : p.HasKey d' (.inst y) K)
    (hx : p.resolved (.inst x) = some (.inst x)) (hy : p.resolved (.inst y) = some (.inst y))
    (hop : (p.insts x).op.isSource = true) : (p.insts y).op = (p.insts x).op ∧
      ∀ i < (p.insts x).numArgs, ∃ d d' K', p.HasKey d (p.operand x i) K' ∧
        p.HasKey d' (p.operand y i) K' ∧ K'.height < K.height ∧ p.resolved (p.operand x i) = some (p.operand x i) ∧
        p.resolved (p.operand y i) = some (p.operand y i) := by
  cases h with
  | leaf hv hw =>
    obtain rfl := some.inj (hx.symm.trans hv)
    exact absurd hw (not_isLeaf hop)
  | node hv _ hlength hargs =>
    obtain rfl := Value.inst.inj (some.inj (hx.symm.trans hv))
    generalize hkey : Key.node _ _ _ = K at h'
    cases h' with
    | leaf _ _ => cases hkey
    | node hv' _ hlength' hargs' =>
      obtain rfl := Value.inst.inj (some.inj (hy.symm.trans hv'))
      obtain ⟨hopcode, -, rfl⟩ := Key.node.inj hkey
      refine ⟨hopcode.symm, fun i hi => ?_⟩
      rw [← hlength] at hi
      have hK := hargs i _ (List.getElem?_eq_getElem hi)
      have hK' := hargs' i _ (List.getElem?_eq_getElem hi)
      obtain ⟨u, hu⟩ := hK.exists_resolved
      obtain ⟨u', hu'⟩ := hK'.exists_resolved
      unfold operand
      rw [hu, hu']
      exact ⟨_, _, _, hK.of_resolved hu, hK'.of_resolved hu', Key.height_lt _ _ (List.getElem_mem hi),
        resolved_resolved hu, resolved_resolved hu'⟩

theorem HasKey.eq_of_leaf (h : p.HasKey d v K) (h' : p.HasKey d' w K) (hv : p.resolved v = some v)
    (hw : p.resolved w = some w) (hleaf : p.IsLeaf v) : w = v := by
  cases h with
  | leaf hv' _ =>
    obtain rfl := some.inj (hv.symm.trans hv')
    cases h' with
    | leaf hw' _ => exact some.inj (hw.symm.trans hw')
  | node hv' hop _ _ =>
    obtain rfl := some.inj (hv.symm.trans hv')
    exact absurd hleaf (not_isLeaf hop)

theorem HasKey.isSource (h : p.HasKey d (.inst x) K) (hx : p.resolved (.inst x) = some (.inst x))
    (hleaf : ¬ p.IsLeaf (.inst x)) : (p.insts x).op.isSource = true := by
  cases h with
  | leaf hv hw =>
    obtain rfl := some.inj (hx.symm.trans hv)
    exact absurd hw hleaf
  | node hv hop _ _ =>
    obtain rfl := Value.inst.inj (some.inj (hx.symm.trans hv))
    exact hop

/-! ## Executions -/

def register (p : Program) (x : ℕ) : ℕ :=
  match p.operand x 0 with
  | .imm (.scalarReg reg) => reg
  | _ => 0

end Program

def addressMask : BitVec 64 := 0xFFFFFFFFFFFF

def offsetBytes (off_dw : BitVec 32) : BitVec 64 := (off_dw <<< 2).setWidth 64

/-- What a shader is run with, and the values that its instructions come to. -/
structure Execution where
  user_data : BitVec 64
  mem : Dwords
  val : ℕ → BitVec 64

namespace Execution

open Program

variable {e : Execution} {p : Program} {d d' x y : ℕ} {v w : Value} {K : Key}

def value (e : Execution) : Value → BitVec 64
  | .inst x => e.val x
  | .imm (.u32 n) => n.setWidth 64
  | _ => 0

/-- Where the dword is that user data or a read has. -/
def location (e : Execution) (p : Program) (x : ℕ) : BitVec 64 :=
  if (p.insts x).op = .getUserData then e.user_data + offsetBytes (BitVec.ofNat 32 (p.register x))
  else (e.value (p.operand x 0) &&& addressMask) + offsetBytes ((e.value (p.operand x 1)).setWidth 32)

structure Of (e : Execution) (p : Program) : Prop where
  load : ∀ x, (p.insts x).op = .getUserData ∨ (p.insts x).op = .readConst →
    e.val x = (e.mem (e.location p x)).setWidth 64
  pair : ∀ x, (p.insts x).op = .compositeConstructU32x2 →
    e.val x = (e.value (p.operand x 1)).setWidth 32 ++ (e.value (p.operand x 0)).setWidth 32

theorem isSource_cases {op : Opcode} (h : op.isSource = true) :
    op = .getUserData ∨ op = .compositeConstructU32x2 ∨ op = .readConst := by
  unfold Opcode.isSource at h
  split at h
  · exact .inl rfl
  · exact .inr (.inl rfl)
  · exact .inr (.inr rfl)
  · cases h

theorem register_eq (hx : p.HasKey d (p.operand x 0) K) (hy : p.HasKey d' (p.operand y 0) K)
    (hx' : p.resolved (p.operand x 0) = some (p.operand x 0))
    (hy' : p.resolved (p.operand y 0) = some (p.operand y 0)) : p.register x = p.register y := by
  unfold register
  cases hv : p.operand x 0 with
  | imm a =>
    rw [hv] at hx hx'
    rw [hx.eq_of_leaf hy hx' hy' trivial]
  | void =>
    rw [hv] at hx hx'
    rw [hx.eq_of_leaf hy hx' hy' trivial]
  | inst i =>
    cases hw : p.operand y 0 with
    | imm a =>
      rw [hw] at hy hy'
      have heq := hy.eq_of_leaf hx hy' hx' trivial
      rw [hv] at heq
      cases heq
    | void => rfl
    | inst j => rfl

theorem location_eq_of (h : p.HasKey d (.inst x) K) (h' : p.HasKey d' (.inst y) K)
    (hx : p.resolved (.inst x) = some (.inst x)) (hy : p.resolved (.inst y) = some (.inst y))
    (hload : (p.insts x).op = .getUserData ∨ (p.insts x).op = .readConst)
    (hvalue : ∀ d d' v w K', K'.height < K.height → p.HasKey d v K' → p.HasKey d' w K' →
      p.resolved v = some v → p.resolved w = some w → e.value v = e.value w) : e.location p x = e.location p y := by
  have hop : (p.insts x).op.isSource = true := by
    rcases hload with hop | hop
    · rw [hop]
      rfl
    · rw [hop]
      rfl
  obtain ⟨hopcode, hoperands⟩ := h.operands h' hx hy hop
  unfold location
  rw [hopcode]
  rcases hload with hop | hop
  · have hnumArgs : 0 < (p.insts x).numArgs := by
      unfold Inst.numArgs
      rw [hop, if_neg fun hphi => by cases hphi]
      exact Nat.zero_lt_one
    obtain ⟨_, _, _, hK, hK', -, hv, hw⟩ := hoperands 0 hnumArgs
    rw [if_pos hop, if_pos hop, register_eq hK hK' hv hw]
  · have hnumArgs : (p.insts x).numArgs = 2 := by
      unfold Inst.numArgs
      rw [hop]
      rfl
    have hne : (p.insts x).op ≠ .getUserData := fun hdata => by
      rw [hop] at hdata
      cases hdata
    obtain ⟨_, _, _, hK0, hK0', hlt0, hv0, hw0⟩ := hoperands 0 (by omega)
    obtain ⟨_, _, _, hK1, hK1', hlt1, hv1, hw1⟩ := hoperands 1 (by omega)
    rw [if_neg hne, if_neg hne, hvalue _ _ _ _ _ hlt0 hK0 hK0' hv0 hw0, hvalue _ _ _ _ _ hlt1 hK1 hK1' hv1 hw1]

theorem value_eq (he : e.Of p) (h : p.HasKey d v K) (h' : p.HasKey d' w K) (hv : p.resolved v = some v)
    (hw : p.resolved w = some w) : e.value v = e.value w := by
  generalize hn : K.height = n
  induction n using Nat.strong_induction_on generalizing d d' v w K with
  | h n ih =>
    -- The operands of the two have the same keys, which are less deep.
    have hvalue (d d' : ℕ) (v w : Value) (K' : Key) (hlt : K'.height < K.height)
        (hK : p.HasKey d v K') (hK' : p.HasKey d' w K') (hv : p.resolved v = some v)
        (hw : p.resolved w = some w) : e.value v = e.value w :=
      ih K'.height (hn ▸ hlt) hK hK' hv hw rfl
    by_cases hleaf : p.IsLeaf v
    · rw [h.eq_of_leaf h' hv hw hleaf]
    by_cases hleaf' : p.IsLeaf w
    · rw [h'.eq_of_leaf h hw hv hleaf']
    cases v with
    | void => exact absurd trivial hleaf
    | imm a => exact absurd trivial hleaf
    | inst x =>
      cases w with
      | void => exact absurd trivial hleaf'
      | imm a => exact absurd trivial hleaf'
      | inst y =>
        have hsource := h.isSource hv hleaf
        obtain ⟨hopcode, hoperands⟩ := h.operands h' hv hw hsource
        show e.val x = e.val y
        rcases isSource_cases hsource with hop | hop | hop
        · have hlocation := location_eq_of h h' hv hw (.inl hop) hvalue
          rw [he.load x (.inl hop), he.load y (.inl (hopcode.trans hop)), hlocation]
        · have hnumArgs : (p.insts x).numArgs = 2 := by
            unfold Inst.numArgs
            rw [hop]
            rfl
          obtain ⟨_, _, _, hK0, hK0', hlt0, hv0, hw0⟩ := hoperands 0 (by omega)
          obtain ⟨_, _, _, hK1, hK1', hlt1, hv1, hw1⟩ := hoperands 1 (by omega)
          rw [he.pair x hop, he.pair y (hopcode.trans hop), hvalue _ _ _ _ _ hlt0 hK0 hK0' hv0 hw0,
            hvalue _ _ _ _ _ hlt1 hK1 hK1' hv1 hw1]
        · have hlocation := location_eq_of h h' hv hw (.inr hop) hvalue
          rw [he.load x (.inr hop), he.load y (.inr (hopcode.trans hop)), hlocation]

theorem location_eq (he : e.Of p) (h : p.HasKey d (.inst x) K) (h' : p.HasKey d' (.inst y) K)
    (hx : p.resolved (.inst x) = some (.inst x)) (hy : p.resolved (.inst y) = some (.inst y))
    (hload : (p.insts x).op = .getUserData ∨ (p.insts x).op = .readConst) : e.location p x = e.location p y :=
  location_eq_of h h' hx hy hload fun _ _ _ _ _ _ hK hK' hv hw => value_eq he hK hK' hv hw

end Execution

namespace Program

variable {p : Program} {insts : List ℕ} {r c L reg : ℕ} {off : BitVec 32}

def ConstRead (p : Program) (insts : List ℕ) (r : ℕ) : Prop :=
  r ∈ insts ∧ (p.insts r).op = .readConst ∧ ∃ v, p.resolved ((p.insts r).arg 1) = some v ∧ v.inst? = none

structure UserData (p : Program) (x reg : ℕ) : Prop where
  op : (p.insts x).op = .getUserData
  reg : p.resolved ((p.insts x).arg 0) = some (.imm (.scalarReg reg))

/-- A read through the pointer `c`, whose low half is `L`, at the offset `off`. -/
structure ReadAt (p : Program) (r c L : ℕ) (off : BitVec 32) : Prop where
  op : (p.insts r).op = .readConst
  pointer : p.resolved ((p.insts r).arg 0) = some (.inst c)
  pair : (p.insts c).op = .compositeConstructU32x2
  low : p.resolved ((p.insts c).arg 0) = some (.inst L)
  offset : p.resolved ((p.insts r).arg 1) = some (.imm (.u32 off))

/-- What the pass takes for granted of the reads of a program, in the executions that it may have. -/
structure Walkable (p : Program) (insts : List ℕ) (E : Execution → Prop) : Prop where
  offset : ∀ r ∈ insts, (p.insts r).op = .readConst → ∃ v, p.resolved ((p.insts r).arg 1) = some v
  /-- The low half of a pointer is user data, or a read at an offset that is an immediate, and the offset is
  no more than a displacement can be. -/
  read : ∀ r, p.ConstRead insts r → ∃ c L off, p.ReadAt r c L off ∧ (off <<< 2).toNat < 2^31 ∧
    ((∃ reg < 128, p.UserData L reg) ∨ p.ConstRead insts L)
  found : ∀ r c L off, p.ConstRead insts r → p.ReadAt r c L off →
    (p.breadthFirstSearchValue Opcode.isPointer ((p.insts c).arg 1)).isSome
  high : ∀ r c L off, p.ConstRead insts r → p.ReadAt r c L off → ∀ e, E e →
    (e.value (p.operand c 1)).setWidth 16 = (e.mem (e.location p L + 4)).setWidth 16
  same : ∀ r r' c c' L L' off, p.ConstRead insts r → p.ConstRead insts r' → p.ReadAt r c L off →
    p.ReadAt r' c' L' off → p.Same (.inst L) (.inst L') → p.Same (.inst r) (.inst r')
  flags : ∀ x reg, p.UserData x reg → (p.insts x).flags = 0
  numbered : ∃ d, ∀ r, p.ConstRead insts r → ∃ K, p.HasKey d (.inst r) K

end Program

end ShadPS4.IR
