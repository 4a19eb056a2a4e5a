import Mathlib.Tactic.FinCases
import ShadPS4.IR.FlattenSpec

/-!
# The walker stores what the reads read

The pass gives each read at a known offset the index of a dword of the buffer, and the walker stores there the
dword that the read has.
-/

namespace ShadPS4.IR

open Option (some.inj)

namespace Program

variable {p : Program} {insts : List ℕ} {E : Execution → Prop} {d calls r r' o : ℕ} {info : PassInfo}
  {names : List Key} {all : List ℕ} {s : Emitted}

/-- The reads are flattened: `p'` is what the pass leaves of `p`, and `s` what was emitted. -/
structure Flattened (p p' : Program) (insts : List ℕ) (E : Execution → Prop) (s : Emitted) : Prop where
  kept : p' = p.withFlags fun x => (p'.insts x).flags
  others : ∀ x, ¬ p.ConstRead insts x → (p'.insts x).flags = (p.insts x).flags
  index : ∀ r, p.ConstRead insts r → numUserDataRegs ≤ (p'.insts r).flags ∧ (p'.insts r).flags < s.dst_off_dw
  stored : ∀ e, E e → ∀ m₀, Started e m₀ → ∃ m, run e.mem s.code m₀ = some m ∧ Started e m ∧
    ∀ r, p.ConstRead insts r → (m.flat (p'.insts r).flags).setWidth 64 = e.val r
  shared : ∀ r r', p.ConstRead insts r → p.ConstRead insts r' → (p'.insts r).flags = (p'.insts r').flags →
    p.operand r' 1 = p.operand r 1 ∧ ∀ e, E e → e.value (p.operand r 0) = e.value (p.operand r' 0)
  loads : ∀ r, p.ConstRead insts r → Loads p E s.code r (p'.insts r).flags

theorem ConstRead.resolved (h : p.ConstRead insts r) : p.resolved (.inst r) = some (.inst r) :=
  Load.resolved (.inr h)

theorem ConstRead.val_eq {e : Execution} (h : p.ConstRead insts r) (he : e.Of p) :
    e.val r = (e.mem (e.location p r)).setWidth 64 := he.load r (.inr h.2.1)

theorem ConstRead.shared (h : p.ConstRead insts r) (h' : p.ConstRead insts r')
    (hsame : p.Same (.inst r) (.inst r')) : p.operand r' 1 = p.operand r 1 ∧
      ∀ e : Execution, e.Of p → e.value (p.operand r 0) = e.value (p.operand r' 0) := by
  obtain ⟨d, d', K, hK, hK'⟩ := hsame
  have hsource : (p.insts r).op.isSource = true := by
    rw [h.2.1]
    rfl
  have hnumArgs : (p.insts r).numArgs = 2 := by
    unfold Inst.numArgs
    rw [h.2.1]
    rfl
  obtain ⟨-, hoperands⟩ := hK.operands hK' h.resolved h'.resolved hsource
  obtain ⟨_, _, _, hK0, hK0', -, hv0, hw0⟩ := hoperands 0 (by omega)
  obtain ⟨_, _, _, hK1, hK1', -, hv1, hw1⟩ := hoperands 1 (by omega)
  -- The offset is an immediate, which the table does not look into.
  have hleaf : p.IsLeaf (p.operand r 1) := by
    obtain ⟨v, hv, hinst⟩ := h.2.2
    unfold operand
    rw [hv]
    cases v with
    | inst x => cases hinst
    | imm a => trivial
    | void => trivial
  exact ⟨hK1.eq_of_leaf hK1' hv1 hw1 hleaf, fun e he => Execution.value_eq he hK0 hK0' hv0 hw0⟩

theorem flattened_of (hp : p.Walkable insts E) (hE : ∀ e, E e → e.Of p) {flags : ℕ → ℕ}
    (h : p.Collecting insts d [] info all names)
    (hs : Emitting p E s (fun o => ∃ root ∈ info.srt_roots, Under info.pointer_uses root.2 o)
      (fun e => e.user_data) fun _ => [])
    (hflags : Assigning all info s.flags [] flags) : p.Flattened (p.withFlags flags) insts E s := by
  -- Each read has a first with the same key, and the walker copies the dword of that.
  have hfirst (r : ℕ) (hr : p.ConstRead insts r) : ∃ o, flags r = s.flags o ∧ p.ConstRead insts o ∧
      p.Same (.inst r) (.inst o) ∧ ∃ root ∈ info.srt_roots, Under info.pointer_uses root.2 o := by
    obtain ⟨hall, o, ho⟩ := h.visited r hr List.not_mem_nil
    have hread : p.ConstRead insts o := by
      rcases h.load ho with ⟨reg, -, hdata⟩ | hread
      · -- User data does not have the key of a read.
        obtain ⟨_, _, _, hK, hK'⟩ := h.same ho
        have hload : p.Load insts o := h.load ho
        obtain ⟨hop, -⟩ := hK.operands hK' hr.resolved hload.resolved (by
          rw [hr.2.1]
          rfl)
        rw [hdata.op, hr.2.1] at hop
        cases hop
      · exact hread
    have hisFirst : info.First o := by
      obtain ⟨n, -, hn⟩ := ho
      exact ⟨n, hn⟩
    exact ⟨o, hflags.done r o hall List.not_mem_nil ho, hread, h.same ho, h.under hp hE hisFirst hread⟩
  have hlocation {r o : ℕ} {e : Execution} (hr : p.ConstRead insts r) (ho : p.ConstRead insts o)
      (hsame : p.Same (.inst r) (.inst o)) (he : E e) : e.location p r = e.location p o := by
    obtain ⟨_, _, _, hK, hK'⟩ := hsame
    exact Execution.location_eq (hE e he) hK hK' hr.resolved ho.resolved (.inr hr.2.1)
  constructor
  case kept => rfl
  case others =>
    intro x hx
    show flags x = _
    rw [hflags.others x fun hall => hx (h.reads x hall)]
    apply hs.others
    rintro ⟨root, -, hunder⟩
    exact hx (h.toPointing.under hunder).1
  case index =>
    intro r hr
    obtain ⟨o, heq, -, -, hunder⟩ := hfirst r hr
    show numUserDataRegs ≤ flags r ∧ flags r < _
    rw [heq]
    exact hs.index o hunder
  case stored =>
    intro e he m0 hm0
    obtain ⟨m, hm, hrdi, hstack, hflat⟩ := hs.runs e he m0 hm0
    refine ⟨m, hm, ⟨hrdi, hstack⟩, fun r hr => ?_⟩
    obtain ⟨o, heq, ho, hsame, hunder⟩ := hfirst r hr
    show (m.flat (flags r)).setWidth 64 = _
    rw [heq, hflat o hunder, hr.val_eq (hE e he), hlocation hr ho hsame he]
  case shared =>
    intro r r' hr hr' hindex
    obtain ⟨o, heq, ho, hsame, hunder⟩ := hfirst r hr
    obtain ⟨o', heq', ho', hsame', hunder'⟩ := hfirst r' hr'
    obtain rfl : o = o' := by
      apply hs.inj o o' hunder hunder'
      rw [← heq, ← heq']
      exact hindex
    obtain ⟨hoffset, hvalue⟩ := hr.shared hr' (hsame.trans hsame'.symm)
    exact ⟨hoffset, fun e he => hvalue e (hE e he)⟩
  case loads =>
    intro r hr
    obtain ⟨o, heq, ho, hsame, hunder⟩ := hfirst r hr
    obtain ⟨before, disp, after, hcode, hrun⟩ := hs.loads o hunder
    show Loads p E s.code r (flags r)
    rw [heq]
    refine ⟨before, disp, after, hcode, fun e he m0 hm0 => ?_⟩
    obtain ⟨m, hm, hrdi, hload⟩ := hrun e he m0 hm0
    refine ⟨m, hm, ?_, ?_⟩
    · rw [hrdi, (hr.shared ho hsame).2 e (hE e he)]
    · rw [hload, hlocation hr ho hsame he]

/-- `FlattenExtendedUserdataPass` flattens the reads of a program whose pointers are as it takes for granted. -/
theorem flattenExtendedUserdata_flattened (p : Program) (post_order_blocks : List ℕ) (E : Execution → Prop)
    (hE : ∀ e, E e → e.Of p) (hp : p.Walkable (p.inOrder post_order_blocks) E) :
    ∃ n, ∀ calls, n ≤ calls → ∃ p' s, p.flattenExtendedUserdata calls post_order_blocks = some (p', s) ∧
      p.Flattened p' (p.inOrder post_order_blocks) E s := by
  obtain ⟨d, hd⟩ := hp.numbered
  refine ⟨d + 1, fun calls hcalls => ?_⟩
  obtain ⟨⟨info, all⟩, names, hvisit, h⟩ := visitInsts_spec hp hd (Nat.le_of_succ_le hcalls)
  obtain ⟨s, hs, hemitting⟩ := generateSrtProgram_spec (h.forest hp hE) hcalls
  obtain ⟨flags, hassign, hflags⟩ := assignOriginals_spec h (Nat.zero_lt_of_lt hcalls) s.flags
  refine ⟨p.withFlags flags, s, ?_, flattened_of hp hE h hemitting hflags⟩
  unfold flattenExtendedUserdata
  rw [hvisit, Option.bind_eq_bind, Option.bind_some]
  dsimp only
  rw [hs, Option.bind_eq_bind, Option.bind_some]
  show ((all.foldlM (assignOriginal calls) (p.withFlags s.flags, info)).bind fun r => some (r.1, s)) = _
  rw [hassign]
  rfl

/-! ## Runs -/

def ofInsts (insts : List Inst) : Program where
  insts x := insts.getD x {}
  created := insts.length
  blocks b := if b = 0 then List.range insts.length else []

def instOf (op : Opcode) (args : List Value) : Inst where
  op := op
  args i := args.getD i .void

def userData (reg : ℕ) : Inst := instOf .getUserData [.imm (.scalarReg reg)]

def pointer (low high : ℕ) : Inst := instOf .compositeConstructU32x2 [.inst low, .inst high]

def readConst (pointer : ℕ) (off : BitVec 32) : Inst := instOf .readConst [.inst pointer, .imm (.u32 off)]

/-- A read through user data, and one through the pointer that is there. The last is the first again. -/
def sampleReads : Program := ofInsts [userData 0, userData 1, pointer 0 1, readConst 2 4, readConst 2 5,
  pointer 3 4, readConst 5 7, readConst 2 4]

theorem sampleReads_cases (hop : (sampleReads.insts r).op = .readConst) : ∃ c L off,
    (r, c, L, off) ∈ [(3, 2, 0, 4), (4, 2, 0, 5), (6, 5, 3, 7), (7, 2, 0, (4 : BitVec 32))] ∧
      sampleReads.ReadAt r c L off := by
  match r with
  | 3 => exact ⟨2, 0, 4, by decide, rfl, rfl, rfl, rfl, rfl⟩
  | 4 => exact ⟨2, 0, 5, by decide, rfl, rfl, rfl, rfl, rfl⟩
  | 6 => exact ⟨5, 3, 7, by decide, rfl, rfl, rfl, rfl, rfl⟩
  | 7 => exact ⟨2, 0, 4, by decide, rfl, rfl, rfl, rfl, rfl⟩
  | 0 | 1 | 2 | 5 => cases hop
  | _ + 8 => cases hop

theorem sampleReads_key : ∃ K3 K4 K6, sampleReads.HasKey 6 (.inst 3) K3 ∧ sampleReads.HasKey 6 (.inst 4) K4 ∧
    sampleReads.HasKey 6 (.inst 6) K6 ∧ sampleReads.HasKey 6 (.inst 7) K3 := by
  have hpair {n x low high : ℕ} {K K' : Key} (hx : sampleReads.insts x = pointer low high)
      (hlow : sampleReads.HasKey n (.inst low) K) (hhigh : sampleReads.HasKey n (.inst high) K') :
      sampleReads.HasKey (n + 1) (.inst x) (.node .compositeConstructU32x2 0 [K, K']) := by
    have hnode : sampleReads.HasKey (n + 1) (.inst x)
        (.node (sampleReads.insts x).op (sampleReads.insts x).flags [K, K']) := by
      refine .node (resolved_inst (by rw [hx]; exact fun h => by cases h)) (by rw [hx]; rfl)
        (by rw [hx]; rfl) fun i K hK => ?_
      rw [hx]
      match i with
      | 0 => exact some.inj hK ▸ hlow
      | 1 => exact some.inj hK ▸ hhigh
      | _ + 2 => cases hK
    rw [hx] at hnode
    exact hnode
  have hread (x : ℕ) (off : BitVec 32) {n c : ℕ} {K : Key} (hx : sampleReads.insts x = readConst c off)
      (hpointer : sampleReads.HasKey (n + 1) (.inst c) K) :
      sampleReads.HasKey (n + 2) (.inst x) (.node .readConst 0 [K, .leaf (.imm (.u32 off))]) := by
    have hnode : sampleReads.HasKey (n + 2) (.inst x)
        (.node (sampleReads.insts x).op (sampleReads.insts x).flags [K, .leaf (.imm (.u32 off))]) := by
      refine .node (resolved_inst (by rw [hx]; exact fun h => by cases h)) (by rw [hx]; rfl)
        (by rw [hx]; rfl) fun i K hK => ?_
      rw [hx]
      match i with
      | 0 => exact some.inj hK ▸ hpointer
      | 1 => exact some.inj hK ▸ .leaf rfl trivial
      | _ + 2 => cases hK
    rw [hx] at hnode
    exact hnode
  have hdata0 : sampleReads.UserData 0 0 := ⟨rfl, rfl⟩
  have hdata1 : sampleReads.UserData 1 1 := ⟨rfl, rfl⟩
  have h2 := hpair (x := 2) rfl hdata0.key hdata1.key
  have h3 := hread 3 4 rfl h2
  have h4 := hread 4 5 rfl h2
  have h6 := hread 6 7 rfl (hpair (x := 5) rfl h3 h4)
  have h7 := hread 7 4 rfl h2
  exact ⟨_, _, _, h3.mono (by decide), h4.mono (by decide), h6, h7.mono (by decide)⟩

theorem sampleReads_walkable : sampleReads.Walkable (sampleReads.inOrder [0]) fun e => e.Of sampleReads := by
  obtain ⟨K3, K4, K6, h3, h4, h6, h7⟩ := sampleReads_key
  -- The dword after that of the low half is the high half.
  have hafter {e : Execution} {L H : ℕ} (hH : e.val H = (e.mem (e.location sampleReads H)).setWidth 64)
      (hlocation : e.location sampleReads H = e.location sampleReads L + 4) :
      (e.val H).setWidth 16 = (e.mem (e.location sampleReads L + 4)).setWidth 16 := by
    rw [hH, hlocation]
    exact BitVec.setWidth_setWidth_of_le _ (by decide)
  have hnext (a b c : BitVec 64) (h : c = b + 4) : a + c = a + b + 4 := by
    rw [h, BitVec.add_assoc]
  constructor
  case offset =>
    intro r _ hop
    obtain ⟨c, L, off, -, hat⟩ := sampleReads_cases hop
    exact ⟨_, hat.offset⟩
  case read =>
    intro r hr
    obtain ⟨c, L, off, hmem, hat⟩ := sampleReads_cases hr.2.1
    refine ⟨c, L, off, hat, ?_⟩
    fin_cases hmem
    · exact ⟨by decide, .inl ⟨0, by decide, rfl, rfl⟩⟩
    · exact ⟨by decide, .inl ⟨0, by decide, rfl, rfl⟩⟩
    · exact ⟨by decide, .inr ⟨by decide, rfl, _, rfl, rfl⟩⟩
    · exact ⟨by decide, .inl ⟨0, by decide, rfl, rfl⟩⟩
  case found =>
    intro r c L off hr hat
    obtain ⟨c', L', off', hmem, hat'⟩ := sampleReads_cases hr.2.1
    obtain ⟨rfl, rfl, rfl⟩ := hat'.unique hat
    fin_cases hmem <;> rfl
  case high =>
    intro r c L off hr hat e he
    obtain ⟨c', L', off', hmem, hat'⟩ := sampleReads_cases hr.2.1
    obtain ⟨rfl, rfl, rfl⟩ := hat'.unique hat
    fin_cases hmem
    · exact hafter (he.load 1 (.inl rfl)) (hnext _ _ _ rfl)
    · exact hafter (he.load 1 (.inl rfl)) (hnext _ _ _ rfl)
    · exact hafter (he.load 4 (.inr rfl)) (hnext _ _ _ rfl)
    · exact hafter (he.load 1 (.inl rfl)) (hnext _ _ _ rfl)
  case same =>
    intro r r' c c' L L' off hr hr' hat hat' _
    obtain ⟨c1, L1, off1, hmem, hat1⟩ := sampleReads_cases hr.2.1
    obtain ⟨c2, L2, off2, hmem', hat2⟩ := sampleReads_cases hr'.2.1
    obtain ⟨rfl, rfl, rfl⟩ := hat1.unique hat
    obtain ⟨rfl, rfl, heq⟩ := hat2.unique hat'
    have hK3 : sampleReads.Same (.inst 3) (.inst 3) := ⟨_, _, _, h3, h3⟩
    have hK₃₇ : sampleReads.Same (.inst 3) (.inst 7) := ⟨_, _, _, h3, h7⟩
    have hK4 : sampleReads.Same (.inst 4) (.inst 4) := ⟨_, _, _, h4, h4⟩
    have hK6 : sampleReads.Same (.inst 6) (.inst 6) := ⟨_, _, _, h6, h6⟩
    have hK7 : sampleReads.Same (.inst 7) (.inst 7) := ⟨_, _, _, h7, h7⟩
    fin_cases hmem <;> fin_cases hmem' <;>
      first | assumption | exact hK₃₇.symm | exact absurd heq (by decide)
  case flags =>
    intro x reg hdata
    have hop := hdata.op
    match x with
    | 0 | 1 => rfl
    | 2 | 3 | 4 | 5 | 6 | 7 => cases hop
    | _ + 8 => cases hop
  case numbered =>
    refine ⟨6, fun r hr => ?_⟩
    obtain ⟨c, L, off, hmem, -⟩ := sampleReads_cases hr.2.1
    fin_cases hmem
    · exact ⟨_, h3⟩
    · exact ⟨_, h4⟩
    · exact ⟨_, h6⟩
    · exact ⟨_, h7⟩

theorem flattenExtendedUserdata_sample : ∃ n, ∀ calls, n ≤ calls → ∃ p' s,
    sampleReads.flattenExtendedUserdata calls [0] = some (p', s) ∧
      sampleReads.Flattened p' (sampleReads.inOrder [0]) (fun e => e.Of sampleReads) s :=
  flattenExtendedUserdata_flattened sampleReads [0] _ (fun _ => id) sampleReads_walkable

/-- Two reads through pointers with one low half, and different high halves. -/
def lowHalfReads : Program := ofInsts [userData 0, userData 1, userData 2, pointer 0 1, pointer 0 2,
  readConst 3 0, readConst 4 0]

/-- An execution in which the two pointers are not the same. -/
def lowHalfExecution : Execution where
  user_data := 0
  mem a := if a = 0 then 0x1000 else if a = 8 then 1 else if a = 0x1000 then 7
    else if a = 0x100001000 then 9 else 0
  val x := [0x1000, 0, 1, 0x1000, 0x100001000, 7, 9].getD x 0

theorem lowHalfExecution_of : lowHalfExecution.Of lowHalfReads := by
  constructor
  · intro x hop
    match x with
    | 0 | 1 | 2 | 5 | 6 => decide
    | 3 | 4 => rcases hop with hop | hop <;> cases hop
    | _ + 7 => rcases hop with hop | hop <;> cases hop
  · intro x hop
    match x with
    | 3 | 4 => decide
    | 0 | 1 | 2 | 5 | 6 => cases hop
    | _ + 7 => cases hop

/-- The reads through two pointers with one low half are taken for one: one gets no index, and the other the
dword of the first. -/
theorem flattenExtendedUserdata_lowHalf : ∃ p' s,
    lowHalfReads.flattenExtendedUserdata 20 [0] = some (p', s) ∧ (p'.insts 5).flags = 0 ∧
      ¬ lowHalfReads.Flattened p' (lowHalfReads.inOrder [0]) (fun e => e.Of lowHalfReads) s := by
  have hrun : (lowHalfReads.flattenExtendedUserdata 20 [0]).map
      (fun r => ((r.1.insts 5).flags, (r.1.insts 6).flags, r.2.code)) = some (0, 16,
        [.pushRdi, .movRdi 0, .movR10 0xFFFFFFFFFFFF, .andRdi, .movR10d 0, .store 16, .popRdi, .ret]) := rfl
  obtain ⟨⟨p', s⟩, hp', heq⟩ := Option.map_eq_some_iff.mp hrun
  obtain ⟨hflags, hflags', hcode⟩ := Prod.mk.inj heq |>.imp_right Prod.mk.inj
  refine ⟨p', s, hp', hflags, fun h => ?_⟩
  obtain ⟨m, hm, -, hflat⟩ := h.stored lowHalfExecution lowHalfExecution_of ⟨0, 0, [], fun _ => 0⟩ ⟨rfl, rfl⟩
  -- The walker stores the dword of the other pointer.
  have hval := hflat 6 ⟨by decide, rfl, _, rfl, rfl⟩
  rw [hflags'] at hval
  rw [hcode] at hm
  have hstored : (run lowHalfExecution.mem [.pushRdi, .movRdi 0, .movR10 0xFFFFFFFFFFFF, .andRdi, .movR10d 0,
      .store 16, .popRdi, .ret] ⟨0, 0, [], fun _ => 0⟩).map (fun m => m.flat 16) = some 7 := by decide
  rw [hm] at hstored
  have hseven : m.flat 16 = 7 := some.inj hstored
  rw [hseven] at hval
  exact absurd hval (by decide)

end Program

end ShadPS4.IR
