import ShadPS4.IR.CollectSpec

/-!
# What the walker stores

The code that is emitted for a pointer loads it, copies the dwords that are read through it, visits the reads that
are pointers themselves, and restores `rdi`.
-/

namespace ShadPS4.IR

open Function List
open BitVec (ofNat)

variable {p : Program} {E : Execution → Prop} {s : Emitted} {S S' : ℕ → Prop}
  {base base' : Execution → BitVec 64} {stk stk' : Execution → List (BitVec 64)} {mem : Dwords}
  {code more : List Code} {m m' : Walker} {o b k calls d : ℕ} {ul : OrdMap ℕ}
  {pointer_uses : ℕ → Option (OrdMap ℕ)} {roots : OrdMap ℕ} {rank : ℕ → ℕ} {disp : BitVec 64}

theorem run_append : run mem (code ++ more) m = (run mem code m).bind (run mem more) := foldlM_append

def Execution.pointee (e : Execution) (p : Program) (b : ℕ) : BitVec 64 :=
  (e.mem (e.location p b + 4) ++ e.mem (e.location p b)) &&& addressMask

/-- The pointers that were collected, as the walker goes through them. -/
structure Forest (p : Program) (E : Execution → Prop) (pointer_uses : ℕ → Option (OrdMap ℕ))
    (roots : OrdMap ℕ) (d : ℕ) (rank : ℕ → ℕ) : Prop where
  uses : ∀ b ul k o, pointer_uses b = some ul → (k, o) ∈ ul → ∃ disp,
    displacement (ofNat 32 k) = some disp ∧ rank b < rank o ∧ rank o ≤ d ∧ ∀ e, E e →
      e.pointee p b = e.value (p.operand o 0) &&& addressMask ∧ e.location p o = e.pointee p b + disp
  bounded : ∀ b, (pointer_uses b).isSome → rank b ≤ d
  roots : ∀ reg b, (reg, b) ∈ roots → ∃ disp, displacement (ofNat 32 reg) = some disp ∧
    (pointer_uses b).isSome ∧ ∀ e, E e → e.location p b = e.user_data + disp

/-- A read is through a pointer, or through a pointer that is. -/
inductive Under (pointer_uses : ℕ → Option (OrdMap ℕ)) : ℕ → ℕ → Prop
  | use {b o k : ℕ} {ul : OrdMap ℕ} (hul : pointer_uses b = some ul) (hk : (k, o) ∈ ul) :
    Under pointer_uses b o
  | child {b c o k : ℕ} {ul : OrdMap ℕ} (hul : pointer_uses b = some ul) (hk : (k, c) ∈ ul)
    (h : Under pointer_uses c o) : Under pointer_uses b o

theorem Under.trans (h : Under pointer_uses b c) (hul : pointer_uses c = some ul)
    (hk : (k, o) ∈ ul) : Under pointer_uses b o := by
  induction h with
  | use hul' hk' => exact .child hul' hk' (.use hul hk)
  | child hul' hk' _ ih => exact .child hul' hk' (ih hul)

structure Started (e : Execution) (m : Walker) : Prop where
  rdi : m.rdi = e.user_data
  stack : m.stack = []

/-- The walker loads the dword of a read, while `rdi` is its pointer, and stores it at an index. -/
def Loads (p : Program) (E : Execution → Prop) (code : List Code) (o index : ℕ) : Prop :=
  ∃ before disp after, code = before ++ .movR10d disp :: .store index :: after ∧
    ∀ e, E e → ∀ m₀, Started e m₀ → ∃ m, run e.mem before m₀ = some m ∧
      m.rdi = e.value (p.operand o 0) &&& addressMask ∧ m.rdi + disp = e.location p o

theorem Loads.append (h : Loads p E code o index) (more : List Code) : Loads p E (code ++ more) o index := by
  obtain ⟨before, disp, after, rfl, hrun⟩ := h
  refine ⟨before, disp, after ++ more, ?_, hrun⟩
  rw [append_assoc]
  rfl

/-- The code that was emitted stores the dwords of the reads in `S`, and leaves `rdi` and the stack as they
are given. -/
structure Emitting (p : Program) (E : Execution → Prop) (s : Emitted) (S : ℕ → Prop)
    (base : Execution → BitVec 64) (stk : Execution → List (BitVec 64)) : Prop where
  runs : ∀ e, E e → ∀ m₀, Started e m₀ → ∃ m, run e.mem s.code m₀ = some m ∧ m.rdi = base e ∧
    m.stack = stk e ∧ ∀ o, S o → m.flat (s.flags o) = e.mem (e.location p o)
  index : ∀ o, S o → numUserDataRegs ≤ s.flags o ∧ s.flags o < s.dst_off_dw
  inj : ∀ o o', S o → S o' → s.flags o = s.flags o' → o = o'
  start : numUserDataRegs ≤ s.dst_off_dw
  loads : ∀ o, S o → Loads p E s.code o (s.flags o)
  others : ∀ o, ¬ S o → s.flags o = (p.insts o).flags

theorem Emitting.congr (h : Emitting p E s S base stk) (hS : ∀ o, S o ↔ S' o) : Emitting p E s S' base stk := by
  have heq : S = S' := funext fun o => propext (hS o)
  exact heq ▸ h

theorem Emitting.append (h : Emitting p E s S base stk) (more : List Code)
    (hmore : ∀ e, E e → ∀ m, m.rdi = base e → m.stack = stk e → ∃ m', run e.mem more m = some m' ∧
      m'.rdi = base' e ∧ m'.stack = stk' e ∧ m'.flat = m.flat) :
    Emitting p E { s with code := s.code ++ more } S base' stk' where
  runs := fun e he m0 hm0 => by
    obtain ⟨m, hm, hrdi, hstack, hflat⟩ := h.runs e he m0 hm0
    obtain ⟨m', hm', hrdi', hstack', hflat'⟩ := hmore e he m hrdi hstack
    refine ⟨m', ?_, hrdi', hstack', fun o ho => ?_⟩
    · rw [run_append, hm]
      exact hm'
    · rw [hflat']
      exact hflat o ho
  index := h.index
  inj := h.inj
  start := h.start
  loads := fun o ho => (h.loads o ho).append more
  others := h.others

theorem Emitting.pushPtr (h : Emitting p E s S base stk) (hdisp : displacement (ofNat 32 k) = some disp)
    (hbase : ∀ e, E e → e.location p b = base e + disp) : ∃ s', IR.pushPtr s k = some s' ∧
      Emitting p E s' S (fun e => e.pointee p b) (fun e => base e :: stk e) := by
  refine ⟨_, ?_, h.append [.pushRdi, .movRdi disp, .movR10 0xFFFFFFFFFFFF, .andRdi] ?_⟩
  · unfold IR.pushPtr
    rw [hdisp]
    rfl
  · intro e he m hrdi hstack
    refine ⟨_, rfl, ?_, ?_, rfl⟩
    · show (e.mem (m.rdi + disp + 4) ++ e.mem (m.rdi + disp)) &&& addressMask = _
      rw [hrdi, ← hbase e he]
      rfl
    · show m.rdi :: m.stack = _
      rw [hrdi, hstack]

theorem Emitting.popPtr (h : Emitting p E s S base (fun e => base' e :: stk e)) :
    Emitting p E (IR.popPtr s) S base' stk := by
  refine h.append [.popRdi] fun e he m hrdi hstack => ?_
  refine ⟨{ m with rdi := base' e, stack := stk e }, ?_, rfl, rfl, rfl⟩
  show ((m.stack.head?.map fun rdi => { m with rdi, stack := m.stack.tail }).bind fun m => some m) = _
  rw [hstack]
  rfl

theorem Emitting.copyUse (h : Emitting p E s S base stk) (hdisp : displacement (ofNat 32 k) = some disp)
    (hbase : ∀ e, E e → base e = e.value (p.operand o 0) &&& addressMask ∧ e.location p o = base e + disp) :
    ∃ s', IR.copyUse s (k, o) = some s' ∧ Emitting p E s' (fun o' => o' = o ∨ S o') base stk := by
  refine ⟨{
    code := s.code ++ [.movR10d disp, .store s.dst_off_dw]
    flags := update s.flags o s.dst_off_dw
    dst_off_dw := s.dst_off_dw + 1 }, ?_, ?_⟩
  · unfold IR.copyUse
    rw [hdisp]
    rfl
  have hflags (o' : ℕ) (ho' : o' = o ∨ S o') : (o' = o ∧ update s.flags o s.dst_off_dw o' = s.dst_off_dw) ∨
      (o' ≠ o ∧ S o' ∧ update s.flags o s.dst_off_dw o' = s.flags o') := by
    rcases eq_or_ne o' o with rfl | hne
    · exact .inl ⟨rfl, update_self ..⟩
    · exact .inr ⟨hne, ho'.resolve_left hne, update_of_ne hne ..⟩
  constructor
  case runs =>
    intro e he m0 hm0
    obtain ⟨m, hm, hrdi, hstack, hflat⟩ := h.runs e he m0 hm0
    obtain ⟨-, hlocation⟩ := hbase e he
    let loaded : BitVec 64 := (e.mem (m.rdi + disp)).setWidth 64
    refine ⟨{ m with r10 := loaded, flat := update m.flat s.dst_off_dw (loaded.setWidth 32) },
      ?_, hrdi, hstack, fun o' ho' => ?_⟩
    · rw [run_append, hm]
      rfl
    · show update m.flat s.dst_off_dw (loaded.setWidth 32) (update s.flags o s.dst_off_dw o') = _
      rcases hflags o' ho' with ⟨rfl, hindex⟩ | ⟨-, hS, hindex⟩
      · rw [hindex, update_self, hlocation, ← hrdi]
        exact BitVec.setWidth_setWidth_of_le _ (by decide) |>.trans (BitVec.setWidth_eq _)
      · rw [hindex, update_of_ne (Nat.ne_of_lt (h.index o' hS).2)]
        exact hflat o' hS
  case index =>
    intro o' ho'
    show numUserDataRegs ≤ update s.flags o s.dst_off_dw o' ∧
      update s.flags o s.dst_off_dw o' < s.dst_off_dw + 1
    rcases hflags o' ho' with ⟨-, hindex⟩ | ⟨-, hS, hindex⟩
    · rw [hindex]
      exact ⟨h.start, Nat.lt_succ_self _⟩
    · rw [hindex]
      exact ⟨(h.index o' hS).1, Nat.lt_succ_of_lt (h.index o' hS).2⟩
  case inj =>
    intro o1 o2 ho1 ho2 heq
    change update s.flags o s.dst_off_dw o1 = update s.flags o s.dst_off_dw o2 at heq
    rcases hflags o1 ho1 with ⟨rfl, hindex1⟩ | ⟨-, hS1, hindex1⟩
    · rcases hflags o2 ho2 with ⟨rfl, -⟩ | ⟨-, hS2, hindex2⟩
      · rfl
      · rw [hindex1, hindex2] at heq
        exact absurd heq.symm (Nat.ne_of_lt (h.index o2 hS2).2)
    · rcases hflags o2 ho2 with ⟨rfl, hindex2⟩ | ⟨-, hS2, hindex2⟩
      · rw [hindex1, hindex2] at heq
        exact absurd heq (Nat.ne_of_lt (h.index o1 hS1).2)
      · rw [hindex1, hindex2] at heq
        exact h.inj o1 o2 hS1 hS2 heq
  case start => exact Nat.le_succ_of_le h.start
  case loads =>
    intro o' ho'
    show Loads p E (s.code ++ _) o' (update s.flags o s.dst_off_dw o')
    rcases hflags o' ho' with ⟨rfl, hindex⟩ | ⟨-, hS, hindex⟩
    · rw [hindex]
      refine ⟨s.code, disp, [], rfl, fun e he m0 hm0 => ?_⟩
      obtain ⟨m, hm, hrdi, -, -⟩ := h.runs e he m0 hm0
      obtain ⟨hpointer, hlocation⟩ := hbase e he
      refine ⟨m, hm, hrdi.trans hpointer, ?_⟩
      rw [hrdi, hlocation]
    · rw [hindex]
      exact (h.loads o' hS).append _
  case others =>
    intro o' ho'
    obtain ⟨hne, hS⟩ := not_or.mp ho'
    show update s.flags o s.dst_off_dw o' = _
    rw [update_of_ne hne]
    exact h.others o' hS

theorem Emitting.copyUses (uses : List (ℕ × ℕ)) (h : Emitting p E s S base stk)
    (huses : ∀ use ∈ uses, ∃ disp, displacement (ofNat 32 use.1) = some disp ∧ ∀ e, E e →
      base e = e.value (p.operand use.2 0) &&& addressMask ∧ e.location p use.2 = base e + disp) :
    ∃ s', uses.foldlM IR.copyUse s = some s' ∧ Emitting p E s' (fun o => S o ∨ ∃ use ∈ uses, use.2 = o) base stk := by
  induction uses generalizing s S with
  | nil =>
    refine ⟨s, rfl, h.congr fun o => (or_iff_left ?_).symm⟩
    rintro ⟨use, huse, -⟩
    cases huse
  | cons use uses ih =>
    obtain ⟨disp, hdisp, hbase⟩ := huses use mem_cons_self
    obtain ⟨s1, hs1, h1⟩ := h.copyUse hdisp hbase
    obtain ⟨s', hs', h'⟩ := ih h1 fun use' h' => huses use' (mem_cons_of_mem _ h')
    refine ⟨s', ?_, h'.congr fun o => ?_⟩
    · rw [foldlM_cons, hs1]
      exact hs'
    · rw [exists_mem_cons_iff, or_assoc, or_left_comm, eq_comm]

/-- What holds of `VisitPointer` with some number of calls under way. -/
def Visits (p : Program) (E : Execution → Prop) (pointer_uses : ℕ → Option (OrdMap ℕ)) (k b : ℕ)
    (visit : Emitted → Option Emitted) : Prop :=
  ∀ s S base stk disp, Emitting p E s S base stk → displacement (ofNat 32 k) = some disp →
    (∀ e, E e → e.location p b = base e + disp) →
    ∃ s', visit s = some s' ∧ Emitting p E s' (fun o => S o ∨ Under pointer_uses b o) base stk

theorem Emitting.visitUses (visit : ℕ × ℕ → Emitted → Option Emitted) (uses : List (ℕ × ℕ))
    (h : Emitting p E s S base stk)
    (huses : ∀ use ∈ uses, ∃ disp, displacement (ofNat 32 use.1) = some disp ∧ ∀ e, E e →
      e.location p use.2 = base e + disp) (hvisit : ∀ use ∈ uses, (pointer_uses use.2).isSome →
      Visits p E pointer_uses use.1 use.2 (visit use)) :
    ∃ s', uses.foldlM (fun s use => if (pointer_uses use.2).isSome then visit use s else some s) s = some s' ∧
      Emitting p E s' (fun o => S o ∨ ∃ use ∈ uses, Under pointer_uses use.2 o) base stk := by
  induction uses generalizing s S with
  | nil =>
    refine ⟨s, rfl, h.congr fun o => (or_iff_left ?_).symm⟩
    rintro ⟨use, huse, -⟩
    cases huse
  | cons use uses ih =>
    have hrest := fun use' (h' : use' ∈ uses) => huses use' (mem_cons_of_mem _ h')
    have hvisits := fun use' (h' : use' ∈ uses) => hvisit use' (mem_cons_of_mem _ h')
    rw [foldlM_cons]
    split
    next hpointer =>
      obtain ⟨disp, hdisp, hbase⟩ := huses use mem_cons_self
      obtain ⟨s1, hs1, h1⟩ := hvisit use mem_cons_self hpointer s S base stk disp h hdisp hbase
      obtain ⟨s', hs', h'⟩ := ih h1 hrest hvisits
      refine ⟨s', ?_, h'.congr fun o => ?_⟩
      · rw [hs1]
        exact hs'
      · rw [exists_mem_cons_iff, or_assoc]
    next hpointer =>
      obtain ⟨s', hs', h'⟩ := ih h hrest hvisits
      refine ⟨s', hs', h'.congr fun o => ?_⟩
      rw [exists_mem_cons_iff]
      -- Nothing is under what is no pointer.
      have hnone : ¬ Under pointer_uses use.2 o := by
        intro hunder
        cases hunder with
        | use hul _ => exact hpointer (Option.isSome_iff_exists.mpr ⟨_, hul⟩)
        | child hul _ _ => exact hpointer (Option.isSome_iff_exists.mpr ⟨_, hul⟩)
      rw [or_iff_right hnone]

theorem visitPointer_spec (hf : Forest p E pointer_uses roots d rank) (hcalls : d < calls + rank b)
    (hb : (pointer_uses b).isSome) : Visits p E pointer_uses k b (visitPointer pointer_uses calls k b) := by
  induction calls generalizing k b with
  | zero =>
    have hbound := hf.bounded b hb
    omega
  | succ calls ih =>
    intro s S base stk disp h hdisp hbase
    obtain ⟨ul, hul⟩ := Option.isSome_iff_exists.mp hb
    obtain ⟨s1, hs1, h1⟩ := h.pushPtr hdisp hbase
    obtain ⟨s2, hs2, h2⟩ := h1.copyUses ul.entries fun use huse => by
      obtain ⟨disp, hdisp, -, -, he⟩ := hf.uses b ul use.1 use.2 hul huse
      exact ⟨disp, hdisp, he⟩
    obtain ⟨s3, hs3, h3⟩ := h2.visitUses (fun use => visitPointer pointer_uses calls use.1 use.2) ul.entries
      (fun use huse => by
        obtain ⟨disp, hdisp, -, -, he⟩ := hf.uses b ul use.1 use.2 hul huse
        exact ⟨disp, hdisp, fun e hE => (he e hE).2⟩)
      (fun use huse hpointer => by
        obtain ⟨-, -, hlt, -, -⟩ := hf.uses b ul use.1 use.2 hul huse
        exact ih (by omega) hpointer)
    refine ⟨IR.popPtr s3, ?_, h3.popPtr.congr fun o => ?_⟩
    · unfold visitPointer
      rw [hs1, hul]
      simp only [Option.bind_eq_bind, Option.bind_some, hs2, hs3]
    · rw [or_assoc]
      refine or_congr_right ⟨?_, ?_⟩
      · rintro (⟨⟨k', o'⟩, hk, rfl⟩ | ⟨⟨k', c⟩, hk, hunder⟩)
        · exact .use hul hk
        · exact .child hul hk hunder
      · rintro (⟨hul', hk⟩ | ⟨hul', hk, hunder⟩)
        · obtain rfl := Option.some.inj (hul.symm.trans hul')
          exact .inl ⟨_, hk, rfl⟩
        · obtain rfl := Option.some.inj (hul.symm.trans hul')
          exact .inr ⟨_, hk, hunder⟩

theorem visitRoots_spec (hf : Forest p E pointer_uses roots d rank) (hcalls : d < calls)
    (rest : List (ℕ × ℕ)) (hrest : ∀ root ∈ rest, root ∈ roots)
    (h : Emitting p E s S (fun e => e.user_data) fun _ => []) :
    ∃ s', rest.foldlM (fun s root => visitPointer pointer_uses calls root.1 root.2 s) s = some s' ∧
      Emitting p E s' (fun o => S o ∨ ∃ root ∈ rest, Under pointer_uses root.2 o)
        (fun e => e.user_data) fun _ => [] := by
  induction rest generalizing s S with
  | nil =>
    refine ⟨s, rfl, h.congr fun o => (or_iff_left ?_).symm⟩
    rintro ⟨root, hroot, -⟩
    cases hroot
  | cons root rest ih =>
    obtain ⟨disp, hdisp, hsome, hbase⟩ := hf.roots root.1 root.2 (hrest root mem_cons_self)
    obtain ⟨s1, hs1, h1⟩ := visitPointer_spec hf (Nat.lt_of_lt_of_le hcalls (Nat.le_add_right _ _)) hsome s S _ _ disp h hdisp hbase
    obtain ⟨s', hs', h'⟩ := ih (fun root' h' => hrest root' (mem_cons_of_mem _ h')) h1
    refine ⟨s', ?_, h'.congr fun o => ?_⟩
    · rw [foldlM_cons, hs1]
      exact hs'
    · rw [exists_mem_cons_iff, or_assoc]

theorem emitting_start (p : Program) (E : Execution → Prop) :
    Emitting p E { flags := fun x => (p.insts x).flags } (fun _ => False) (fun e => e.user_data) fun _ => [] where
  runs := fun _ _ m0 hm0 => ⟨m0, rfl, hm0.rdi, hm0.stack, fun _ ho => ho.elim⟩
  index := fun _ ho => ho.elim
  inj := fun _ _ ho => ho.elim
  start := Nat.le_refl _
  loads := fun _ ho => ho.elim
  others := fun _ _ => rfl

theorem generateSrtProgram_spec (hf : Forest p E info.pointer_uses info.srt_roots d rank) (hcalls : d < calls) :
    ∃ s, generateSrtProgram calls info (fun x => (p.insts x).flags) = some s ∧
      Emitting p E s (fun o => ∃ root ∈ info.srt_roots, Under info.pointer_uses root.2 o)
        (fun e => e.user_data) fun _ => [] := by
  unfold generateSrtProgram
  split
  next hempty =>
    refine ⟨_, rfl, (emitting_start p E).congr fun o => ?_⟩
    refine iff_of_false id ?_
    rintro ⟨root, hroot, -⟩
    rw [OrdMap.mem_def, hempty] at hroot
    cases hroot
  next =>
    obtain ⟨s, hs, h⟩ := visitRoots_spec hf hcalls info.srt_roots.entries (fun _ hroot => hroot) (emitting_start p E)
    rw [hs]
    refine ⟨_, rfl, ?_⟩
    have hret : Emitting p E { s with code := s.code ++ [.ret] } _ (fun e => e.user_data) fun _ => [] :=
      h.append [.ret] fun e he m hrdi hstack => ⟨m, by
        show (if m.stack = [] then some m else none).bind (fun m => some m) = _
        rw [if_pos hstack]
        rfl, hrdi, hstack, rfl⟩
    exact hret.congr fun o => or_iff_right id

end ShadPS4.IR
