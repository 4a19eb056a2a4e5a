import ShadPS4.IR.WalkerSpec

/-!
# What `FlattenExtendedUserdataPass` leaves

Each read at a known offset gets the index at which the walker stores the dword that it reads.
-/

namespace ShadPS4.IR

open Function

theorem append_and_addressMask {high high' low : BitVec 32} (h : high.setWidth 16 = high'.setWidth 16) :
    (high ++ low : BitVec 64) &&& addressMask = (high' ++ low : BitVec 64) &&& addressMask := by
  have hmask : addressMask = (BitVec.allOnes 48).setWidth 64 := rfl
  apply BitVec.eq_of_getLsbD_eq
  intro i hi
  rw [BitVec.getLsbD_and, BitVec.getLsbD_and, hmask, BitVec.getLsbD_setWidth, BitVec.getLsbD_allOnes,
    BitVec.getLsbD_append, BitVec.getLsbD_append]
  split
  next => rfl
  next hlow =>
    rcases Nat.lt_or_ge i 48 with hmid | hhigh
    · have hbit := congrArg (BitVec.getLsbD · (i - 32)) h
      rw [BitVec.getLsbD_setWidth, BitVec.getLsbD_setWidth, decide_eq_true (by omega), Bool.true_and,
        Bool.true_and] at hbit
      rw [hbit]
    · rw [decide_eq_false (Nat.not_lt.mpr hhigh), Bool.and_false, Bool.and_false, Bool.and_false]

namespace Program

variable {p : Program} {insts : List ℕ} {E : Execution → Prop} {d calls x r o c L reg : ℕ}
  {off : BitVec 32} {info : PassInfo} {names : List Key} {all : List ℕ} {K : Key}

open Classical in
/-- The height of the key of an instruction. -/
noncomputable def rank (p : Program) (x : ℕ) : ℕ :=
  if h : ∃ n d K, p.HasKey d (.inst x) K ∧ K.height = n then h.choose else 0

theorem rank_eq (h : p.HasKey d (.inst x) K) : p.rank x = K.height := by
  have hex : ∃ n d K, p.HasKey d (.inst x) K ∧ K.height = n := ⟨_, d, K, h, rfl⟩
  unfold rank
  rw [dif_pos hex]
  obtain ⟨d', K', hK', hheight⟩ := hex.choose_spec
  rw [← hheight, hK'.unique h]

theorem ReadAt.pointee {e : Execution} (hp : p.Walkable insts E) (he : E e) (hof : e.Of p)
    (hr : p.ConstRead insts r) (h : p.ReadAt r c L off) (hL : p.Load insts L) :
    e.value (p.operand r 0) &&& addressMask = e.pointee p L := by
  have hpointer : p.operand r 0 = .inst c := by
    unfold operand
    rw [h.pointer]
    rfl
  have hlow : p.operand c 0 = .inst L := by
    unfold operand
    rw [h.low]
    rfl
  have hvalue : (e.value (.inst L)).setWidth 32 = e.mem (e.location p L) := by
    show (e.val L).setWidth 32 = _
    rw [hof.load L hL.op]
    exact BitVec.setWidth_setWidth_of_le _ (by decide) |>.trans (BitVec.setWidth_eq _)
  rw [hpointer]
  show e.val c &&& addressMask = _
  rw [hof.pair c h.pair, hlow, hvalue]
  apply append_and_addressMask
  rw [BitVec.setWidth_setWidth_of_le _ (by decide)]
  exact hp.high r c L off hr h e he

theorem ReadAt.location {e : Execution} (h : p.ReadAt r c L off) :
    e.location p r = (e.value (p.operand r 0) &&& addressMask) + offsetBytes off := by
  have hoffset : p.operand r 1 = .imm (.u32 off) := by
    unfold operand
    rw [h.offset]
    rfl
  unfold Execution.location
  rw [if_neg (by rw [h.op]; exact fun heq => by cases heq), hoffset]
  show _ + offsetBytes ((off.setWidth 64).setWidth 32) = _
  rw [BitVec.setWidth_setWidth_of_le _ (by decide), BitVec.setWidth_eq]

theorem Collecting.forest (hp : p.Walkable insts E) (hE : ∀ e, E e → e.Of p)
    (h : p.Collecting insts d [] info all names) : Forest p E info.pointer_uses info.srt_roots d p.rank := by
  have hkey {x : ℕ} (hx : info.First x) : ∃ K, p.HasKey d (.inst x) K ∧ p.Load insts x := by
    obtain ⟨n, hn⟩ := hx
    obtain ⟨K, -, hK, hload⟩ := h.first n x hn
    exact ⟨K, hK, hload⟩
  constructor
  case uses =>
    intro b ul k o hul ho
    obtain ⟨c, L, off, hread, hat, rfl, hsame, hfirst⟩ := h.uses b ul k o hul ho
    obtain ⟨c', L', off', hat', hdisp, hL⟩ := hp.read o hread
    obtain ⟨rfl, rfl, rfl⟩ := hat.unique hat'
    obtain ⟨Ko, hKo, -⟩ := hkey hfirst
    obtain ⟨Kb, hKb, hb⟩ := hkey (h.pointers b (Option.isSome_iff_exists.mpr ⟨ul, hul⟩))
    obtain ⟨KL, hKL, hlt⟩ := hat.low_key hKo
    obtain ⟨_, _, K', hS, hS'⟩ := hsame
    have heq : KL = Kb := (hKL.unique hS).trans (hS'.unique hKb)
    subst heq
    refine ⟨offsetBytes off, ?_, ?_, ?_, fun e he => ?_⟩
    · unfold displacement
      rw [BitVec.ofNat_toNat, BitVec.setWidth_eq]
      exact if_pos hdisp
    · rw [rank_eq hKb, rank_eq hKo]
      exact hlt
    · rw [rank_eq hKo]
      exact hKo.height_le
    · have hlocation : e.location p L = e.location p b :=
        Execution.location_eq (hE e he) hKL hKb (Load.resolved hL) hb.resolved (Load.op hL)
      have hpointee : e.pointee p b = e.value (p.operand o 0) &&& addressMask := by
        rw [hat.pointee hp he (hE e he) hread hL]
        unfold Execution.pointee
        rw [hlocation]
      refine ⟨hpointee, ?_⟩
      rw [hpointee]
      exact hat.location
  case bounded =>
    intro b hb
    obtain ⟨Kb, hKb, -⟩ := hkey (h.pointers b hb)
    rw [rank_eq hKb]
    exact hKb.height_le
  case roots =>
    intro reg b hroot
    obtain ⟨hdata, hsome⟩ := (h.roots reg b).mp hroot
    obtain ⟨Kb, -, hb⟩ := hkey (h.pointers b hsome)
    have hreg : reg < 128 := by
      rcases hb with ⟨reg', hlt, hdata'⟩ | ⟨-, hop, -⟩
      · rw [hdata.unique hdata']
        exact hlt
      · rw [hdata.op] at hop
        cases hop
    refine ⟨offsetBytes (BitVec.ofNat 32 reg), ?_, hsome, fun e _ => ?_⟩
    · have hsmall : ((BitVec.ofNat 32 reg) <<< 2).toNat < 2^31 := by
        rw [BitVec.toNat_shiftLeft, BitVec.toNat_ofNat, Nat.shiftLeft_eq]
        omega
      exact if_pos hsmall
    · have hregister : p.register b = reg := by
        unfold register operand
        rw [hdata.reg]
        rfl
      unfold Execution.location
      rw [if_pos hdata.op, hregister]

theorem Collecting.under (hp : p.Walkable insts E) (hE : ∀ e, E e → e.Of p)
    (h : p.Collecting insts d [] info all names) (ho : info.First o) (hread : p.ConstRead insts o) :
    ∃ root ∈ info.srt_roots, Under info.pointer_uses root.2 o := by
  have hf := h.forest hp hE
  generalize hn : p.rank o = n
  induction n using Nat.strong_induction_on generalizing o with
  | h n ih =>
    obtain ⟨b, ul, k, hul, hk⟩ := h.done o ho hread List.not_mem_nil
    obtain ⟨-, -, hlt, -⟩ := hf.uses b ul k o hul hk
    have hsome : (info.pointer_uses b).isSome := Option.isSome_iff_exists.mpr ⟨ul, hul⟩
    have hb := h.pointers b hsome
    obtain ⟨n', hn'⟩ := hb
    obtain ⟨-, -, -, hload⟩ := h.first n' b hn'
    rcases hload with ⟨reg, -, hdata⟩ | hread'
    · exact ⟨(reg, b), (h.roots reg b).mpr ⟨hdata, hsome⟩, .use hul hk⟩
    · obtain ⟨root, hroot, hunder⟩ := ih (p.rank b) (hn ▸ hlt) ⟨n', hn'⟩ hread' rfl
      exact ⟨root, hroot, hunder.trans hul hk⟩

theorem Pointing.under (h : p.Pointing insts d info names) (hunder : Under info.pointer_uses b o) :
    p.ConstRead insts o ∧ info.First o := by
  induction hunder with
  | use hul hk =>
    obtain ⟨_, _, _, hread, -, -, -, hfirst⟩ := h.uses _ _ _ _ hul hk
    exact ⟨hread, hfirst⟩
  | child _ _ _ ih => exact ih

/-! ## The loop over the duplicates -/

def withFlags (p : Program) (flags : ℕ → ℕ) : Program :=
  { p with insts := fun x => { p.insts x with flags := flags x } }

theorem withFlags_setFlags (flags : ℕ → ℕ) (x n : ℕ) :
    (p.withFlags flags).setFlags x n = p.withFlags (update flags x n) := by
  have hinsts : update (p.withFlags flags).insts x { (p.withFlags flags).insts x with flags := n } =
      (p.withFlags (update flags x n)).insts := by
    funext y
    show _ = { p.insts y with flags := update flags x n y }
    rcases eq_or_ne y x with rfl | hne
    · rw [update_self, update_self]
      rfl
    · rw [update_of_ne hne, update_of_ne hne]
      rfl
  exact congrArg (fun insts => { p with insts }) hinsts

theorem deduplicateInstruction_found {q : Program} (hcalls : 0 < calls)
    (hr : q.resolved (.inst r) = some (.inst r)) (ho : info.Numbers r o) :
    q.deduplicateInstruction calls r info = some (o, info) := by
  obtain ⟨n, hn, hfirst⟩ := ho
  obtain ⟨calls, rfl⟩ := Nat.exists_eq_add_of_le' hcalls
  have hnumber : q.getValueNumber (calls + 1) (.inst r) info.gvn_table = some (n, info.gvn_table) := by
    unfold getValueNumber
    rw [hr, Option.bind_eq_bind, Option.bind_some, hn]
  unfold deduplicateInstruction
  rw [hnumber, Option.bind_eq_bind, Option.bind_some]
  rw [hfirst]

/-- How far the loop over the duplicates has come. -/
structure Assigning (all : List ℕ) (info : PassInfo) (flags₀ : ℕ → ℕ) (rest : List ℕ) (flags : ℕ → ℕ) :
    Prop where
  subset : rest ⊆ all
  first : ∀ o, info.First o → flags o = flags₀ o
  done : ∀ r o, r ∈ all → r ∉ rest → info.Numbers r o → flags r = flags₀ o
  others : ∀ x, x ∉ all → flags x = flags₀ x

theorem assignOriginals_spec (h : p.Collecting insts d [] info all names) (hcalls : 0 < calls)
    (flags0 : ℕ → ℕ) : ∃ flags, all.foldlM (assignOriginal calls) (p.withFlags flags0, info) =
      some (p.withFlags flags, info) ∧ Assigning all info flags0 [] flags := by
  obtain ⟨s, hs, flags, rfl, hdone⟩ := foldlM_completes (f := assignOriginal calls)
    (I := fun rest s => ∃ flags, s = (p.withFlags flags, info) ∧ Assigning all info flags0 rest flags)
    (fun r rest s ⟨flags, hs, hinv⟩ => by
      subst hs
      have hin : r ∈ all := hinv.subset List.mem_cons_self
      have hread := h.reads r hin
      obtain ⟨-, o, ho⟩ := h.visited r hread List.not_mem_nil
      have hfirst : info.First o := by
        obtain ⟨n, -, hn⟩ := ho
        exact ⟨n, hn⟩
      have hr : (p.withFlags flags).resolved (.inst r) = some (.inst r) := by
        apply resolved_inst
        show (p.insts r).op ≠ .identity
        rw [hread.2.1]
        exact fun heq => by cases heq
      have hflags : update flags r (flags o) r = flags0 o := by
        rw [update_self]
        exact hinv.first o hfirst
      refine ⟨_, ?_, update flags r (flags o), rfl, ?_⟩
      · unfold assignOriginal
        rw [deduplicateInstruction_found hcalls hr ho]
        show some ((p.withFlags flags).setFlags r (flags o), info) = _
        rw [withFlags_setFlags]
      · constructor
        case subset => exact fun y hy => hinv.subset (List.mem_cons_of_mem _ hy)
        case first =>
          intro o' ho'
          rcases eq_or_ne o' r with rfl | hne
          · -- A read that is a first is its own.
            rw [hflags, h.eq_of_same hfirst ho' (h.same ho).symm]
          · rw [update_of_ne hne]
            exact hinv.first o' ho'
        case done =>
          intro r' o' hr' hrest ho'
          rcases eq_or_ne r' r with rfl | hne
          · obtain ⟨n, hn, hno⟩ := ho
            obtain ⟨n', hn', hno'⟩ := ho'
            obtain rfl := Option.some.inj (hn.symm.trans hn')
            obtain rfl := Option.some.inj (hno.symm.trans hno')
            exact hflags
          · rw [update_of_ne hne]
            exact hinv.done r' o' hr' (fun hin => hrest ((List.mem_cons.mp hin).resolve_left hne)) ho'
        case others =>
          intro x hx
          rw [update_of_ne (fun heq : x = r => hx (by rw [heq]; exact hin))]
          exact hinv.others x hx)
    ⟨flags0, rfl, fun _ => id, fun _ _ => rfl, fun _ _ hr hrest => absurd hr hrest, fun _ _ => rfl⟩
  exact ⟨flags, hs, hdone⟩

end Program

end ShadPS4.IR
