import ShadPS4.Memory.DirectSpec
import ShadPS4.Memory.PoolSpec
import ShadPS4.Memory.RangeSpec

/-!
# Reachable states

The constructor's state is well formed, and every call of the memory manager keeps a state well formed and has its
specified effect on it.
-/

namespace ShadPS4.Memory

open MemoryManager
open OrdMap (mem_insert not_mem_empty empty)

variable {cfg : Config} {s s' : MemoryManager} {v x : ℕ}

/-! ## The constructor -/

theorem regionAreas_spec (h : VTiles m R)
    (hlt : ∀ r ∈ rs, r.1 < r.2) (hs : rs.Pairwise fun r q => r.2 ≤ q.1) (hR : ∀ x, R x → ∀ r ∈ rs, x < r.1) :
    VTiles (regionAreas rs m) (fun x => R x ∨ ∃ r ∈ rs, r.1 ≤ x ∧ x < r.2) := by
  induction rs generalizing m R with
  | nil => simpa [regionAreas] using h
  | cons r rest ih =>
    obtain ⟨lo, hi⟩ := r
    obtain ⟨hhead, hrest⟩ := List.pairwise_cons.mp hs
    have hlohi := hlt _ List.mem_cons_self
    have hkey : ¬ m.HasKey lo := by
      rintro ⟨a, ha⟩
      have hpos := h.part.pos lo a ha
      have := hR lo ((h.part.cover lo).mpr ⟨lo, a, ha, le_rfl, by omega⟩) _ List.mem_cons_self
      exact lt_irrefl _ this
    have hext := h.part.extend (k := lo) (a := ({ base := lo, size := hi - lo } : VirtualMemoryArea))
      (by simp only [vmaExtent_size]; omega) fun x hx _ hRx =>
        absurd (hR x hRx _ List.mem_cons_self) (by simp only; omega)
    have htiles : VTiles (m.insert lo { base := lo, size := hi - lo }) (fun x => R x ∨ lo ≤ x ∧ x < hi) := by
      refine ⟨hext.congr fun x => ?_, fun k vma hk => ?_, fun k vma hk => ?_⟩
      · simp only [vmaExtent_size]
        exact or_congr_right (by omega)
      · rw [mem_insert, Prod.mk.injEq] at hk
        rcases hk with ⟨rfl, rfl⟩ | ⟨hk, -⟩
        · rfl
        · exact h.keyed k vma hk
      · rw [mem_insert, Prod.mk.injEq] at hk
        rcases hk with ⟨rfl, rfl⟩ | ⟨hk, -⟩
        · exact backed_of_empty (by simp [VMAType.HasPhysicalBacking]) rfl
        · exact h.backed k vma hk
    rw [regionAreas, OrdMap.emplace_of_not_hasKey hkey]
    have := ih htiles (fun q hq => hlt q (List.mem_cons_of_mem _ hq)) hrest (by
      rintro x (hx | hx) q hq
      · exact hR x hx q (List.mem_cons_of_mem _ hq)
      · exact hx.2.trans_le (hhead q hq))
    refine ⟨this.part.congr fun x => ?_, this.keyed, this.backed⟩
    simp only [List.mem_cons, exists_eq_or_imp, or_assoc]

theorem tiles_single (hn : 0 < n) : Tiles (empty.emplace l { base := l, size := n }) l (l + n) := by
  rw [OrdMap.emplace_of_not_hasKey (by rintro ⟨a, ha⟩; exact not_mem_empty ha)]
  refine ⟨single_part hn, fun k a hk => ?_⟩
  simp only [mem_insert, Prod.mk.injEq, not_mem_empty, false_and, or_false] at hk
  rw [hk.1, hk.2]

theorem regionAreas_free
    (hm : ∀ k vma, (k, vma) ∈ m → vma.type = .free) (hk : (k, vma) ∈ regionAreas rs m) : vma.type = .free := by
  induction rs generalizing m with
  | nil => exact hm k vma hk
  | cons r rest ih =>
    refine ih (fun k vma hk => ?_) hk
    unfold OrdMap.emplace at hk
    split_ifs at hk
    · exact hm k vma hk
    · rw [mem_insert, Prod.mk.injEq] at hk
      rcases hk with ⟨-, rfl⟩ | ⟨hk, -⟩
      · rfl
      · exact hm k vma hk

theorem virt_new (cfg : Config) : VTiles (MemoryManager.new cfg).vma_map cfg.Usable := by
  have hempty : VTiles (empty : VMAMap) fun _ => False :=
    ⟨OrdMap.empty_partition, by simp, by simp⟩
  have := regionAreas_spec hempty (fun r hr => (cfg.regions_lt r hr).1) cfg.regions_sorted (fun x hx => hx.elim)
  exact ⟨this.part.congr fun x => by simp [Config.Usable], this.keyed, this.backed⟩

theorem new_hasType (h : (MemoryManager.new cfg).HasType t v) : t = .free := by
  obtain ⟨b, hb, rfl⟩ := h
  obtain ⟨k, vma, ⟨hk, -⟩, rfl⟩ := (virt_new cfg).part.byteAt_eq_some_iff.mp hb
  exact regionAreas_free (by simp) hk

theorem wf_new (cfg : Config) : WF cfg (.new cfg) := by
  refine ⟨virt_new cfg, ?_, tiles_single cfg.flexible_pos, le_rfl, fun v b x hb hx => ?_,
    Nat.two_pow_pos 64, Nat.two_pow_pos 64⟩
  · have := tiles_single (l := 0) cfg.direct_pos
    rwa [Nat.zero_add] at this
  · obtain ⟨k, vma, ⟨hk, -⟩, rfl⟩ := (virt_new cfg).part.byteAt_eq_some_iff.mp hb
    have htype := regionAreas_free (by simp) hk
    have hempty := ((virt_new cfg).backed k vma hk).empty (by simp [htype, VMAType.HasPhysicalBacking])
    simp [vmaExtent_byte, hempty, byteAt_empty] at hx

theorem new_dma : ((MemoryManager.new cfg).dma x = some t → t = .free) ∧
      ((MemoryManager.new cfg).fma x = some t → t = .free) := by
  have hsingle : ∀ {lo n} {b : PByte}, 0 < n →
      (empty.emplace lo ({ base := lo, size := n } : PhysicalMemoryArea)).byteAt physExtent x =
        some b → b.dma_type = .free := by
    intro lo n b hn hb
    obtain ⟨k, a, ⟨hk, -⟩, rfl⟩ := (tiles_single hn).part.byteAt_eq_some_iff.mp hb
    rw [OrdMap.emplace_of_not_hasKey (by rintro ⟨a, ha⟩; exact not_mem_empty ha)] at hk
    simp only [mem_insert, Prod.mk.injEq, not_mem_empty, false_and, or_false] at hk
    rw [hk.2]
    rfl
  constructor <;> intro h <;> obtain ⟨b, hb, rfl⟩ := Option.map_eq_some_iff.mp h
  · exact hsingle cfg.direct_pos hb
  · exact hsingle cfg.flexible_pos hb

/-! ## Setting up the memory regions -/

/-- What `SetupMemoryRegions` does, while all of direct memory is free: the sizes change, and direct
memory shrinks to its new size. -/
structure SetUp (cfg : Config) (s s' : MemoryManager) (flexible_size : ℕ) : Prop where
  free : ∀ x t, s.dma x = some t → t = .free
  free' : ∀ x t, s'.dma x = some t → t = .free
  total_flexible : s'.total_flexible_size = setupFlexibleSize cfg flexible_size
  usage_le : s.flexible_usage ≤ s'.total_flexible_size
  frame : s' = { s with
    total_flexible_size := s'.total_flexible_size
    total_direct_size := s'.total_direct_size, dmem_map := s'.dmem_map }

theorem setupMemoryRegions_spec (h : WF cfg s)
    (hfree : ∀ p ∈ s.dmem_map, p.1 = 0 ∧ p.2.dma_type = .free) (hpos : 0 < setupDirectSize cfg size mem1 mem2)
    (hs : s.setupMemoryRegions cfg size mem1 mem2 = .ok s') : WF cfg s' ∧ SetUp cfg s s' size := by
  simp only [setupMemoryRegions, findDmemArea, bind_eq_ok, deref_eq_ok, require_eq_ok, pure_eq_ok, Prod.exists] at hs
  obtain ⟨-, husage, k, area, hf, -, ⟨htype, hlost⟩, rfl⟩ := hs
  obtain ⟨hk, -⟩ := OrdMap.floor?_eq_some_iff.mp hf
  have hbase := h.direct.keyed k area hk
  obtain ⟨rfl, -⟩ := hfree _ hk
  -- The one area is all of direct memory.
  have hsize : area.size = s.total_direct_size := by
    have hle := h.direct.end_le hk
    by_contra hne
    obtain ⟨l, b, hl, h1, h2⟩ := (h.direct.part.cover (s.total_direct_size - 1)).mp ⟨Nat.zero_le _, by omega⟩
    obtain rfl := (hfree _ hl).1
    rw [OrdMap.mem_unique hl hk] at h2
    simp only [physExtent_size] at h2
    omega
  set size' := setupDirectSize cfg size mem1 mem2 with hsize'
  have hlt' : size' < 2^64 := sub64_lt _ _
  have hle := h.direct_le
  have hcfg := cfg.sizes_lt
  have hshrink : size' ≤ s.total_direct_size ∧ area.size - sub64 s.total_direct_size size' = size' := by
    rcases Nat.le_total size' s.total_direct_size with hc | hc
    · rw [sub64_of_le hc (by omega)]
      omega
    · unfold sub64 at hlost ⊢
      omega
  rw [hshrink.2]
  have hmap : s.dmem_map.insert 0 { area with size := size' } =
      empty.insert 0 { area with size := size' } := by
    refine OrdMap.ext_mem fun p => ?_
    simp only [mem_insert, not_mem_empty, false_and, or_false, or_iff_left_iff_imp]
    exact fun hp => absurd (hfree p hp.1).1 hp.2
  have hmem : ∀ k a, (k, a) ∈ s.dmem_map.insert 0 { area with size := size' } → a.base = k ∧ a.dma_type = .free := by
    intro k a hk
    rw [hmap] at hk
    simp only [mem_insert, Prod.mk.injEq, not_mem_empty, false_and, or_false] at hk
    obtain ⟨rfl, rfl⟩ := hk
    exact ⟨hbase, htype⟩
  have htiles : Tiles (s.dmem_map.insert 0 { area with size := size' }) 0 size' := by
    refine ⟨?_, fun k a hk => (hmem k a hk).1⟩
    rw [hmap]
    have := single_part (k := 0) (a := { area with size := size' }) hpos
    rwa [Nat.zero_add] at this
  refine ⟨⟨h.virt, htiles, h.flexible, hshrink.1.trans hle, h.paddr_lt, h.usage_lt, h.budget_lt⟩,
    fun x t ht => ?_, fun x t ht => ?_, rfl, husage, rfl⟩
  · obtain ⟨b, hb, rfl⟩ := Option.map_eq_some_iff.mp ht
    obtain ⟨k, a, ⟨hk, -⟩, rfl⟩ := h.direct.part.byteAt_eq_some_iff.mp hb
    exact (hfree _ hk).2
  · obtain ⟨b, hb, rfl⟩ := Option.map_eq_some_iff.mp ht
    obtain ⟨k, a, ⟨hk, -⟩, rfl⟩ := htiles.part.byteAt_eq_some_iff.mp hb
    exact (hmem k a hk).2

/-! ## Every call -/

theorem unmapMemory_spec (h : WF cfg s) (hva : va < 2^64)
    (hsize : size < 2^64) (hu : s.unmapMemory va size = .ok (s', r)) : WF cfg s' ∧ (s' = s ∧ (size = 0 ∨ r ≠ .ok) ∨
      r = .ok ∧ Unmapped cfg s s' (Contig cfg (alignDown va kb16) (alignUp size kb16))) := by
  unfold unmapMemory at hu
  split_ifs at hu with hz
  · rw [pure_eq_ok, Prod.mk.injEq] at hu
    obtain ⟨rfl, -⟩ := hu
    exact ⟨h, .inl ⟨rfl, .inl hz⟩⟩
  · simp only [bind_eq_ok] at hu
    obtain ⟨valid, -, hu⟩ := hu
    split_ifs at hu
    · simp only [bind_eq_ok, pure_eq_ok, Prod.mk.injEq] at hu
      obtain ⟨s1, hl, rfl, rfl⟩ := hu
      have hdown : alignDown va kb16 ≤ va := Nat.sub_le _ _
      obtain ⟨hwf, hun⟩ := unmapMemoryImpl_spec h (by omega) (alignUp_lt hsize) hl
      exact ⟨hwf, .inr ⟨rfl, hun⟩⟩
    · rw [pure_eq_ok, Prod.mk.injEq] at hu
      obtain ⟨rfl, rfl⟩ := hu
      exact ⟨h, .inl ⟨rfl, .inr (by decide)⟩⟩

/-- Aligning the start of a search does not wrap. -/
def NoWrap (start alignment default : ℕ) : Prop :=
  start ≤ alignUp start (if 0 < alignment then alignment else default)

/-- The effect of a call that changes the state. -/
def Op.Effect (cfg : Config) (s s' : MemoryManager) : Op → Prop
  | allocate start _ size alignment memory_type => ∃ addr,
    s'.pool_budget = s.pool_budget ∧ Taken s s' addr size.toNat .allocated memory_type ∧
      (NoWrap start.toNat alignment.toNat kb16 →
        ∀ x, InRange addr size.toNat x → s.dma x = some .free)
  | free phys_addr size is_checked =>
    s.FreeInBounds phys_addr.toNat size.toNat is_checked ∧
      Freed cfg s s' phys_addr.toNat size.toNat
  | poolExpand start _ size alignment => ∃ addr,
    s'.pool_budget = add64 s.pool_budget size.toNat ∧ Taken s s' addr size.toNat .pooled 3 ∧
      (NoWrap start.toNat alignment.toNat kb64 →
        ∀ x, InRange addr size.toNat x → s.dma x = some .free)
  | poolCommit va size prot mtype => s.CommitFits va.toNat size.toNat ∧
    ∃ p, Committed cfg s s' va.toNat size.toNat prot mtype p
  | poolDecommit va size => s.DecommitAccepts va.toNat size.toNat ∧ ∃ s₁, WF cfg s₁ ∧
    Decommitted cfg s s₁ (InRange va.toNat size.toNat) ∧
      s' = s₁.host (.unmap va.toNat size.toNat)
  | mapMemory va size prot flags type _ validate_dmem phys_addr alignment =>
    s.checkPhysical size.toNat type validate_dmem phys_addr.toNat = .ok none ∧
      ∃ va', s.placeMapping va.toNat size.toNat flags alignment.toNat = .ok (some va') ∧
        Remapped cfg s s' va' size.toNat type (appendRead prot) phys_addr.toNat
  | mapFile va size _ flags _ _ _ => ∃ va' prot,
    s.placeMapping va.toNat size.toNat flags kb16 = .ok (some va') ∧
      Remapped cfg s s' va' size.toNat .file prot 0
  | unmapMemory va size =>
    Unmapped cfg s s' (Contig cfg (alignDown va.toNat kb16) (alignUp size.toNat kb16))
  | protect va size prot => Protected s s' (Contig cfg va.toNat size.toNat) prot
  | setDirectMemoryType _ _ _ => SameCore s s' ∧ ∀ v, s'.vbyte v = s.vbyte v
  | nameVirtualRange _ _ _ => SameCore s s' ∧ ∀ v, s'.vbyte v = s.vbyte v
  | setupMemoryRegions size _ _ => SetUp cfg s s' size.toNat

theorem Op.exec_spec {op : Op} (h : WF cfg s) (ha : op.Admitted cfg s)
    (he : op.exec cfg s = .ok s') : WF cfg s' ∧ (s' = s ∨ op.Effect cfg s s') := by
  cases op with
  | allocate start last size alignment type =>
    simp only [exec, map_eq_ok, Prod.exists] at he
    obtain ⟨s1, r, he, rfl⟩ := he
    obtain ⟨hwf, hs | ⟨addr, -, hb, ht, hf⟩⟩ :=
      allocate_spec h size.toNat_lt alignment.toNat_lt he
    · exact ⟨hwf, .inl hs.1⟩
    · exact ⟨hwf, .inr ⟨addr, hb, ht, hf⟩⟩
  | free addr size is_checked =>
    simp only [exec, map_eq_ok, Prod.exists] at he
    obtain ⟨s1, r, he, rfl⟩ := he
    obtain ⟨hwf, hs | ⟨-, hb, hf⟩⟩ := free_spec h size.toNat_lt he
    · exact ⟨hwf, .inl hs.1⟩
    · exact ⟨hwf, .inr ⟨hb, hf⟩⟩
  | poolExpand start last size alignment =>
    simp only [exec, map_eq_ok, Prod.exists] at he
    obtain ⟨s1, r, he, rfl⟩ := he
    obtain ⟨hwf, hs | ⟨addr, -, hb, ht, hf⟩⟩ :=
      poolExpand_spec h size.toNat_lt alignment.toNat_lt he
    · exact ⟨hwf, .inl hs.1⟩
    · exact ⟨hwf, .inr ⟨addr, hb, ht, hf⟩⟩
  | poolCommit addr size prot mtype =>
    simp only [exec, map_eq_ok, Prod.exists] at he
    obtain ⟨s1, r, he, rfl⟩ := he
    obtain ⟨hwf, hs | ⟨-, hf, p, hc⟩⟩ := poolCommit_spec h size.toNat_lt he
    · exact ⟨hwf, .inl hs.1⟩
    · exact ⟨hwf, .inr ⟨hf, p, hc⟩⟩
  | poolDecommit addr size =>
    simp only [exec, map_eq_ok, Prod.exists] at he
    obtain ⟨s1, r, he, rfl⟩ := he
    obtain ⟨hwf, hs | ⟨-, hd⟩⟩ := poolDecommit_spec h addr.toNat_lt size.toNat_lt he
    · exact ⟨hwf, .inl hs.1⟩
    · exact ⟨hwf, .inr hd⟩
  | mapMemory addr size prot flags type name validate phys alignment =>
    simp only [exec, map_eq_ok, Prod.exists] at he
    obtain ⟨s1, r, out, he, rfl⟩ := he
    rcases mapMemory_spec h addr.toNat_lt size.toNat_lt ha.2 he with
      hs | ⟨-, hc, va', -, hp, hwf, hr⟩
    · exact ⟨hs.1 ▸ h, .inl hs.1⟩
    · exact ⟨hwf, .inr ⟨hc, va', hp, hr⟩⟩
  | mapFile addr size prot flags fd file offset =>
    simp only [exec, map_eq_ok, Prod.exists] at he
    obtain ⟨s1, r, out, he, rfl⟩ := he
    rcases mapFile_spec h addr.toNat_lt size.toNat_lt he with
      hs | ⟨-, va', prot', -, hp, hwf, hr⟩
    · exact ⟨hs.1 ▸ h, .inl hs.1⟩
    · exact ⟨hwf, .inr ⟨va', prot', hp, hr⟩⟩
  | unmapMemory addr size =>
    simp only [exec, map_eq_ok, Prod.exists] at he
    obtain ⟨s1, r, he, rfl⟩ := he
    obtain ⟨hwf, hs | ⟨-, hu⟩⟩ := unmapMemory_spec h addr.toNat_lt size.toNat_lt he
    · exact ⟨hwf, .inl hs.1⟩
    · exact ⟨hwf, .inr hu⟩
  | protect addr size prot =>
    simp only [exec, map_eq_ok, Prod.exists] at he
    obtain ⟨s1, r, he, rfl⟩ := he
    obtain ⟨hwf, hp⟩ := protect_spec h addr.toNat_lt size.toNat_lt he
    exact ⟨hwf, .inr hp⟩
  | setDirectMemoryType addr size type =>
    simp only [exec, map_eq_ok, Prod.exists] at he
    obtain ⟨s1, r, he, rfl⟩ := he
    obtain ⟨hwf, hc⟩ := setDirectMemoryType_spec h size.toNat_lt he
    exact ⟨hwf, .inr hc⟩
  | nameVirtualRange addr size name =>
    obtain ⟨hwf, hs, hc⟩ := nameVirtualRange_spec h size.toNat_lt he
    have hcore : SameCore s { s with vma_map := s'.vma_map, dmem_map := s.dmem_map } :=
      sameCore_of_recut hc fun x => rfl
    rw [← hs] at hcore
    exact ⟨hwf, .inr ⟨hcore, hc.bytes⟩⟩
  | setupMemoryRegions size mem1 mem2 =>
    obtain ⟨hwf, hu⟩ := setupMemoryRegions_spec h ha.1 ha.2 he
    exact ⟨hwf, .inr hu⟩

variable {guard : MemoryManager → Op → Prop}

theorem ReachableVia.wf (h : ReachableVia cfg guard s) : WF cfg s :=
  Run.invariant h (fun _ hs => hs ▸ wf_new cfg) fun _ _ _ hwf hg he =>
    (Op.exec_spec hwf hg.1 he).1

theorem ReachableVia.invariant {P : MemoryManager → Prop} (h : ReachableVia cfg guard s) (h0 : P (.new cfg))
    (hstep : ∀ s op s', WF cfg s → WF cfg s' → P s → op.Admitted cfg s → guard s op →
      op.Effect cfg s s' → P s') : P s := by
  refine (Run.invariant (P := fun s => WF cfg s ∧ P s) h (fun s hs => hs ▸ ⟨wf_new cfg, h0⟩)
    fun s op s' hP hg he => ?_).2
  obtain ⟨hwf, rfl | heff⟩ := Op.exec_spec hP.1 hg.1 he
  · exact hP
  · exact ⟨hwf, hstep s op s' hP.1 hwf hP.2 hg.1 hg.2 heff⟩

/-- Whether the emulator makes a call can be checked. -/
instance (cfg : Config) (s : MemoryManager) (op : Op) : Decidable (op.Admitted cfg s) :=
  match op with
  | .mapMemory _ _ _ _ _ _ _ _ _ => inferInstanceAs (Decidable (_ ∧ _))
  | .setupMemoryRegions _ _ _ =>
    inferInstanceAs (Decidable ((∀ p ∈ s.dmem_map.entries, p.1 = 0 ∧ p.2.dma_type = .free) ∧ _))
  | .allocate _ _ _ _ _ | .free _ _ _ | .poolExpand _ _ _ _ | .poolCommit _ _ _ _
  | .poolDecommit _ _ | .mapFile _ _ _ _ _ _ _ | .unmapMemory _ _ | .protect _ _ _
  | .setDirectMemoryType _ _ _ | .nameVirtualRange _ _ _ => inferInstanceAs (Decidable True)

/-- The state that a list of calls leads to, if each is one that the emulator makes and returns. -/
def replay (cfg : Config) : List Op → MemoryManager → Option MemoryManager
  | [], s => some s
  | op :: ops, s =>
    if op.Admitted cfg s then
      match op.exec cfg s with
      | .ok s' => replay cfg ops s'
      | .error _ => none
    else none

theorem reachable_of_replay (h : Reachable cfg s) (hr : replay cfg ops s = some s') : Reachable cfg s' := by
  induction ops generalizing s with
  | nil =>
    rw [replay, Option.some.injEq] at hr
    exact hr ▸ h
  | cons op ops ih =>
    simp only [replay] at hr
    split_ifs at hr with ha
    split at hr
    · rename_i s1 he
      exact ih (.step h ⟨ha, trivial⟩ he) hr
    · contradiction

/-- A configuration with one usable region of 64 MB. -/
def Config.sample : Config where
  regions := [(0x100000000, 0x104000000)]
  regions_lt := by decide
  regions_sorted := by decide
  system_managed_base := 0x100000000
  user_base := 0x100000000
  user_size := 0x4000000
  direct_pos := by decide
  flexible_pos := by decide
  backing_lt := by decide

theorem reachable_new (cfg : Config) : Reachable cfg (.new cfg) := .start rfl

/-- The computation returns a result that passes the test. -/
def returns {α : Type} (x : Except Fault α) (test : α → Bool) : Bool :=
  match x with
  | .ok a => test a
  | .error _ => false

theorem exists_of_returns {α : Type} {x : Except Fault α} {t : α → Bool}
    (h : returns x t = true) : ∃ a, x = .ok a ∧ t a = true := by
  cases x with
  | ok a => exact ⟨a, rfl, h⟩
  | error e => contradiction

theorem exists_of_replay (cfg : Config) (ops : List Op) (t : MemoryManager → Bool)
    (h : (replay cfg ops (.new cfg)).any t = true) :
    ∃ s, replay cfg ops (.new cfg) = some s ∧ Reachable cfg s ∧ t s = true := by
  rcases hs : replay cfg ops (.new cfg) with - | s
  · rw [hs] at h
    contradiction
  · rw [hs] at h
    exact ⟨s, rfl, reachable_of_replay (reachable_new cfg) hs, h⟩

/-- In every reachable state the virtual areas are keyed by their base, are not empty, do not overlap,
and together are the usable regions; direct and flexible memory are tiled; and the physical areas of a
backed virtual area tile it. -/
theorem reachable_tiled (h : Reachable cfg s) : (∀ k vma, (k, vma) ∈ s.vma_map → vma.base = k ∧ 0 < vma.size) ∧
      (∀ k vma l next, (k, vma) ∈ s.vma_map → (l, next) ∈ s.vma_map → k < l → k + vma.size ≤ l) ∧
      (∀ v, cfg.Usable v ↔ ∃ k vma, (k, vma) ∈ s.vma_map ∧ InRange k vma.size v) ∧
      Tiles s.dmem_map 0 s.total_direct_size ∧
      Tiles s.fmem_map cfg.direct_size (cfg.direct_size + cfg.flexible_size) ∧
      ∀ k vma, (k, vma) ∈ s.vma_map → vma.type.HasPhysicalBacking →
        vma.phys_areas.Partition physExtent (Span 0 vma.size) := by
  have hwf := h.wf
  exact ⟨fun k vma hk => ⟨hwf.virt.keyed k vma hk, hwf.virt.part.pos k vma hk⟩,
    hwf.virt.part.disjoint, hwf.virt.part.cover, hwf.direct, hwf.flexible,
    fun k vma hk => (hwf.virt.backed k vma hk).part⟩

/-- Direct memory is allocated, mapped, and unmapped in part. -/
def sampleCalls : List Op :=
  [.allocate 0 0x1f0000000 0x40000 0 0,
    .mapMemory 0x100000000 0x40000 3 0x10 .direct "anon" true 0 0,
    .unmapMemory 0x100010000 0x10000]

theorem reachable_tiled_sample : ∃ s, replay .sample sampleCalls (.new .sample) = some s ∧
    (∀ k vma, (k, vma) ∈ s.vma_map → vma.base = k ∧ 0 < vma.size) ∧
      (∀ k vma l next, (k, vma) ∈ s.vma_map → (l, next) ∈ s.vma_map → k < l → k + vma.size ≤ l) ∧
      (∀ v, Config.sample.Usable v ↔ ∃ k vma, (k, vma) ∈ s.vma_map ∧ InRange k vma.size v) ∧
      Tiles s.dmem_map 0 s.total_direct_size ∧ Tiles s.fmem_map Config.sample.direct_size
        (Config.sample.direct_size + Config.sample.flexible_size) ∧
      ∀ k vma, (k, vma) ∈ s.vma_map → vma.type.HasPhysicalBacking →
        vma.phys_areas.Partition physExtent (Span 0 vma.size) := by
  obtain ⟨s, hs, hr, -⟩ := exists_of_replay .sample sampleCalls (fun _ => true) (by decide)
  exact ⟨s, hs, reachable_tiled hr⟩

end ShadPS4.Memory
