import ShadPS4.Memory.UnmapSpec
import ShadPS4.Memory.BackSpec

/-!
# Mapping, byte by byte

What `CreateArea` and the three branches of `MapMemory` do to the bytes of a state.
-/

namespace ShadPS4.Memory

open MemoryManager
open Option (some.injEq)
open OrdMap (mem_insert get?_eq_some_iff mem_tailFrom)

variable {w : VirtualMemoryArea} {alignment : ℕ} {validate : Bool} {r : Orbis} {out : Option ℕ}
variable {cfg : Config} {s s' s₁ : MemoryManager} {va size phys_addr v x : ℕ} {prot : MemoryProt}
  {flags : MemoryMapFlags} {type : VMAType} {name : String} {p : ℕ → Option ℕ}

/-! ## The direct branch -/

/-- The invariant of the loop of the direct branch: the first `done` bytes from `phys_addr` on are
mapped and recorded. -/
structure DirectBacks (m : PhysMap) (hi phys_addr done : ℕ) (dmem_map phys_areas : PhysMap) :
    Prop where
  part : phys_areas.Partition physExtent (Span 0 done)
  bytes : ∀ i < done, phys_areas.byteAt physExtent i =
    (m.byteAt physExtent (phys_addr + i)).map (setDma .mapped)
  map : RetypedOn m dmem_map 0 hi (InRange phys_addr done) (setDma .mapped)

theorem mapDirectFrom_spec (hhi : hi < 2^64) (hrem : rem < 2^64) (h : DirectBacks m hi phys_addr done dmem pa)
    (hm : mapDirectFrom phys_addr fuel dmem pa (phys_addr + done) rem = .ok (dmem', pa')) :
    DirectBacks m hi phys_addr (done + rem) dmem' pa' := by
  induction fuel generalizing dmem pa done rem with
  | zero =>
    simp only [mapDirectFrom] at hm
    split_ifs at hm with hz
    obtain ⟨rfl, rfl⟩ := hm
    rw [hz, Nat.add_zero]
    exact h
  | succ fuel ih =>
    simp only [mapDirectFrom] at hm
    split_ifs at hm with hz
    · simp only [pure_eq_ok, Prod.mk.injEq] at hm
      obtain ⟨rfl, rfl⟩ := hm
      rw [hz, Nat.add_zero]
      exact h
    · simp only [bind_eq_ok, deref_eq_ok, Prod.exists] at hm
      obtain ⟨k, a, hf, m1, j, hc, na, hg, pa1, l, hpa, m2, l', hm2, hm⟩ := hm
      have ht := h.map.tiles
      rw [OrdMap.floor?_eq_some_iff] at hf
      have hkb := ht.keyed k a hf.1
      have hmax : max (phys_addr + done) a.base = phys_addr + done := by
        omega
      rw [hmax] at hc hm
      set n := min (sub64 a.size (phys_addr + done - a.base)) rem with hn
      have hn64 : n < 2^64 := by omega
      obtain ⟨rfl, hnb, hns, -⟩ := retyped_of_carve (d := { na with dma_type := .mapped })
        (f := setDma .mapped) ht hn64 hc hg rfl rfl fun _ => rfl
      obtain ⟨hret, hglue⟩ := retyped_of_carve_merge (f := setDma .mapped) ht hn64 hc hg hm2 rfl rfl
        fun _ => rfl
      have hpos := hret.pos
      have hspan := hret.span ht (x := phys_addr + done + n - 1) ⟨by omega, by omega⟩
      have hnext : add64 (phys_addr + done) n = phys_addr + (done + n) := by
        rw [add64_of_lt (by have := hspan.2; omega)]
        omega
      rw [Nat.add_sub_cancel_left] at hpa
      -- The carved area has the bytes of the range, of which none is recorded yet.
      have hbyte : ∀ i < n, m.byteAt physExtent (phys_addr + (done + i)) = some (physExtent.byte na i) := by
        intro i hi
        rw [← byteAt_of_carve ht hn64 hc hg hi, h.map.outside _ (by unfold InRange; omega)]
        congr 1
        omega
      have hpos' : 0 < ({ na with dma_type := .mapped } : PhysicalMemoryArea).size := by
        simp only
        omega
      obtain ⟨pa2, l2, b2, hok, hmerged, -⟩ := mergeAdjacentPhys_spec (record_part h.part hpos')
        (mem_insert.mpr (.inl rfl))
      rw [hok, Except.ok.injEq, Prod.mk.injEq] at hpa
      obtain ⟨rfl, -⟩ := hpa
      have hpart := hmerged.part
      simp only [hns] at hpart
      rw [hnext] at hm
      have := ih (by omega : rem - n < 2^64)
        (⟨hpart, ?_, ?_⟩ : DirectBacks m hi phys_addr (done + n) m2 pa2) hm
      · rwa [show done + n + (rem - n) = done + rem by omega] at this
      · intro i hi
        rw [hmerged.bytes, record_byteAt h.part hpos']
        split_ifs with h1 h2
        · exact h.bytes i h1
        · rw [show phys_addr + i = phys_addr + (done + (i - done)) by omega, hbyte _ (by omega)]
          rfl
        · simp only at h2
          omega
      · refine (h.map.trans (.of_retyped ht hret hglue) (setDma_setDma _ _)).congr fun x => ?_
        unfold InRange
        omega

theorem createArea_spec (h : WF cfg s) (hva : va < 2^64) (hsize : size < 2^64)
    (hc : s.createArea va size prot flags type name = .ok (s', k)) :
    ∃ s₁ m w, k = va ∧ WF cfg s₁ ∧ Unmapped cfg s s₁ (InRange va size) ∧
      (∀ v, InRange va size v → s₁.HasType .free v) ∧
      carveVMA s₁.vma_map va size = .ok (m, va) ∧ m.get? va = some w ∧ w.base = va ∧ w.size = size ∧
      s' = { s₁ with vma_map := m.insert va { w with
        disallow_merge := anySet (flags &&& MemoryMapFlags.noCoalesce), prot := appendRead prot,
        name, type, phys_areas := .empty } } := by
  simp only [createArea, findVMA, bind_eq_ok, deref_eq_ok, Prod.exists, require_eq_ok, pure_eq_ok,
    Prod.mk.injEq] at hc
  obtain ⟨j, vma, hf, s₁, hclear, j1, vma1, hf1, -, hfree, m, l, hcarve, w, hg, rfl, rfl⟩ := hc
  have hs1 : WF cfg s₁ ∧ (s₁ = s ∨ Unmapped cfg s s₁ (Contig cfg va size)) := by
    split_ifs at hclear
    · obtain ⟨hwf, hun⟩ := clearRange_spec h hva hsize hf hclear
      exact ⟨hwf, .inr hun⟩
    · rw [pure_eq_ok] at hclear
      subst hclear
      exact ⟨h, .inl rfl⟩
  obtain ⟨hwf1, hs1⟩ := hs1
  obtain ⟨rfl, hcarved⟩ := carveVMA_spec hwf1.virt hsize hcarve
  -- The range lies in the free area found.
  have hrange : ∀ v, InRange l size v → cfg.Usable v ∧ s₁.HasType .free v := by
    obtain ⟨k, u, hk, hkl, hend⟩ := hcarved.fits
    have hpos := hcarved.pos
    have hcov := hwf1.virt.part.floor?_of_covers (x := l) ⟨hk, hkl, by simp only [vmaExtent_size]; omega⟩
    rw [hf1, some.injEq, Prod.mk.injEq] at hcov
    obtain ⟨rfl, rfl⟩ := hcov
    intro v hv
    have hin : InRange j1 vma1.size v := ⟨by have := hv.1; omega, by have := hv.2; omega⟩
    exact ⟨hwf1.usable_of_mem hk hin, _, hwf1.vbyte_of_mem hk hin, hfree⟩
  obtain ⟨w', hw', hbase, hsz⟩ := hcarved.entry
  obtain rfl := OrdMap.mem_unique (get?_eq_some_iff.mp hg) hw'
  refine ⟨s₁, m, w, rfl, hwf1, ?_, fun v hv => (hrange v hv).2, hcarve, hg, hbase, hsz, rfl⟩
  rcases hs1 with rfl | hun
  · refine .refl h fun v hv hun => ?_
    obtain ⟨b, hb, hnf, -⟩ := hun
    exact hnf (HasType.unique ⟨b, hb, rfl⟩ (hrange v hv).2)
  · exact hun.congr (contig_iff_of_usable fun v hv => (hrange v hv).1)

/-! ## The effect of a mapping -/

/-- The free range `[va, va + size)` takes the type and protection given, and the physical addresses
`p`. -/
structure MappedAs (cfg : Config) (s s' : MemoryManager) (va size : ℕ) (type : VMAType)
    (prot : MemoryProt) (p : ℕ → Option ℕ) : Prop where
  pos : 0 < size
  usable : ∀ v, InRange va size v → cfg.Usable v
  free : ∀ v, InRange va size v → s.HasType .free v
  vbyte : ∀ v, s'.vbyte v =
    if InRange va size v then some ⟨v, type, prot, p (v - va)⟩ else s.vbyte v
  phys_inside : ∀ v, type.HasPhysicalBacking → InRange va size v →
    hostPhys s'.impl.calls v = p (v - va)
  phys_outside : ∀ v, ¬ InRange va size v → hostPhys s'.impl.calls v = hostPhys s.impl.calls v
  total_direct : s'.total_direct_size = s.total_direct_size
  total_flexible : s'.total_flexible_size = s.total_flexible_size
  budget : s'.pool_budget = s.pool_budget

/-- What the flexible branch does to physical memory. -/
structure FlexibleBacked (cfg : Config) (s s' : MemoryManager) (size : ℕ) (p : ℕ → Option ℕ) :
    Prop where
  fmem : RetypedOn s.fmem_map s'.fmem_map cfg.direct_size (cfg.direct_size + cfg.flexible_size)
    (fun x => ∃ i < size, p i = some x) (setDma .flexible)
  free : ∀ i < size, ∃ x, p i = some x ∧ s.fma x = some .free
  inj : ∀ i < size, ∀ j < size, p i = p j → i = j
  dmem : s'.dmem_map = s.dmem_map
  usage : s'.flexible_usage = add64 s.flexible_usage size

/-- What the direct branch does to physical memory. -/
structure DirectBacked (s s' : MemoryManager) (size phys_addr : ℕ) (p : ℕ → Option ℕ) :
    Prop where
  paddr : ∀ i < size, p i = some (phys_addr + i)
  dmem : RetypedOn s.dmem_map s'.dmem_map 0 s.total_direct_size (InRange phys_addr size)
    (setDma .mapped)
  fmem : s'.fmem_map = s.fmem_map
  usage : s'.flexible_usage = s.flexible_usage

/-- What a mapping without physical memory leaves. -/
structure NotBacked (s s' : MemoryManager) (p : ℕ → Option ℕ) : Prop where
  paddr : ∀ i, p i = none
  dmem : s'.dmem_map = s.dmem_map
  fmem : s'.fmem_map = s.fmem_map
  usage : s'.flexible_usage = s.flexible_usage

/-- What a mapping does to physical memory: its branch, by its type. -/
def Backed (cfg : Config) (s s' : MemoryManager) (size : ℕ) (type : VMAType) (phys_addr : ℕ)
    (p : ℕ → Option ℕ) : Prop :=
  match type with
  | .flexible => FlexibleBacked cfg s s' size p
  | .direct => DirectBacked s s' size phys_addr p
  | _ => NotBacked s s' p

theorem Backed.congr (h : Backed cfg s s' size type phys_addr p)
    (hd : t.dmem_map = s.dmem_map) (hf : t.fmem_map = s.fmem_map)
    (hu : t.flexible_usage = s.flexible_usage) (ht : t.total_direct_size = s.total_direct_size)
    (hd' : t'.dmem_map = s'.dmem_map) (hf' : t'.fmem_map = s'.fmem_map)
    (hu' : t'.flexible_usage = s'.flexible_usage) : Backed cfg t t' size type phys_addr p := by
  have hnb : NotBacked s s' p → NotBacked t t' p := fun h =>
    ⟨h.paddr, by rw [hd, hd', h.dmem], by rw [hf, hf', h.fmem], by rw [hu, hu', h.usage]⟩
  cases type
  case flexible =>
    obtain ⟨h1, h2, h3, h4, h5⟩ := h
    refine ⟨?_, ?_, h3, by rw [hd, hd', h4], by rw [hu, hu', h5]⟩
    · rw [hf, hf']
      exact h1
    · simp only [fma, fbyte, hf]
      exact h2
  case direct =>
    obtain ⟨h1, h2, h3, h4⟩ := h
    refine ⟨h1, ?_, by rw [hf, hf', h3], by rw [hu, hu', h4]⟩
    rw [hd, hd', ht]
    exact h2
  all_goals exact hnb h

theorem Backed.wf (h : WF cfg s) (hb : Backed cfg s s' size type phys_addr p) :
    Tiles s'.dmem_map 0 s.total_direct_size ∧
      Tiles s'.fmem_map cfg.direct_size (cfg.direct_size + cfg.flexible_size) ∧ s'.flexible_usage < 2^64 ∧
      ∀ i < size, ∀ x, p i = some x → x < cfg.direct_size + cfg.flexible_size := by
  have hnb : NotBacked s s' p → _ := fun hn => (⟨hn.dmem ▸ h.direct, hn.fmem ▸ h.flexible,
    hn.usage ▸ h.usage_lt, fun i _ x hx => absurd hx (by simp [hn.paddr])⟩ :
      Tiles s'.dmem_map 0 s.total_direct_size ∧
      Tiles s'.fmem_map cfg.direct_size (cfg.direct_size + cfg.flexible_size) ∧
      s'.flexible_usage < 2^64 ∧
      ∀ i < size, ∀ x, p i = some x → x < cfg.direct_size + cfg.flexible_size)
  cases type
  case flexible =>
    refine ⟨hb.dmem ▸ h.direct, hb.fmem.tiles, hb.usage ▸ add64_lt _ _, fun i hi x hx => ?_⟩
    exact (hb.fmem.span x ⟨i, hi, hx⟩).2
  case direct =>
    refine ⟨hb.dmem.tiles, hb.fmem ▸ h.flexible, hb.usage ▸ h.usage_lt, fun i hi x hx => ?_⟩
    rw [hb.paddr i hi, some.injEq] at hx
    have := (hb.dmem.span (phys_addr + i) ⟨by omega, by omega⟩).2
    have := h.direct_le
    omega
  all_goals exact hnb hb

theorem retypes_flexible : Retypes .free (fun area => { area with dma_type := .flexible })
    (setDma .flexible) where
  base _ := rfl
  size _ := rfl
  byte _ _ := rfl
  addr _ := rfl
  idem _ := rfl
  ne _ := by simp

theorem mapFlexible_spec (hf : Tiles s.fmem_map cfg.direct_size (cfg.direct_size + cfg.flexible_size))
    (hsize : size < 2^64) (hg : s.vma_map.get? va = some w) (hm : s.mapFlexible va size is_exec = .ok s') :
    ∃ pa calls, pa.Partition physExtent (Span 0 size) ∧ s' = { s with
        fmem_map := s'.fmem_map, flexible_usage := s'.flexible_usage
        vma_map := s.vma_map.insert va { w with phys_areas := pa }
        impl := { s.impl with calls } } ∧
      FlexibleBacked cfg s s' size (physAddrs pa) ∧
      ∀ v, hostPhys calls v =
        if InRange va size v then physAddrs pa (v - va) else hostPhys s.impl.calls v := by
  simp only [mapFlexible, bind_eq_ok, require_eq_ok, deref_eq_ok, pure_eq_ok] at hm
  obtain ⟨b, hb, -, hrem, w', hg', rfl⟩ := hm
  rw [hg, some.injEq] at hg'
  subst hg'
  have hbacks := backRange_spec retypes_flexible hf (cfg.sizes_lt.trans (by decide)) hsize hb
  obtain ⟨hpart, hmap, hfree, hinj, hphys⟩ := hbacks.whole hrem
  exact ⟨b.phys_areas, b.calls, hpart, rfl, ⟨hmap, hfree, hinj, rfl, by simp [hrem]⟩, hphys⟩

theorem mapDirect_spec (hd : Tiles s.dmem_map 0 s.total_direct_size)
    (hlt : s.total_direct_size < 2^64) (hsize : size < 2^64) (hg : s.vma_map.get? va = some w)
    (hm : s.mapDirect va size phys_addr = .ok s') : ∃ pa, pa.Partition physExtent (Span 0 size) ∧ s' = { s with
        dmem_map := s'.dmem_map, vma_map := s.vma_map.insert va { w with phys_areas := pa } } ∧
      DirectBacked s s' size phys_addr (physAddrs pa) := by
  simp only [mapDirect, bind_eq_ok, deref_eq_ok, pure_eq_ok, Prod.exists] at hm
  obtain ⟨dmem, pa, hloop, w', hg', rfl⟩ := hm
  rw [hg, some.injEq] at hg'
  subst hg'
  have hstart : DirectBacks s.dmem_map s.total_direct_size phys_addr 0 s.dmem_map .empty :=
    ⟨empty_part, fun i hi => absurd hi (Nat.not_lt_zero i),
      .refl hd fun x hx => absurd hx.2 (by have := hx.1; omega)⟩
  have hback := mapDirectFrom_spec hlt hsize hstart hloop
  rw [Nat.zero_add] at hback
  refine ⟨pa, hback.part, rfl, ⟨fun i hi => ?_, hback.map, rfl, rfl⟩⟩
  obtain ⟨c, hc⟩ := Option.isSome_iff_exists.mp
    (hd.part.byteAt_isSome_iff.mpr (hback.map.span (phys_addr + i) ⟨by omega, by omega⟩))
  simp [physAddrs, hback.bytes i hi, hc, setDma, hd.addr_eq hc]

theorem mapBacking_spec (hm : s.mapBacking va size is_exec type phys_addr = .ok s') (hpool : type ≠ .pooled)
    (hsize : size < 2^64) (hg : s.vma_map.get? va = some w) (hw : w.phys_areas = .empty)
    (hd : Tiles s.dmem_map 0 s.total_direct_size) (hlt : s.total_direct_size < 2^64)
    (hf : Tiles s.fmem_map cfg.direct_size (cfg.direct_size + cfg.flexible_size)) : ∃ pa calls, s' = { s with
        dmem_map := s'.dmem_map, fmem_map := s'.fmem_map, flexible_usage := s'.flexible_usage
        vma_map := s.vma_map.insert va { w with phys_areas := pa }
        impl := { s.impl with calls } } ∧
      (type.HasPhysicalBacking → pa.Partition physExtent (Span 0 size)) ∧
      (¬ type.HasPhysicalBacking → pa = .empty) ∧
      Backed cfg s s' size type phys_addr (physAddrs pa) ∧
      (type ≠ .flexible → calls = s.impl.calls) ∧
      (type = .flexible → ∀ v, hostPhys calls v =
        if InRange va size v then physAddrs pa (v - va) else hostPhys s.impl.calls v) := by
  unfold mapBacking at hm
  by_cases hflex : type = .flexible
  · subst hflex
    obtain ⟨pa, calls, hpart, hs, hback, hphys⟩ := mapFlexible_spec hf hsize hg hm
    refine ⟨pa, calls, ?_, fun _ => hpart, fun hn => absurd ?_ hn, hback,
      fun hn => absurd rfl hn, fun _ => hphys⟩
    · rw [hs]
    · exact .inr (.inl rfl)
  · rw [if_neg hflex] at hm
    by_cases hdir : type = .direct
    · subst hdir
      obtain ⟨pa, hpart, hs, hback⟩ := mapDirect_spec hd hlt hsize hg hm
      refine ⟨pa, s.impl.calls, ?_, fun _ => hpart, fun hn => absurd ?_ hn, hback,
        fun _ => rfl, fun hn => absurd hn hflex⟩
      · rw [hs]
      · exact .inl rfl
    · rw [if_neg hdir, pure_eq_ok] at hm
      subst hm
      have hn : ¬ type.HasPhysicalBacking := by
        simp [VMAType.HasPhysicalBacking, hflex, hdir, hpool]
      have hsame : s.vma_map.insert va { w with phys_areas := .empty } = s.vma_map := by
        rw [← hw]
        exact OrdMap.insert_of_mem (get?_eq_some_iff.mp hg)
      refine ⟨.empty, s.impl.calls, by rw [hsame], fun hp => absurd hp hn, fun _ => rfl, ?_,
        fun _ => rfl, fun ht => absurd ht hflex⟩
      have hnb : NotBacked s s (physAddrs .empty) := ⟨fun i => rfl, rfl, rfl, rfl⟩
      cases type <;> first | exact hnb | contradiction

theorem mergeMapped_spec
    (hr : VReplaced m s.vma_map R va size next) (hk : (va, next) ∈ s.vma_map) (hm : s.mergeMapped va type = .ok s') :
    ∃ m', s' = { s with vma_map := m' } ∧ VReplaced m m' R va size next := by
  unfold mergeMapped at hm
  split_ifs at hm
  · simp only [bind_eq_ok, pure_eq_ok, Prod.exists] at hm
    obtain ⟨m', l, hm, rfl⟩ := hm
    exact ⟨m', rfl, hr.merge hk hm⟩
  · rw [pure_eq_ok] at hm
    exact ⟨s.vma_map, hm.symm, hr⟩

theorem mappedAs_of_replaced (h : WF cfg s) (hfree : ∀ v, InRange va size v → s.HasType .free v)
    (hrep : VReplaced s.vma_map s'.vma_map cfg.Usable va size u) (hbase : u.base = va)
    (hb : Backed cfg s s' size u.type phys_addr (physAddrs u.phys_areas))
    (hin : ∀ v, u.type.HasPhysicalBacking → InRange va size v →
      hostPhys s'.impl.calls v = physAddrs u.phys_areas (v - va))
    (hout : ∀ v, ¬ InRange va size v → hostPhys s'.impl.calls v = hostPhys s.impl.calls v)
    (htd : s'.total_direct_size = s.total_direct_size)
    (htf : s'.total_flexible_size = s.total_flexible_size) (hbud : s'.pool_budget = s.pool_budget) :
    WF cfg s' ∧ MappedAs cfg s s' va size u.type u.prot (physAddrs u.phys_areas) := by
  obtain ⟨hdt, hft, hul, hplt⟩ := hb.wf h
  have hbyte : ∀ v, s'.vbyte v = if InRange va size v then
      some ⟨v, u.type, u.prot, physAddrs u.phys_areas (v - va)⟩ else s.vbyte v := by
    intro v
    rw [vbyte, hrep.bytes]
    by_cases hv : InRange va size v
    · rw [if_pos hv, if_pos hv]
      have := hv.1
      simp only [vmaExtent_byte, hbase, physAddrs]
      congr 2
      omega
    · rw [if_neg hv, if_neg hv]
      rfl
  refine ⟨⟨hrep.tiles, htd ▸ hdt, hft, htd ▸ h.direct_le, ?_, hul, hbud ▸ h.budget_lt⟩,
    ⟨hrep.pos, fun v hv => hrep.mem h.virt hv, hfree, hbyte, hin, hout, htd, htf, hbud⟩⟩
  intro v b x hb hx
  rw [hbyte] at hb
  split_ifs at hb with hv
  · rw [some.injEq] at hb
    subst hb
    exact hplt _ (by have := hv.1; have := hv.2; omega) x hx
  · exact h.paddr_lt v b x hb hx

theorem mapAt_spec (h : WF cfg s) (hva : va < 2^64) (hsize : size < 2^64) (htype : type ≠ .pooled)
    (hm : s.mapAt va size prot flags type name phys_addr = .ok (s', k)) :
    k = va ∧ WF cfg s' ∧ ∃ s₁ p, WF cfg s₁ ∧ Unmapped cfg s s₁ (InRange va size) ∧
      MappedAs cfg s₁ s' va size type (appendRead prot) p ∧ Backed cfg s₁ s' size type phys_addr p := by
  simp only [mapAt, bind_eq_ok, Prod.exists] at hm
  obtain ⟨s0, j, hcreate, s2, hback, s3, hmerge, hm⟩ := hm
  obtain ⟨s₁, m, w, rfl, hwf1, hun, hfree, hcarve, hg, hwb, hws, rfl⟩ :=
    createArea_spec h hva hsize hcreate
  have hlt : s₁.total_direct_size < 2^64 := by
    have := hwf1.direct_le
    have := cfg.sizes_lt
    omega
  obtain ⟨pa, calls, hs2, hpart, hempty, hbacked, hcalls, hflex⟩ :=
    mapBacking_spec hback htype hsize
      (get?_eq_some_iff.mpr (mem_insert.mpr (.inl rfl))) rfl hwf1.direct hlt
      hwf1.flexible
  rw [OrdMap.insert_insert] at hs2
  obtain ⟨-, -, -, hrep⟩ := vreplaced_of_carve (u := { w with
      disallow_merge := anySet (flags &&& MemoryMapFlags.noCoalesce), prot := appendRead prot,
      name, type, phys_areas := pa }) hwf1.virt hsize hcarve hg rfl rfl
    ⟨fun ht => hws ▸ hpart ht, hempty⟩
  rw [hs2] at hmerge
  obtain ⟨m3, rfl, hrep3⟩ := mergeMapped_spec hrep (mem_insert.mpr (.inl rfl)) hmerge
  -- The fields of the new state.
  have hfields : k = j ∧ s'.vma_map = m3 ∧ s'.dmem_map = s2.dmem_map ∧ s'.fmem_map = s2.fmem_map ∧
      s'.flexible_usage = s2.flexible_usage ∧ s'.total_direct_size = s₁.total_direct_size ∧
      s'.total_flexible_size = s₁.total_flexible_size ∧ s'.pool_budget = s₁.pool_budget ∧
      s'.impl.calls = if type ≠ .reserved ∧ type ≠ .poolReserved ∧ type ≠ .flexible then
        .map j size phys_addr (anySet (prot &&& MemoryProt.cpuExec)) :: calls else calls := by
    by_cases hhost : type ≠ .reserved ∧ type ≠ .poolReserved ∧ type ≠ .flexible
    · rw [if_pos hhost, pure_eq_ok, Prod.mk.injEq] at hm
      obtain ⟨rfl, rfl⟩ := hm
      exact ⟨rfl, rfl, rfl, rfl, rfl, rfl, rfl, rfl, (if_pos hhost).symm⟩
    · rw [if_neg hhost, pure_eq_ok, Prod.mk.injEq] at hm
      obtain ⟨rfl, rfl⟩ := hm
      exact ⟨rfl, rfl, rfl, rfl, rfl, rfl, rfl, rfl, (if_neg hhost).symm⟩
  obtain ⟨rfl, hvma, hdm, hfm, hus, htd, htf, hbud, hcall⟩ := hfields
  have hb : Backed cfg s₁ s' size type phys_addr (physAddrs pa) :=
    hbacked.congr rfl rfl rfl rfl hdm hfm hus
  rw [← hvma] at hrep3
  have hin : ∀ v, type.HasPhysicalBacking → InRange k size v → hostPhys s'.impl.calls v = physAddrs pa (v - k) := by
    intro v hp hv
    rw [hcall]
    rcases hp with rfl | rfl | rfl
    · -- A direct mapping is one call, to the physical range.
      have hi : v - k < size := by
        have := hv.1
        have := hv.2
        omega
      have hpa := DirectBacked.paddr hb _ hi
      have := (hb.wf hwf1).2.2.2 _ hi _ hpa
      have := cfg.sizes_lt
      have hne : phys_addr ≠ 2^64 - 1 := by omega
      rw [if_pos (by decide), hostPhys, if_pos hv, hpa, if_neg hne]
    · rw [if_neg (by decide), hflex rfl, if_pos hv]
    · exact absurd rfl htype
  have hout : ∀ v, ¬ InRange k size v → hostPhys s'.impl.calls v = hostPhys s₁.impl.calls v := by
    intro v hv
    rw [hcall]
    by_cases ht : type = .flexible
    · rw [if_neg (by simp [ht]), hflex ht, if_neg hv]
    · rw [hcalls ht]
      split_ifs
      · rw [hostPhys, if_neg hv]
      · rfl
  obtain ⟨hwf, hmap⟩ := mappedAs_of_replaced hwf1 hfree hrep3 hwb hb hin hout htd htf hbud
  exact ⟨rfl, hwf, s₁, _, hwf1, hun, hmap, hb⟩

/-! ## The checks of a mapping -/

theorem WF.lt_of_isValidMapping (h : WF cfg s) (hv : s.isValidMapping va size = .ok true) : va < 2^63 := by
  simp only [isValidMapping, bind_eq_ok, deref_eq_ok, Prod.exists] at hv
  obtain ⟨k, last, hl, l, first, -, hv⟩ := hv
  split_ifs at hv with hr
  · simp [pure_eq_ok] at hv
  all_goals
    have := h.end_lt (OrdMap.last?_eq_some_iff.mp hl).1
    omega

theorem searchFreeFrom_lt (hl : ∀ e ∈ l, e.2.base < 2^64)
    (hs : searchFreeFrom size alignment max_addr l = some v) : v < 2^64 := by
  induction l with
  | nil => simp [searchFreeFrom] at hs
  | cons e rest ih =>
    have hrest := ih fun e he => hl e (List.mem_cons_of_mem _ he)
    have hbase := hl e List.mem_cons_self
    simp only [searchFreeFrom] at hs
    split_ifs at hs
    · exact hrest hs
    · exact hrest hs
    · rw [some.injEq] at hs
      exact hs ▸ alignUp_lt hbase
    · exact hrest hs

theorem searchFree_lt (h : WF cfg s) (hs : s.searchFree va size alignment = .ok (some v)) : v < 2^64 := by
  simp only [searchFree, bind_eq_ok] at hs
  obtain ⟨valid, hv, hs⟩ := hs
  cases valid with
  | false => simp [pure_eq_ok] at hs
  | true =>
    have hlt := h.lt_of_isValidMapping hv
    rw [if_pos rfl] at hs
    split_ifs at hs
    simp only [bind_eq_ok, Prod.exists] at hs
    obtain ⟨it, vma, hf, hs⟩ := hs
    split_ifs at hs
    · rw [pure_eq_ok, some.injEq] at hs
      exact hs ▸ alignUp_lt (by omega)
    · rw [pure_eq_ok] at hs
      refine searchFreeFrom_lt (fun e he => ?_) hs
      have hmem := (mem_tailFrom.mp he).1
      have := h.end_lt hmem
      have := h.virt.keyed _ _ hmem
      omega

theorem placeMapping_lt (h : WF cfg s) (hva : va < 2^64)
    (hp : s.placeMapping va size flags alignment = .ok (some v)) : v < 2^64 := by
  unfold placeMapping at hp
  by_cases hf : anySet (flags &&& MemoryMapFlags.fixed) = true
  · have hsame : v = va := by
      rw [if_pos hf] at hp
      by_cases hn : anySet (flags &&& MemoryMapFlags.noOverwrite) = true
      · simp only [if_pos hn, bind_eq_ok] at hp
        obtain ⟨valid, -, hp⟩ := hp
        cases valid with
        | false => simp [pure_eq_ok] at hp
        | true =>
          simp only [if_true, bind_eq_ok, Prod.exists] at hp
          obtain ⟨it, vma, -, hp⟩ := hp
          split_ifs at hp
          · simp [pure_eq_ok] at hp
          · rw [pure_eq_ok, some.injEq] at hp
            exact hp.symm
      · rw [if_neg hn, pure_eq_ok, some.injEq] at hp
        exact hp.symm
    exact hsame ▸ hva
  · rw [if_neg hf] at hp
    exact searchFree_lt h hp

theorem validateDmem_spec (hl : l.Pairwise fun e f => e.2.base < f.2.base)
    (hv : validateDmem validate phys_end l = none) (e : ℕ × PhysicalMemoryArea) (he : e ∈ l)
    (hbase : e.2.base < phys_end) : (e.2.dma_type = .allocated ∨ e.2.dma_type = .mapped) ∧
      (validate = true → e.2.dma_type = .allocated) := by
  induction l with
  | nil => simp at he
  | cons f rest ih =>
    obtain ⟨hf, hrest⟩ := List.pairwise_cons.mp hl
    simp only [validateDmem] at hv
    have hfb : f.2.base < phys_end := by
      rcases List.mem_cons.mp he with rfl | he
      · exact hbase
      · exact (hf e he).trans hbase
    rw [if_neg (Nat.not_le.mpr hfb)] at hv
    split_ifs at hv with ht hm
    rcases List.mem_cons.mp he with rfl | he
    · refine ⟨?_, fun hval => ?_⟩
      · by_contra hn
        exact ht (not_or.mp hn)
      · by_contra hn
        exact hm ⟨hval, not_not.mp fun h => ht ⟨hn, h⟩⟩
    · exact ih hrest hv he

theorem checkPhysical_spec (h : WF cfg s) (hne : phys_addr ≠ minusOne)
    (hspan : ∀ x, InRange phys_addr size x → x < s.total_direct_size)
    (hc : s.checkPhysical size type validate phys_addr = .ok none) (hx : InRange phys_addr size x) :
    (s.dma x = some .allocated ∨ s.dma x = some .mapped) ∧ (validate = true → s.dma x = some .allocated) := by
  unfold checkPhysical at hc
  split_ifs at hc
  · simp [pure_eq_ok] at hc
  · simp [pure_eq_ok] at hc
  · simp only [findDmemArea, bind_eq_ok, deref_eq_ok, pure_eq_ok, Prod.exists] at hc
    obtain ⟨k, a, hf, hc⟩ := hc
    obtain ⟨hxl, hxr⟩ := hx
    have hend : add64 phys_addr size = phys_addr + size := by
      have := hspan (phys_addr + size - 1) ⟨by omega, by omega⟩
      have := h.direct_le
      have := cfg.sizes_lt
      exact add64_of_lt (by omega)
    -- The area of the byte is one of those that the walk visits.
    obtain ⟨l, b, hcov⟩ := (h.direct.part.cover x).mp ⟨Nat.zero_le x, hspan x ⟨hxl, hxr⟩⟩
    obtain ⟨hl, hlx, hxl'⟩ := hcov
    have hkl : k ≤ l := by
      rcases Nat.lt_or_ge phys_addr l with hlt | hge
      · have := (OrdMap.floor?_eq_some_iff.mp hf).2.1
        omega
      · have := h.direct.part.floor?_of_covers (x := phys_addr) ⟨hl, hge, by omega⟩
        rw [hf, some.injEq, Prod.mk.injEq] at this
        exact this.1.le
    have hsorted : (s.dmem_map.tailFrom k).Pairwise fun e f => e.2.base < f.2.base := by
      refine OrdMap.tailFrom_sorted.imp_of_mem fun {e f} he hf hlt => ?_
      rw [h.direct.keyed _ _ (mem_tailFrom.mp he).1, h.direct.keyed _ _ (mem_tailFrom.mp hf).1]
      exact hlt
    have hspec := validateDmem_spec hsorted hc (l, b) (mem_tailFrom.mpr ⟨hl, hkl⟩)
      (by have := h.direct.keyed l b hl; simp only; omega)
    have hdma : s.dma x = some b.dma_type := by
      rw [dma, dbyte, h.direct.part.byteAt_of_covers ⟨hl, hlx, hxl'⟩]
      rfl
    simpa only [hdma, some.injEq] using hspec

theorem validateDmem_ne_ok : validateDmem validate phys_end l ≠ some .ok := by
  induction l with
  | nil => simp [validateDmem]
  | cons e rest ih =>
    simp only [validateDmem]
    split_ifs <;> first | exact ih | simp

theorem checkPhysical_ne_ok : s.checkPhysical size type validate phys_addr ≠ .ok (some .ok) := by
  unfold checkPhysical
  split_ifs
  · simp [pure_eq_ok]
  · simp [pure_eq_ok]
  · simp [pure_eq_ok]
  · simp only [ne_eq, bind_eq_ok, pure_eq_ok, not_exists, not_and]
    exact fun _ _ => validateDmem_ne_ok

/-- The effect of a mapping at `va`: the range is unmapped, if it has to be, and then mapped. -/
def Remapped (cfg : Config) (s s' : MemoryManager) (va size : ℕ) (type : VMAType)
    (prot : MemoryProt) (phys_addr : ℕ) : Prop :=
  ∃ s₁ p, WF cfg s₁ ∧ Unmapped cfg s s₁ (InRange va size) ∧
    MappedAs cfg s₁ s' va size type prot p ∧ Backed cfg s₁ s' size type phys_addr p

theorem mapMemory_cases (hm : s.mapMemory va size prot flags type name validate phys_addr alignment =
      .ok (s', r, out)) : s' = s ∧ r ≠ .ok ∨ r = .ok ∧ s.checkPhysical size type validate phys_addr = .ok none ∧
        ∃ va' k, s.placeMapping va size flags alignment = .ok (some va') ∧ out = some k ∧
          s.mapAt va' size prot flags type name phys_addr = .ok (s', k) := by
  simp only [mapMemory, bind_eq_ok] at hm
  obtain ⟨check, hcheck, hm⟩ := hm
  cases check with
  | some e =>
    obtain ⟨rfl, rfl, -⟩ := hm
    refine .inl ⟨rfl, ?_⟩
    rintro rfl
    exact checkPhysical_ne_ok hcheck
  | none =>
    simp only [bind_eq_ok] at hm
    obtain ⟨place, hplace, hm⟩ := hm
    cases place with
    | none =>
      obtain ⟨rfl, rfl, -⟩ := hm
      exact .inl ⟨rfl, by decide⟩
    | some va' =>
      simp only [bind_eq_ok, pure_eq_ok, Prod.exists, Prod.mk.injEq] at hm
      obtain ⟨s2, k, hat, rfl, rfl, rfl⟩ := hm
      exact .inr ⟨rfl, hcheck, va', k, hplace, rfl, hat⟩

theorem mapMemory_spec (h : WF cfg s) (hva : va < 2^64) (hsize : size < 2^64) (htype : type ≠ .pooled)
    (hm : s.mapMemory va size prot flags type name validate phys_addr alignment = .ok (s', r, out)) :
    s' = s ∧ r ≠ .ok ∨ r = .ok ∧ s.checkPhysical size type validate phys_addr = .ok none ∧
        ∃ va', out = some va' ∧ s.placeMapping va size flags alignment = .ok (some va') ∧
          WF cfg s' ∧ Remapped cfg s s' va' size type (appendRead prot) phys_addr := by
  rcases mapMemory_cases hm with hs | ⟨rfl, hcheck, va', k, hplace, rfl, hat⟩
  · exact .inl hs
  · obtain ⟨rfl, hwf, hre⟩ := mapAt_spec h (placeMapping_lt h hva hplace) hsize htype hat
    exact .inr ⟨rfl, hcheck, k, rfl, hplace, hwf, hre⟩

theorem hostPhys_fileCalls (hv : ¬ InRange va size v) :
    hostPhys (fileCalls file va size offset prot ++ calls) v = hostPhys calls v := by
  unfold fileCalls
  split
  · simp only [List.cons_append, List.nil_append, hostPhys, if_neg hv]
  · simp only [List.cons_append, List.nil_append, hostPhys, if_neg hv]
  · rfl

theorem mapFile_spec (h : WF cfg s) (hva : va < 2^64) (hsize : size < 2^64)
    (hm : s.mapFile va size prot flags fd file offset = .ok (s', r, out)) :
    s' = s ∧ r ≠ .ok ∨ r = .ok ∧ ∃ va' prot', out = some va' ∧ s.placeMapping va size flags kb16 = .ok (some va') ∧
      WF cfg s' ∧ Remapped cfg s s' va' size .file prot' 0 := by
  unfold mapFile at hm
  by_cases hfile : file = .invalid
  · rw [if_pos hfile, pure_eq_ok, Prod.mk.injEq, Prod.mk.injEq] at hm
    obtain ⟨rfl, rfl, -⟩ := hm
    exact .inl ⟨rfl, by decide⟩
  · simp only [if_neg hfile, bind_eq_ok] at hm
    obtain ⟨-, -, place, hplace, hm⟩ := hm
    cases place with
    | none =>
      obtain ⟨rfl, rfl, -⟩ := hm
      exact .inl ⟨rfl, by decide⟩
    | some va' =>
      simp only [bind_eq_ok, deref_eq_ok, pure_eq_ok, Prod.exists, Prod.mk.injEq] at hm
      obtain ⟨s2, k, hcreate, u, hu, hs', rfl, rfl⟩ := hm
      obtain ⟨s₁, m, w, rfl, hwf1, hun, hfree, hcarve, hg, hwb, hws, rfl⟩ :=
        createArea_spec h (placeMapping_lt h hva hplace) hsize hcreate
      obtain rfl := OrdMap.mem_unique (get?_eq_some_iff.mp hu) (mem_insert.mpr (.inl rfl))
      simp only [OrdMap.insert_insert] at hs'
      obtain ⟨-, -, -, hrep⟩ := vreplaced_of_carve (u := { w with
          disallow_merge := anySet (flags &&& MemoryMapFlags.noCoalesce)
          prot := appendRead (fileProt file prot &&& ~~~MemoryProt.cpuExec)
          name := "anon", type := .file, phys_areas := .empty, fd }) hwf1.virt hsize hcarve hg rfl rfl
        (backed_of_empty (by simp [VMAType.HasPhysicalBacking]) rfl)
      have hvma := congrArg MemoryManager.vma_map hs'
      simp only at hvma
      rw [hvma] at hrep
      have hnb : NotBacked s₁ s' (physAddrs .empty) := by
        subst hs'
        exact ⟨fun i => rfl, rfl, rfl, rfl⟩
      have hb : Backed cfg s₁ s' size .file 0 (physAddrs .empty) := hnb
      obtain ⟨hwf, hmap⟩ := mappedAs_of_replaced hwf1 hfree hrep hwb hb
        (fun v hp => absurd hp (by simp [VMAType.HasPhysicalBacking]))
        (fun v hv => by subst hs'; exact hostPhys_fileCalls hv) (by subst hs'; rfl)
        (by subst hs'; rfl) (by subst hs'; rfl)
      exact .inr ⟨rfl, k, _, rfl, hplace, hwf, s₁, _, hwf1, hun, hmap, hnb⟩

end ShadPS4.Memory
