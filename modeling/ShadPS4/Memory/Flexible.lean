import ShadPS4.Memory.Faults

/-!
# Flexible memory

The count of flexible memory in use, the marks of its areas, and the flexible mappings agree as long as
`SetupMemoryRegions` does not raise the size of flexible memory over the one that the constructor gave its area
map, and as long as the pool is not committed or decommitted over flexible memory.
-/

namespace ShadPS4.Memory

open MemoryManager

variable {cfg : Config} {s s' : MemoryManager} {va size v x : ℕ}

/-- Flexible memory is accounted for: its marks, the mappings, and the count agree. -/
structure FlexibleExact (cfg : Config) (s : MemoryManager) : Prop where
  marked : ∀ x, s.fma x = some .flexible ↔ ∃ v, s.Maps .flexible v x
  kinds : ∀ x d, s.fma x = some d → d = .free ∨ d = .flexible
  inj : ∀ v v' x, s.Maps .flexible v x → s.Maps .flexible v' x → v = v'
  usage : s.flexible_usage = {v | s.HasType .flexible v}.ncard
  total : s.total_flexible_size ≤ cfg.flexible_size

/-- The size that `SetupMemoryRegions` gives flexible memory is at most the constructor's, and the pool
is neither committed nor decommitted over flexible memory. -/
def FlexibleKept (cfg : Config) (s : MemoryManager) : Op → Prop
  | .setupMemoryRegions flexible_size _ _ =>
    setupFlexibleSize cfg flexible_size.toNat ≤ cfg.flexible_size
  | .poolCommit va size _ _ => s.CommitFits va.toNat size.toNat → size.toNat < s.pool_budget →
    ∀ v, InRange va.toNat size.toNat v → ¬ s.HasType .flexible v
  | .poolDecommit va size => s.DecommitAccepts va.toNat size.toNat →
    ∀ v, InRange va.toNat size.toNat v → ¬ s.HasType .flexible v
  | _ => True

namespace FlexibleExact

theorem congr (h : FlexibleExact cfg s) (hm : ∀ v x, s'.Maps .flexible v x ↔ s.Maps .flexible v x)
    (ht : ∀ v, s'.HasType .flexible v ↔ s.HasType .flexible v) (hf : s'.fmem_map = s.fmem_map)
    (hu : s'.flexible_usage = s.flexible_usage)
    (htotal : s'.total_flexible_size ≤ cfg.flexible_size) : FlexibleExact cfg s' where
  marked x := by simp only [fma_congr hf, hm, h.marked]
  kinds x d := by
    rw [fma_congr hf]
    exact h.kinds x d
  inj v v' x := by
    rw [hm, hm]
    exact h.inj v v' x
  usage := by simp only [hu, ht, h.usage]
  total := htotal

theorem unmapped (hwf : WF cfg s) (h : FlexibleExact cfg s) (hu : Unmapped cfg s s' S) : FlexibleExact cfg s' := by
  have hmaps : ∀ v x, s'.Maps .flexible v x ↔ s.Maps .flexible v x ∧ ¬ S v := fun v x =>
    hu.maps_iff (by decide) (by decide)
  refine ⟨fun x => ?_, fun x d hd => ?_, fun v v' x hv hv' => ?_, ?_, ?_⟩
  · simp only [hmaps]
    by_cases hX : ∃ v, S v ∧ s.Maps .flexible v x
    · -- The byte's one mapping goes, and it is free.
      rw [fma_inside hwf hu.flexible (d := .free) (fun _ => rfl) hX]
      obtain ⟨v, hv, hm⟩ := hX
      refine iff_of_false (by decide) ?_
      rintro ⟨v', hm', hv'⟩
      exact hv' (h.inj v v' x hm hm' ▸ hv)
    · rw [fma_outside hu.flexible hX, h.marked]
      push Not at hX
      exact ⟨fun ⟨v, hm⟩ => ⟨v, hm, fun hv => hX v hv hm⟩, fun ⟨v, hm, _⟩ => ⟨v, hm⟩⟩
  · by_cases hX : ∃ v, S v ∧ s.Maps .flexible v x
    · rw [fma_inside hwf hu.flexible (d := .free) (fun _ => rfl) hX, Option.some.injEq] at hd
      exact .inl hd.symm
    · rw [fma_outside hu.flexible hX] at hd
      exact h.kinds x d hd
  · exact h.inj v v' x ((hmaps v x).mp hv).1 ((hmaps v' x).mp hv').1
  · have hset : {v | s'.HasType .flexible v} =
        {v | s.HasType .flexible v} \ {v | S v ∧ s.HasType .flexible v} := by
      ext v
      simp only [Set.mem_ofPred_eq, Set.mem_sdiff, hu.hasType_iff (t := .flexible) (by decide) (by decide)]
      tauto
    have hsub : {v | S v ∧ s.HasType .flexible v} ⊆ {v | s.HasType .flexible v} := fun v hv => hv.2
    have hle := Set.ncard_le_ncard hsub (hwf.finite_type .flexible)
    rw [hu.usage, hset, Set.ncard_sdiff hsub (Unmapped.finite_hasType hwf S .flexible), h.usage,
      sub64_of_le hle (h.usage ▸ hwf.usage_lt)]
  · rw [hu.total_flexible]
    exact h.total

theorem mapped (hwf : WF cfg s) (hwf' : WF cfg s') (h : FlexibleExact cfg s)
    (hm : MappedAs cfg s s' va size type prot p) (hb : Backed cfg s s' size type phys_addr p) :
    FlexibleExact cfg s' := by
  have hfree : ∀ v, InRange va size v → ¬ s.HasType .flexible v := fun v hv ht =>
    absurd (ht.unique (hm.free v hv)) (by decide)
  by_cases htype : type = .flexible
  swap
  · -- The range held no flexible memory, and holds none after.
    refine h.congr (fun v x => ?_) (fun v => ?_) (hb.fmem_eq htype).1 (hb.fmem_eq htype).2
      (hm.total_flexible ▸ h.total)
    · by_cases hv : InRange va size v
      · rw [hm.maps_inside hv]
        exact iff_of_false (fun hx => htype hx.1.symm) fun hx => hfree v hv hx.hasType
      · exact hm.maps_outside hv
    · by_cases hv : InRange va size v
      · rw [hm.hasType_inside hv]
        exact iff_of_false (fun hx => htype hx.symm) (hfree v hv)
      · exact hm.hasType_outside hv
  subst htype
  have hb : FlexibleBacked cfg s s' size p := hb
  have hmaps : ∀ v x, s'.Maps .flexible v x ↔ InRange va size v ∧ p (v - va) = some x ∨ s.Maps .flexible v x := by
    intro v x
    simpa using hm.maps_iff (t := .flexible) hwf
  -- What the mapping takes was free, so that it was not mapped.
  have htaken : ∀ i < size, ∀ x, p i = some x → ∀ v, ¬ s.Maps .flexible v x := by
    intro i hi x hx v hv
    obtain ⟨y, hy, hyfree⟩ := hb.free i hi
    rw [hx, Option.some.injEq] at hy
    subst hy
    rw [(h.marked x).mpr ⟨v, hv⟩] at hyfree
    exact absurd hyfree (by decide)
  refine ⟨fun x => ?_, fun x d hd => ?_, fun v v' x hv hv' => ?_, ?_, ?_⟩
  · simp only [hmaps]
    by_cases hX : ∃ i < size, p i = some x
    · rw [fma_inside hwf hb.fmem (d := .flexible) (fun _ => rfl) hX]
      obtain ⟨i, hi, hx⟩ := hX
      exact iff_of_true rfl ⟨va + i, .inl ⟨⟨by omega, by omega⟩, by simpa using hx⟩⟩
    · rw [fma_outside hb.fmem hX, h.marked]
      exact ⟨fun ⟨v, hv⟩ => ⟨v, .inr hv⟩, fun ⟨v, hv⟩ =>
        ⟨v, hv.resolve_left fun hin => hX ⟨v - va, hin.1.sub_lt, hin.2⟩⟩⟩
  · by_cases hX : ∃ i < size, p i = some x
    · rw [fma_inside hwf hb.fmem (d := .flexible) (fun _ => rfl) hX, Option.some.injEq] at hd
      exact .inr hd.symm
    · rw [fma_outside hb.fmem hX] at hd
      exact h.kinds x d hd
  · rcases (hmaps v x).mp hv with ⟨hin, hx⟩ | hold <;> rcases (hmaps v' x).mp hv' with ⟨hin', hx'⟩ | hold'
    · have := hb.inj _ hin.sub_lt _ hin'.sub_lt (hx.trans hx'.symm)
      have := hin.1
      have := hin'.1
      omega
    · exact absurd hold' (htaken _ hin.sub_lt x hx v')
    · exact absurd hold (htaken _ hin'.sub_lt x hx' v)
    · exact h.inj v v' x hold hold'
  · have hset : {v | s'.HasType .flexible v} =
        {v | InRange va size v} ∪ {v | s.HasType .flexible v} := by
      ext v
      by_cases hv : InRange va size v
      · simp [hm.hasType_inside hv, hv]
      · simp [hm.hasType_outside hv, hv]
    have hdisj : Disjoint {v | InRange va size v} {v | s.HasType .flexible v} :=
      Set.disjoint_left.mpr hfree
    have hcard := Set.ncard_union_eq hdisj
      ((Set.finite_Iio (va + size)).subset fun v hv => hv.2) (hwf.finite_type .flexible)
    have hle : {v | s'.HasType .flexible v}.ncard ≤ 2^63 := by
      simpa using Unmapped.ncard_hasType_le hwf' (fun _ => True) .flexible
    rw [hset, hcard, ncard_inRange] at hle
    rw [hb.usage, h.usage, hset, hcard, ncard_inRange, add64_of_lt (by omega), Nat.add_comm]
  · exact hm.total_flexible ▸ h.total

theorem committed (h : FlexibleExact cfg s) (hc : Committed cfg s s' va size prot mtype p)
    (hg : ∀ v, InRange va size v → ¬ s.HasType .flexible v) : FlexibleExact cfg s' := by
  refine h.congr (fun v x => ?_) (fun v => ?_) hc.fmem hc.usage (hc.total_flexible ▸ h.total)
  · by_cases hv : InRange va size v
    · rw [hc.maps_inside hv]
      exact iff_of_false (fun hx => absurd hx.1 (by decide)) fun hx => hg v hv hx.hasType
    · exact hc.maps_outside hv
  · rw [hc.hasType_iff]
    by_cases hv : InRange va size v
    · simp [hv, hg v hv]
    · simp [hv]

theorem decommitted (h : FlexibleExact cfg s) (hd : Decommitted cfg s s' S)
    (hg : ∀ v, S v → ¬ s.HasType .flexible v) : FlexibleExact cfg s' := by
  refine h.congr (fun v x => ?_) (fun v => ?_) (by rw [hd.frame]) (by rw [hd.frame])
    (by rw [hd.frame]; exact h.total)
  · rw [hd.maps_iff]
    exact and_iff_left_of_imp fun hx hS => hg v hS hx.hasType
  · rw [hd.hasType_iff (by decide)]
    exact and_iff_left_of_imp fun hx hS => hg v hS hx

theorem step (hwf : WF cfg s) (hwf' : WF cfg s') (h : FlexibleExact cfg s)
    (hg : FlexibleKept cfg s op) (he : op.Effect cfg s s') : FlexibleExact cfg s' := by
  cases op with
  | allocate =>
    obtain ⟨addr, -, ht, -⟩ := he
    exact h.congr (fun v x => maps_congr ht.vma_map _ v x) (fun v => hasType_congr ht.vma_map _ v)
      (by rw [ht.frame]) (by rw [ht.frame]) (by rw [ht.frame]; exact h.total)
  | free =>
    obtain ⟨-, s1, -, hu, hs, -⟩ := he
    have h1 := h.unmapped hwf hu
    exact h1.congr (fun v x => maps_congr (by rw [hs]) _ v x)
      (fun v => hasType_congr (by rw [hs]) _ v) (by rw [hs]) (by rw [hs])
      (by rw [hs]; exact h1.total)
  | poolExpand =>
    obtain ⟨addr, -, ht, -⟩ := he
    exact h.congr (fun v x => maps_congr ht.vma_map _ v x) (fun v => hasType_congr ht.vma_map _ v)
      (by rw [ht.frame]) (by rw [ht.frame]) (by rw [ht.frame]; exact h.total)
  | poolCommit =>
    obtain ⟨hf, p, hc⟩ := he
    exact h.committed hc (hg hf hc.lt_budget)
  | poolDecommit =>
    obtain ⟨ha, s1, -, hd, rfl⟩ := he
    have h1 := h.decommitted hd (hg ha)
    exact ⟨h1.marked, h1.kinds, h1.inj, h1.usage, h1.total⟩
  | mapMemory =>
    obtain ⟨-, va', -, s1, p, hwf1, hu, hm, hb⟩ := he
    exact (h.unmapped hwf hu).mapped hwf1 hwf' hm hb
  | mapFile =>
    obtain ⟨va', prot, -, s1, p, hwf1, hu, hm, hb⟩ := he
    exact (h.unmapped hwf hu).mapped hwf1 hwf' hm hb
  | unmapMemory => exact h.unmapped hwf he
  | protect =>
    have hc := he.sameCore
    exact h.congr (hc.maps _) (hc.hasType _) hc.fmem hc.usage (hc.total_flexible ▸ h.total)
  | setDirectMemoryType =>
    have hc := he.1
    exact h.congr (hc.maps _) (hc.hasType _) hc.fmem hc.usage (hc.total_flexible ▸ h.total)
  | nameVirtualRange =>
    have hc := he.1
    exact h.congr (hc.maps _) (hc.hasType _) hc.fmem hc.usage (hc.total_flexible ▸ h.total)
  | setupMemoryRegions =>
    have hvma : s'.vma_map = s.vma_map := by rw [he.frame]
    exact h.congr (maps_congr hvma _) (hasType_congr hvma _) (by rw [he.frame])
      (by rw [he.frame]) (he.total_flexible ▸ hg)

theorem start (cfg : Config) : FlexibleExact cfg (.new cfg) where
  marked x := iff_of_false (fun hx => absurd (new_dma.2 hx) (by decide))
    fun ⟨v, hv⟩ => new_not_maps hv
  kinds x d hd := .inl (new_dma.2 hd)
  inj v v' x hv _ := absurd hv new_not_maps
  usage := by
    have hnone : {v | (MemoryManager.new cfg).HasType .flexible v} = ∅ :=
      Set.eq_empty_of_forall_notMem fun v hv => absurd (new_hasType hv) (by decide)
    rw [hnone, Set.ncard_empty]
    rfl
  total := le_rfl

end FlexibleExact

theorem ReachableVia.flexibleExact (h : ReachableVia cfg (FlexibleKept cfg) s) : FlexibleExact cfg s :=
  h.invariant (.start cfg) fun _ _ _ hwf hwf' hs _ hg he => hs.step hwf hwf' hg he

theorem FlexibleExact.ncard_marked (hwf : WF cfg s) (h : FlexibleExact cfg s) :
    {x | s.fma x = some .flexible}.ncard = s.flexible_usage := by
  have hcard := hwf.ncard_mapped (S := fun _ => True) (.inr (.inl rfl)) h.inj
  simp only [true_and] at hcard
  simp only [h.marked, h.usage, hcard]

theorem FlexibleExact.ncard_free (hwf : WF cfg s) (h : FlexibleExact cfg s) :
    {x | s.fma x = some .free}.ncard + s.flexible_usage = cfg.flexible_size := by
  have hunion : {x | s.fma x = some .free} ∪ {x | s.fma x = some .flexible} =
      {x | cfg.InFlexible x} := by
    ext x
    simp only [Set.mem_union, Set.mem_ofPred_eq, ← hwf.fma_isSome, Option.isSome_iff_exists]
    constructor
    · exact fun hx => hx.elim (fun hx => ⟨_, hx⟩) fun hx => ⟨_, hx⟩
    · rintro ⟨d, hd⟩
      rcases h.kinds x d hd with rfl | rfl
      · exact .inl hd
      · exact .inr hd
  have hfin : {x | cfg.InFlexible x}.Finite := (Set.finite_Iio _).subset fun x hx => hx.2
  have hdisj : Disjoint {x | s.fma x = some .free} {x | s.fma x = some .flexible} :=
    Set.disjoint_left.mpr fun x hx hx' => by
      exact absurd (hx.symm.trans hx') (by decide)
  have hcard := Set.ncard_union_eq hdisj (hfin.subset (hunion ▸ Set.subset_union_left))
    (hfin.subset (hunion ▸ Set.subset_union_right))
  rw [hunion, h.ncard_marked hwf] at hcard
  rw [← hcard]
  exact ncard_inRange _ _

theorem FlexibleExact.sizeSum_fmem (hwf : WF cfg s) (h : FlexibleExact cfg s) :
    s.fmem_map.sizeSum physExtent (fun a => a.dma_type = .flexible) = s.flexible_usage := by
  rw [hwf.flexible.part.sizeSum_eq_ncard, ← h.ncard_marked hwf]
  congr 1
  ext x
  simp only [Set.mem_ofPred_eq, decide_eq_true_eq, fma, fbyte, Option.map_eq_some_iff,
    hwf.flexible.part.byteAt_eq_some_iff]
  constructor
  · rintro ⟨k, a, hc, ha⟩
    exact ⟨_, ⟨k, a, hc, rfl⟩, ha⟩
  · rintro ⟨_, ⟨k, a, hc, rfl⟩, ha⟩
    exact ⟨k, a, hc, ha⟩

theorem WF.sizeSum_vma (hwf : WF cfg s) (t : VMAType) :
    s.vma_map.sizeSum vmaExtent (fun vma => vma.type = t) = {v | s.HasType t v}.ncard := by
  rw [hwf.virt.part.sizeSum_eq_ncard]
  congr 1
  ext v
  simp only [Set.mem_ofPred_eq, decide_eq_true_eq, HasType, vbyte, hwf.virt.part.byteAt_eq_some_iff]
  constructor
  · rintro ⟨k, vma, hc, ht⟩
    exact ⟨_, ⟨k, vma, hc, rfl⟩, ht⟩
  · rintro ⟨_, ⟨k, vma, hc, rfl⟩, ht⟩
    exact ⟨k, vma, hc, ht⟩

/-! ## Flexible mappings fit -/

section Fit

variable {prot : MemoryProt} {flags : MemoryMapFlags} {name : String} {validate is_exec : Bool}
  {phys_addr alignment : ℕ}

theorem usage_le_of_checkPhysical (hc : s.checkPhysical size .flexible validate phys_addr = .ok none) :
    add64 s.flexible_usage size ≤ s.total_flexible_size := by
  by_contra hn
  unfold checkPhysical at hc
  rw [if_pos ⟨rfl, not_le.mp hn⟩, pure_eq_ok] at hc
  contradiction

theorem mapFlexible_avoids (hwf : Tiles s.fmem_map cfg.direct_size (cfg.direct_size + cfg.flexible_size))
    (hsize : size < 2^64) (hfit : size ≤ {x | s.fma x = some .free}.ncard) :
    Avoids .mapPhysical (s.mapFlexible va size is_exec) := by
  have hcfg := cfg.sizes_lt
  obtain ⟨b, hb, hrem⟩ : ∃ b, backRange .free (fun area => { area with dma_type := .flexible })
      is_exec va size s.fmem_map s.impl.calls = .ok b ∧ b.remaining_size = 0 := by
    refine backRange_ok retypes_flexible hwf (by omega) hsize ?_
    simpa only [fma, fbyte, Option.map_eq_some_iff] using hfit
  unfold mapFlexible
  rw [hb]
  refine Avoids.pure.bind fun b' hb' => ?_
  obtain rfl := pure_eq_ok.mp hb'
  intro h
  rcases bind_eq_error.mp h with h | ⟨u, -, h⟩
  · exact (require_eq_error.mp h).1 hrem
  · exact Avoids.deref.bind (fun _ _ => .pure) h

theorem FlexibleExact.mapMemory_avoids (hwf : WF cfg s) (h : FlexibleExact cfg s) (hva : va < 2^64)
    (hsize : size < 2^64) : Avoids .mapPhysical
      (s.mapMemory va size prot flags .flexible name validate phys_addr alignment) := by
  refine checkPhysical_avoids.bind fun r hr => ?_
  cases r with
  | some error => exact .pure
  | none =>
    refine placeMapping_avoids.bind fun r hplace => ?_
    cases r with
    | none => exact .pure
    | some va' =>
      refine Avoids.bind (Avoids.bind (createArea_avoids (by decide) (by decide) (by decide)
        (by decide)) fun ⟨s2, k⟩ hc => ?_) fun _ _ => .pure
      obtain ⟨s1, m, w, rfl, hwf1, hu, hfree, -, -, -, hws, hs2⟩ :=
        createArea_spec hwf (placeMapping_lt hwf hva hplace) hsize hc
      have hfit : size ≤ {x | s2.fma x = some .free}.ncard := by
        have h1 := h.unmapped hwf hu
        have hfree1 := h1.ncard_free hwf1
        have hcheck := usage_le_of_checkPhysical hr
        -- What is unmapped first only makes room.
        have hle : s1.flexible_usage ≤ s.flexible_usage := by
          rw [h1.usage, h.usage]
          refine Set.ncard_le_ncard (fun v hv => ?_) (hwf.finite_type .flexible)
          exact ((hu.hasType_iff (by decide) (by decide)).mp hv).1
        have htotal := h.total
        have husage : s.flexible_usage ≤ 2^63 := by
          rw [h.usage]
          simpa using Unmapped.ncard_hasType_le hwf (fun _ => True) .flexible
        have hsize' : size < 2^63 := by
          by_contra hn
          have hlast : InRange k size (k + size - 1) := ⟨by omega, by omega⟩
          obtain ⟨b, hb, -⟩ := hfree _ hlast
          have := (hwf1.vbyte_isSome.mp (Option.isSome_iff_exists.mpr ⟨b, hb⟩)).lt
          omega
        have hfma : ∀ x, s2.fma x = s1.fma x := fma_congr (by rw [hs2])
        simp only [hfma]
        rw [add64_of_lt (by omega)] at hcheck
        omega
      refine Avoids.bind ?_ fun _ _ => mergeMapped_avoids.bind fun _ _ => ?_
      · exact mapFlexible_avoids (by rw [hs2]; exact hwf1.flexible) hsize hfit
      · split_ifs <;> exact .pure

end Fit

/-- In every state that such calls lead to, the flexible memory in use is the size of the flexible areas
of the area map and of the flexible virtual areas, no byte is mapped twice, and no flexible mapping fails
for lack of memory once it has passed its first check. -/
theorem flexible_run (h : ReachableVia cfg (FlexibleKept cfg) s) :
    s.flexible_usage = s.fmem_map.sizeSum physExtent (fun a => a.dma_type = .flexible) ∧
    s.flexible_usage = s.vma_map.sizeSum vmaExtent (fun vma => vma.type = .flexible) ∧
    (∀ v v' x, s.Maps .flexible v x → s.Maps .flexible v' x → v = v') ∧
    ∀ (va size phys_addr alignment : UInt64) prot flags name validate,
      s.mapMemory va.toNat size.toNat prot flags .flexible name validate phys_addr.toNat
        alignment.toNat ≠ .error (.assertion .mapPhysical) := by
  have hwf := h.wf
  have hexact := h.flexibleExact
  refine ⟨(hexact.sizeSum_fmem hwf).symm, ?_, hexact.inj, fun va size _ _ _ _ _ _ => ?_⟩
  · rw [hwf.sizeSum_vma, hexact.usage]
  · exact hexact.mapMemory_avoids hwf va.toNat_lt size.toNat_lt

/-- The memory regions are set up with the loader's default of 512 MB of flexible memory, and two flexible mappings are made, of which the first is unmapped in part. -/
def mappedFlexible : List Op :=
  [.setupMemoryRegions 0x20000000 false false,
    .mapMemory 0x100000000 0x40000 3 0x10 .flexible "anon" false 0xffffffffffffffff 0,
    .mapMemory 0x100100000 0x20000 3 0x10 .flexible "anon" false 0xffffffffffffffff 0,
    .unmapMemory 0x100010000 0x10000]

theorem flexible_run_sample : ∃ s, replay .sample mappedFlexible (.new .sample) = some s ∧
    s.flexible_usage = 0x50000 ∧ s.flexible_usage = s.fmem_map.sizeSum physExtent (fun a => a.dma_type = .flexible) ∧
    s.flexible_usage = s.vma_map.sizeSum vmaExtent (fun vma => vma.type = .flexible) ∧
    (∀ v v' x, s.Maps .flexible v x → s.Maps .flexible v' x → v = v') ∧
    ∀ (va size phys_addr alignment : UInt64) prot flags name validate,
      s.mapMemory va.toNat size.toNat prot flags .flexible name validate phys_addr.toNat
        alignment.toNat ≠ .error (.assertion .mapPhysical) := by
  have hsetup : setupFlexibleSize .sample 0x20000000 ≤ Config.sample.flexible_size := by decide
  have hg : ∀ op ∈ mappedFlexible, ∀ s, FlexibleKept .sample s op := by
    simp only [mappedFlexible, List.forall_mem_cons]
    exact ⟨fun _ => hsetup, fun _ => trivial, fun _ => trivial, fun _ => trivial, by simp⟩
  obtain ⟨s, hs, hr, ht⟩ := exists_of_replayVia .sample mappedFlexible
    (fun s => s.flexible_usage = 0x50000) hg (by decide)
  exact ⟨s, hs, of_decide_eq_true ht, flexible_run hr⟩

/-- A configuration with 1 GB of extra flexible memory, and one usable region of 2 GB. -/
def Config.extraFlexible : Config where
  regions := [(0x100000000, 0x180000000)]
  regions_lt := by decide
  regions_sorted := by decide
  system_managed_base := 0x100000000
  user_base := 0x100000000
  user_size := 0x80000000
  extra_fmem := 1024
  direct_pos := by decide
  flexible_pos := by decide
  backing_lt := by decide

/-- A flexible mapping of the whole size that was set up passes its check, and fails for lack of
memory. -/
theorem extra_flexible_faults : ∃ s,
    replay .extraFlexible [.setupMemoryRegions 0x20000000 false false] (.new .extraFlexible) =
        some s ∧ Reachable .extraFlexible s ∧ s.flexible_usage + 0x5c000000 ≤ s.total_flexible_size ∧
      s.mapMemory 0x100000000 0x5c000000 3 0x10 .flexible "anon" false 0xffffffffffffffff 0 =
        .error (.assertion .mapPhysical) := by
  obtain ⟨s, hs, hr, ht⟩ := exists_of_replay .extraFlexible [.setupMemoryRegions 0x20000000 false false]
    (fun s => decide (s.flexible_usage + 0x5c000000 ≤ s.total_flexible_size ∧
      fault? (s.mapMemory 0x100000000 0x5c000000 3 0x10 .flexible "anon" false
        0xffffffffffffffff 0) = some (.assertion .mapPhysical))) (by decide)
  obtain ⟨hle, hfault⟩ := of_decide_eq_true ht
  exact ⟨s, hs, hr, hle, fault?_eq_some.mp hfault⟩

end ShadPS4.Memory
