import ShadPS4.Memory.MapSpec

/-!
# Pooled memory, byte by byte

What `PoolCommit` and `PoolDecommit` do to the bytes of a state. A commitment maps the range that was asked for,
and asks the host for the range that starts at the next multiple of 64 KB.
-/

namespace ShadPS4.Memory

open MemoryManager
open Option (some.injEq)

variable {n : ℕ} {vma : VirtualMemoryArea}
variable {cfg : Config} {s s' s₁ s₂ : MemoryManager} {va size v x : ℕ} {prot : MemoryProt}

/-! ## Commitment -/

def commitByte (mtype : ℤ) (b : PByte) : PByte :=
  { b with dma_type := .committed, memory_type := mtype }

theorem retypes_committed (mtype : ℤ) : Retypes .pooled
    (fun area => { area with dma_type := .committed, memory_type := mtype }) (commitByte mtype) where
  base _ := rfl
  size _ := rfl
  byte _ _ := rfl
  addr _ := rfl
  idem _ := rfl
  ne _ := by simp [commitByte]

/-- What a commitment does: the range `[va, va + size)` is mapped to the physical addresses `p`. -/
structure Committed (cfg : Config) (s s' : MemoryManager) (va size : ℕ) (prot : MemoryProt)
    (mtype : ℤ) (p : ℕ → Option ℕ) : Prop where
  pos : 0 < size
  usable : ∀ v, InRange va size v → cfg.Usable v
  type : ∃ t, ∀ v, InRange va size v → s.HasType t v
  vbyte : ∀ v, s'.vbyte v =
    if InRange va size v then some ⟨v, .pooled, appendRead prot, p (v - va)⟩ else s.vbyte v
  dmem : RetypedOn s.dmem_map s'.dmem_map 0 s.total_direct_size
    (fun x => ∃ i < size, p i = some x) (commitByte mtype)
  pooled : ∀ i < size, ∃ x, p i = some x ∧ s.dma x = some .pooled
  inj : ∀ i < size, ∀ j < size, p i = p j → i = j
  phys : ∀ v, hostPhys s'.impl.calls v =
    if InRange (alignUp va kb64) size v then p (v - alignUp va kb64) else hostPhys s.impl.calls v
  lt_budget : size < s.pool_budget
  budget : s'.pool_budget = s.pool_budget - size
  fmem : s'.fmem_map = s.fmem_map
  usage : s'.flexible_usage = s.flexible_usage
  total_direct : s'.total_direct_size = s.total_direct_size
  total_flexible : s'.total_flexible_size = s.total_flexible_size

/-- The checks of `PoolCommit` pass, up to that of the budget: the aligned range lies in an area that
is reserved for the pool. -/
def MemoryManager.CommitFits (s : MemoryManager) (va size : ℕ) : Prop :=
  ∃ k vma, s.vma_map.floor? (alignUp va kb64) = some (k, vma) ∧ vma.type = .poolReserved ∧
    vma.Contains (alignUp va kb64) size

theorem poolCommit_spec (h : WF cfg s) (hsize : size < 2^64) (hm : s.poolCommit va size prot mtype = .ok (s', r)) :
    WF cfg s' ∧ (s' = s ∧ (r = .einval ∧ ¬ s.CommitFits va size ∨
        r = .enomem ∧ s.CommitFits va size ∧ s.pool_budget ≤ size) ∨
      r = .ok ∧ s.CommitFits va size ∧ ∃ p, Committed cfg s s' va size prot mtype p) := by
  simp only [poolCommit, findVMA, bind_eq_ok, deref_eq_ok, Prod.exists] at hm
  obtain ⟨-, -, k, vma, hf, hm⟩ := hm
  have hfits : s.CommitFits va size ↔ vma.type = .poolReserved ∧ vma.Contains (alignUp va kb64) size := by
    constructor
    · rintro ⟨k', vma', hf', hc⟩
      rw [hf, some.injEq, Prod.mk.injEq] at hf'
      exact hf'.2 ▸ hc
    · exact fun hc => ⟨k, vma, hf, hc⟩
  by_cases ht : vma.type = .poolReserved
  swap
  · rw [if_pos ht, pure_eq_ok, Prod.mk.injEq] at hm
    obtain ⟨rfl, rfl⟩ := hm
    exact ⟨h, .inl ⟨rfl, .inl ⟨rfl, fun hc => ht (hfits.mp hc).1⟩⟩⟩
  by_cases hcon : vma.Contains (alignUp va kb64) size
  swap
  · rw [if_neg (not_not.mpr ht), if_pos hcon, pure_eq_ok, Prod.mk.injEq] at hm
    obtain ⟨rfl, rfl⟩ := hm
    exact ⟨h, .inl ⟨rfl, .inl ⟨rfl, fun hc => hcon (hfits.mp hc).2⟩⟩⟩
  rw [if_neg (not_not.mpr ht), if_neg (not_not.mpr hcon)] at hm
  by_cases hbud : s.pool_budget ≤ size
  · rw [if_pos hbud, pure_eq_ok, Prod.mk.injEq] at hm
    obtain ⟨rfl, rfl⟩ := hm
    exact ⟨h, .inl ⟨rfl, .inr ⟨rfl, hfits.mpr ⟨ht, hcon⟩, hbud⟩⟩⟩
  simp only [if_neg hbud, bind_eq_ok, deref_eq_ok, require_eq_ok, pure_eq_ok, Prod.exists, Prod.mk.injEq] at hm
  obtain ⟨m1, j, hc, w, hg, b, hb, -, hrem, m2, l, hmerge, hs', rfl⟩ := hm
  have hlt : s.total_direct_size < 2^64 := by
    have := h.direct_le
    have := cfg.sizes_lt
    omega
  have hbacks := backRange_spec (retypes_committed mtype) h.direct hlt hsize hb
  obtain ⟨hpart, hX, hfrom, hinj, hphys⟩ := hbacks.whole hrem
  obtain ⟨rfl, hcarved⟩ := carveVMA_spec h.virt hsize hc
  obtain ⟨w', hw', hwb, hws⟩ := hcarved.entry
  obtain rfl := OrdMap.mem_unique (OrdMap.get?_eq_some_iff.mp hg) hw'
  obtain ⟨-, -, -, hrep⟩ := vreplaced_of_carve (u := { w with
      disallow_merge := false, prot := appendRead prot, name := "anon", type := .pooled,
      phys_areas := b.phys_areas }) h.virt hsize hc hg rfl rfl
    ⟨fun _ => hws ▸ hpart, fun hn => absurd (.inr (.inr rfl)) hn⟩
  have hrep2 := hrep.merge (OrdMap.mem_insert.mpr (.inl rfl)) hmerge
  have hvma : s'.vma_map = m2 := by rw [← hs']
  have hbyte : ∀ v, s'.vbyte v = if InRange j size v then
      some ⟨v, .pooled, appendRead prot, physAddrs b.phys_areas (v - j)⟩ else s.vbyte v := by
    intro v
    rw [vbyte, hvma, hrep2.bytes]
    by_cases hv : InRange j size v
    · rw [if_pos hv, if_pos hv]
      have := hv.1
      simp only [vmaExtent_byte, hwb, physAddrs]
      congr 2
      omega
    · rw [if_neg hv, if_neg hv]
      rfl
  have hcom : Committed cfg s s' j size prot mtype (physAddrs b.phys_areas) := by
    refine ⟨hrep2.pos, fun v hv => hrep2.mem h.virt hv, ?_, hbyte, ?_, hfrom, hinj, ?_, by omega,
      ?_, ?_, ?_, ?_, ?_⟩
    · obtain ⟨l, u, hl, h1, h2⟩ := hrep2.fits
      exact ⟨u.type, fun v hv => ⟨_, h.vbyte_of_mem hl ⟨by have := hv.1; omega, by have := hv.2; omega⟩, rfl⟩⟩
    · rw [← hs']
      exact hX
    · rw [← hs']
      exact hphys
    all_goals rw [← hs']
  refine ⟨⟨hvma ▸ hrep2.tiles, ?_, ?_, ?_, ?_, ?_, ?_⟩, .inr ⟨rfl, hfits.mpr ⟨ht, hcon⟩, _, hcom⟩⟩
  · rw [hcom.total_direct]
    exact hcom.dmem.tiles
  · exact hcom.fmem ▸ h.flexible
  · exact hcom.total_direct ▸ h.direct_le
  · intro v c x hc hx
    rw [hbyte] at hc
    split_ifs at hc with hv
    · rw [some.injEq] at hc
      subst hc
      have := (hX.span x ⟨v - j, by have := hv.1; have := hv.2; omega, hx⟩).2
      have := h.direct_le
      omega
    · exact h.paddr_lt v c x hc hx
  · exact hcom.usage ▸ h.usage_lt
  · have := h.budget_lt
    rw [hcom.budget]
    omega

/-! ## Decommitment -/

def reservedByte (v : ℕ) : VByte := ⟨v, .poolReserved, MemoryProt.noAccess, none⟩

/-- What the loop of a decommitment does to the virtual bytes `S`. -/
structure Decommitted (cfg : Config) (s s' : MemoryManager) (S : ℕ → Prop) : Prop where
  usable : ∀ v, S v → cfg.Usable v
  vinside : ∀ v, S v → s'.vbyte v = some (reservedByte v)
  voutside : ∀ v, ¬ S v → s'.vbyte v = s.vbyte v
  dmem : RetypedOn s.dmem_map s'.dmem_map 0 s.total_direct_size
    (fun x => ∃ v, S v ∧ s.Maps .pooled v x) (setDma .pooled)
  budget : s'.pool_budget = add64 s.pool_budget {v | S v ∧ s.HasType .pooled v}.ncard
  frame : s' = { s with
    vma_map := s'.vma_map, dmem_map := s'.dmem_map, pool_budget := s'.pool_budget }

namespace Decommitted

variable {S T : ℕ → Prop}

theorem hasType_iff (h : Decommitted cfg s s' S) (ht : t ≠ .poolReserved) :
    s'.HasType t v ↔ s.HasType t v ∧ ¬ S v := by
  unfold HasType
  by_cases hv : S v
  · simp only [h.vinside v hv, some.injEq, hv, not_true_eq_false, and_false, iff_false]
    rintro ⟨b, rfl, rfl⟩
    exact ht rfl
  · simp [h.voutside v hv, hv]

theorem maps_iff (h : Decommitted cfg s s' S) : s'.Maps t v x ↔ s.Maps t v x ∧ ¬ S v := by
  unfold Maps
  by_cases hv : S v
  · simp only [h.vinside v hv, some.injEq, hv, not_true_eq_false, and_false, iff_false]
    rintro ⟨b, rfl, -, hx⟩
    simp [reservedByte] at hx
  · simp [h.voutside v hv, hv]

theorem refl (h : WF cfg s) (hS : ∀ v, ¬ S v) : Decommitted cfg s s S := by
  refine ⟨fun v hv => absurd hv (hS v), fun v hv => absurd hv (hS v), fun v _ => rfl,
    .refl h.direct fun x ⟨v, hv, _⟩ => hS v hv, ?_, rfl⟩
  have : {v | S v ∧ s.HasType .pooled v} = ∅ := by
    ext v
    simp [hS v]
  rw [this, Set.ncard_empty, add64_zero h.budget_lt]

theorem trans (hwf : WF cfg s) (h : Decommitted cfg s s₁ S) (h' : Decommitted cfg s₁ s₂ T) :
    Decommitted cfg s s₂ fun v => S v ∨ T v := by
  have htd : s₁.total_direct_size = s.total_direct_size := by rw [h.frame]
  refine ⟨fun v hv => hv.elim (h.usable v) (h'.usable v), fun v hv => ?_, fun v hv => ?_, ?_, ?_, ?_⟩
  · by_cases hT : T v
    · exact h'.vinside v hT
    · rw [h'.voutside v hT, h.vinside v (hv.resolve_right hT)]
  · rw [h'.voutside v fun hT => hv (.inr hT), h.voutside v fun hS => hv (.inl hS)]
  · have hd := h'.dmem
    rw [htd] at hd
    refine (h.dmem.trans hd (setDma_setDma _ _)).congr fun x => ?_
    simp only [h.maps_iff]
    constructor
    · rintro (⟨v, hv, hm⟩ | ⟨v, hv, hm, -⟩)
      · exact ⟨v, .inl hv, hm⟩
      · exact ⟨v, .inr hv, hm⟩
    · rintro ⟨v, hv, hm⟩
      by_cases hS : S v
      · exact .inl ⟨v, hS, hm⟩
      · exact .inr ⟨v, hv.resolve_left hS, hm, hS⟩
  · have hsplit : {v | (S v ∨ T v) ∧ s.HasType .pooled v} =
        {v | S v ∧ s.HasType .pooled v} ∪ {v | T v ∧ s₁.HasType .pooled v} := by
      ext v
      simp only [Set.mem_ofPred_eq, Set.mem_union, h.hasType_iff (t := .pooled) (by decide)]
      tauto
    have hfin : {v | T v ∧ s₁.HasType .pooled v}.Finite := by
      refine (Unmapped.finite_hasType hwf T .pooled).subset ?_
      rintro v ⟨hv, ht⟩
      exact ⟨hv, ((h.hasType_iff (by decide)).mp ht).1⟩
    have hdisj : Disjoint {v | S v ∧ s.HasType .pooled v} {v | T v ∧ s₁.HasType .pooled v} := by
      rw [Set.disjoint_left]
      rintro v ⟨hv, -⟩ ⟨-, ht⟩
      exact ((h.hasType_iff (by decide)).mp ht).2 hv
    rw [hsplit, Set.ncard_union_eq hdisj (Unmapped.finite_hasType hwf S .pooled) hfin, h'.budget,
      h.budget, add64_add64]
  · rw [h'.frame, h.frame]

end Decommitted

theorem decommitPhys_spec (ht : Tiles s.dmem_map 0 s.total_direct_size) (hn : n < 2^64)
    (h : decommitPhys s p n = .ok s') : s' = { s with dmem_map := s'.dmem_map } ∧
      RetypedOn s.dmem_map s'.dmem_map 0 s.total_direct_size (InRange p n) (setDma .pooled) := by
  simp only [decommitPhys, bind_eq_ok, deref_eq_ok, pure_eq_ok, Prod.exists] at h
  obtain ⟨m1, k, hc, a, hg, m2, l, hm, rfl⟩ := h
  obtain ⟨hr, hglue⟩ := retyped_of_carve_merge ht hn hc hg hm rfl rfl (f := setDma .pooled) (fun _ => rfl)
  exact ⟨rfl, .of_retyped ht hr hglue⟩

theorem decommitBacking_vma_map (h : s.decommitBacking vma start n = .ok s') : s'.vma_map = s.vma_map := by
  unfold decommitBacking at h
  split_ifs at h
  · simp only [bind_eq_ok, Prod.exists] at h
    obtain ⟨_, _, -, h⟩ := h
    refine (forPhysAreas_vma_map (fun s s' p n hs => ?_) h).trans rfl
    simp only [decommitPhys, bind_eq_ok, pure_eq_ok, Prod.exists] at hs
    obtain ⟨_, _, -, _, -, _, _, -, rfl⟩ := hs
    rfl
  · rw [pure_eq_ok] at h
    rw [h]

theorem decommitBacking_spec (h : WF cfg s) (hk : (k, vma) ∈ s.vma_map) (hend : start + n ≤ vma.size)
    (hu : s.decommitBacking vma start n = .ok s') : s' = { s with
        dmem_map := s'.dmem_map
        pool_budget := if vma.type = .pooled then add64 s.pool_budget n else s.pool_budget } ∧
      RetypedOn s.dmem_map s'.dmem_map 0 s.total_direct_size
        (fun x => vma.type = .pooled ∧ vma.PhysOf start (start + n) x) (setDma .pooled) := by
  unfold decommitBacking at hu
  by_cases ht : vma.type = .pooled
  · have hpart := (h.virt.backed k vma hk).part (.inr (.inr ht))
    have hvend := h.end_lt hk
    have hnone : ∀ x, ¬ vma.PhysOf start start x := by
      rintro x ⟨i, h1, h2, -⟩
      omega
    simp only [if_pos ht, bind_eq_ok, deref_eq_ok, Prod.exists] at hu ⊢
    obtain ⟨j, a, hfloor, hu⟩ := hu
    have hrule := forPhysAreas_rule (f := decommitPhys) (e := .decommitPooled)
      (s := { s with pool_budget := add64 s.pool_budget n }) (F := fun _ => True)
      (P := fun cur s₁ =>
        s₁ = { s with dmem_map := s₁.dmem_map, pool_budget := add64 s.pool_budget n } ∧
        RetypedOn s.dmem_map s₁.dmem_map 0 s.total_direct_size (vma.PhysOf start cur)
          (setDma .pooled))
      hpart (by omega) (h.phys_addr_lt hk (.inr (.inr ht))) hend hfloor
      (fun cur len p s₁ hcur hlen hle ⟨l, b, hl, hlc, hlend, hp⟩ ⟨heq, hr⟩ =>
        ⟨fun s₂ hs2 => ?_, fun _ _ => trivial⟩) ⟨rfl, .refl h.direct hnone⟩
    · obtain ⟨heq, hr⟩ := hrule.1 s' hu
      exact ⟨heq, hr.congr fun x => by simp [ht]⟩
    · have htot : s₁.total_direct_size = s.total_direct_size := by rw [heq]
      obtain ⟨heq2, hr2⟩ := decommitPhys_spec (htot ▸ hr.tiles) (by omega) hs2
      refine ⟨by rw [heq2, heq], ?_⟩
      rw [htot] at hr2
      exact (hr.trans hr2 (setDma_setDma _ _)).congr (VirtualMemoryArea.physOf_step hpart hcur hl hlc hlend hp)
  · rw [if_neg ht, pure_eq_ok] at hu
    subst hu
    exact ⟨by rw [if_neg ht], .refl h.direct fun x hx => ht hx.1⟩

theorem decommitBytes_spec (h : WF cfg s)
    (hf : s.vma_map.floor? va = some (k, vma)) (hva : va < 2^64) (hrem : rem < 2^64)
    (hd : s.decommitBytes va vma rem = .ok (s', n)) :
    n ≤ rem ∧ va + n ≤ 2^63 ∧ WF cfg s' ∧ Decommitted cfg s s' (InRange va n) := by
  simp only [decommitBytes, bind_eq_ok, deref_eq_ok, pure_eq_ok, Prod.exists, Prod.mk.injEq] at hd
  obtain ⟨s₁, hback, m1, j, hc, w, hg, m2, l, hm, hs', hn⟩ := hd
  rw [decommitBacking_vma_map hback, hn] at hc
  rw [hn] at hback
  have hnrem : n ≤ rem := hn ▸ Nat.min_le_left _ _
  obtain ⟨hpos, hk, hkj, hend⟩ := h.fits_of_carve (by omega) hf hc
  obtain ⟨rfl, -⟩ := carveVMA_spec h.virt (by omega) hc
  have hvend := h.end_lt hk
  have hstart : sub64 j vma.base = j - k := by
    rw [h.virt.keyed k vma hk]
    exact sub64_of_le hkj hva
  rw [hstart] at hback
  obtain ⟨hs1, hret⟩ := decommitBacking_spec h hk (by omega) hback
  obtain ⟨-, hwb, hws, hrep⟩ := vreplaced_of_carve (u := { w with
    type := .poolReserved, prot := MemoryProt.noAccess, disallow_merge := false, name := "anon",
    phys_areas := .empty }) h.virt (by omega) hc hg rfl rfl
      (backed_of_empty (by simp [VMAType.HasPhysicalBacking]) rfl)
  have hrep2 := hrep.merge (OrdMap.mem_insert.mpr (.inl rfl)) hm
  have hin : ∀ v, InRange j n v → InRange k vma.size v := by
    rintro v ⟨h1, h2⟩
    exact ⟨by omega, by omega⟩
  have hbyte : ∀ v, s'.vbyte v = if InRange j n v then some (reservedByte v) else s.vbyte v := by
    intro v
    rw [vbyte, ← hs', hrep2.bytes]
    by_cases hv : InRange j n v
    · rw [if_pos hv, if_pos hv]
      have := hv.1
      simp only [vmaExtent_byte, reservedByte, byteAt_empty, Option.map_none, hwb]
      congr 2
      omega
    · rw [if_neg hv, if_neg hv]
      rfl
  have hdec : Decommitted cfg s s' (InRange j n) := by
    refine ⟨fun v hv => h.usable_of_mem hk (hin v hv), fun v hv => by rw [hbyte, if_pos hv],
      fun v hv => by rw [hbyte, if_neg hv], ?_, ?_, ?_⟩
    · rw [← hs']
      refine hret.congr fun x => ?_
      rw [h.physOf_iff hk (by omega), show k + (j - k) = j by omega]
      constructor
      · rintro ⟨ht, v, hv, hx⟩
        exact ⟨v, hv, ht ▸ hx⟩
      · rintro ⟨v, hv, hx⟩
        have ht : vma.type = .pooled :=
          HasType.unique ⟨_, h.vbyte_of_mem hk (hin v hv), rfl⟩ hx.hasType
        exact ⟨ht, v, hv, ht ▸ hx⟩
    · rw [← hs', hs1]
      by_cases ht : vma.type = .pooled
      · have hall : {v | InRange j n v ∧ s.HasType .pooled v} = {v | InRange j n v} := by
          ext v
          simp only [Set.mem_ofPred_eq, and_iff_left_iff_imp]
          exact fun hv => ⟨_, h.vbyte_of_mem hk (hin v hv), ht⟩
        rw [hall, ncard_inRange]
        simp only [if_pos ht]
      · have hnone : {v | InRange j n v ∧ s.HasType .pooled v} = ∅ := by
          ext v
          simp only [Set.mem_ofPred_eq, Set.mem_empty_iff_false, iff_false, not_and]
          exact fun hv hp => ht (HasType.unique ⟨_, h.vbyte_of_mem hk (hin v hv), rfl⟩ hp)
        rw [hnone, Set.ncard_empty, add64_zero h.budget_lt]
        simp only [if_neg ht]
    · rw [← hs', hs1]
  have htd : s'.total_direct_size = s.total_direct_size := by rw [hdec.frame]
  refine ⟨hnrem, by omega, ⟨?_, ?_, ?_, htd ▸ h.direct_le, ?_, ?_, ?_⟩, hdec⟩
  · rw [← hs']
    exact hrep2.tiles
  · exact htd ▸ hdec.dmem.tiles
  · rw [hdec.frame]
    exact h.flexible
  · intro v b x hb hx
    rw [hbyte] at hb
    split_ifs at hb with hv
    · rw [some.injEq] at hb
      simp [← hb, reservedByte] at hx
    · exact h.paddr_lt v b x hb hx
  · rw [hdec.frame]
    exact h.usage_lt
  · rw [hdec.budget]
    exact add64_lt _ _

theorem decommitLoop_spec (h : WF cfg s) (hva : va < 2^64) (hrem : rem < 2^64)
    (hl : decommitLoop fuel s va rem = .ok s') : WF cfg s' ∧ Decommitted cfg s s' (InRange va rem) := by
  induction fuel generalizing s va rem with
  | zero =>
    simp only [decommitLoop] at hl
    split_ifs at hl with hz
    rw [Except.ok.injEq] at hl
    subst hl
    exact ⟨h, .refl h fun v hv => absurd hv.2 (by have := hv.1; omega)⟩
  | succ fuel ih =>
    simp only [decommitLoop] at hl
    split_ifs at hl with hz
    · rw [pure_eq_ok] at hl
      subst hl
      exact ⟨h, .refl h fun v hv => absurd hv.2 (by have := hv.1; omega)⟩
    · simp only [findVMA, bind_eq_ok, deref_eq_ok, Prod.exists] at hl
      obtain ⟨k, vma, hf, s₁, n, hd, hl⟩ := hl
      obtain ⟨hn, hend, hwf1, hdec⟩ := decommitBytes_spec h hf hva hrem hd
      have hnext : add64 va n = va + n := add64_of_lt (by omega)
      rw [hnext] at hl
      obtain ⟨hwf, hrest⟩ := ih hwf1 (by omega) (by omega) hl
      refine ⟨hwf, ?_⟩
      have htrans := hdec.trans h hrest
      have hset : (fun v => InRange va n v ∨ InRange (va + n) (rem - n) v) = InRange va rem := by
        funext v
        simp only [InRange, eq_iff_iff]
        omega
      rwa [hset] at htrans

/-- The search of `PoolDecommit` that checks the range accepts it. -/
def MemoryManager.DecommitAccepts (s : MemoryManager) (va size : ℕ) : Prop :=
  ∀ it vma, s.vma_map.floor? va = some (it, vma) →
    decommitValid (add64 va size) (s.vma_map.tailFrom it) = true

theorem poolDecommit_spec (h : WF cfg s) (hva : va < 2^64) (hsize : size < 2^64)
    (hm : s.poolDecommit va size = .ok (s', r)) : WF cfg s' ∧ (s' = s ∧ r = .einval ∧ ¬ s.DecommitAccepts va size ∨
      r = .ok ∧ s.DecommitAccepts va size ∧ ∃ s₁, WF cfg s₁ ∧
        Decommitted cfg s s₁ (InRange va size) ∧ s' = s₁.host (.unmap va size)) := by
  simp only [poolDecommit, findVMA, bind_eq_ok, deref_eq_ok, Prod.exists] at hm
  obtain ⟨-, -, it, vma, hf, hm⟩ := hm
  have haccepts : s.DecommitAccepts va size ↔ decommitValid (add64 va size) (s.vma_map.tailFrom it) = true := by
    refine ⟨fun ha => ha it vma hf, fun hv it' vma' hf' => ?_⟩
    rw [hf, some.injEq, Prod.mk.injEq] at hf'
    exact hf'.1 ▸ hv
  split_ifs at hm with hvalid
  · simp only [bind_eq_ok, pure_eq_ok, Prod.mk.injEq] at hm
    obtain ⟨s₁, hl, rfl, rfl⟩ := hm
    obtain ⟨hwf, hdec⟩ := decommitLoop_spec h hva hsize hl
    refine ⟨⟨hwf.virt, hwf.direct, hwf.flexible, hwf.direct_le, hwf.paddr_lt, hwf.usage_lt,
      hwf.budget_lt⟩, .inr ⟨rfl, haccepts.mpr hvalid, s₁, hwf, hdec, rfl⟩⟩
  · rw [pure_eq_ok, Prod.mk.injEq] at hm
    obtain ⟨rfl, rfl⟩ := hm
    exact ⟨h, .inl ⟨rfl, rfl, fun ha => hvalid (haccepts.mp ha)⟩⟩

end ShadPS4.Memory
