import ShadPS4.Memory.View

/-!
# Unmapping, byte by byte

What `UnmapBytesFromEntry` and the loops over it do to the bytes of a state.
-/

namespace ShadPS4.Memory

open MemoryManager
open Option (some.injEq)

variable {fuel k n p rem size start va : ℕ} {vma : VirtualMemoryArea}
variable {cfg : Config} {s s' s₁ s₂ : MemoryManager} {v x : ℕ}

/-! ## The loop over physical areas -/

theorem forPhysAreas_rule {f : MemoryManager → ℕ → ℕ → Except Fault MemoryManager} {e : Assertion}
    {pm : PhysMap} {N j : ℕ} {a : PhysicalMemoryArea} {P : ℕ → MemoryManager → Prop}
    {F : Fault → Prop} (hpm : pm.Partition physExtent (Span 0 N)) (hN : N < 2^64)
    (haddr : ∀ i b, pm.byteAt physExtent i = some b → b.addr < 2^64)
    (hend : start + n ≤ N) (hj : pm.floor? start = some (j, a))
    (hstep : ∀ cur len p s, start ≤ cur → 0 < len → cur + len ≤ start + n →
      (∃ k b, (k, b) ∈ pm ∧ k ≤ cur ∧ cur + len ≤ k + b.size ∧ p + k = b.base + cur) →
      P cur s → Sat (f s p len) (P (cur + len)) F) (h0 : P start s) :
    Sat (forPhysAreas f e start (pm.tailFrom j) n s) (P (start + n)) F := by
  -- The list holds the entries from the one that covers `cur` on.
  suffices hgen : ∀ (l : List (ℕ × PhysicalMemoryArea)) (cur rem : ℕ) (s : MemoryManager),
      l.Pairwise (fun p q => p.1 < q.1) → start ≤ cur → cur + rem = start + n →
      (0 < rem → ∃ k b, (k, b) ∈ pm ∧ k ≤ cur ∧ cur < k + b.size ∧ cur = max k start ∧
        ∀ q, q ∈ l ↔ q ∈ pm ∧ k ≤ q.1) →
      P cur s → Sat (forPhysAreas f e start l rem s) (P (start + n)) F by
    rw [OrdMap.floor?_eq_some_iff] at hj
    refine hgen _ start n s OrdMap.tailFrom_sorted le_rfl rfl (fun hn => ?_) h0
    obtain ⟨k, b, hk, hks, hke⟩ := (hpm.cover start).mp ⟨Nat.zero_le _, by omega⟩
    have hjk : j = k := by
      have h1 := hj.2.2 (k, b) hk hks
      rcases Nat.lt_or_ge k j with hlt | hge
      · have := hpm.disjoint k b j a hk hj.1 hlt
        omega
      · simp only at h1
        omega
    subst hjk
    exact ⟨j, b, hk, hks, hke, by omega, fun q => OrdMap.mem_tailFrom⟩
  intro l
  induction l with
  | nil =>
    intro cur rem s _ hcur hsum hcov hP
    rcases Nat.eq_zero_or_pos rem with rfl | hrem
    · have heq : cur = start + n := by omega
      subst heq
      exact Sat.bind (P := fun _ => True) ⟨fun _ _ => trivial, fun e' he => by
        simp [require] at he⟩ fun _ _ => Sat.pure hP
    · obtain ⟨k, b, hk, -, -, -, hl⟩ := hcov hrem
      exact absurd ((hl (k, b)).mpr ⟨hk, le_rfl⟩) (by simp)
  | cons q l ih =>
    intro cur rem s hsorted hcur hsum hcov hP
    obtain ⟨k0, b0⟩ := q
    rw [List.pairwise_cons] at hsorted
    rcases Nat.eq_zero_or_pos rem with rfl | hrem
    · have heq : cur = start + n := by omega
      subst heq
      exact Sat.pure hP
    · obtain ⟨k, b, hk, hkc, hkend, hmax, hl⟩ := hcov hrem
      -- The head of the list is the entry that covers `cur`.
      have hhead : k0 = k := by
        have h1 := ((hl (k0, b0)).mp (by simp)).2
        rcases List.mem_cons.mp ((hl (k, b)).mpr ⟨hk, le_rfl⟩) with heq | hmem
        · simp only [Prod.mk.injEq] at heq
          exact heq.1.symm
        · have := hsorted.1 _ hmem
          omega
      subst hhead
      obtain rfl : b0 = b := OrdMap.mem_unique ((hl (k0, b0)).mp (by simp)).1 hk
      have hbN : k0 + b0.size ≤ N := by
        have := (hpm.cover (k0 + b0.size - 1)).mpr ⟨k0, b0, hk, by omega, by simp only [physExtent_size]; omega⟩
        unfold Span at this
        omega
      have hbase : b0.base + (cur - k0) < 2^64 := by
        have := haddr cur _ (hpm.byteAt_of_covers ⟨hk, hkc, hkend⟩)
        simpa using this
      have hoff : max k0 start - k0 = cur - k0 := by rw [← hmax]
      have hsub : sub64 b0.size (cur - k0) = b0.size - (cur - k0) :=
        sub64_of_le (by omega) (by omega)
      simp only [forPhysAreas, if_neg (Nat.pos_iff_ne_zero.mp hrem), hoff, hsub, add64_of_lt hbase]
      set len := min rem (b0.size - (cur - k0)) with hlen
      have hlen_pos : 0 < len := by omega
      refine Sat.bind (hstep cur len (b0.base + (cur - k0)) s hcur hlen_pos (by omega)
        ⟨k0, b0, hk, hkc, by omega, by omega⟩ hP) fun s' hP' => ?_
      refine ih (cur + len) (rem - len) s' hsorted.2 (by omega) (by omega) (fun hrem' => ?_) hP'
      -- What remains starts where the next entry does.
      obtain ⟨k1, b1, hk1, hk₁c, hk₁end⟩ := (hpm.cover (cur + len)).mp ⟨Nat.zero_le _, by omega⟩
      have hk₁eq : k1 = cur + len := by
        rcases Nat.lt_trichotomy k1 k0 with hlt | heq | hgt
        · have := hpm.disjoint k1 b1 k0 b0 hk1 hk hlt
          omega
        · subst heq
          obtain rfl := OrdMap.mem_unique hk1 hk
          simp only [physExtent_size] at hk₁end
          omega
        · have := hpm.disjoint k0 b0 k1 b1 hk hk1 hgt
          simp only [physExtent_size] at this
          omega
      refine ⟨k1, b1, hk1, hk₁c, hk₁end, by omega, fun q => ?_⟩
      have hq := hl q
      simp only [List.mem_cons] at hq
      constructor
      · intro hmem
        have hlt := hsorted.1 q hmem
        obtain ⟨hqp, -⟩ := hq.mp (.inr hmem)
        have := hpm.disjoint k0 b0 q.1 q.2 hk hqp hlt
        simp only [physExtent_size] at this
        exact ⟨hqp, by omega⟩
      · rintro ⟨hqp, hle⟩
        rcases hq.mpr ⟨hqp, by omega⟩ with rfl | hmem
        · simp only at hle
          omega
        · exact hmem

/-! ## The physical areas behind a range -/

/-- The physical address behind the byte at an offset of a virtual area. -/
def VirtualMemoryArea.paddr (vma : VirtualMemoryArea) (i : ℕ) : Option ℕ :=
  (vma.phys_areas.byteAt physExtent i).map (·.addr)

/-- The physical addresses behind the offsets `[lo, hi)` of a virtual area. -/
def VirtualMemoryArea.PhysOf (vma : VirtualMemoryArea) (lo hi x : ℕ) : Prop :=
  ∃ i, lo ≤ i ∧ i < hi ∧ vma.paddr i = some x

theorem VirtualMemoryArea.physOf_step (hpart : vma.phys_areas.Partition physExtent (Span 0 vma.size))
    (hcur : start ≤ cur) (hk : (k, b) ∈ vma.phys_areas) (hkc : k ≤ cur)
    (hend : cur + len ≤ k + b.size) (hp : p + k = b.base + cur) (x : ℕ) :
    vma.PhysOf start cur x ∨ InRange p len x ↔ vma.PhysOf start (cur + len) x := by
  have hpaddr : ∀ i, cur ≤ i → i < cur + len → vma.paddr i = some (p + (i - cur)) := by
    intro i h1 h2
    rw [VirtualMemoryArea.paddr, hpart.byteAt_of_covers ⟨hk, by omega, by simp only [physExtent_size]; omega⟩]
    simp only [physExtent_byte, Option.map_some, some.injEq]
    omega
  constructor
  · rintro (⟨i, h1, h2, hx⟩ | ⟨h1, h2⟩)
    · exact ⟨i, h1, by omega, hx⟩
    · refine ⟨cur + (x - p), by omega, by omega, ?_⟩
      rw [hpaddr _ (by omega) (by omega), some.injEq]
      omega
  · rintro ⟨i, h1, h2, hx⟩
    rcases Nat.lt_or_ge i cur with hi | hi
    · exact .inl ⟨i, h1, hi, hx⟩
    · rw [hpaddr i hi h2, some.injEq] at hx
      exact .inr ⟨by omega, by omega⟩

theorem unmapPhys_direct (ht : Tiles s.dmem_map 0 s.total_direct_size) (hn : n < 2^64)
    (h : unmapPhys .direct s p n = .ok s') : s' = { s with dmem_map := s'.dmem_map } ∧
      RetypedOn s.dmem_map s'.dmem_map 0 s.total_direct_size (InRange p n)
        (setDma .allocated) := by
  simp only [unmapPhys, if_true, bind_eq_ok, deref_eq_ok, pure_eq_ok, Prod.exists] at h
  obtain ⟨m1, k, hc, a, hg, m2, l, hm, rfl⟩ := h
  obtain ⟨hr, hglue⟩ := retyped_of_carve_merge ht hn hc hg hm rfl rfl (f := setDma .allocated) (fun _ => rfl)
  exact ⟨rfl, .of_retyped ht hr hglue⟩

theorem unmapPhys_flexible (ht : Tiles s.fmem_map lo hi) (hn : n < 2^64) (h : unmapPhys .flexible s p n = .ok s') :
    s' = { s with fmem_map := s'.fmem_map, flexible_usage := sub64 s.flexible_usage n } ∧
      RetypedOn s.fmem_map s'.fmem_map lo hi (InRange p n) (setDma .free) := by
  simp only [unmapPhys, reduceCtorEq, if_false, if_true, bind_eq_ok, deref_eq_ok, pure_eq_ok, Prod.exists] at h
  obtain ⟨m1, k, hc, a, hg, m2, l, hm, rfl⟩ := h
  obtain ⟨hr, hglue⟩ := retyped_of_carve_merge ht hn hc hg hm rfl rfl (f := setDma .free) (fun _ => rfl)
  exact ⟨rfl, .of_retyped ht hr hglue⟩

theorem unmapBacking_spec (h : WF cfg s)
    (hk : (k, vma) ∈ s.vma_map) (hpool : vma.type ≠ .pooled) (hend : start + n ≤ vma.size)
    (hu : s.unmapBacking vma start n = .ok s') : ∃ dmem fmem, s' = { s with
        dmem_map := dmem, fmem_map := fmem
        flexible_usage := if vma.type = .flexible then sub64 s.flexible_usage n
          else s.flexible_usage } ∧
      RetypedOn s.dmem_map dmem 0 s.total_direct_size
        (fun x => vma.type = .direct ∧ vma.PhysOf start (start + n) x) (setDma .allocated) ∧
      RetypedOn s.fmem_map fmem cfg.direct_size (cfg.direct_size + cfg.flexible_size)
        (fun x => vma.type = .flexible ∧ vma.PhysOf start (start + n) x) (setDma .free) := by
  have hbacked := h.virt.backed k vma hk
  have hvend := h.end_lt hk
  have hnone : ∀ x lo, ¬ vma.PhysOf lo lo x := by
    rintro x lo ⟨i, h1, h2, -⟩
    omega
  unfold unmapBacking at hu
  by_cases hempty : vma.phys_areas = .empty
  · -- There are no physical areas, and so nothing behind the range.
    have hno : ∀ x, ¬ vma.PhysOf start (start + n) x := by
      rintro x ⟨i, -, -, hx⟩
      simp [VirtualMemoryArea.paddr, hempty, byteAt_empty] at hx
    have husage : (if vma.type = .flexible then sub64 s.flexible_usage n else s.flexible_usage) =
        s.flexible_usage := by
      split_ifs with ht
      · have hpart := hbacked.part (.inr (.inl ht))
        have hpos := h.virt.part.pos k vma hk
        obtain ⟨j, a, ha, -⟩ := (hpart.cover 0).mp ⟨le_rfl, hpos⟩
        rw [hempty] at ha
        exact absurd ha OrdMap.not_mem_empty
      · rfl
    rw [if_neg (not_not.mpr hempty), pure_eq_ok] at hu
    subst hu
    exact ⟨s.dmem_map, s.fmem_map, by rw [husage], .refl h.direct fun x hx => hno x hx.2,
      .refl h.flexible fun x hx => hno x hx.2⟩
  · simp only [ne_eq, hempty, not_false_eq_true, if_true, bind_eq_ok, deref_eq_ok, Prod.exists] at hu
    obtain ⟨j, a, hfloor, hu⟩ := hu
    have hback : vma.type.HasPhysicalBacking := by
      by_contra hn
      exact hempty (hbacked.empty hn)
    have hpart := hbacked.part hback
    rcases hback with ht | ht | ht
    · -- Direct memory.
      rw [ht] at hu
      have hrule := forPhysAreas_rule (f := unmapPhys .direct) (e := .unmapPhysical) (s := s) (F := fun _ => True)
        (P := fun cur s₁ => s₁ = { s with dmem_map := s₁.dmem_map } ∧
          RetypedOn s.dmem_map s₁.dmem_map 0 s.total_direct_size (vma.PhysOf start cur)
            (setDma .allocated))
        hpart (by omega) (h.phys_addr_lt hk (.inl ht)) hend hfloor
        (fun cur len p s₁ hcur hlen hle ⟨l, b, hl, hlc, hlend, hp⟩ ⟨heq, hr⟩ =>
          ⟨fun s₂ hs2 => ?_, fun _ _ => trivial⟩) ⟨rfl, .refl h.direct fun x => hnone x start⟩
      · obtain ⟨heq, hr⟩ := hrule.1 s' hu
        refine ⟨s'.dmem_map, s.fmem_map, ?_, hr.congr fun x => by simp [ht],
          .refl h.flexible fun x hx => by simp [ht] at hx⟩
        rw [if_neg (by simp [ht])]
        exact heq
      · have htot : s₁.total_direct_size = s.total_direct_size := by rw [heq]
        obtain ⟨heq2, hr2⟩ := unmapPhys_direct (htot ▸ hr.tiles) (by omega) hs2
        refine ⟨by rw [heq2, heq], ?_⟩
        rw [htot] at hr2
        exact (hr.trans hr2 (setDma_setDma _ _)).congr (VirtualMemoryArea.physOf_step hpart hcur hl hlc hlend hp)
    · -- Flexible memory.
      rw [ht] at hu
      have hrule := forPhysAreas_rule (f := unmapPhys .flexible) (e := .unmapPhysical) (s := s)
        (P := fun cur s₁ => s₁ = { s with
              fmem_map := s₁.fmem_map
              flexible_usage := sub64 s.flexible_usage (cur - start) } ∧
          RetypedOn s.fmem_map s₁.fmem_map cfg.direct_size (cfg.direct_size + cfg.flexible_size)
            (vma.PhysOf start cur) (setDma .free))
        hpart (by omega) (h.phys_addr_lt hk (.inr (.inl ht))) hend hfloor
        (fun cur len p s₁ hcur hlen hle ⟨l, b, hl, hlc, hlend, hp⟩ ⟨heq, hr⟩ =>
          ⟨fun s₂ hs2 => ?_, fun _ _ => trivial⟩) ⟨?_, .refl h.flexible fun x => hnone x start⟩
      · obtain ⟨heq, hr⟩ := hrule.1 s' hu
        refine ⟨s.dmem_map, s'.fmem_map, ?_, .refl h.direct fun x hx => by simp [ht] at hx,
          hr.congr fun x => by simp [ht]⟩
        rw [if_pos ht]
        rw [Nat.add_sub_cancel_left] at heq
        exact heq
      · obtain ⟨heq2, hr2⟩ := unmapPhys_flexible hr.tiles (by omega) hs2
        refine ⟨?_, (hr.trans hr2 (setDma_setDma _ _)).congr
          (VirtualMemoryArea.physOf_step hpart hcur hl hlc hlend hp)⟩
        have husage : sub64 s₁.flexible_usage len = sub64 s.flexible_usage (cur + len - start) := by
          have hu1 : s₁.flexible_usage = sub64 s.flexible_usage (cur - start) := by rw [heq]
          rw [hu1, sub64_sub64 (by omega), show cur - start + len = cur + len - start by omega]
        rw [heq2, husage, heq]
      · rw [Nat.sub_self, sub64_zero h.usage_lt]
    · exact absurd ht hpool

theorem unmapPhys_vma_map (h : unmapPhys t s p n = .ok s') : s'.vma_map = s.vma_map := by
  unfold unmapPhys at h
  split_ifs at h
  · simp only [bind_eq_ok, pure_eq_ok, Prod.exists] at h
    obtain ⟨_, _, -, _, -, _, _, -, rfl⟩ := h
    rfl
  · simp only [bind_eq_ok, pure_eq_ok, Prod.exists] at h
    obtain ⟨_, _, -, _, -, _, _, -, rfl⟩ := h
    rfl
  · rw [pure_eq_ok] at h
    rw [h]

theorem forPhysAreas_vma_map
     (hf : ∀ s s' p n, f s p n = .ok s' → s'.vma_map = s.vma_map)
    (h : forPhysAreas f e start l n s = .ok s') : s'.vma_map = s.vma_map := by
  induction l generalizing n s with
  | nil =>
    simp only [forPhysAreas, bind_eq_ok, pure_eq_ok] at h
    obtain ⟨-, -, rfl⟩ := h
    rfl
  | cons q l ih =>
    simp only [forPhysAreas] at h
    split_ifs at h
    · rw [pure_eq_ok] at h
      rw [h]
    · simp only [bind_eq_ok] at h
      obtain ⟨s₁, hs1, h⟩ := h
      rw [ih h, hf _ _ _ _ hs1]

theorem unmapBacking_vma_map (h : s.unmapBacking vma start n = .ok s') : s'.vma_map = s.vma_map := by
  unfold unmapBacking at h
  split_ifs at h
  · simp only [bind_eq_ok, Prod.exists] at h
    obtain ⟨_, _, -, h⟩ := h
    exact forPhysAreas_vma_map (fun _ _ _ _ => unmapPhys_vma_map) h
  · rw [pure_eq_ok] at h
    rw [h]

/-! ## The effect of unmapping -/

/-- The virtual byte is one that `UnmapBytesFromEntry` unmaps: it is neither free nor pooled. -/
def MemoryManager.Unmappable (s : MemoryManager) (v : ℕ) : Prop :=
  ∃ b, s.vbyte v = some b ∧ b.type ≠ .free ∧ b.type ≠ .pooled

def freeByte (v : ℕ) : VByte := ⟨v, .free, MemoryProt.noAccess, none⟩

/-- The state `s'` is `s` with the virtual bytes in `S` unmapped. -/
structure Unmapped (cfg : Config) (s s' : MemoryManager) (S : ℕ → Prop) : Prop where
  vinside : ∀ v, S v → s.Unmappable v → s'.vbyte v = some (freeByte v)
  voutside : ∀ v, ¬ (S v ∧ s.Unmappable v) → s'.vbyte v = s.vbyte v
  direct : RetypedOn s.dmem_map s'.dmem_map 0 s.total_direct_size
    (fun x => ∃ v, S v ∧ s.Maps .direct v x) (setDma .allocated)
  flexible : RetypedOn s.fmem_map s'.fmem_map cfg.direct_size
    (cfg.direct_size + cfg.flexible_size) (fun x => ∃ v, S v ∧ s.Maps .flexible v x) (setDma .free)
  usage : s'.flexible_usage =
    sub64 s.flexible_usage {v | S v ∧ s.HasType .flexible v}.ncard
  phys_inside : ∀ v, S v → s.Unmappable v → ¬ s.HasType .reserved v →
    ¬ s.HasType .poolReserved v → hostPhys s'.impl.calls v = none
  phys_outside : ∀ v, ¬ (S v ∧ s.Unmappable v) →
    hostPhys s'.impl.calls v = hostPhys s.impl.calls v
  total_direct : s'.total_direct_size = s.total_direct_size
  total_flexible : s'.total_flexible_size = s.total_flexible_size
  budget : s'.pool_budget = s.pool_budget

namespace Unmapped

variable {S T : ℕ → Prop}

theorem unmappable_iff (h : Unmapped cfg s s' S) : s'.Unmappable v ↔ s.Unmappable v ∧ ¬ S v := by
  unfold MemoryManager.Unmappable
  by_cases hS : S v ∧ s.Unmappable v
  · rw [h.vinside v hS.1 hS.2]
    simp [freeByte, hS.1]
  · rw [h.voutside v hS]
    constructor
    · exact fun hu => ⟨hu, fun hv => hS ⟨hv, hu⟩⟩
    · exact fun hu => hu.1

theorem hasType_iff (h : Unmapped cfg s s' S) (ht : t ≠ .free) (ht' : t ≠ .pooled) :
    s'.HasType t v ↔ s.HasType t v ∧ ¬ S v := by
  unfold MemoryManager.HasType
  by_cases hS : S v ∧ s.Unmappable v
  · rw [h.vinside v hS.1 hS.2]
    simp [freeByte, hS.1, ht.symm]
  · rw [h.voutside v hS]
    constructor
    · rintro ⟨b, hb, rfl⟩
      exact ⟨⟨b, hb, rfl⟩, fun hv => hS ⟨hv, b, hb, ht, ht'⟩⟩
    · exact fun hu => hu.1

theorem maps_iff (h : Unmapped cfg s s' S) (ht : t ≠ .free) (ht' : t ≠ .pooled) :
    s'.Maps t v x ↔ s.Maps t v x ∧ ¬ S v := by
  unfold MemoryManager.Maps
  by_cases hS : S v ∧ s.Unmappable v
  · rw [h.vinside v hS.1 hS.2]
    simp [freeByte, hS.1]
  · rw [h.voutside v hS]
    constructor
    · rintro ⟨b, hb, rfl, hx⟩
      exact ⟨⟨b, hb, rfl, hx⟩, fun hv => hS ⟨hv, b, hb, ht, ht'⟩⟩
    · exact fun hu => hu.1

theorem maps_pooled_iff (h : Unmapped cfg s s' S) : s'.Maps .pooled v x ↔ s.Maps .pooled v x := by
  unfold MemoryManager.Maps
  by_cases hS : S v ∧ s.Unmappable v
  · rw [h.vinside v hS.1 hS.2]
    obtain ⟨b, hb, -, hp⟩ := hS.2
    simp [freeByte, hb, hp]
  · rw [h.voutside v hS]

theorem finite_hasType (h : WF cfg s) (S : ℕ → Prop) (t : VMAType) : {v | S v ∧ s.HasType t v}.Finite := by
  refine (Set.finite_Iio (2^63)).subset ?_
  rintro v ⟨-, b, hb, -⟩
  exact (Nat.lt_succ_self v).trans (h.vbyte_isSome.mp (Option.isSome_iff_exists.mpr ⟨b, hb⟩)).lt

theorem ncard_hasType_le (h : WF cfg s) (S : ℕ → Prop) (t : VMAType) : {v | S v ∧ s.HasType t v}.ncard ≤ 2^63 := by
  have hsub : {v | S v ∧ s.HasType t v} ⊆ Set.Iio (2^63) := by
    rintro v ⟨-, b, hb, -⟩
    exact (Nat.lt_succ_self v).trans (h.vbyte_isSome.mp (Option.isSome_iff_exists.mpr ⟨b, hb⟩)).lt
  have := Set.ncard_le_ncard hsub (Set.finite_Iio _)
  rwa [← Finset.coe_Iio, Set.ncard_coe_finset, Nat.card_Iio] at this

theorem refl (h : WF cfg s) (hS : ∀ v, S v → ¬ s.Unmappable v) : Unmapped cfg s s S := by
  have hmaps : ∀ t v, t ≠ .free → t ≠ .pooled → S v → ¬ s.HasType t v := by
    rintro t v ht ht' hv ⟨b, hb, rfl⟩
    exact hS v hv ⟨b, hb, ht, ht'⟩
  have hzero : {v | S v ∧ s.HasType .flexible v} = ∅ := by
    ext v
    simp only [Set.mem_ofPred_eq, Set.mem_empty_iff_false, iff_false, not_and]
    exact hmaps .flexible v (by decide) (by decide)
  refine ⟨fun v hv hu => absurd hu (hS v hv), fun _ _ => rfl, .refl h.direct ?_, .refl h.flexible ?_,
    ?_, fun v hv hu => absurd hu (hS v hv), fun _ _ => rfl, rfl, rfl, rfl⟩
  · rintro x ⟨v, hv, hm⟩
    exact hmaps .direct v (by decide) (by decide) hv hm.hasType
  · rintro x ⟨v, hv, hm⟩
    exact hmaps .flexible v (by decide) (by decide) hv hm.hasType
  · rw [hzero, Set.ncard_empty, sub64_zero h.usage_lt]

theorem refl_nil (h : WF cfg s) (va : ℕ) :
    Unmapped cfg s s fun v => InRange va 0 v ∧ ∀ u, va ≤ u → u ≤ v → cfg.Usable u :=
  refl h fun v hv => by
    obtain ⟨⟨h1, h2⟩, -⟩ := hv
    omega

theorem trans (hwf : WF cfg s) (h : Unmapped cfg s s₁ S) (h' : Unmapped cfg s₁ s₂ T) :
    Unmapped cfg s s₂ fun v => S v ∨ T v := by
  have hset : ∀ t x, t ≠ .free → t ≠ .pooled → ((∃ v, S v ∧ s.Maps t v x) ∨ (∃ v, T v ∧ s₁.Maps t v x) ↔
        ∃ v, (S v ∨ T v) ∧ s.Maps t v x) := by
    intro t x ht ht'
    constructor
    · rintro (⟨v, hv, hm⟩ | ⟨v, hv, hm⟩)
      · exact ⟨v, .inl hv, hm⟩
      · exact ⟨v, .inr hv, ((h.maps_iff ht ht').mp hm).1⟩
    · rintro ⟨v, hv, hm⟩
      by_cases hS : S v
      · exact .inl ⟨v, hS, hm⟩
      · exact .inr ⟨v, hv.resolve_left hS, (h.maps_iff ht ht').mpr ⟨hm, hS⟩⟩
  refine ⟨fun v hv hu => ?_, fun v hv => ?_, ?_, ?_, ?_, fun v hv hu hr hp => ?_, fun v hv => ?_,
    h'.total_direct.trans h.total_direct, h'.total_flexible.trans h.total_flexible,
    h'.budget.trans h.budget⟩
  · by_cases hS : S v
    · rw [h'.voutside v fun ht => (h.unmappable_iff.mp ht.2).2 hS, h.vinside v hS hu]
    · exact h'.vinside v (hv.resolve_left hS) (h.unmappable_iff.mpr ⟨hu, hS⟩)
  · rw [h'.voutside v fun ht => hv ⟨.inr ht.1, (h.unmappable_iff.mp ht.2).1⟩,
      h.voutside v fun ht => hv ⟨.inl ht.1, ht.2⟩]
  · have hd := h'.direct
    rw [h.total_direct] at hd
    exact (h.direct.trans hd (setDma_setDma _ _)).congr fun x =>
      hset .direct x (by decide) (by decide)
  · exact (h.flexible.trans h'.flexible (setDma_setDma _ _)).congr fun x =>
      hset .flexible x (by decide) (by decide)
  · have hsplit : {v | (S v ∨ T v) ∧ s.HasType .flexible v} =
        {v | S v ∧ s.HasType .flexible v} ∪ {v | T v ∧ s₁.HasType .flexible v} := by
      ext v
      simp only [Set.mem_ofPred_eq, Set.mem_union, h.hasType_iff (t := .flexible) (by decide) (by decide)]
      tauto
    have hfin : {v | T v ∧ s₁.HasType .flexible v}.Finite := by
      refine (finite_hasType hwf T .flexible).subset ?_
      rintro v ⟨hv, ht⟩
      exact ⟨hv, ((h.hasType_iff (by decide) (by decide)).mp ht).1⟩
    have hdisj : Disjoint {v | S v ∧ s.HasType .flexible v} {v | T v ∧ s₁.HasType .flexible v} := by
      rw [Set.disjoint_left]
      rintro v ⟨hv, -⟩ ⟨-, ht⟩
      exact ((h.hasType_iff (by decide) (by decide)).mp ht).2 hv
    have hle := ncard_hasType_le hwf (fun v => S v ∨ T v) .flexible
    rw [hsplit, Set.ncard_union_eq hdisj (finite_hasType hwf S .flexible) hfin] at hle ⊢
    rw [h'.usage, h.usage, sub64_sub64 (by omega)]
  · by_cases hS : S v
    · rw [h'.phys_outside v fun ht => (h.unmappable_iff.mp ht.2).2 hS]
      exact h.phys_inside v hS hu hr hp
    · refine h'.phys_inside v (hv.resolve_left hS) (h.unmappable_iff.mpr ⟨hu, hS⟩) ?_ ?_
      · exact fun ht => hr ((h.hasType_iff (by decide) (by decide)).mp ht).1
      · exact fun ht => hp ((h.hasType_iff (by decide) (by decide)).mp ht).1
  · rw [h'.phys_outside v fun ht => hv ⟨.inr ht.1, (h.unmappable_iff.mp ht.2).1⟩,
      h.phys_outside v fun ht => hv ⟨.inl ht.1, ht.2⟩]

theorem congr (h : Unmapped cfg s s' S) (hST : ∀ v, S v ↔ T v) : Unmapped cfg s s' T := by
  have : S = T := funext fun v => propext (hST v)
  exact this ▸ h

end Unmapped

/-! ## `UnmapBytesFromEntry` -/

theorem backed_of_empty (ht : ¬ vma.type.HasPhysicalBacking) (he : vma.phys_areas = .empty) : vma.Backed :=
  ⟨fun hp => absurd hp ht, fun _ => he⟩

theorem WF.physOf_iff (h : WF cfg s) (hk : (k, vma) ∈ s.vma_map) (hend : start + n ≤ vma.size) :
    vma.PhysOf start (start + n) x ↔ ∃ v, InRange (k + start) n v ∧ s.Maps vma.type v x := by
  constructor
  · rintro ⟨i, h1, h2, hx⟩
    have hbyte := h.vbyte_of_mem hk (v := k + i) ⟨by omega, by omega⟩
    rw [Nat.add_sub_cancel_left] at hbyte
    exact ⟨k + i, ⟨by omega, by omega⟩, _, hbyte, rfl, hx⟩
  · rintro ⟨v, ⟨h1, h2⟩, b, hb, -, hx⟩
    rw [h.vbyte_of_mem hk ⟨by omega, by omega⟩, some.injEq] at hb
    subst hb
    exact ⟨v - k, by omega, by omega, hx⟩

theorem ncard_inRange (start size : ℕ) : {v | InRange start size v}.ncard = size := by
  have : {v | InRange start size v} = ↑(Finset.Ico start (start + size)) := by
    ext v
    simp [InRange]
  rw [this, Set.ncard_coe_finset, Nat.card_Ico]
  omega

theorem unmapBytesFromEntry_spec (h : WF cfg s) (hk : (k, vma) ∈ s.vma_map) (hva : InRange k vma.size va)
    (hu : s.unmapBytesFromEntry va vma size = .ok (s', n)) :
    n = min (k + vma.size - va) size ∧ WF cfg s' ∧ Unmapped cfg s s' (InRange va n) := by
  have hbase := h.virt.keyed k vma hk
  have hend := h.end_lt hk
  obtain ⟨hkv, hvk⟩ := hva
  have hstart : sub64 va vma.base = va - k := by
    rw [hbase]
    exact sub64_of_le (by omega) (by omega)
  have hsub : sub64 vma.size (va - k) = k + vma.size - va := by
    rw [sub64_of_le (by omega) (by omega)]
    omega
  have htype : ∀ v, InRange k vma.size v → s.HasType vma.type v := fun v hv =>
    ⟨_, h.vbyte_of_mem hk hv, rfl⟩
  unfold unmapBytesFromEntry at hu
  simp only [hstart, hsub] at hu
  by_cases hfree : vma.type = .free ∨ vma.type = .pooled
  · -- Free and pooled areas are left alone.
    rw [if_pos hfree, pure_eq_ok, Prod.mk.injEq] at hu
    obtain ⟨rfl, rfl⟩ := hu
    refine ⟨rfl, h, .refl h fun v ⟨h1, h2⟩ ⟨b, hb, hf, hp⟩ => ?_⟩
    have := (htype v ⟨by omega, by omega⟩).unique ⟨b, hb, rfl⟩
    exact hfree.elim (fun ht => hf (this ▸ ht)) (fun ht => hp (this ▸ ht))
  · simp only [if_neg hfree, bind_eq_ok, deref_eq_ok, Prod.exists] at hu
    obtain ⟨hnf, hnp⟩ := not_or.mp hfree
    obtain ⟨s₁, hback, m1, j, hc, w, hg, m2, l, hm, hu⟩ := hu
    obtain ⟨dmem, fmem, rfl, hdirect, hflex⟩ := unmapBacking_spec h hk hnp
      (n := min (k + vma.size - va) size) (by omega) hback
    -- The fields of the new state.
    have hfields : n = min (k + vma.size - va) size ∧ s'.vma_map = m2 ∧ s'.dmem_map = dmem ∧
        s'.fmem_map = fmem ∧ s'.total_direct_size = s.total_direct_size ∧
        s'.total_flexible_size = s.total_flexible_size ∧ s'.pool_budget = s.pool_budget ∧
        (s'.flexible_usage = if vma.type = .flexible then sub64 s.flexible_usage n
          else s.flexible_usage) ∧
        s'.impl.calls = if vma.type ≠ .reserved ∧ vma.type ≠ .poolReserved then
          .unmap va n :: s.impl.calls else s.impl.calls := by
      by_cases hres : vma.type ≠ .reserved ∧ vma.type ≠ .poolReserved
      · rw [if_pos hres, pure_eq_ok, Prod.mk.injEq] at hu
        obtain ⟨rfl, rfl⟩ := hu
        exact ⟨rfl, rfl, rfl, rfl, rfl, rfl, rfl, rfl, (if_pos hres).symm⟩
      · rw [if_neg hres, pure_eq_ok, Prod.mk.injEq] at hu
        obtain ⟨rfl, rfl⟩ := hu
        exact ⟨rfl, rfl, rfl, rfl, rfl, rfl, rfl, rfl, (if_neg hres).symm⟩
    obtain ⟨hn, hvma, hdm, hfm, htd, htf, hbud, husage, hcalls⟩ := hfields
    rw [← hn] at hc hdirect hflex
    obtain ⟨rfl, hwb, hws, hrep⟩ := vreplaced_of_carve (u := { w with
      type := .free, prot := MemoryProt.noAccess, phys_areas := .empty, disallow_merge := false,
      name := "" }) h.virt (by omega) hc hg rfl rfl (backed_of_empty (by
        simp [VMAType.HasPhysicalBacking]) rfl)
    have hrep2 := hrep.merge (OrdMap.mem_insert.mpr (.inl rfl)) hm
    have hbyte : ∀ v, s'.vbyte v = if InRange va n v then some (freeByte v) else s.vbyte v := by
      intro v
      rw [vbyte, hvma, hrep2.bytes]
      by_cases hv : InRange va n v
      · rw [if_pos hv, if_pos hv]
        obtain ⟨h1, h2⟩ := hv
        simp only [vmaExtent_byte, freeByte, byteAt_empty, Option.map_none, hwb]
        congr 2
        omega
      · rw [if_neg hv, if_neg hv]
        rfl
    have hin : ∀ v, InRange va n v → InRange k vma.size v := fun v ⟨h1, h2⟩ =>
      ⟨by omega, by omega⟩
    have hun : ∀ v, InRange va n v → s.Unmappable v := fun v hv =>
      ⟨_, h.vbyte_of_mem hk (hin v hv), hnf, hnp⟩
    have hset : ∀ t x, vma.type = t ∧ vma.PhysOf (va - k) (va - k + n) x ↔ ∃ v, InRange va n v ∧ s.Maps t v x := by
      intro t x
      rw [h.physOf_iff hk (by omega), show k + (va - k) = va by omega]
      constructor
      · rintro ⟨rfl, hx⟩
        exact hx
      · rintro ⟨v, hv, hx⟩
        obtain rfl := (htype v (hin v hv)).unique hx.hasType
        exact ⟨rfl, v, hv, hx⟩
    refine ⟨hn, ⟨hvma ▸ hrep2.tiles, ?_, hfm ▸ hflex.tiles, htd ▸ h.direct_le, ?_, ?_,
      hbud ▸ h.budget_lt⟩, ⟨?_, ?_, ?_, ?_, ?_, ?_, ?_, htd, htf, hbud⟩⟩
    · rw [hdm, htd]
      exact hdirect.tiles
    · intro v b x hb hx
      rw [hbyte] at hb
      split_ifs at hb with hv
      · simp only [some.injEq] at hb
        rw [← hb] at hx
        simp [freeByte] at hx
      · exact h.paddr_lt v b x hb hx
    · rw [husage]
      split_ifs
      · exact sub64_lt _ _
      · exact h.usage_lt
    · intro v hv _
      rw [hbyte, if_pos hv]
    · intro v hv
      rw [hbyte, if_neg fun hr => hv ⟨hr, hun v hr⟩]
    · rw [hdm]
      exact hdirect.congr (hset .direct)
    · rw [hfm]
      exact hflex.congr (hset .flexible)
    · rw [husage]
      by_cases ht : vma.type = .flexible
      · rw [if_pos ht]
        have : {v | InRange va n v ∧ s.HasType .flexible v} = {v | InRange va n v} := by
          ext v
          simp only [Set.mem_ofPred_eq, and_iff_left_iff_imp]
          exact fun hv => ht ▸ htype v (hin v hv)
        rw [this, ncard_inRange]
      · rw [if_neg ht]
        have : {v | InRange va n v ∧ s.HasType .flexible v} = ∅ := by
          ext v
          simp only [Set.mem_ofPred_eq, Set.mem_empty_iff_false, iff_false, not_and]
          exact fun hv hf => ht ((htype v (hin v hv)).unique hf)
        rw [this, Set.ncard_empty, sub64_zero h.usage_lt]
    · intro v hv _ hr hp
      rw [hcalls, if_pos]
      · simp [hostPhys, hv]
      · exact ⟨fun ht => hr (ht ▸ htype v (hin v hv)), fun ht => hp (ht ▸ htype v (hin v hv))⟩
    · intro v hv
      have hout : ¬ InRange va n v := fun hr => hv ⟨hr, hun v hr⟩
      rw [hcalls]
      split_ifs
      · simp [hostPhys, hout]
      · rfl

/-! ## The loops over virtual areas -/

theorem unmapBytesFromEntry_gap (h : WF cfg s)
    (hk : (k, vma) ∈ s.vma_map) (hva : k + vma.size ≤ va) (hva' : va < 2^64) (hsize : size < 2^64)
    (hfloor : s.vma_map.floor? va = some (k, vma)) (hu : s.unmapBytesFromEntry va vma size = .ok (s', n)) :
    s' = s ∧ n = min (sub64 vma.size (va - k)) size := by
  have hbase := h.virt.keyed k vma hk
  have hstart : sub64 va vma.base = va - k := by
    rw [hbase]
    exact sub64_of_le (by omega) (by omega)
  unfold unmapBytesFromEntry at hu
  simp only [hstart] at hu
  by_cases hfree : vma.type = .free ∨ vma.type = .pooled
  · rw [if_pos hfree, pure_eq_ok, Prod.mk.injEq] at hu
    exact ⟨hu.1.symm, hu.2.symm⟩
  · -- Carving fails: the range does not lie in the area.
    simp only [if_neg hfree, bind_eq_ok, Prod.exists] at hu
    obtain ⟨s₁, hback, m1, j, hc, -⟩ := hu
    have hvm : s₁.vma_map = s.vma_map := unmapBacking_vma_map hback
    rw [hvm] at hc
    obtain ⟨hpos, -, -, hend⟩ := h.fits_of_carve (by omega) hfloor hc
    omega

/-- The addresses of a range up to its first address that is not usable. -/
def Contig (cfg : Config) (va size v : ℕ) : Prop :=
  InRange va size v ∧ ∀ u, va ≤ u → u ≤ v → cfg.Usable u

theorem not_contig (hva : ¬ cfg.Usable va) (v : ℕ) : ¬ Contig cfg va size v :=
  fun ⟨hr, hu⟩ => hva (hu va le_rfl hr.1)

theorem contig_iff_of_usable (hu : ∀ v, InRange va size v → cfg.Usable v) (v : ℕ) :
    Contig cfg va size v ↔ InRange va size v :=
  ⟨fun h => h.1, fun h => ⟨h, fun u h1 h2 => hu u ⟨h1, by have := h.2; omega⟩⟩⟩

theorem contig_append (hu : ∀ v, InRange va n v → cfg.Usable v) (v : ℕ) :
    InRange va n v ∨ Contig cfg (va + n) m v ↔ Contig cfg va (n + m) v := by
  constructor
  · rintro (⟨h1, h2⟩ | ⟨⟨h1, h2⟩, h3⟩)
    · exact ⟨⟨h1, by omega⟩, fun u hu1 hu2 => hu u ⟨hu1, by omega⟩⟩
    · refine ⟨⟨by omega, by omega⟩, fun u hu1 hu2 => ?_⟩
      rcases Nat.lt_or_ge u (va + n) with hlt | hge
      · exact hu u ⟨hu1, hlt⟩
      · exact h3 u hge hu2
  · rintro ⟨⟨h1, h2⟩, h3⟩
    rcases Nat.lt_or_ge v (va + n) with hlt | hge
    · exact .inl ⟨h1, hlt⟩
    · exact .inr ⟨⟨hge, by omega⟩, fun u hu1 hu2 => h3 u (by omega) hu2⟩

theorem WF.floor_cases (h : WF cfg s) (hf : s.vma_map.floor? va = some (k, vma)) : (k, vma) ∈ s.vma_map ∧
      (InRange k vma.size va ∨ k + vma.size ≤ va ∧ ¬ cfg.Usable va) := by
  have hmem := OrdMap.floor?_eq_some_iff.mp hf
  refine ⟨hmem.1, ?_⟩
  rcases Nat.lt_or_ge va (k + vma.size) with hlt | hge
  · exact .inl ⟨hmem.2.1, hlt⟩
  · refine .inr ⟨hge, fun hu => ?_⟩
    obtain ⟨j, w, hc⟩ := (h.virt.part.cover va).mp hu
    rw [h.virt.part.floor?_of_covers hc, some.injEq, Prod.mk.injEq] at hf
    obtain ⟨rfl, rfl⟩ := hf
    have := hc.2.2
    simp only [vmaExtent_size] at this
    omega

theorem WF.usable_of_mem (h : WF cfg s) (hk : (k, vma) ∈ s.vma_map) (hv : InRange k vma.size v) : cfg.Usable v :=
  (h.virt.part.cover v).mpr ⟨k, vma, hk, hv⟩

theorem unmapMemoryLoop_end (h : WF cfg s) (hsize : size < 2^64) (hf : s.vma_map.floor? (add64 va n) = some (k, vma))
    (ha : add64 va n = k + vma.size) : unmapMemoryLoop va size fuel s n ≠ .ok s' := by
  intro hl
  cases fuel with
  | zero => simp [unmapMemoryLoop] at hl
  | succ fuel =>
    simp only [unmapMemoryLoop, findVMA, hf, deref, bind_eq_ok, Except.ok.injEq, Prod.exists,
      Prod.mk.injEq, require_eq_ok] at hl
    obtain ⟨j, w, ⟨rfl, rfl⟩, s₁, m, hu, -, hpos, -⟩ := hl
    obtain ⟨hmem, -⟩ := h.floor_cases hf
    obtain ⟨-, hm⟩ := unmapBytesFromEntry_gap h hmem (by omega) (add64_lt _ _) (by omega) hf hu
    rw [ha, Nat.add_sub_cancel_left, sub64_of_le le_rfl (by have := h.end_lt hmem; omega)] at hm
    omega

theorem WF.gap_step (h : WF cfg s)
    (hf : s.vma_map.floor? va = some (k, vma)) (hgap : k + vma.size ≤ va) (hva : va < 2^64)
    (hn : n = min (sub64 vma.size (va - k)) rem) (hrem : n < rem) :
    add64 va n = k + vma.size ∧ s.vma_map.floor? (k + vma.size) = some (k, vma) := by
  rw [OrdMap.floor?_eq_some_iff] at hf
  have hnval : n = sub64 vma.size (va - k) := by omega
  refine ⟨?_, OrdMap.floor?_eq_some_iff.mpr ⟨hf.1, by omega, fun q hq hle => hf.2.2 q hq (by omega)⟩⟩
  unfold sub64 at hnval
  unfold add64
  omega

theorem unmapMemoryLoop_spec (h : WF cfg s) (hsize : size < 2^64) (hl : unmapMemoryLoop va size fuel s n = .ok s') :
    WF cfg s' ∧ Unmapped cfg s s' (Contig cfg (add64 va n) (size - n)) := by
  induction fuel generalizing s n with
  | zero => simp [unmapMemoryLoop] at hl
  | succ fuel ih =>
    simp only [unmapMemoryLoop, findVMA, bind_eq_ok, deref_eq_ok, Prod.exists, require_eq_ok] at hl
    obtain ⟨k, vma, hf, s₁, m, hu, -, hpos, hl⟩ := hl
    obtain ⟨hmem, hin | ⟨hgap, hnot⟩⟩ := h.floor_cases hf
    · obtain ⟨hm, hwf1, hun1⟩ := unmapBytesFromEntry_spec h hmem hin hu
      have hend := h.end_lt hmem
      have husable : ∀ v, InRange (add64 va n) m v → cfg.Usable v := fun v hv =>
        h.usable_of_mem hmem ⟨by have := hin.1; have := hv.1; omega, by
          have := hin.2; have := hv.2; omega⟩
      split_ifs at hl with hlt
      · obtain ⟨hwf', hun'⟩ := ih hwf1 hl
        refine ⟨hwf', (hun1.trans h hun').congr fun v => ?_⟩
        have hnext : add64 va (n + m) = add64 va n + m := by
          rw [← add64_add64, add64_of_lt (by have := hin.2; omega)]
        rw [hnext, show size - n = m + (size - (n + m)) by omega]
        exact contig_append husable v
      · rw [pure_eq_ok] at hl
        subst hl
        refine ⟨hwf1, hun1.congr fun v => ?_⟩
        rw [show size - n = m by omega]
        exact (contig_iff_of_usable husable v).symm
    · obtain ⟨rfl, hm⟩ := unmapBytesFromEntry_gap h hmem hgap (add64_lt _ _) (by omega) hf hu
      split_ifs at hl with hlt
      · obtain ⟨hend, hf'⟩ := h.gap_step hf hgap (add64_lt _ _) hm (by omega)
        rw [add64_add64] at hend
        exact absurd hl (unmapMemoryLoop_end h hsize (hend ▸ hf') hend)
      · rw [pure_eq_ok] at hl
        subst hl
        exact ⟨h, .refl h fun v hv => absurd hv (not_contig hnot v)⟩

theorem unmapMemoryImpl_spec (h : WF cfg s) (hva : va < 2^64) (hsize : size < 2^64)
    (hl : s.unmapMemoryImpl va size = .ok s') : WF cfg s' ∧ Unmapped cfg s s' (Contig cfg va size) := by
  have := unmapMemoryLoop_spec h hsize hl
  rwa [add64_zero hva, Nat.sub_zero] at this

theorem clearRange_end (h : WF cfg s)
    (hrem : 0 < rem) (hrem' : rem < 2^64) (hf : s.vma_map.floor? (k + vma.size) = some (k, vma)) :
    clearRange fuel s (k + vma.size) rem vma ≠ .ok s' := by
  obtain ⟨hmem, -⟩ := h.floor_cases hf
  have hend := h.end_lt hmem
  induction fuel with
  | zero =>
    simp only [clearRange, if_neg (Nat.pos_iff_ne_zero.mp hrem)]
    simp
  | succ fuel ih =>
    intro hl
    simp only [clearRange, if_neg (Nat.pos_iff_ne_zero.mp hrem), bind_eq_ok, Prod.exists, findVMA, deref_eq_ok] at hl
    obtain ⟨s₁, n, hu, j, w, hf', hl⟩ := hl
    obtain ⟨rfl, hn⟩ := unmapBytesFromEntry_gap h hmem le_rfl (by omega) (by omega) hf hu
    rw [Nat.add_sub_cancel_left, sub64_of_le le_rfl (by omega), Nat.sub_self, Nat.zero_min] at hn
    subst hn
    rw [add64_zero (by omega), hf, some.injEq, Prod.mk.injEq] at hf'
    obtain ⟨rfl, rfl⟩ := hf'
    rw [add64_zero (by omega), Nat.sub_zero] at hl
    exact ih hl

theorem clearRange_spec (h : WF cfg s)
    (hva : va < 2^64) (hrem : rem < 2^64) (hf : s.vma_map.floor? va = some (k, vma))
    (hl : clearRange fuel s va rem vma = .ok s') : WF cfg s' ∧ Unmapped cfg s s' (Contig cfg va rem) := by
  induction fuel generalizing s va rem k vma with
  | zero =>
    simp only [clearRange] at hl
    split_ifs at hl with hz
    simp only [Except.ok.injEq] at hl
    subst hl hz
    exact ⟨h, .refl_nil h va⟩
  | succ fuel ih =>
    simp only [clearRange] at hl
    split_ifs at hl with hz
    · rw [pure_eq_ok] at hl
      subst hl hz
      exact ⟨h, .refl_nil h va⟩
    · simp only [bind_eq_ok, Prod.exists, findVMA, deref_eq_ok] at hl
      obtain ⟨s₁, n, hu, j, w, hf', hl⟩ := hl
      obtain ⟨hmem, hin | ⟨hgap, hnot⟩⟩ := h.floor_cases hf
      · obtain ⟨hn, hwf1, hun1⟩ := unmapBytesFromEntry_spec h hmem hin hu
        have hend := h.end_lt hmem
        have husable : ∀ v, InRange va n v → cfg.Usable v := fun v hv =>
          h.usable_of_mem hmem ⟨by have := hin.1; have := hv.1; omega, by
            have := hin.2; have := hv.2; omega⟩
        have hnext : add64 va n = va + n := add64_of_lt (by have := hin.2; omega)
        rw [hnext] at hf' hl
        obtain ⟨hwf', hun'⟩ := ih hwf1 (by have := hin.2; omega) (by omega) hf' hl
        refine ⟨hwf', (hun1.trans h hun').congr fun v => ?_⟩
        rw [contig_append husable, Nat.add_sub_cancel' (by omega)]
      · obtain ⟨rfl, hn⟩ := unmapBytesFromEntry_gap h hmem hgap hva hrem hf hu
        rcases Nat.lt_or_ge n rem with hlt | hge
        · obtain ⟨hend, hfend⟩ := h.gap_step hf hgap hva hn hlt
          rw [hend] at hf' hl
          rw [hfend, some.injEq, Prod.mk.injEq] at hf'
          obtain ⟨rfl, rfl⟩ := hf'
          exact absurd hl (clearRange_end h (by omega) (by omega) hfend)
        · obtain rfl : n = rem := by omega
          have hs : s' = s₁ := by
            cases fuel <;> simp [clearRange, pure_eq_ok] at hl <;> exact hl.symm
          subst hs
          exact ⟨h, .refl h fun v hv => absurd hv (not_contig hnot v)⟩

theorem unmapRanges_spec (h : WF cfg s) (hl : ∀ r ∈ l, r.1 < 2^64 ∧ r.2 < 2^64) (hu : unmapRanges l s = .ok s') :
    WF cfg s' ∧ Unmapped cfg s s' fun v => ∃ r ∈ l, Contig cfg r.1 r.2 v := by
  induction l generalizing s with
  | nil =>
    rw [unmapRanges, pure_eq_ok] at hu
    subst hu
    exact ⟨h, .refl h fun v hv => by simp at hv⟩
  | cons r l ih =>
    simp only [unmapRanges, bind_eq_ok] at hu
    obtain ⟨s₁, hs1, hu⟩ := hu
    obtain ⟨hva, hsize⟩ := hl r (by simp)
    obtain ⟨hwf1, hun1⟩ := unmapMemoryImpl_spec h hva hsize hs1
    obtain ⟨hwf', hun'⟩ := ih hwf1 (fun q hq => hl q (by simp [hq])) hu
    exact ⟨hwf', (hun1.trans h hun').congr fun v => by simp⟩

end ShadPS4.Memory
