import ShadPS4.Memory.System
import ShadPS4.Memory.VMASpec

/-!
# The memory manager, byte by byte

What a state says of each virtual and of each physical byte, and the invariant `WF` that every operation keeps: the
three maps tile what they should, and each backed byte has a physical address.
-/

namespace ShadPS4.Memory

variable {k : ℕ} {vma : VirtualMemoryArea}

namespace MemoryManager

variable (s : MemoryManager)

def vbyte (v : ℕ) : Option VByte := s.vma_map.byteAt vmaExtent v

def dbyte (x : ℕ) : Option PByte := s.dmem_map.byteAt physExtent x

def fbyte (x : ℕ) : Option PByte := s.fmem_map.byteAt physExtent x

/-- The virtual byte `v` has the type `type`. -/
def HasType (type : VMAType) (v : ℕ) : Prop :=
  ∃ b, s.vbyte v = some b ∧ b.type = type

/-- The virtual byte `v` has the type `type`, and the physical address `x` is recorded for it. -/
def Maps (type : VMAType) (v x : ℕ) : Prop :=
  ∃ b, s.vbyte v = some b ∧ b.type = type ∧ b.paddr = some x

/-- What the byte of direct memory at `x` is used for. -/
def dma (x : ℕ) : Option PhysicalMemoryType := (s.dbyte x).map (·.dma_type)

/-- What the byte of flexible memory at `x` is used for. -/
def fma (x : ℕ) : Option PhysicalMemoryType := (s.fbyte x).map (·.dma_type)

end MemoryManager

/-- A state whose maps tile what they should. -/
structure WF (cfg : Config) (s : MemoryManager) : Prop where
  virt : VTiles s.vma_map cfg.Usable
  direct : Tiles s.dmem_map 0 s.total_direct_size
  flexible : Tiles s.fmem_map cfg.direct_size (cfg.direct_size + cfg.flexible_size)
  direct_le : s.total_direct_size ≤ cfg.direct_size
  paddr_lt : ∀ v b x, s.vbyte v = some b → b.paddr = some x →
    x < cfg.direct_size + cfg.flexible_size
  usage_lt : s.flexible_usage < 2^64
  budget_lt : s.pool_budget < 2^64

variable {cfg : Config} {s s' : MemoryManager} {v x : ℕ}

theorem Config.sizes_lt (cfg : Config) : cfg.direct_size + cfg.flexible_size < 2^63 := cfg.backing_lt

theorem Config.Usable.lt (h : cfg.Usable v) : v + 1 < 2^63 := by
  obtain ⟨r, hr, -, hv⟩ := h
  have := (cfg.regions_lt r hr).2
  omega

namespace WF

theorem end_lt (h : WF cfg s) (hk : (k, vma) ∈ s.vma_map) : k + vma.size < 2^63 := by
  have hpos := h.virt.part.pos k vma hk
  simp only [vmaExtent_size] at hpos
  have hu := (h.virt.part.cover (k + vma.size - 1)).mpr ⟨k, vma, hk, by omega, by simp only [vmaExtent_size]; omega⟩
  have := hu.lt
  omega

theorem vbyte_of_mem (h : WF cfg s) (hk : (k, vma) ∈ s.vma_map)
    (hv : InRange k vma.size v) : s.vbyte v = some (vmaExtent.byte vma (v - k)) :=
  h.virt.part.byteAt_of_covers ⟨hk, hv⟩

theorem phys_addr_lt (h : WF cfg s) (hk : (k, vma) ∈ s.vma_map) (ht : vma.type.HasPhysicalBacking) (i : ℕ) (b : PByte)
    (hb : vma.phys_areas.byteAt physExtent i = some b) : b.addr < 2^64 := by
  have hpart := (h.virt.backed k vma hk).part ht
  obtain ⟨-, hi⟩ := hpart.byteAt_isSome_iff.mp (Option.isSome_iff_exists.mpr ⟨b, hb⟩)
  have hbyte := h.vbyte_of_mem hk (v := k + i) ⟨by omega, by omega⟩
  have hlt := h.paddr_lt _ _ b.addr hbyte
    (by simp only [vmaExtent_byte, Nat.add_sub_cancel_left, hb, Option.map_some])
  have := cfg.sizes_lt
  omega

theorem vbyte_isSome (h : WF cfg s) : (s.vbyte v).isSome ↔ cfg.Usable v :=
  h.virt.part.byteAt_isSome_iff

theorem fits_of_carve (h : WF cfg s)
    (hn : n < 2^64) (hf : s.vma_map.floor? va = some (k, vma)) (hc : carveVMA s.vma_map va n = .ok (m, l)) :
    0 < n ∧ (k, vma) ∈ s.vma_map ∧ k ≤ va ∧ va + n ≤ k + vma.size := by
  obtain ⟨-, hcarved⟩ := carveVMA_spec h.virt hn hc
  have hpos := hcarved.pos
  obtain ⟨k', vma', hk', h1, h2⟩ := hcarved.fits
  have hcov := h.virt.part.floor?_of_covers (x := va) ⟨hk', h1, by simp only [vmaExtent_size]; omega⟩
  rw [hf, Option.some.injEq, Prod.mk.injEq] at hcov
  obtain ⟨rfl, rfl⟩ := hcov
  exact ⟨hpos, hk', h1, h2⟩

end WF

theorem MemoryManager.HasType.unique (h : s.HasType t v) (h' : s.HasType t' v) : t = t' := by
  obtain ⟨b, hb, rfl⟩ := h
  obtain ⟨b', hb', rfl⟩ := h'
  rw [hb, Option.some.injEq] at hb'
  rw [hb']

theorem MemoryManager.Maps.hasType (h : s.Maps t v x) : s.HasType t v := by
  obtain ⟨b, hb, ht, -⟩ := h
  exact ⟨b, hb, ht⟩

theorem MemoryManager.Maps.unique (h : s.Maps t v x) (h' : s.Maps t' v x') : t = t' ∧ x = x' := by
  obtain ⟨b, hb, ht, hx⟩ := h
  obtain ⟨b', hb', ht', hx'⟩ := h'
  rw [hb, Option.some.injEq] at hb'
  subst hb'
  rw [hx, Option.some.injEq] at hx'
  exact ⟨ht.symm.trans ht', hx'⟩

theorem WF.exists_maps_iff (h : WF cfg s) : (∃ x, s.Maps t v x) ↔ s.HasType t v ∧ t.HasPhysicalBacking := by
  constructor
  · rintro ⟨x, b, hb, rfl, hx⟩
    refine ⟨⟨b, hb, rfl⟩, ?_⟩
    obtain ⟨k, vma, ⟨hk, -⟩, rfl⟩ := h.virt.part.byteAt_eq_some_iff.mp hb
    by_contra hn
    have hempty := (h.virt.backed k vma hk).empty hn
    simp [vmaExtent_byte, hempty, byteAt_empty] at hx
  · rintro ⟨⟨b, hb, rfl⟩, hp⟩
    obtain ⟨k, vma, ⟨hk, hkv, hend⟩, rfl⟩ := h.virt.part.byteAt_eq_some_iff.mp hb
    have hpart := (h.virt.backed k vma hk).part hp
    simp only [vmaExtent_size] at hend
    obtain ⟨c, hc⟩ := Option.isSome_iff_exists.mp
      (hpart.byteAt_isSome_iff.mpr (⟨Nat.zero_le (v - k), by omega⟩ : Span 0 vma.size (v - k)))
    exact ⟨c.addr, _, hb, rfl, by simp [vmaExtent_byte, hc]⟩

end ShadPS4.Memory
