import ShadPS4.Memory.Released

/-!
# What a release changes

`Free` releases the bytes in use from its address on, as many as its size, and unmaps from each physical area of a
direct mapping that meets its range as many bytes as its size from where the area and the range meet.
-/

namespace ShadPS4.Memory

open MemoryManager

variable {cfg : Config} {s s' s₁ : MemoryManager} {p n v x : ℕ}

/-- The release changes exactly its range: the bytes outside keep their use, those inside that were in
use are free, and the virtual bytes that become unmapped are those that were mapped to the range. -/
def FreesExactly (s s' : MemoryManager) (phys_addr size : ℕ) : Prop :=
  (∀ x, ¬ InRange phys_addr size x → s'.dma x = s.dma x) ∧
    (∀ x, InRange phys_addr size x → s.InUse x → s'.dma x = some .free) ∧
    ∀ v, ¬ s.HasType .free v ∧ s'.HasType .free v ↔
      ∃ x, InRange phys_addr size x ∧ s.Maps .direct v x

/-- The range holds no free byte, or no byte behind it is in use. -/
def MemoryManager.NoHole (s : MemoryManager) (phys_addr size : ℕ) : Prop :=
  (∀ x, InRange phys_addr size x → s.dma x ≠ some .free) ∨
    ∀ x, phys_addr + size ≤ x → ¬ s.InUse x

/-- Each physical area of a direct mapping that meets the range starts before the range's end, as the
source computes it, and does not both start behind the range's start and end behind its end. -/
def MemoryManager.AreasFit (s : MemoryManager) (phys_addr size : ℕ) : Prop :=
  ∀ k vma j a, (k, vma) ∈ s.vma_map → vma.type = .direct → (j, a) ∈ vma.phys_areas →
    a.base < phys_addr + size → phys_addr < a.base + a.size →
      a.base < add64 phys_addr size ∧
        (a.base ≤ phys_addr ∨ a.base + a.size ≤ phys_addr + size)

theorem WF.area_of_maps (h : WF cfg s) (hm : s.Maps .direct v x) :
    ∃ k vma j a, (k, vma) ∈ s.vma_map ∧ vma.type = .direct ∧ (j, a) ∈ vma.phys_areas ∧
      InRange a.base a.size x ∧ v = k + j + (x - a.base) := by
  obtain ⟨b, hb, ht, hx⟩ := hm
  obtain ⟨k, vma, ⟨hk, hkv, hend⟩, rfl⟩ := h.virt.part.byteAt_eq_some_iff.mp hb
  simp only [vmaExtent_byte, Option.map_eq_some_iff] at ht hx
  obtain ⟨c, hc, rfl⟩ := hx
  obtain ⟨j, a, ⟨hj, hji, hja⟩, rfl⟩ :=
    ((h.virt.backed k vma hk).part (.inl ht)).byteAt_eq_some_iff.mp hc
  simp only [physExtent_size] at hja
  refine ⟨k, vma, j, a, hk, ht, hj, ?_, ?_⟩
  · simp only [physExtent_byte]
    exact ⟨by omega, by omega⟩
  · simp only [physExtent_byte]
    omega

theorem WF.area_unique (h : WF cfg s) (hk : (k, vma) ∈ s.vma_map) (ht : vma.type = .direct)
    (hj : (j, a) ∈ vma.phys_areas) (hl : (l, w) ∈ s.vma_map) (ht' : w.type = .direct)
    (hi : (i, b) ∈ w.phys_areas) (hx : InRange a.base a.size x) (hy : InRange b.base b.size y)
    (heq : k + j + (x - a.base) = l + i + (y - b.base)) : a = b ∧ x = y := by
  have hend := (h.phys_end_le hk (.inl ht) hj).2
  have hend' := (h.phys_end_le hl (.inl ht') hi).2
  have hlt := hx.sub_lt
  have hlt' := hy.sub_lt
  obtain ⟨rfl, rfl⟩ := h.virt.part.covers_unique (x := k + j + (x - a.base))
    ⟨hk, by omega, by simp only [vmaExtent_size]; omega⟩
    ⟨hl, by omega, by simp only [vmaExtent_size]; omega⟩
  obtain ⟨rfl, rfl⟩ := ((h.virt.backed k vma hk).part (.inl ht)).covers_unique
    (x := j + (x - a.base)) ⟨hj, by omega, by simp only [physExtent_size]; omega⟩
    ⟨hi, by omega, by simp only [physExtent_size]; omega⟩
  have := hx.1
  have := hy.1
  exact ⟨rfl, by omega⟩

theorem MemoryManager.removed_iff_phys : s.Removed p n v ↔
    ∃ k vma j a x, (k, vma) ∈ s.vma_map ∧ vma.type = .direct ∧ (j, a) ∈ vma.phys_areas ∧
      a.base < add64 p n ∧ InRange a.base a.size x ∧ InRange (max a.base p) n x ∧ v = k + j + (x - a.base) := by
  constructor
  · rintro ⟨k, vma, j, a, hk, ht, hj, hbase, hend, hv, hv'⟩
    refine ⟨k, vma, j, a, a.base + (v - k - j), hk, ht, hj, hbase, ⟨by omega, by omega⟩,
      ⟨by omega, by omega⟩, by omega⟩
  · rintro ⟨k, vma, j, a, x, hk, ht, hj, hbase, ⟨hx, hx'⟩, ⟨hm, hm'⟩, rfl⟩
    exact ⟨k, vma, j, a, hk, ht, hj, hbase, by omega, by omega, by omega⟩

/-! ## The three parts -/

theorem Freed.unmaps_iff (h : WF cfg s) (hf : Freed cfg s s' p n) :
    ¬ s.HasType .free v ∧ s'.HasType .free v ↔ s.Removed p n v := by
  obtain ⟨s₁, -, hu, hs, -⟩ := hf
  have hfree : s'.HasType .free v ↔ s₁.HasType .free v := hasType_congr (by rw [hs]) _ v
  rw [hfree]
  constructor
  · rintro ⟨hn, b, hb, ht⟩
    by_contra hr
    rw [hu.voutside v fun hS => hr hS.1] at hb
    exact hn ⟨b, hb, ht⟩
  · intro hr
    obtain ⟨k, vma, j, a, x, hk, ht, hj, -, hx, -, rfl⟩ := removed_iff_phys.mp hr
    have hm := h.maps_of_area hk (.inl ht) hj hx
    rw [ht] at hm
    obtain ⟨b, hb, hbt, -⟩ := hm
    refine ⟨fun hfree => absurd (hfree.unique ⟨b, hb, hbt⟩) (by decide), ?_⟩
    exact ⟨_, hu.vinside _ hr ⟨b, hb, by simp [hbt], by simp [hbt]⟩, rfl⟩

theorem WF.removed_exact_iff (h : WF cfg s) (hp : p < 2^64) :
    (∀ v, s.Removed p n v ↔ ∃ x, InRange p n x ∧ s.Maps .direct v x) ↔ s.AreasFit p n := by
  have hadd : add64 p n ≤ p + n := Nat.mod_le _ _
  constructor
  · intro hall k vma j a hk ht hj hbase hend
    have hpos := (h.phys_end_le hk (.inl ht) hj).1
    have hmaps : ∀ x, InRange a.base a.size x → s.Maps .direct (k + j + (x - a.base)) x := by
      intro x hx
      have := h.maps_of_area hk (.inl ht) hj hx
      rwa [ht] at this
    -- The first byte of the area in the range is to be unmapped, so that the area is found.
    have hfound : a.base < add64 p n := by
      rcases Nat.eq_zero_or_pos n with rfl | hn
      · rwa [add64_zero hp]
      have hx : InRange a.base a.size (max a.base p) := ⟨by omega, by omega⟩
      have hr := (hall _).mpr ⟨max a.base p, ⟨by omega, by omega⟩, hmaps _ hx⟩
      obtain ⟨l, w, i, b, y, hl, hw, hi, hb, hy, -, heq⟩ := removed_iff_phys.mp hr
      obtain ⟨rfl, -⟩ := h.area_unique hk ht hj hl hw hi hx hy heq
      exact hb
    by_contra hn
    -- Otherwise the byte behind the range is unmapped.
    have hx : InRange a.base a.size (p + n) := ⟨by omega, by omega⟩
    have hr : s.Removed p n (k + j + (p + n - a.base)) :=
      removed_iff_phys.mpr ⟨k, vma, j, a, p + n, hk, ht, hj, hfound, hx, ⟨by omega, by omega⟩, rfl⟩
    obtain ⟨y, hy, hm⟩ := (hall _).mp hr
    have := ((hmaps _ hx).unique hm).2
    have := hy.2
    omega
  · intro hfit v
    rw [removed_iff_phys]
    constructor
    · rintro ⟨k, vma, j, a, x, hk, ht, hj, hbase, hx, hm, rfl⟩
      have hmaps := h.maps_of_area hk (.inl ht) hj hx
      rw [ht] at hmaps
      have h1 := hx.2
      have h2 := hm.1
      have h3 := hm.2
      rcases (hfit k vma j a hk ht hj (by omega) (by omega)).2 with hle | hle
      · exact ⟨x, ⟨by omega, by omega⟩, hmaps⟩
      · exact ⟨x, ⟨by omega, by omega⟩, hmaps⟩
    · rintro ⟨x, hin, hm⟩
      obtain ⟨k, vma, j, a, hk, ht, hj, hx, rfl⟩ := h.area_of_maps hm
      have h1 := hx.1
      have h2 := hx.2
      have h3 := hin.1
      have h4 := hin.2
      exact ⟨k, vma, j, a, x, hk, ht, hj, (hfit k vma j a hk ht hj (by omega) (by omega)).1, hx,
        ⟨by omega, by omega⟩, rfl⟩

theorem MemoryManager.released_of_inRange (hx : InRange p n x) (hu : s.InUse x) : s.Released p n x := by
  refine ⟨hx.1, hu, ?_⟩
  have hsub : {y | (p ≤ y ∧ s.InUse y) ∧ y < x} ⊆ {y | InRange p (x - p) y} := fun y hy =>
    ⟨hy.1.1, by have := hy.2; have := hx.1; omega⟩
  calc {y | (p ≤ y ∧ s.InUse y) ∧ y < x}.ncard
      ≤ {y | InRange p (x - p) y}.ncard :=
        Set.ncard_le_ncard hsub ((Set.finite_Iio _).subset fun _ hy => hy.2)
    _ = x - p := ncard_inRange _ _
    _ < n := hx.sub_lt

theorem WF.released_exact_iff (h : WF cfg s) : (∀ x, s.Released p n x → InRange p n x) ↔ s.NoHole p n := by
  constructor
  · intro hall
    by_contra hn
    unfold NoHole at hn
    push Not at hn
    obtain ⟨⟨x, hx, hfree⟩, y, hy, hused⟩ := hn
    -- The first byte in use behind the range is released, as the range has fewer bytes in use.
    classical
    have hex : ∃ y, p + n ≤ y ∧ s.InUse y := ⟨y, hy, hused⟩
    obtain ⟨hz, huz⟩ := Nat.find_spec hex
    have hrel : s.Released p n (Nat.find hex) := by
      refine ⟨by omega, huz, ?_⟩
      have hsub : {y | (p ≤ y ∧ s.InUse y) ∧ y < Nat.find hex} ⊂ {y | InRange p n y} := by
        refine Set.ssubset_iff_subset_ne.mpr ⟨fun z hz => ⟨hz.1.1, ?_⟩, fun heq => ?_⟩
        · by_contra hge
          exact Nat.find_min hex hz.2 ⟨by omega, hz.1.2⟩
        · have hmem : x ∈ {y | (p ≤ y ∧ s.InUse y) ∧ y < Nat.find hex} := heq ▸ hx
          obtain ⟨d, hd, hne⟩ := hmem.1.2
          rw [hfree, Option.some.injEq] at hd
          exact hne hd.symm
      have := Set.ncard_lt_ncard hsub ((Set.finite_Iio (p + n)).subset fun _ hy => hy.2)
      rwa [ncard_inRange] at this
    have := (hall _ hrel).2
    omega
  · rintro hno x ⟨hpx, hux, hcount⟩
    refine ⟨hpx, ?_⟩
    by_contra hge
    rcases hno with hrange | hbehind
    · -- All of the range is in use, so that it has the bytes to release.
      obtain ⟨d, hd, -⟩ := id hux
      have hlt := h.dma_isSome.mp (Option.isSome_iff_exists.mpr ⟨d, hd⟩)
      have hsub : {y | InRange p n y} ⊆ {y | (p ≤ y ∧ s.InUse y) ∧ y < x} := by
        intro y hy
        have hyx : y < x := by
          have := hy.2
          omega
        obtain ⟨e, he⟩ := Option.isSome_iff_exists.mp (h.dma_isSome.mpr (hyx.trans hlt))
        exact ⟨⟨hy.1, e, he, fun hfree => hrange y hy (hfree ▸ he)⟩, hyx⟩
      have hle := Set.ncard_le_ncard hsub ((Set.finite_Iio x).subset fun _ hy => hy.2)
      rw [ncard_inRange] at hle
      omega
    · exact hbehind x (by omega) hux

/-- In every reachable state, a release that returns successfully after its bounds check changes exactly
its range if and only if it meets no hole and the areas of the direct mappings fit it. -/
theorem free_exact_iff (h : Reachable cfg s) (phys_addr size : UInt64) (is_checked : Bool)
    (hb : s.FreeInBounds phys_addr.toNat size.toNat is_checked)
    (hm : s.free phys_addr.toNat size.toNat is_checked = .ok (s', .ok)) :
    FreesExactly s s' phys_addr.toNat size.toNat ↔
      s.NoHole phys_addr.toNat size.toNat ∧ s.AreasFit phys_addr.toNat size.toNat := by
  have hwf := h.wf
  obtain ⟨-, ⟨-, hn⟩ | ⟨-, -, hf⟩⟩ := free_spec hwf size.toNat_lt hm
  · exact absurd hn (by simp [hb])
  have hunmap : (∀ v, ¬ s.HasType .free v ∧ s'.HasType .free v ↔
      ∃ x, InRange phys_addr.toNat size.toNat x ∧ s.Maps .direct v x) ↔
        s.AreasFit phys_addr.toNat size.toNat := by
    simp only [hf.unmaps_iff hwf, hwf.removed_exact_iff phys_addr.toNat_lt]
  obtain ⟨s₁, hwf₁, hu, hs, hr⟩ := hf
  have hreleased : ∀ x, s.Released phys_addr.toNat size.toNat x → s'.dma x = some .free :=
    fun x hx => dma_inside hwf₁ (hu.total_direct ▸ hr) (fun _ => rfl) hx
  unfold FreesExactly
  rw [hunmap, ← hwf.released_exact_iff]
  constructor
  · rintro ⟨hout, -, hfit⟩
    refine ⟨fun x hx => ?_, hfit⟩
    by_contra hn
    obtain ⟨d, hd, hne⟩ := hx.2.1
    have hsame := hout x hn
    rw [hreleased x hx, hd, Option.some.injEq] at hsame
    exact hne hsame.symm
  · rintro ⟨hin, hfit⟩
    refine ⟨fun x hx => ?_, fun x hx hux => hreleased x (released_of_inRange hx hux), hfit⟩
    -- A byte outside the range is neither released nor behind a byte that is unmapped.
    rw [dma_outside hr fun hrel => hx (hin x hrel)]
    refine dma_outside hu.direct ?_
    rintro ⟨v, hv, hmap⟩
    obtain ⟨y, hy, hmap'⟩ := ((hwf.removed_exact_iff phys_addr.toNat_lt).mpr hfit v).mp hv
    exact hx ((hmap.unique hmap').2 ▸ hy)

/-- Direct memory is allocated and mapped in two parts. -/
def mappedParts : List Op :=
  [.allocate 0x20000 0x1f0000000 0x40000 0x20000 0,
    .mapMemory 0x100000000 0x20000 3 0x10 .direct "anon" true 0x20000 0,
    .mapMemory 0x100100000 0x20000 3 0x10 .direct "anon" true 0x40000 0]

theorem free_exact_iff_sample : ∃ s s', replay .sample mappedParts (.new .sample) = some s ∧
    s.free 0x20000 0x20000 true = .ok (s', .ok) ∧
      (FreesExactly s s' 0x20000 0x20000 ↔ s.NoHole 0x20000 0x20000 ∧ s.AreasFit 0x20000 0x20000) := by
  obtain ⟨s, hs, hr, ht⟩ := exists_of_replay .sample mappedParts
    (fun s => decide (s.FreeInBounds 0x20000 0x20000 true) &&
      returns (s.free 0x20000 0x20000 true) fun p => p.2 = .ok) (by decide)
  rw [Bool.and_eq_true, decide_eq_true_eq] at ht
  obtain ⟨⟨s', r⟩, hm, hok⟩ := exists_of_returns ht.2
  obtain rfl : r = .ok := of_decide_eq_true hok
  exact ⟨s, s', hs, hm, free_exact_iff hr 0x20000 0x20000 true ht.1 hm⟩

def mappedWhole : List Op :=
  [.allocate 0 0x1f0000000 0x60000 0 0,
    .mapMemory 0x100000000 0x40000 3 0x10 .direct "anon" true 0x20000 0]

/-- A checked release whose range ends inside a mapping that starts in it unmaps bytes behind the
range. -/
theorem free_unmaps_behind : ∃ s s', replay .sample mappedWhole (.new .sample) = some s ∧
    Reachable .sample s ∧ s.FreeInBounds 0 0x40000 true ∧
      s.free 0 0x40000 true = .ok (s', .ok) ∧ s.Maps .direct 0x100020000 0x40000 ∧ s'.HasType .free 0x100020000 := by
  obtain ⟨s, hs, hr, ht⟩ := exists_of_replay .sample mappedWhole
    (fun s => decide (s.FreeInBounds 0 0x40000 true ∧ s.Maps .direct 0x100020000 0x40000) &&
      returns (s.free 0 0x40000 true) fun p => p.2 = .ok ∧ p.1.HasType .free 0x100020000)
    (by decide)
  rw [Bool.and_eq_true, decide_eq_true_eq] at ht
  obtain ⟨⟨hb, hmaps⟩, hret⟩ := ht
  obtain ⟨⟨s', r⟩, hm, hok⟩ := exists_of_returns hret
  obtain ⟨rfl, hfree⟩ : r = .ok ∧ s'.HasType .free 0x100020000 := of_decide_eq_true hok
  exact ⟨s, s', hs, hr, hb, hm, hmaps, hfree⟩

end ShadPS4.Memory
