import ShadPS4.AddressSpace.WindowsSpec

/-!
# Splitting a region

`SplitRegion` makes the requested range a region of its own.
-/

namespace ShadPS4.AddressSpace

open OrdMap (hasKey_insert mem_insert floor?_eq_some_iff mem_unique)

variable {p p' : Process} {r : MemoryRegion} {s s' : Impl}

namespace Impl

variable {k x y virtual_addr size : ℕ} {R : ℕ → Prop}

/-! ## Splitting -/

theorem splitRegion_eq_ok (h : s.splitRegion virtual_addr size = .ok s') :
    ∃ k r p0 s1 k1 r1 s2, s.regions.floor? virtual_addr = some (k, r) ∧
      add64 virtual_addr size ≤ add64 r.base r.size ∧ (r.is_mapped = true → r.phys_base ≠ noPhys) ∧
      (if r.is_mapped then unmapRegion s.process r else pure s.process) = .ok p0 ∧
      (if r.base ≠ virtual_addr then splitBefore { s with process := p0 } k r virtual_addr
        else pure { s with process := p0 }) = .ok s1 ∧
      s1.regions.floor? virtual_addr = some (k1, r1) ∧
      (if r1.size ≠ size then s1.splitAfter k1 r1 size else pure s1) = .ok s2 ∧
      (if r1.is_mapped then mapRegion s2.process { r1 with size := size } else pure s2.process) =
        .ok s'.process ∧ s'.regions = s2.regions := by
  obtain ⟨⟨k, r⟩, hf, h⟩ := bind_eq_ok.mp h
  obtain ⟨u, hreq, h⟩ := bind_eq_ok.mp h
  obtain ⟨p0, hp0, h⟩ := bind_eq_ok.mp h
  obtain ⟨s1, hs1, h⟩ := bind_eq_ok.mp h
  obtain ⟨⟨k1, r1⟩, hf1, h⟩ := bind_eq_ok.mp h
  obtain ⟨s2, hs2, h⟩ := bind_eq_ok.mp h
  rw [containing_eq_ok] at hf hf1
  rw [require_eq_ok] at hreq
  have hunmap : (r.is_mapped = true → r.phys_base ≠ noPhys) ∧
      (if r.is_mapped then unmapRegion s.process r else pure s.process) = .ok p0 := by
    cases hm : r.is_mapped with
    | true =>
      simp only [hm, if_true] at hp0
      obtain ⟨_, hphys, hp0⟩ := bind_eq_ok.mp hp0
      exact ⟨fun _ => require_eq_ok.mp hphys, hp0⟩
    | false =>
      rw [hm, if_neg (by simp)] at hp0
      exact ⟨fun hc => by simp at hc, hp0⟩
  refine ⟨k, r, p0, s1, k1, r1, s2, hf, hreq, hunmap.1, hunmap.2, hs1, hf1, hs2, ?_⟩
  cases hm : r1.is_mapped with
  | true =>
    simp only [hm, if_true] at h
    obtain ⟨p3, hp3, h⟩ := bind_eq_ok.mp h
    obtain rfl := pure_eq_ok.mp h
    exact ⟨hp3, rfl⟩
  | false =>
    rw [hm, if_neg (by simp)] at h
    obtain rfl := pure_eq_ok.mp h
    exact ⟨rfl, rfl⟩

theorem unmap_page (h : (if r.is_mapped then unmapRegion s.process r else pure s.process) = .ok p')
    (hs : s.Wf) (hk : (k, r) ∈ s.regions) : p'.reserved = s.process.reserved ∧
      ∀ x, p'.page x = if k ≤ x ∧ x < k + r.size then none else s.process.page x := by
  have hbase : r.base = k := (hs.laid.sound k r hk).base
  have hshown := hs.shown k r hk
  cases hm : r.is_mapped with
  | true =>
    rw [if_pos hm] at h
    obtain rfl := unmapRegion_spec h hshown hm (hs.laid.partition.pos k r hk)
    refine ⟨rfl, fun x => ?_⟩
    rw [Process.page_update, hbase]
  | false =>
    rw [if_neg (by simp [hm])] at h
    obtain rfl := pure_eq_ok.mp h
    refine ⟨rfl, fun x => ?_⟩
    split_ifs with hx
    · have hfree := hshown x (by omega) (by omega)
      rwa [if_neg (by simp [hm])] at hfree
    · rfl

theorem remap_page (h : (if c then mapRegion p r else pure p) = .ok p') : p'.reserved = p.reserved ∧
      ∀ x, p'.page x = if c = true ∧ r.base ≤ x ∧ x < r.base + r.size then
        some (r.pageAt x r.prot) else p.page x := by
  cases c with
  | true =>
    obtain ⟨-, -, rfl⟩ := mapRegion_spec h
    exact ⟨rfl, fun x => by simp [Process.page_update]⟩
  | false =>
    obtain rfl := pure_eq_ok.mp h
    exact ⟨rfl, fun x => by simp⟩

theorem remainder_eq (h : r.Sound k) (ho : o ≤ r.size) (hsize : r.size < 2^64)
    (hphys : r.is_mapped = true → r.phys_base ≠ noPhys) (haddr : addr = k + o) :
    remainder r addr o = r.piece o (r.size - o) := by
  have hsub : sub64 r.size o = r.size - o := sub64_of_le ho hsize
  unfold remainder MemoryRegion.piece
  rw [hsub, haddr, h.base]
  cases hm : r.is_mapped with
  | true =>
    have hoff := h.offset hm (hphys hm)
    have hadd : add64 r.phys_base o = r.phys_base + o := by
      refine add64_of_lt ?_
      unfold noPhys uint64Max at hoff
      omega
    rw [hadd]
  | false => rfl

theorem splitBefore_spec (h : s.splitBefore k r virtual_addr = .ok s') (hl : Laid s.regions R)
    (hk : (k, r) ∈ s.regions) (hend : k + r.size ≤ 2^47) (hpage : s.process.page k = none)
    (hphys : r.is_mapped = true → r.phys_base ≠ noPhys) (hva : k < virtual_addr)
    (hva' : virtual_addr < k + r.size) : s'.regions = cut s.regions k r (virtual_addr - k) ∧
      s'.process.reserved = s.process.reserved ∧
      ∀ x, s'.process.page x = if r.is_mapped = true ∧ k ≤ x ∧ x < virtual_addr then
        some ((r.piece 0 (virtual_addr - k)).pageAt x r.prot) else s.process.page x := by
  have hsound := hl.sound k r hk
  have hbase : r.base = k := hsound.base
  have hoff : sub64 virtual_addr r.base = virtual_addr - k := by
    rw [hbase]
    exact sub64_of_le (by omega) (by omega)
  have hnext : remainder r virtual_addr (virtual_addr - k) =
      r.piece (virtual_addr - k) (r.size - (virtual_addr - k)) :=
    remainder_eq hsound (by omega) (by omega) hphys (by omega)
  unfold splitBefore at h
  simp only [hoff, hnext, ← hsound.piece_zero] at h
  obtain ⟨p1, hp1, h⟩ := bind_eq_ok.mp h
  obtain ⟨p2, hp2, h⟩ := bind_eq_ok.mp h
  obtain rfl := pure_eq_ok.mp h
  rw [succeeded_eq_ok, hbase] at hp1
  obtain ⟨-, rfl⟩ := virtualFreeEx_placeholder hp1 hpage
  refine ⟨?_, ?_⟩
  · -- The key of the second part is new.
    have hin := hl.partition.not_hasKey_inside (o := virtual_addr - k) hk (by omega)
      (show _ < r.size by omega)
    rw [show k + (virtual_addr - k) = virtual_addr by omega] at hin
    have hnew : ¬ (s.regions.insert k (r.piece 0 (virtual_addr - k))).HasKey virtual_addr := by
      rw [hasKey_insert, not_or]
      exact ⟨by omega, hin⟩
    rw [cut, show k + (virtual_addr - k) = virtual_addr by omega]
    exact OrdMap.emplace_of_not_hasKey hnew
  · obtain ⟨hres, hpage2⟩ := remap_page hp2
    refine ⟨hres, fun x => ?_⟩
    rw [hpage2 x]
    simp only [MemoryRegion.piece, hbase, Nat.add_zero, show k + (virtual_addr - k) = virtual_addr by omega]

theorem splitAfter_holds (h : s.splitAfter k r size = .ok s') : s.process.Holds r.base size := by
  obtain ⟨p1, hp1, -⟩ := bind_eq_ok.mp h
  exact (virtualFreeEx_holds (succeeded_eq_ok.mp hp1)).1

theorem splitAfter_spec (h : s.splitAfter k r size = .ok s') (hl : Laid s.regions R)
    (hk : (k, r) ∈ s.regions) (hend : k + r.size ≤ 2^47) (hpage : s.process.page k = none)
    (hphys : r.is_mapped = true → r.phys_base ≠ noPhys) (hsize : 0 < size) (hsize' : size < r.size) :
    s'.regions = cut s.regions k r size ∧ s'.process.reserved = s.process.reserved ∧
      ∀ x, s'.process.page x = if r.is_mapped = true ∧ k + size ≤ x ∧ x < k + r.size then
        some ((r.piece size (r.size - size)).pageAt x r.prot) else s.process.page x := by
  have hsound := hl.sound k r hk
  have hbase : r.base = k := hsound.base
  have hadd : add64 r.base size = k + size := by
    rw [hbase]
    exact add64_of_lt (by omega)
  have hnext : remainder r (k + size) size = r.piece size (r.size - size) :=
    remainder_eq hsound (by omega) (by omega) hphys rfl
  have hin := hl.partition.not_hasKey_inside (o := size) hk hsize (show _ < r.size by omega)
  have hregions : (s.regions.insert k (r.piece 0 size)).emplace (k + size)
      (r.piece size (r.size - size)) = cut s.regions k r size := by
    refine OrdMap.emplace_of_not_hasKey ?_
    rw [hasKey_insert, not_or]
    exact ⟨by omega, hin⟩
  unfold splitAfter at h
  simp only [hadd, hnext, ← hsound.piece_zero, hregions] at h
  obtain ⟨p1, hp1, h⟩ := bind_eq_ok.mp h
  obtain ⟨p2, hp2, h⟩ := bind_eq_ok.mp h
  obtain rfl := pure_eq_ok.mp h
  rw [succeeded_eq_ok, hbase] at hp1
  obtain ⟨-, rfl⟩ := virtualFreeEx_placeholder hp1 hpage
  -- The region after the first part is the second one.
  have hafter : (cut s.regions k r size).next? k = some (k + size, r.piece size (r.size - size)) := by
    rw [OrdMap.next?_eq_some_iff]
    refine ⟨by simp [cut], by omega, fun q hq hlt => ?_⟩
    rw [cut, mem_insert, mem_insert] at hq
    rcases hq with rfl | ⟨rfl | ⟨hq, -⟩, -⟩
    · exact Nat.le_refl _
    · simp at hlt
    · have hdis : k + r.size ≤ q.1 := hl.partition.disjoint k r q.1 q.2 hk hq hlt
      omega
  rw [hafter] at hp2
  obtain ⟨hres, hpage2⟩ := remap_page hp2
  refine ⟨rfl, hres, fun x => ?_⟩
  rw [hpage2 x]
  simp only [MemoryRegion.piece, hbase, show k + size + (r.size - size) = k + r.size by omega]

theorem splitRegion_lt (h : s.splitRegion virtual_addr size = .ok s') (hs : s.Wf)
    (hf : s.regions.floor? virtual_addr = some (k, r)) (hva : virtual_addr < 2^64)
    (hsize : 0 < size) : virtual_addr < k + r.size := by
  obtain ⟨k', r', p0, s1, k1, r1, s2, hf', -, -, hp0, hs1, hf1, hs2, -⟩ := splitRegion_eq_ok h
  obtain ⟨rfl, rfl⟩ : k = k' ∧ r = r' := by simpa [hf] using hf'
  obtain ⟨hk, hkva, hmax⟩ := floor?_eq_some_iff.mp hf
  have hbase : r.base = k := (hs.laid.sound k r hk).base
  have hpos : 0 < r.size := hs.laid.partition.pos k r hk
  obtain ⟨hres0, -⟩ := unmap_page hp0 hs hk
  by_contra hge
  -- The address is past the end: the region before it is kept, up to the address.
  rw [if_pos (by omega)] at hs1
  obtain ⟨p1, hp1, hs1⟩ := bind_eq_ok.mp hs1
  obtain ⟨p2, hp2, hs1⟩ := bind_eq_ok.mp hs1
  obtain rfl := pure_eq_ok.mp hs1
  have hoff : sub64 virtual_addr r.base = virtual_addr - k := by rw [hbase, sub64_of_le hkva hva]
  obtain ⟨hholds, hres1⟩ := virtualFreeEx_holds (succeeded_eq_ok.mp hp1)
  have hholds : p0.Holds r.base (sub64 virtual_addr r.base) := hholds
  have hreserved : ∀ y, k ≤ y → y ≤ virtual_addr → p0.Reserved y → y < k + r.size := by
    intro y hky hy hres
    unfold Process.Reserved at hres
    rw [hres0] at hres
    exact hs.lt_of_floor? hf hky hy hres
  rcases Nat.lt_or_ge (k + r.size) virtual_addr with hlt | hle
  · have := hreserved (k + r.size) (by omega) (by omega)
      (hholds.reserved (by omega) (by omega))
    omega
  · -- It is the end itself: an empty region is stored there, and then there is nothing to cut.
    obtain rfl : virtual_addr = k + r.size := by omega
    have hnew : ¬ s.regions.HasKey (k + r.size) := by
      rintro ⟨b, hb⟩
      have := hmax _ hb (Nat.le_refl _)
      omega
    rw [OrdMap.emplace_of_not_hasKey (by rw [hasKey_insert, not_or]; exact ⟨by omega, hnew⟩)]
      at hf1
    obtain ⟨hmem1, hle1, hmax1⟩ := floor?_eq_some_iff.mp hf1
    obtain rfl : k1 = k + r.size := by
      have := hmax1 (k + r.size, _) (by rw [mem_insert]; exact .inl rfl) (Nat.le_refl _)
      omega
    have hr1 : r1 = remainder r (k + r.size) (sub64 (k + r.size) r.base) :=
      mem_unique hmem1 (by rw [mem_insert]; exact .inl rfl)
    have hzero : r1.size = 0 := by
      rw [hr1]
      show sub64 r.size (sub64 (k + r.size) r.base) = 0
      rw [hoff, Nat.add_sub_cancel_left, sub64_of_le (Nat.le_refl _) (by omega), Nat.sub_self]
    rw [if_pos (by omega)] at hs2
    have hholds2 := splitAfter_holds hs2
    rw [hr1] at hholds2
    have hres2 := hholds2.reserved (Nat.le_refl _) (by simp only [remainder]; omega)
    have hlt := hreserved (k + r.size) (by omega) (Nat.le_refl _)
      (by
        unfold Process.Reserved at hres2 ⊢
        rwa [(remap_page hp2).1, hres1] at hres2)
    omega

theorem piece_self (h : r.Sound k) : r.piece 0 r.size = r := h.piece_zero

theorem splitRegion_front (h : (if r.base ≠ virtual_addr then s.splitBefore k r virtual_addr else pure s) = .ok s')
    (hl : Laid s.regions R) (hk : (k, r) ∈ s.regions) (hend : k + r.size ≤ 2^47)
    (hpage : s.process.page k = none) (hphys : r.is_mapped = true → r.phys_base ≠ noPhys)
    (hva : k ≤ virtual_addr) (hva' : virtual_addr < k + r.size) : Laid s'.regions R ∧
      (virtual_addr, r.piece (virtual_addr - k) (k + r.size - virtual_addr)) ∈ s'.regions ∧
      (∀ l q, (l, q) ∈ s'.regions → l = virtual_addr ∨
        (l = k ∧ q = r.piece 0 (virtual_addr - k)) ∨ ((l, q) ∈ s.regions ∧ l ≠ k)) ∧
      (∀ l, FreeSeam s'.regions l → FreeSeam s.regions l ∨ l = virtual_addr) ∧
      s'.process.reserved = s.process.reserved ∧
      ∀ x, s'.process.page x = if r.is_mapped = true ∧ k ≤ x ∧ x < virtual_addr then
        some ((r.piece 0 (virtual_addr - k)).pageAt x r.prot) else s.process.page x := by
  have hsound := hl.sound k r hk
  have hbase : r.base = k := hsound.base
  rcases Nat.eq_or_lt_of_le hva with rfl | hlt
  · -- The region starts there already.
    rw [if_neg (by simp [hbase])] at h
    obtain rfl := pure_eq_ok.mp h
    refine ⟨hl, ?_, fun l q hq => ?_, fun l hseam => .inl hseam, rfl, fun x => ?_⟩
    · rw [Nat.sub_self, Nat.add_sub_cancel_left, piece_self hsound]
      exact hk
    · by_cases hlk : l = k
      · exact .inl hlk
      · exact .inr (.inr ⟨hq, hlk⟩)
    · rw [if_neg (by omega)]
  · rw [if_pos (by omega)] at h
    obtain ⟨hregs, hres, hpages⟩ := splitBefore_spec h hl hk hend hpage hphys hlt hva'
    have heq : k + (virtual_addr - k) = virtual_addr := by omega
    have hsz : r.size - (virtual_addr - k) = k + r.size - virtual_addr := by omega
    refine ⟨?_, ?_, fun l q hq => ?_, fun l hseam => ?_, hres, hpages⟩
    · rw [hregs]
      exact hl.cut hk (by omega) (by omega) hphys
    · rw [hregs, cut, heq, hsz, mem_insert]
      exact .inl rfl
    · rw [hregs, cut, heq, mem_insert, mem_insert, Prod.mk.injEq, Prod.mk.injEq] at hq
      rcases hq with ⟨hl', -⟩ | ⟨hq | ⟨hq, hne⟩, -⟩
      · exact .inl hl'
      · exact .inr (.inl hq)
      · exact .inr (.inr ⟨hq, hne⟩)
    · rw [hregs] at hseam
      have hcut := hseam.of_cut hk (by omega)
      rwa [heq] at hcut

theorem splitRegion_back (h : (if r.size ≠ size then s.splitAfter k r size else pure s) = .ok s')
    (hl : Laid s.regions R) (hk : (k, r) ∈ s.regions) (hend : k + r.size ≤ 2^47)
    (hpage : s.process.page k = none) (hphys : r.is_mapped = true → r.phys_base ≠ noPhys)
    (hsize : 0 < size) (hsize' : size ≤ r.size) : Laid s'.regions R ∧ (k, r.piece 0 size) ∈ s'.regions ∧
      (∀ l q, (l, q) ∈ s'.regions → l = k ∨
        (l = k + size ∧ q = r.piece size (r.size - size)) ∨ ((l, q) ∈ s.regions ∧ l ≠ k)) ∧
      (∀ l, FreeSeam s'.regions l → FreeSeam s.regions l ∨ l = k + size) ∧ s'.process.reserved = s.process.reserved ∧
      ∀ x, s'.process.page x = if r.is_mapped = true ∧ k + size ≤ x ∧ x < k + r.size then
        some ((r.piece size (r.size - size)).pageAt x r.prot) else s.process.page x := by
  have hsound := hl.sound k r hk
  rcases Nat.eq_or_lt_of_le hsize' with rfl | hlt
  · rw [if_neg (by simp)] at h
    obtain rfl := pure_eq_ok.mp h
    refine ⟨hl, ?_, fun l q hq => ?_, fun l hseam => .inl hseam, rfl, fun x => ?_⟩
    · rw [piece_self hsound]
      exact hk
    · by_cases hlk : l = k
      · exact .inl hlk
      · exact .inr (.inr ⟨hq, hlk⟩)
    · rw [if_neg (by omega)]
  · rw [if_pos (by omega)] at h
    obtain ⟨hregs, hres, hpages⟩ := splitAfter_spec h hl hk hend hpage hphys hsize hlt
    refine ⟨?_, ?_, fun l q hq => ?_, fun l hseam => ?_, hres, hpages⟩
    · rw [hregs]
      exact hl.cut hk hsize hlt hphys
    · rw [hregs, cut, mem_insert, mem_insert]
      exact .inr ⟨.inl rfl, by simp only; omega⟩
    · rw [hregs, cut, mem_insert, mem_insert, Prod.mk.injEq, Prod.mk.injEq] at hq
      rcases hq with hq | ⟨⟨hl', -⟩ | ⟨hq, hne⟩, -⟩
      · exact .inr (.inl hq)
      · exact .inl hl'
      · exact .inr (.inr ⟨hq, hne⟩)
    · rw [hregs] at hseam
      exact hseam.of_cut hk hlt

theorem backingAt_piece (h : r.Sound k) (hm : r.is_mapped = true)
    (hphys : r.phys_base ≠ noPhys) (ho : o ≤ r.size) (hx : k + o ≤ x) :
    (r.piece o n).backingAt x = r.backingAt x := by
  have hoff := h.offset hm hphys
  have hne : r.phys_base + o ≠ noPhys := by omega
  unfold MemoryRegion.backingAt MemoryRegion.piece
  simp only [hm, if_true, if_neg hphys, if_neg hne]
  rw [show r.phys_base + o + (x - (r.base + o)) = r.phys_base + (x - r.base) by
    rw [h.base]
    omega]

/-- What `SplitRegion` leaves of the region `(k, r)`: the requested range is a region of its own, and
the other pages of a mapped region have the protection that it records. -/
structure Recut (s s' : Impl) (k : ℕ) (r : MemoryRegion) (virtual_addr size : ℕ) : Prop where
  wf : s'.Wf
  mem : (virtual_addr, r.piece (virtual_addr - k) size) ∈ s'.regions
  regions : ∀ l q, (l, q) ∈ s'.regions →
    (k ≤ l ∧ l + q.size ≤ k + r.size) ∨ ((l, q) ∈ s.regions ∧ l ≠ k)
  seam : ∀ l, FreeSeam s'.regions l →
    FreeSeam s.regions l ∨ l = virtual_addr ∨ l = virtual_addr + size
  reserved : s'.process.reserved = s.process.reserved
  page : ∀ x, ¬ (r.is_mapped = true ∧ k ≤ x ∧ x < k + r.size) →
    s'.process.page x = s.process.page x
  /-- The pages of a mapped region that lie outside of the requested range keep what stands behind them. -/
  remapped : r.is_mapped = true → ∀ x, k ≤ x → x < k + r.size →
    ¬ (virtual_addr ≤ x ∧ x < virtual_addr + size) →
    ∃ g, s'.process.page x = some g ∧ g.backing = r.backingAt x ∧ g.prot = r.prot

theorem splitRegion_spec (h : s.splitRegion virtual_addr size = .ok s') (hs : s.Wf)
    (hva : virtual_addr < 2^64) (hsize : 0 < size) :
    ∃ k r, s.regions.floor? virtual_addr = some (k, r) ∧ k ≤ virtual_addr ∧
      virtual_addr + size ≤ k + r.size ∧ s.Recut s' k r virtual_addr size := by
  obtain ⟨k, r, p0, s1, k1, r1, s2, hf, hassert, hphys, hp0, hs1, hf1, hs2, hp3, hregs⟩ :=
    splitRegion_eq_ok h
  have hlt := splitRegion_lt h hs hf hva hsize
  obtain ⟨hk, hkva, -⟩ := floor?_eq_some_iff.mp hf
  have hsound := hs.laid.sound k r hk
  have hbase : r.base = k := hsound.base
  have hend := hs.end_le hk
  obtain ⟨hres0, hpage0⟩ := unmap_page hp0 hs hk
  -- The first cut.
  have hfront := splitRegion_front (s := { s with process := p0 }) hs1 hs.laid hk hend
    (by rw [hpage0 k, if_pos ⟨Nat.le_refl _, by omega⟩]) hphys hkva hlt
  obtain ⟨hl1, hmem1, hentry1, hseam1, hres1, hpage1⟩ := hfront
  obtain ⟨rfl, rfl⟩ : virtual_addr = k1 ∧ r.piece (virtual_addr - k) (k + r.size - virtual_addr) = r1 := by
    have := hl1.partition.floor?_of_covers ⟨hmem1, Nat.le_refl _,
      show virtual_addr < virtual_addr + (k + r.size - virtual_addr) by omega⟩
    simpa [hf1] using this.symm
  -- The requested range ends in the region.
  have hfits : virtual_addr + size ≤ k + r.size := by
    by_cases heq : (r.piece (virtual_addr - k) (k + r.size - virtual_addr)).size = size
    · simp only [MemoryRegion.piece] at heq
      omega
    · rw [if_pos heq] at hs2
      obtain ⟨hpos, q, hq, h1, h2⟩ := splitAfter_holds hs2
      rw [hres1, hres0] at hq
      have hbound := hs.bound q hq
      rw [add64_of_lt (a := r.base), add64_of_lt (a := virtual_addr), hbase] at hassert
      · exact hassert
      · simp only [MemoryRegion.piece] at h2
        omega
      · omega
  have hpage₁va : s1.process.page virtual_addr = none := by
    rw [hpage1, if_neg (by omega), hpage0, if_pos ⟨hkva, hlt⟩]
  -- The second cut.
  have hback := splitRegion_back hs2 hl1 hmem1 (by simp only [MemoryRegion.piece]; omega) hpage₁va
    (fun hm => by
      have hm' : r.is_mapped = true := hm
      have := hsound.offset hm' (hphys hm')
      simp only [MemoryRegion.piece, if_pos hm']
      omega) hsize (by simp only [MemoryRegion.piece]; omega)
  obtain ⟨hl2, hmem2, hentry2, hseam2, hres2, hpage2⟩ := hback
  obtain ⟨hres3, hpage3⟩ := remap_page hp3
  have hres : s'.process.reserved = s.process.reserved := by
    rw [hres3, hres2, hres1]
    exact hres0
  rw [← hregs] at hl2 hmem2 hentry2 hseam2
  simp only [MemoryRegion.piece_piece, Nat.add_zero] at hmem2 hentry2 hpage2
  have hsz : k + r.size - virtual_addr - size = k + r.size - (virtual_addr + size) := by omega
  have hpiece : ∀ o n, (r.piece o n).size = n := fun _ _ => rfl
  have hmapped : ∀ o n, (r.piece o n).is_mapped = r.is_mapped := fun _ _ => rfl
  rw [hpiece, hsz] at hentry2
  simp only [hpiece, hmapped, hsz, show virtual_addr + (k + r.size - virtual_addr) = k + r.size by omega] at hpage2
  -- The pages, region by region.
  have hmid : ∀ x, r.is_mapped = true → virtual_addr ≤ x → x < virtual_addr + size →
      s'.process.page x = some ((r.piece (virtual_addr - k) size).pageAt x r.prot) := by
    intro x hm h1 h2
    rw [hpage3, if_pos]
    · rfl
    · simp only [MemoryRegion.piece, hm, true_and]
      omega
  have hnot : ∀ x, ¬ (r.is_mapped = true ∧ virtual_addr ≤ x ∧ x < virtual_addr + size) →
      s'.process.page x = s2.process.page x := by
    intro x hx
    rw [hpage3, if_neg]
    intro hcon
    simp only [MemoryRegion.piece] at hcon
    exact hx ⟨hcon.1, by omega, by omega⟩
  have hlast : ∀ x, r.is_mapped = true → virtual_addr + size ≤ x → x < k + r.size →
      s'.process.page x = some ((r.piece (virtual_addr - k + size)
        (k + r.size - (virtual_addr + size))).pageAt x r.prot) := by
    intro x hm h1 h2
    rw [hnot x (by omega), hpage2, if_pos ⟨hm, h1, h2⟩]
    rfl
  have hfirst : ∀ x, r.is_mapped = true → k ≤ x → x < virtual_addr →
      s'.process.page x = some ((r.piece 0 (virtual_addr - k)).pageAt x r.prot) := by
    intro x hm h1 h2
    rw [hnot x (by omega), hpage2, if_neg (by omega), hpage1, if_pos ⟨hm, h1, h2⟩]
  have hother : ∀ x, ¬ (r.is_mapped = true ∧ k ≤ x ∧ x < k + r.size) → s'.process.page x = s.process.page x := by
    intro x hx
    rw [hnot x (by intro hc; exact hx ⟨hc.1, by omega, by omega⟩), hpage2,
      if_neg (by intro hc; exact hx ⟨hc.1, by omega, by omega⟩), hpage1,
      if_neg (by intro hc; exact hx ⟨hc.1, by omega, by omega⟩)]
    rw [hpage0]
    split_ifs with hin
    · have hfree := hs.shown k r hk x (by omega) (by omega)
      rw [if_neg (fun hm => hx ⟨hm, hin.1, hin.2⟩)] at hfree
      exact hfree.symm
    · rfl
  -- What each region shows.
  have hparts : ∀ o n, (∀ x, r.is_mapped = true → k + o ≤ x → x < k + o + n →
      s'.process.page x = some ((r.piece o n).pageAt x r.prot)) → o + n ≤ r.size →
      (r.piece o n).Shown s'.process := by
    intro o n hshow hon x hx hx'
    have hx : r.base + o ≤ x := hx
    have hx' : x < r.base + o + n := hx'
    rw [hmapped]
    split_ifs with hm
    · exact ⟨r.prot, hshow x hm (by omega) (by omega)⟩
    · rw [hother x (fun hc => hm hc.1)]
      have hfree := hs.shown k r hk x (by omega) (by omega)
      rwa [if_neg hm] at hfree
  have hwf : s'.Wf := by
    refine ⟨?_, fun l q hq => ?_, fun x hx => ?_, ?_⟩
    · unfold Process.Reserved
      rw [hres]
      exact hl2
    · rcases hentry2 l q hq with rfl | ⟨-, rfl⟩ | ⟨hq1, hne⟩
      · obtain rfl := mem_unique hq hmem2
        exact hparts _ _ (fun x hm h1 h2 => hmid x hm (by omega) (by omega)) (by omega)
      · exact hparts _ _ (fun x hm h1 h2 => hlast x hm (by omega) (by omega)) (by omega)
      · rcases hentry1 l q hq1 with rfl | ⟨-, rfl⟩ | ⟨hq, hlk⟩
        · exact absurd rfl hne
        · exact hparts _ _ (fun x hm h1 h2 => hfirst x hm (by omega) (by omega)) (by omega)
        · -- A region apart from the one that is cut.
          refine (hs.shown l q hq).congr fun x hx hx' => hother x fun hc => hlk ?_
          rw [(hs.laid.sound l q hq).base] at hx hx'
          exact (hs.laid.partition.covers_unique ⟨hq, hx, hx'⟩ ⟨hk, hc.2⟩).1
    · have hx' : ¬ s.process.Reserved x := by
        unfold Process.Reserved at hx ⊢
        rwa [hres] at hx
      rw [hother x (fun hc => hx' ((hs.laid.partition.cover x).mpr ⟨k, r, hk, hc.2⟩))]
      exact hs.outside x hx'
    · rw [hres]
      exact hs.bound
  refine ⟨k, r, hf, hkva, hfits, hwf, hmem2, fun l q hq => ?_, fun l hl => ?_, hres, hother,
    fun hm x hx hx' hout => ?_⟩
  · rcases hentry2 l q hq with rfl | ⟨rfl, rfl⟩ | ⟨hq1, hne⟩
    · obtain rfl := mem_unique hq hmem2
      exact .inl ⟨hkva, by rw [hpiece]; exact hfits⟩
    · exact .inl ⟨by omega, by rw [hpiece]; omega⟩
    · rcases hentry1 l q hq1 with rfl | ⟨rfl, rfl⟩ | ⟨hq, hlk⟩
      · exact absurd rfl hne
      · exact .inl ⟨Nat.le_refl _, by rw [hpiece]; omega⟩
      · exact .inr ⟨hq, hlk⟩
  · rcases hseam2 l hl with hl | rfl
    · rcases hseam1 l hl with hl | rfl
      · exact .inl hl
      · exact .inr (.inl rfl)
    · exact .inr (.inr rfl)
  · -- The part that the address lies in.
    have hpart : ∀ o n, k + o ≤ x → o ≤ r.size → ((r.piece o n).pageAt x r.prot).backing = r.backingAt x :=
      fun o n ho ho' => backingAt_piece hsound hm (hphys hm) ho' ho
    rcases Nat.lt_or_ge x virtual_addr with hxva | hxva
    · exact ⟨_, hfirst x hm hx hxva, hpart _ _ (by omega) (by omega), rfl⟩
    · exact ⟨_, hlast x hm (by omega) hx', hpart _ _ (by omega) (by omega), rfl⟩

theorem Recut.self (hs : s.Wf) (hk : (k, r) ∈ s.regions) : s.Recut s k r k r.size where
  wf := hs
  mem := by rwa [Nat.sub_self, piece_self (hs.laid.sound k r hk)]
  regions := fun l q hq => by
    by_cases hlk : l = k
    · subst hlk
      obtain rfl := mem_unique hq hk
      exact .inl ⟨Nat.le_refl _, Nat.le_refl _⟩
    · exact .inr ⟨hq, hlk⟩
  seam := fun _ hl => .inl hl
  reserved := rfl
  page := fun _ _ => rfl
  remapped := fun _ x hx hx' hout => absurd ⟨hx, hx'⟩ hout

theorem split_spec [Decidable c] (h : (if c then s.splitRegion virtual_addr size else pure s) = .ok s') (hs : s.Wf)
    (hva : virtual_addr < 2^64) (hsize : 0 < size) (hf : s.regions.floor? virtual_addr = some (k, r))
    (hc : ¬ c → k = virtual_addr ∧ r.size = size) :
    k ≤ virtual_addr ∧ virtual_addr + size ≤ k + r.size ∧ s.Recut s' k r virtual_addr size := by
  split_ifs at h with hcond
  · obtain ⟨k', r', hf', hkva, hfits, hrecut⟩ := splitRegion_spec h hs hva hsize
    obtain ⟨rfl, rfl⟩ : k = k' ∧ r = r' := by simpa [hf] using hf'
    exact ⟨hkva, hfits, hrecut⟩
  · obtain rfl := pure_eq_ok.mp h
    obtain ⟨rfl, rfl⟩ := hc hcond
    exact ⟨Nat.le_refl _, Nat.le_refl _, .self hs (floor?_eq_some_iff.mp hf).1⟩

theorem Recut.floor? (h : s.Recut s' k r virtual_addr size) (hsize : 0 < size) :
    s'.regions.floor? virtual_addr = some (virtual_addr, r.piece (virtual_addr - k) size) :=
  h.wf.floor?_of_mem h.mem (Nat.le_refl _)
    (show virtual_addr < virtual_addr + size by omega)

theorem splitRegion_zero (h : s.splitRegion virtual_addr 0 = .ok s') :
    ∃ k r, s'.regions.floor? virtual_addr = some (k, r) ∧ r.size = 0 := by
  obtain ⟨k, r, p0, s1, k1, r1, s2, -, -, -, -, -, hf1, hs2, -, hregs⟩ := splitRegion_eq_ok h
  have hzero : r1.size = 0 := by
    by_contra hne
    rw [if_pos hne] at hs2
    exact absurd (splitAfter_holds hs2).1 (Nat.lt_irrefl 0)
  rw [if_neg (by simp [hzero])] at hs2
  obtain rfl := pure_eq_ok.mp hs2
  exact ⟨k1, r1, by rw [hregs]; exact hf1, hzero⟩

end Impl

end ShadPS4.AddressSpace
