import ShadPS4.AddressSpace.WindowsSplit

/-!
# What the calls do to the pages

Each call is specified by its effect on what the pages show, `Process.flat`: what stands behind a page and its
protection, or nothing for a page that is free.
-/

namespace ShadPS4.AddressSpace

open Nat
open OrdMap (mem_insert floor?_eq_some_iff mem_erase mem_tailFrom)

variable {p p' : Process} {r : MemoryRegion} {s s' : Impl}

/-- A page of the flat map: the byte of the backing or of a file that stands behind it, if any, and
its protection. -/
structure FlatPage where
  /-- What stands behind the page, and at which offset. -/
  source : Option (Handle × ℕ)
  prot : PageProt
deriving DecidableEq

/-- The byte that a page shows, mapped or copied. -/
def Backing.source : Backing → Option (Handle × ℕ)
  | .view handle offset => some (handle, offset)
  | .own contents => contents

/-- The flat map that the process shows: nothing for a page that is free. -/
def Process.flat (p : Process) (x : ℕ) : Option FlatPage :=
  (p.page x).map fun g => { source := g.backing.source, prot := g.prot }

theorem Process.flat_congr (h : p.page x = p'.page x) : p.flat x = p'.flat x := by
  unfold Process.flat
  rw [h]

/-- What a mapping at `virtual_addr` of the physical memory or file from `phys_addr` on puts behind
the address `x`. -/
def sourceAt (virtual_addr phys_addr : ℕ) (fd : ℤ) (x : ℕ) : Option (Handle × ℕ) :=
  if phys_addr = noPhys then none
  else some (if fd ≠ -1 then .file fd else .backing_handle, phys_addr + (x - virtual_addr))

theorem source_backingAt : (r.backingAt x).source = sourceAt r.base r.phys_base r.fd x := by
  unfold MemoryRegion.backingAt sourceAt
  split_ifs <;> rfl

namespace Impl

variable {k l x virtual_addr size : ℕ} {a b : MemoryRegion}

theorem Wf.store (hs : s.Wf) (hk : (k, r) ∈ s.regions) (hsize : b.size = r.size)
    (hb' : b.Sound k) (hres : q.reserved = s.process.reserved) (hshown : b.Shown q)
    (hpage : ∀ x, ¬ (k ≤ x ∧ x < k + r.size) → q.page x = s.process.page x) :
    Wf { process := q, regions := s.regions.insert k b } := by
  have hreserved : q.Reserved = s.process.Reserved := by
    unfold Process.Reserved
    rw [hres]
  refine ⟨?_, fun l c hc => ?_, fun x hx => ?_, ?_⟩
  · rw [hreserved]
    exact hs.laid.replace hk hsize hb'
  · rw [mem_insert, Prod.mk.injEq] at hc
    rcases hc with ⟨rfl, rfl⟩ | ⟨hc, hlk⟩
    · exact hshown
    · refine (hs.shown l c hc).congr fun x hx hx' => hpage x fun hin => hlk ?_
      rw [(hs.laid.sound l c hc).base] at hx hx'
      exact (hs.laid.partition.covers_unique ⟨hc, hx, hx'⟩ ⟨hk, hin⟩).1
  · rw [hreserved] at hx
    rw [hpage x fun hin => hx ((hs.laid.partition.cover x).mpr ⟨k, r, hk, hin⟩)]
    exact hs.outside x hx
  · show ∀ c ∈ q.reserved, _
    rw [hres]
    exact hs.bound

/-! ## Map -/

theorem map_spec (h : s.map virtual_addr phys_addr size prot fd = .ok s') (hs : s.Wf)
    (hseam : ∀ l, ¬ FreeSeam s.regions l) (hva : virtual_addr < 2^64) :
    s'.Wf ∧ (∀ l, ¬ FreeSeam s'.regions l) ∧ s'.process.reserved = s.process.reserved ∧
      ∀ x, s'.process.flat x = if virtual_addr ≤ x ∧ x < virtual_addr + size then
        some { source := sourceAt virtual_addr phys_addr fd x, prot } else s.process.flat x := by
  obtain ⟨⟨k, r⟩, hf, h⟩ := bind_eq_ok.mp h
  obtain ⟨s1, hs1, h⟩ := bind_eq_ok.mp h
  obtain ⟨⟨k1, r1⟩, hf1, h⟩ := bind_eq_ok.mp h
  obtain ⟨u, hfree, h⟩ := bind_eq_ok.mp h
  obtain ⟨p2, hp2, h⟩ := bind_eq_ok.mp h
  obtain rfl := pure_eq_ok.mp h
  rw [containing_eq_ok] at hf hf1
  rw [require_eq_ok] at hfree
  obtain ⟨hholds, hphys, hp2⟩ := mapRegion_spec hp2
  have hk := (floor?_eq_some_iff.mp hf).1
  have hpos : 0 < r.size := hs.laid.partition.pos k r hk
  -- An empty range is never mapped.
  have hsize : 0 < size := by
    by_contra hzero
    obtain rfl : size = 0 := by omega
    rw [if_pos (.inr (by omega))] at hs1
    obtain ⟨k', r', hf', hr'⟩ := splitRegion_zero hs1
    obtain ⟨rfl, rfl⟩ : k' = k1 ∧ r' = r1 := by simpa [hf'] using hf1
    have := hholds.1
    simp only [hr'] at this
    exact absurd this (lt_irrefl 0)
  obtain ⟨hkva, hfits, hrecut⟩ := split_spec hs1 hs hva hsize hf (fun hc => by
    rw [not_or, not_not, not_not] at hc
    exact hc)
  obtain ⟨rfl, rfl⟩ : virtual_addr = k1 ∧ r.piece (virtual_addr - k) size = r1 := by
    have := hrecut.floor? hsize
    simpa [hf1] using this.symm
  have hmem := hrecut.mem
  have hsound := hrecut.wf.laid.sound _ _ hmem
  have hend := hrecut.wf.end_le hmem
  have hrfree : r.is_mapped = false := hfree
  have hbase : r.base + (virtual_addr - k) = virtual_addr := hsound.base
  have hend : virtual_addr + size ≤ 2^47 := hend
  have hstore : Wf { process := p2, regions := _ } :=
    hrecut.wf.store (b := { r.piece (virtual_addr - k) size with
      is_mapped := true, phys_base := phys_addr, prot, fd }) (q := p2) hmem rfl
      ⟨hbase, fun hm => by simp at hm, fun _ hne => by
        have := hphys hne
        show phys_addr + size < noPhys
        unfold noPhys uint64Max
        simp only at this
        omega⟩
      (by rw [hp2]; rfl)
      (fun x hx hx' => by
        rw [if_pos rfl, hp2, Process.page_update, if_pos ⟨hx, hx'⟩]
        exact ⟨prot, rfl⟩)
      (fun x hx => by
        rw [hp2, Process.page_update, if_neg]
        simp only [MemoryRegion.piece, hbase] at hx ⊢
        exact hx)
  refine ⟨hstore, fun l hl => ?_, ?_, fun x => ?_⟩
  · -- A seam at an end of the range would be a seam of the mapped region.
    have hno := hstore.laid.not_freeSeam_mapped (by rw [mem_insert]; exact .inl rfl) rfl
    rcases hl.of_replace rfl with hl' | ⟨hm, -⟩
    · rcases hrecut.seam l hl' with hl'' | rfl | rfl
      · exact hseam l hl''
      · exact hno.1 hl
      · exact hno.2 hl
    · simp at hm
  · show p2.reserved = _
    rw [hp2]
    exact hrecut.reserved
  · show p2.flat x = _
    unfold Process.flat
    rw [hp2, Process.page_update]
    simp only [MemoryRegion.piece, hbase]
    split_ifs with hx
    · rw [Option.map_some]
      simp only [MemoryRegion.pageAt, source_backingAt]
    · rw [hrecut.page x (fun hc => by simp [hrfree] at hc)]

/-! ## Joining free regions -/

theorem Wf.merge (hs : s.Wf) (hk : (k, a) ∈ s.regions) (hl : (l, b) ∈ s.regions)
    (hkl : l = k + a.size) (hfa : a.is_mapped = false) (hfb : b.is_mapped = false) : Wf { s with
      regions := (s.regions.insert k { a with size := a.size + b.size }).erase l } := by
  refine ⟨hs.laid.merge hk hl hkl hfa, fun j q hq => ?_, hs.outside, hs.bound⟩
  rw [mem_erase, mem_insert, Prod.mk.injEq] at hq
  rcases hq with ⟨⟨rfl, rfl⟩ | ⟨hq, -⟩, -⟩
  · -- The pages of both are free.
    intro x hx hx'
    have hx' : x < a.base + (a.size + b.size) := hx'
    have habase := (hs.laid.sound j a hk).base
    have hbbase := (hs.laid.sound l b hl).base
    rw [if_neg (by simp [hfa])]
    rcases lt_or_ge x l with hxl | hxl
    · have ha := hs.shown j a hk x hx (by omega)
      rwa [if_neg (by simp [hfa])] at ha
    · have hb := hs.shown l b hl x (by omega) (by omega)
      rwa [if_neg (by simp [hfb])] at hb
  · exact hs.shown j q hq

theorem Wf.not_freeSeam_start (hs : s.Wf)
    (h : ∀ l b, s.regions.prev? k = some (l, b) → ¬ (b.is_mapped = false ∧ l + b.size = k)) :
    ¬ FreeSeam s.regions k := by
  rintro ⟨l, b, c, hb, hc, hfb, -, hlk⟩
  have hpos : 0 < b.size := hs.laid.partition.pos l b hb
  refine h l b (OrdMap.prev?_eq_some_iff.mpr ⟨hb, by omega, fun q hq hqk => ?_⟩) ⟨hfb, hlk⟩
  by_contra hlt
  have hdis : l + b.size ≤ q.1 := hs.laid.partition.disjoint l b q.1 q.2 hb hq (by omega)
  omega

theorem Wf.not_freeSeam_end (hs : s.Wf) (hk : (k, r) ∈ s.regions)
    (h : ∀ l b, s.regions.next? k = some (l, b) → ¬ (b.is_mapped = false ∧ k + r.size = l)) :
    ¬ FreeSeam s.regions (k + r.size) := by
  rintro ⟨l, b, c, hb, hc, hfb, hfc, hlk⟩
  have hpos : 0 < r.size := hs.laid.partition.pos k r hk
  refine h (k + r.size) c (OrdMap.next?_eq_some_iff.mpr ⟨hc, by omega, fun q hq hqk => ?_⟩)
    ⟨hfc, rfl⟩
  exact hs.laid.partition.disjoint k r q.1 q.2 hk hq hqk

theorem coalescePrev_spec (hs : Wf { s with regions := m }) (hk : (it, region) ∈ m)
    (hfree : region.is_mapped = false) (hpasses : it ≤ passes)
    (h : coalescePrev passes m it region c = (m', it', region', c')) :
    Wf { s with regions := m' } ∧ (it', region') ∈ m' ∧ region'.is_mapped = false ∧ it' ≤ it ∧
      it' + region'.size = it + region.size ∧ (∀ l, FreeSeam m' l → FreeSeam m l) ∧
      ¬ FreeSeam m' it' := by
  induction passes generalizing m it region c with
  | zero =>
    obtain ⟨rfl, rfl, rfl, rfl⟩ : m = m' ∧ it = it' ∧ region = region' ∧ c = c' := by
      simpa [coalescePrev] using h
    refine ⟨hs, hk, hfree, le_refl _, rfl, fun _ hl => hl, hs.not_freeSeam_start ?_⟩
    intro l b hl
    have := (OrdMap.prev?_eq_some_iff.mp hl).2.1
    omega
  | succ passes ih =>
    have hstop : (∀ l b, m.prev? it = some (l, b) → ¬ (b.is_mapped = false ∧ l + b.size = it)) →
        (m, it, region, c) = (m', it', region', c') →
        Wf { s with regions := m' } ∧ (it', region') ∈ m' ∧ region'.is_mapped = false ∧ it' ≤ it ∧
          it' + region'.size = it + region.size ∧ (∀ l, FreeSeam m' l → FreeSeam m l) ∧
          ¬ FreeSeam m' it' := by
      intro hprev heq
      obtain ⟨rfl, rfl, rfl, rfl⟩ : m = m' ∧ it = it' ∧ region = region' ∧ c = c' := by
        simpa using heq
      exact ⟨hs, hk, hfree, le_refl _, rfl, fun _ hl => hl, hs.not_freeSeam_start hprev⟩
    unfold coalescePrev at h
    split at h
    · rename_i it_prev prev hprev
      obtain ⟨hmem, hlt, -⟩ := OrdMap.prev?_eq_some_iff.mp hprev
      have hend := hs.end_le hk
      have hend' := hs.end_le hmem
      have hadd : add64 it_prev prev.size = it_prev + prev.size := add64_of_lt (by omega)
      have hadd' : add64 prev.size region.size = prev.size + region.size := add64_of_lt (by omega)
      rw [hadd] at h
      split_ifs at h with hc
      · dsimp only at h
        rw [hadd'] at h
        have hmem1 : (it_prev, { prev with size := prev.size + region.size }) ∈
            (m.insert it_prev { prev with size := prev.size + region.size }).erase it := by
          rw [mem_erase, mem_insert]
          exact ⟨.inl rfl, by simp only; omega⟩
        obtain ⟨hwf, hmem', hfree', hle, hsum, hseams, hstart⟩ :=
          ih (hs.merge hmem hk hc.2.symm hc.1 hfree) hmem1 hc.1 (by omega) h
        refine ⟨hwf, hmem', hfree', by omega, ?_, fun l hl => ?_, hstart⟩
        · simp only at hsum
          omega
        · exact ((hseams l hl).of_merge hmem hk hc.2.symm hfree).1
      · exact hstop (fun l b hl => by
          obtain ⟨rfl, rfl⟩ : it_prev = l ∧ prev = b := by simpa [hprev] using hl
          exact hc) h
    · rename_i hprev
      exact hstop (fun l b hl => by simp [hprev] at hl) h

theorem coalesceNext_spec (hs : Wf { s with regions := m }) (hk : (it, region) ∈ m)
    (hfree : region.is_mapped = false) (hpasses : 2^64 ≤ it + region.size + passes)
    (h : coalesceNext passes m it region c = (m', region', c')) :
    Wf { s with regions := m' } ∧ (it, region') ∈ m' ∧ region'.is_mapped = false ∧
      region.size ≤ region'.size ∧ (∀ l, FreeSeam m' l → FreeSeam m l) ∧
      ¬ FreeSeam m' (it + region'.size) := by
  have hend := hs.end_le hk
  induction passes generalizing m region c with
  | zero => omega
  | succ passes ih =>
    have hstop : (∀ l b, m.next? it = some (l, b) → ¬ (b.is_mapped = false ∧ it + region.size = l)) →
        (m, region, c) = (m', region', c') →
        Wf { s with regions := m' } ∧ (it, region') ∈ m' ∧ region'.is_mapped = false ∧
          region.size ≤ region'.size ∧ (∀ l, FreeSeam m' l → FreeSeam m l) ∧
          ¬ FreeSeam m' (it + region'.size) := by
      intro hnext heq
      obtain ⟨rfl, rfl, rfl⟩ : m = m' ∧ region = region' ∧ c = c' := by simpa using heq
      exact ⟨hs, hk, hfree, le_refl _, fun _ hl => hl, hs.not_freeSeam_end hk hnext⟩
    unfold coalesceNext at h
    split at h
    · rename_i it_next next hnext
      obtain ⟨hmem, hlt, -⟩ := OrdMap.next?_eq_some_iff.mp hnext
      have hend' := hs.end_le hmem
      have hpos : 0 < next.size := hs.laid.partition.pos it_next next hmem
      have hadd : add64 it region.size = it + region.size := add64_of_lt (by omega)
      have hadd' : add64 region.size next.size = region.size + next.size := add64_of_lt (by omega)
      rw [hadd] at h
      split_ifs at h with hc
      · dsimp only at h
        rw [hadd'] at h
        have hmem1 : (it, { region with size := region.size + next.size }) ∈
            (m.insert it { region with size := region.size + next.size }).erase it_next := by
          rw [mem_erase, mem_insert]
          exact ⟨.inl rfl, by simp only; omega⟩
        obtain ⟨hwf, hmem', hfree', hle, hseams, hend⟩ :=
          ih (hs.merge hk hmem hc.2.symm hfree hc.1) hmem1 hfree (by simp only; omega) h
            (by simp only; omega)
        refine ⟨hwf, hmem', hfree', ?_, fun l hl => ?_, hend⟩
        · simp only at hle
          omega
        · exact ((hseams l hl).of_merge hk hmem hc.2.symm hc.1).1
      · exact hstop (fun l b hl => by
          obtain ⟨rfl, rfl⟩ : it_next = l ∧ next = b := by simpa [hnext] using hl
          exact hc) h
    · rename_i hnext
      exact hstop (fun l b hl => by simp [hnext] at hl) h

theorem coalesceFreeRegions_spec (h : s.coalesceFreeRegions virtual_addr = .ok s') (hs : s.Wf) :
    ∃ it region it' region', s.regions.floor? virtual_addr = some (it, region) ∧ s'.Wf ∧
      s'.process = s.process ∧ (it', region') ∈ s'.regions ∧ region'.is_mapped = false ∧
      it' ≤ it ∧ it + region.size ≤ it' + region'.size ∧
      (∀ l, FreeSeam s'.regions l → FreeSeam s.regions l) ∧ ¬ FreeSeam s'.regions it' ∧
      ¬ FreeSeam s'.regions (it' + region'.size) := by
  obtain ⟨⟨it, region⟩, hf, h⟩ := bind_eq_ok.mp h
  obtain ⟨u, hfree, h⟩ := bind_eq_ok.mp h
  rw [containing_eq_ok] at hf
  rw [require_eq_ok] at hfree
  have hk := (floor?_eq_some_iff.mp hf).1
  rcases hprev : coalescePrev it s.regions it region false with ⟨m1, it1, r1, c1⟩
  rw [hprev] at h
  simp only at h
  rcases hnext : coalesceNext (2^64 - (it1 + r1.size)) m1 it1 r1 c1 with ⟨m2, r2, c2⟩
  rw [hnext] at h
  obtain ⟨hwf1, hmem1, hfree1, hle1, hsum1, hseams1, hstart1⟩ :=
    coalescePrev_spec (s := s) hs hk hfree (le_refl _) hprev
  obtain ⟨hwf2, hmem2, hfree2, hle2, hseams2, hend2⟩ :=
    coalesceNext_spec (s := s) hwf1 hmem1 hfree1 (by omega) hnext
  obtain rfl : { s with regions := m2 } = s' := by
    cases c2 with
    | true =>
      obtain ⟨p, hp, h⟩ := bind_eq_ok.mp h
      rw [succeeded_eq_ok] at hp
      obtain ⟨-, heq⟩ := Option.ite_none_right_eq_some.mp hp
      rw [Option.some.inj heq]
      exact pure_eq_ok.mp h
    | false => exact pure_eq_ok.mp h
  exact ⟨it, region, it1, r2, hf, hwf2, rfl, hmem2, hfree2, hle1, by omega,
    fun l hl => hseams1 l (hseams2 l hl), fun hl => hstart1 (hseams2 _ hl), hend2⟩

/-! ## Unmap -/

/-- What `Unmap` needs to keep the protection of the pages outside of its range: where it cuts a
mapped region, the pages of the region that are outside have the protection that the region
records. -/
def ProtKept (s : Impl) (virtual_addr size : ℕ) : Prop :=
  ∀ k r, (k, r) ∈ s.regions → r.is_mapped = true →
    (∃ y, (k ≤ y ∧ y < k + r.size) ∧ virtual_addr ≤ y ∧ y < virtual_addr + size) →
    ∀ x g, k ≤ x → x < k + r.size → ¬ (virtual_addr ≤ x ∧ x < virtual_addr + size) →
      s.process.page x = some g → g.prot = r.prot

theorem unmapPass_spec
    (h : s.unmapPass current_addr remaining = .ok (s', n)) (hs : s.Wf) (hcur : current_addr < 2^64) (hn : n ≠ 0) :
    ∃ k r, (k, r) ∈ s.regions ∧ k ≤ current_addr ∧ current_addr < k + r.size ∧
      n = min (k + r.size - current_addr) remaining ∧ s'.Wf ∧ s'.process.reserved = s.process.reserved ∧
      (∀ l, FreeSeam s'.regions l → FreeSeam s.regions l ∨ l = current_addr ∨ l = current_addr + n) ∧
      (∀ l q, (l, q) ∈ s'.regions → (k ≤ l ∧ l + q.size ≤ k + r.size) ∨ ((l, q) ∈ s.regions ∧ l ≠ k)) ∧
      (∀ x, current_addr ≤ x → x < current_addr + n → s'.process.page x = none) ∧
      (∀ x, ¬ (k ≤ x ∧ x < k + r.size) → s'.process.page x = s.process.page x) ∧
      (s.ProtKept current_addr n → ∀ x, ¬ (current_addr ≤ x ∧ x < current_addr + n) →
        s'.process.flat x = s.process.flat x) := by
  obtain ⟨⟨k, r⟩, hf, h⟩ := bind_eq_ok.mp h
  obtain ⟨s1, hs1, h⟩ := bind_eq_ok.mp h
  obtain ⟨⟨k1, r1⟩, hf1, h⟩ := bind_eq_ok.mp h
  obtain ⟨p2, hp2, h⟩ := bind_eq_ok.mp h
  obtain ⟨hs', hn'⟩ := Prod.mk.inj (pure_eq_ok.mp h)
  rw [hn'] at hs1
  rw [containing_eq_ok] at hf hf1
  obtain ⟨hk, hkcur, -⟩ := floor?_eq_some_iff.mp hf
  have hbase : r.base = k := (hs.laid.sound k r hk).base
  have hend := hs.end_le hk
  have hoff : sub64 current_addr r.base = current_addr - k := by
    rw [hbase]
    exact sub64_of_le hkcur hcur
  rw [hoff] at hn'
  -- The pass is over a part of one region.
  obtain ⟨-, hfits, hrecut⟩ := split_spec hs1 hs hcur (by omega) hf (fun hc => by
    rw [not_or, not_not, not_not] at hc
    exact ⟨by omega, hc.2.symm⟩)
  have hsub : sub64 r.size (current_addr - k) = k + r.size - current_addr := by
    rw [sub64_of_le (by omega) (by omega)]
    omega
  rw [hsub] at hn'
  obtain ⟨rfl, rfl⟩ : current_addr = k1 ∧ r.piece (current_addr - k) n = r1 := by
    have := hrecut.floor? (by omega)
    simpa [hf1] using this.symm
  have hmem := hrecut.mem
  have hsound := hrecut.wf.laid.sound _ _ hmem
  have hpbase : r.base + (current_addr - k) = current_addr := hsound.base
  obtain ⟨hres2, hpage2⟩ := unmap_page hp2 hrecut.wf hmem
  have hpage2 : ∀ x, p2.page x =
      if current_addr ≤ x ∧ x < current_addr + n then none else s1.process.page x := hpage2
  have hstore := hrecut.wf.store (q := p2) (b := { r.piece (current_addr - k) n with
      is_mapped := false, fd := -1, phys_base := noPhys, prot := .noAccess }) hmem rfl
    ⟨hpbase, fun _ => rfl, fun hm => by simp at hm⟩ hres2
    (fun x hx hx' => by
      have hx : r.base + (current_addr - k) ≤ x := hx
      have hx' : x < r.base + (current_addr - k) + n := hx'
      rw [if_neg (by simp), hpage2, if_pos (by omega)])
    (fun x hx => by
      have hx : ¬ (current_addr ≤ x ∧ x < current_addr + n) := hx
      rw [hpage2, if_neg hx])
  subst hs'
  refine ⟨k, r, hk, hkcur, by omega, hn'.symm, hstore, ?_, fun l hl => ?_, fun l q hq => ?_,
    fun x hx hx' => ?_, fun x hx => ?_, fun hkept x hx => ?_⟩
  · show p2.reserved = _
    rw [hres2]
    exact hrecut.reserved
  · rcases hl.of_replace rfl with hl | ⟨-, rfl | rfl⟩
    · exact hrecut.seam l hl
    · exact .inr (.inl rfl)
    · exact .inr (.inr rfl)
  · rw [mem_insert, Prod.mk.injEq] at hq
    rcases hq with ⟨rfl, rfl⟩ | ⟨hq, -⟩
    · exact .inl ⟨hkcur, hfits⟩
    · exact hrecut.regions l q hq
  · show p2.page x = none
    rw [hpage2, if_pos ⟨hx, hx'⟩]
  · show p2.page x = _
    rw [hpage2, if_neg (by omega)]
    exact hrecut.page x fun hc => hx hc.2
  · show p2.flat x = _
    have hp1 : p2.page x = s1.process.page x := by rw [hpage2, if_neg hx]
    rw [Process.flat_congr hp1]
    by_cases hin : r.is_mapped = true ∧ k ≤ x ∧ x < k + r.size
    · -- A page that was mapped again, with the recorded protection.
      obtain ⟨hm, hxk, hxe⟩ := hin
      obtain ⟨g, hg, hback, hprot⟩ := hrecut.remapped hm x hxk hxe hx
      obtain ⟨prot, hold⟩ : ∃ prot, s.process.page x = some (r.pageAt x prot) := by
        have := hs.shown k r hk x (by omega) (by omega)
        rwa [if_pos hm] at this
      have hkeep : prot = r.prot := hkept k r hk hm
        ⟨current_addr, ⟨hkcur, by omega⟩, le_refl _, by omega⟩ x _ hxk hxe hx hold
      unfold Process.flat
      rw [hg, hold, Option.map_some, Option.map_some, hback, hprot, hkeep]
      rfl
    · exact Process.flat_congr (hrecut.page x hin)

theorem unmapLoop_spec (h : unmapLoop passes s current_addr remaining = .ok s') (hs : s.Wf)
    (hcur : current_addr < 2^64) (hpasses : remaining ≤ passes) (hkept : s.ProtKept current_addr remaining) :
    s'.Wf ∧ s'.process.reserved = s.process.reserved ∧ (∀ l, FreeSeam s'.regions l → FreeSeam s.regions l ∨
        0 < remaining ∧ current_addr ≤ l ∧ l ≤ current_addr + remaining) ∧
      (∀ x, current_addr ≤ x → x < current_addr + remaining → s.process.Reserved x ∧ s'.process.page x = none) ∧
      ∀ x, ¬ (current_addr ≤ x ∧ x < current_addr + remaining) → s'.process.flat x = s.process.flat x := by
  induction passes generalizing s current_addr remaining with
  | zero =>
    obtain rfl := pure_eq_ok.mp h
    exact ⟨hs, rfl, fun _ hl => .inl hl, fun x hx hx' => by omega, fun _ _ => rfl⟩
  | succ passes ih =>
    unfold unmapLoop at h
    by_cases hzero : remaining = 0
    · rw [if_pos hzero] at h
      obtain rfl := pure_eq_ok.mp h
      exact ⟨hs, rfl, fun _ hl => .inl hl, fun x hx hx' => by omega, fun _ _ => rfl⟩
    · rw [if_neg hzero] at h
      obtain ⟨⟨s1, n⟩, hpass, h⟩ := bind_eq_ok.mp h
      dsimp only at h
      by_cases hn : n = 0
      · rw [if_pos hn] at h
        simp at h
      rw [if_neg hn] at h
      obtain ⟨k, r, hk, hkcur, hlt, hmin, hwf1, hres1, hseam1, hregions1, hfree1, hpage1, hflat1⟩ :=
        unmapPass_spec hpass hs hcur hn
      have hend := hs.end_le hk
      have hadd : add64 current_addr n = current_addr + n := add64_of_lt (by omega)
      rw [hadd] at h
      -- The part of the condition that this pass uses, and the part that is left for the others.
      have hkept1 : s.ProtKept current_addr n := by
        intro l q hq hm hmeets x g hx hx' hout hg
        obtain ⟨y, hy, hy', hy''⟩ := hmeets
        obtain ⟨rfl, rfl⟩ := hs.laid.partition.covers_unique (x := y) ⟨hq, hy⟩ ⟨hk, by omega,
          show y < k + r.size by omega⟩
        refine hkept l q hq hm ⟨y, hy, hy', by omega⟩ x g hx hx' ?_ hg
        intro hin
        exact hout ⟨hin.1, by omega⟩
      have hkept2 : s1.ProtKept (current_addr + n) (remaining - n) := by
        intro l q hq hm hmeets x g hx hx' hout hg
        obtain ⟨y, hy, hy', hy''⟩ := hmeets
        rcases hregions1 l q hq with hin | ⟨hq, hlk⟩
        · omega
        · -- The region is apart from the one of this pass.
          have hapart : ∀ z, l ≤ z → z < l + q.size → ¬ (k ≤ z ∧ z < k + r.size) := by
            intro z hz hz' hzk
            exact hlk (hs.laid.partition.covers_unique (x := z) ⟨hq, hz, hz'⟩ ⟨hk, hzk⟩).1
          have := hapart x hx hx'
          rw [hpage1 x this] at hg
          refine hkept l q hq hm ⟨y, hy, by omega, by omega⟩ x g hx hx' ?_ hg
          intro hin
          exact hout ⟨by omega, by omega⟩
      obtain ⟨hwf, hres, hseam, hfree, hflat⟩ := ih h hwf1 (by omega) (by omega) hkept2
      refine ⟨hwf, hres.trans hres1, fun l hl => ?_, fun x hx hx' => ?_, fun x hx => ?_⟩
      · rcases hseam l hl with hl | ⟨hpos, h1, h2⟩
        · rcases hseam1 l hl with hl | rfl | rfl
          · exact .inl hl
          · exact .inr ⟨by omega, by omega, by omega⟩
          · exact .inr ⟨by omega, by omega, by omega⟩
        · exact .inr ⟨by omega, by omega, by omega⟩
      · rcases lt_or_ge x (current_addr + n) with hxn | hxn
        · refine ⟨(hs.laid.partition.cover x).mpr ⟨k, r, hk, by omega, show x < k + r.size by omega⟩,
            ?_⟩
          have hsame : s'.process.flat x = s1.process.flat x := hflat x (by omega)
          unfold Process.flat at hsame
          rw [hfree1 x hx hxn, Option.map_none, Option.map_eq_none_iff] at hsame
          exact hsame
        · have hres' : s1.process.Reserved x ∧ s'.process.page x = none :=
            hfree x hxn (by omega)
          refine ⟨?_, hres'.2⟩
          have := hres'.1
          unfold Process.Reserved at this ⊢
          rwa [hres1] at this
      · rw [hflat x (by omega), hflat1 hkept1 x (by omega)]

theorem unmap_spec (h : s.unmap virtual_addr size = .ok s') (hs : s.Wf)
    (hseam : ∀ l, ¬ FreeSeam s.regions l) (hva : virtual_addr < 2^64) (hkept : s.ProtKept virtual_addr size) :
    s'.Wf ∧ (∀ l, ¬ FreeSeam s'.regions l) ∧ s'.process.reserved = s.process.reserved ∧
      ∀ x, s'.process.flat x = if virtual_addr ≤ x ∧ x < virtual_addr + size then none
        else s.process.flat x := by
  obtain ⟨s1, hs1, h⟩ := bind_eq_ok.mp h
  obtain ⟨hwf1, hres1, hseam1, hfree1, hflat1⟩ :=
    unmapLoop_spec hs1 hs hva (le_refl _) hkept
  obtain ⟨it, region, it', region', hf, hwf, hprocess, hmem, hfree, hle, hsum, hseams, hstart,
    hend⟩ := coalesceFreeRegions_spec h hwf1
  refine ⟨hwf, fun l hl => ?_, by rw [hprocess, hres1], fun x => ?_⟩
  · -- A seam that is left would be one that the loop made, past the end of the joined region.
    rcases hseam1 l (hseams l hl) with hl' | ⟨hpos, hl1, hl2⟩
    · exact hseam l hl'
    have hva1 : s1.process.Reserved virtual_addr := by
      have := (hfree1 virtual_addr (le_refl _) (by omega)).1
      unfold Process.Reserved at this ⊢
      rwa [hres1]
    have hcover : virtual_addr < it + region.size :=
      hwf1.lt_of_floor? hf (floor?_eq_some_iff.mp hf).2.1 (le_refl _) hva1
    have hit := (floor?_eq_some_iff.mp hf).2.1
    obtain ⟨j, a, b, ha, hb, hfa, hfb, hjl⟩ := id hl
    rcases lt_trichotomy l (it' + region'.size) with hlt | heq | hgt
    · -- The seam is not inside of the joined region.
      rcases eq_or_lt_of_le (show it' ≤ l by omega) with rfl | hlt'
      · exact hstart hl
      · have hdis : it' + region'.size ≤ l :=
          hwf.laid.partition.disjoint it' region' l b hmem hb hlt'
        omega
    · exact hend (heq ▸ hl)
    · -- The address right after the joined region was unmapped, so that the region continues.
      have hnext := hfree1 (it' + region'.size) (by omega) (by omega)
      obtain ⟨m, c, hc, hm, hmc⟩ := (hwf.laid.partition.cover (it' + region'.size)).mp (by
        have := hnext.1
        unfold Process.Reserved at this ⊢
        rwa [hprocess, hres1])
      have hmc : it' + region'.size < m + c.size := hmc
      obtain rfl : m = it' + region'.size := by
        rcases lt_trichotomy m it' with hlt | rfl | hlt
        · have hdis : m + c.size ≤ it' :=
            hwf.laid.partition.disjoint m c it' region' hc hmem hlt
          omega
        · obtain rfl := OrdMap.mem_unique hc hmem
          omega
        · have hdis : it' + region'.size ≤ m :=
            hwf.laid.partition.disjoint it' region' m c hmem hc hlt
          omega
      have hcfree : c.is_mapped = false := by
        have hbase := (hwf.laid.sound _ c hc).base
        have hshown := hwf.shown _ c hc (it' + region'.size) (by omega) (by omega)
        by_contra hm
        rw [if_pos (by simpa using hm), hprocess, hnext.2] at hshown
        obtain ⟨prot, hprot⟩ := hshown
        simp at hprot
      exact hend ⟨it', region', c, hmem, hc, hfree, hcfree, rfl⟩
  · rw [hprocess]
    split_ifs with hx
    · unfold Process.flat
      rw [(hfree1 x hx.1 hx.2).2, Option.map_none]
    · exact hflat1 x hx

/-! ## Protect -/

def setProt (prot : PageProt) (page : Option HostPage) : Option HostPage :=
  page.map fun page => { page with prot }

theorem protectLoop_spec (h : protectLoop virtual_addr virtual_end new_flags es p = .ok p')
    (hes : es.Pairwise (fun e f => e.1 < f.1)) (hbase : ∀ e ∈ es, e.2.base = e.1)
    (hend : ∀ e ∈ es, e.1 + e.2.size ≤ 2^47) (hbound : ∀ q ∈ p.reserved, q.1 + q.2 ≤ 2^47)
    (hve : virtual_end < 2^64) : p'.reserved = p.reserved ∧
      (∀ x, (∃ e ∈ es, e.2.is_mapped = true ∧ e.1 ≤ x ∧ x < e.1 + e.2.size) →
        virtual_addr ≤ x → x < virtual_end → p'.page x = setProt new_flags (p.page x)) ∧
      ∀ x, ¬ ((∃ e ∈ es, e.2.is_mapped = true ∧ e.1 ≤ x ∧ x < e.1 + e.2.size) ∧
        virtual_addr ≤ x ∧ x < virtual_end) → p'.page x = p.page x := by
  induction es generalizing p with
  | nil => simp [protectLoop] at h
  | cons e es ih =>
    obtain ⟨it, region⟩ := e
    rw [List.pairwise_cons] at hes
    have hb : region.base = it := hbase (it, region) List.mem_cons_self
    have he : it + region.size ≤ 2^47 := hend (it, region) List.mem_cons_self
    have hbase' : ∀ e ∈ es, e.2.base = e.1 := fun e he => hbase e (List.mem_cons_of_mem _ he)
    have hend' : ∀ e ∈ es, e.1 + e.2.size ≤ 2^47 := fun e he => hend e (List.mem_cons_of_mem _ he)
    unfold protectLoop at h
    by_cases hit : it < virtual_end
    · rw [if_pos hit] at h
      by_cases hm : region.is_mapped = true
      · rw [if_pos hm] at h
        obtain ⟨p1, hp1, h⟩ := bind_eq_ok.mp h
        rw [succeeded_eq_ok] at hp1
        obtain ⟨hholds, heq⟩ := Option.ite_none_right_eq_some.mp hp1
        have hadd : add64 region.base region.size = it + region.size := by
          rw [hb]
          exact add64_of_lt (by omega)
        rw [hadd, hb] at hholds heq
        -- The range of the call is inside of the region, and not empty.
        have hle : max it virtual_addr ≤ min (it + region.size) virtual_end := by
          obtain ⟨-, q, hq, -, hq'⟩ := hholds
          have := hbound q hq
          unfold sub64 at hq'
          omega
        have hsize : sub64 (min (it + region.size) virtual_end) (max it virtual_addr) =
            min (it + region.size) virtual_end - max it virtual_addr :=
          sub64_of_le hle (by omega)
        have heq := Option.some.inj heq
        have hpage1 : ∀ x, p1.page x = if (it ≤ x ∧ x < it + region.size) ∧ virtual_addr ≤ x ∧
            x < virtual_end then setProt new_flags (p.page x) else p.page x := by
          intro x
          rw [← heq, Process.page_update]
          by_cases hx : (it ≤ x ∧ x < it + region.size) ∧ virtual_addr ≤ x ∧ x < virtual_end
          · rw [if_pos hx, if_pos (by omega)]
            rfl
          · rw [if_neg hx, if_neg (by omega)]
        obtain ⟨hres, hin, hout⟩ := ih h hes.2 hbase' hend' (by rw [← heq]; exact hbound)
        refine ⟨by rw [hres, ← heq]; rfl, fun x hx h1 h2 => ?_, fun x hx => ?_⟩
        · obtain ⟨e, hmem, hem, hx⟩ := hx
          by_cases hrest : ∃ e ∈ es, e.2.is_mapped = true ∧ e.1 ≤ x ∧ x < e.1 + e.2.size
          · rw [hin x hrest h1 h2, hpage1]
            split_ifs
            · unfold setProt
              cases p.page x <;> rfl
            · rfl
          · rw [hout x (fun hc => hrest hc.1), hpage1]
            rcases List.mem_cons.mp hmem with rfl | hmem
            · rw [if_pos ⟨hx, h1, h2⟩]
            · exact absurd ⟨e, hmem, hem, hx⟩ hrest
        · rw [hout x, hpage1, if_neg]
          · intro hc
            exact hx ⟨⟨(it, region), List.mem_cons_self, hm, hc.1⟩, hc.2⟩
          · rintro ⟨⟨e, hmem, hex⟩, hc⟩
            exact hx ⟨⟨e, List.mem_cons_of_mem _ hmem, hex⟩, hc⟩
      · -- A free region is passed over.
        rw [if_neg hm] at h
        obtain ⟨hres, hin, hout⟩ := ih h hes.2 hbase' hend' hbound
        refine ⟨hres, fun x hx h1 h2 => ?_, fun x hx => ?_⟩
        · obtain ⟨e, hmem, hem, hx⟩ := hx
          rcases List.mem_cons.mp hmem with rfl | hmem
          · exact absurd hem hm
          · exact hin x ⟨e, hmem, hem, hx⟩ h1 h2
        · refine hout x ?_
          rintro ⟨⟨e, hmem, hex⟩, hc⟩
          exact hx ⟨⟨e, List.mem_cons_of_mem _ hmem, hex⟩, hc⟩
    · -- The regions from here on start past the end of the range.
      rw [if_neg hit] at h
      obtain rfl := pure_eq_ok.mp h
      have hpast : ∀ x, (∃ e ∈ (it, region) :: es, e.2.is_mapped = true ∧ e.1 ≤ x ∧
          x < e.1 + e.2.size) → ¬ x < virtual_end := by
        rintro x ⟨e, hmem, -, hx, -⟩ hlt
        rcases List.mem_cons.mp hmem with rfl | hmem
        · simp only at hx
          omega
        · have := hes.1 e hmem
          omega
      exact ⟨rfl, fun x hx _ h2 => absurd h2 (hpast x hx), fun _ _ => rfl⟩

theorem protect_spec {read write execute : Bool}
    (h : s.protect virtual_addr size read write execute = .ok s') (hs : s.Wf) :
    s'.Wf ∧ s'.regions = s.regions ∧ s'.process.reserved = s.process.reserved ∧
      ∀ x, s'.process.flat x = if virtual_addr ≤ x ∧ x < add64 virtual_addr size then
        (s.process.flat x).map fun page => { page with prot := newFlags read write execute }
        else s.process.flat x := by
  obtain ⟨⟨it, region⟩, hf, h⟩ := bind_eq_ok.mp h
  obtain ⟨p1, hloop, h⟩ := bind_eq_ok.mp h
  obtain rfl := pure_eq_ok.mp h
  rw [containing_eq_ok] at hf
  obtain ⟨hmem, hit, hmax⟩ := floor?_eq_some_iff.mp hf
  obtain ⟨hres, hin, hout⟩ := protectLoop_spec hloop OrdMap.tailFrom_sorted
    (fun e he => (hs.laid.sound e.1 e.2 (mem_tailFrom.mp he).1).base)
    (fun e he => hs.end_le (mem_tailFrom.mp he).1) hs.bound (add64_lt _ _)
  have hreserved : p1.Reserved = s.process.Reserved := by
    unfold Process.Reserved
    rw [hres]
  -- A mapped page of the range lies in a region that the loop goes over.
  have hpages : ∀ x, p1.page x = if virtual_addr ≤ x ∧ x < add64 virtual_addr size then
      setProt (newFlags read write execute) (s.process.page x) else s.process.page x := by
    intro x
    split_ifs with hx
    · cases hg : s.process.page x with
      | none =>
        by_cases hc : ∃ e ∈ s.regions.tailFrom it, e.2.is_mapped = true ∧ e.1 ≤ x ∧ x < e.1 + e.2.size
        · rw [hin x hc hx.1 hx.2, hg]
        · rw [hout x (fun h => hc h.1), hg]
          rfl
      | some g =>
        have hr : s.process.Reserved x := by
          by_contra hr
          rw [hs.outside x hr] at hg
          simp at hg
        obtain ⟨k, r, hk, hkx, hxk⟩ := (hs.laid.partition.cover x).mp hr
        have hxk : x < k + r.size := hxk
        have hm : r.is_mapped = true := by
          by_contra hm
          have hbase := (hs.laid.sound k r hk).base
          have hshown := hs.shown k r hk x (by omega) (by omega)
          rw [if_neg hm, hg] at hshown
          simp at hshown
        have hitk : it ≤ k := by
          by_contra hlt
          have hdis : k + r.size ≤ it :=
            hs.laid.partition.disjoint k r it region hk hmem (by omega)
          omega
        rw [hin x ⟨(k, r), mem_tailFrom.mpr ⟨hk, hitk⟩, hm, hkx, hxk⟩ hx.1 hx.2, hg]
    · exact hout x fun hc => hx hc.2
  refine ⟨⟨?_, fun l q hq x hx hx' => ?_, fun x hx => ?_, ?_⟩, rfl, hres, fun x => ?_⟩
  · rw [hreserved]
    exact hs.laid
  · have hshown := hs.shown l q hq x hx hx'
    rw [hpages]
    split_ifs at hshown ⊢
    · obtain ⟨prot, hprot⟩ := hshown
      rw [hprot]
      exact ⟨newFlags read write execute, rfl⟩
    · exact hshown
    · rw [hshown]
      rfl
    · exact hshown
  · rw [hreserved] at hx
    rw [hpages, hs.outside x hx]
    split_ifs <;> rfl
  · show ∀ q ∈ p1.reserved, _
    rw [hres]
    exact hs.bound
  · show p1.flat x = _
    unfold Process.flat
    rw [hpages]
    split_ifs
    · unfold setProt
      cases s.process.page x <;> rfl
    · rfl

end Impl

end ShadPS4.AddressSpace
