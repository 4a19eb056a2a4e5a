import ShadPS4.AddressSpace.Windows
import ShadPS4.Lib.Extent

/-!
# What the operations on regions do

The regions partition the reserved ranges, and each page shows what its region records, but for the protection,
which `Protect` changes and the region does not hear of (`Impl.Wf`).
-/

namespace ShadPS4.AddressSpace

open Option (some.inj ite_none_right_eq_some map_some)
open OrdMap (mem_insert)

variable {addr n : ℕ}
variable {p p' : Process} {r : MemoryRegion} {s s' : Impl}

theorem require_eq_ok [Decidable c] : require c = .ok u ↔ c := by
  unfold require
  split_ifs with h <;> simp [h]

theorem succeeded_eq_ok : succeeded o = .ok a ↔ o = some a := by
  cases o <;> simp [succeeded]

theorem Impl.containing_eq_ok : s.containing x = .ok it ↔ s.regions.floor? x = some it := by
  unfold Impl.containing
  cases s.regions.floor? x <;> simp

namespace Process

def Reserved (p : Process) (x : ℕ) : Prop := ∃ r ∈ p.reserved, r.1 ≤ x ∧ x < r.1 + r.2

theorem Holds.reserved (h : p.Holds addr size) (hx : addr ≤ x) (hx' : x < addr + size) : p.Reserved x := by
  obtain ⟨-, r, hr, h1, h2⟩ := h
  exact ⟨r, hr, by omega, by omega⟩

theorem page_update : (p.update addr size f).page x =
      if addr ≤ x ∧ x < addr + size then f x (p.page x) else p.page x := rfl

theorem ext_page (hr : p.reserved = p'.reserved) (hp : ∀ x, p.page x = p'.page x) : p = p' := by
  obtain ⟨r, g⟩ := p
  obtain ⟨r', g'⟩ := p'
  obtain rfl : r = r' := hr
  obtain rfl : g = g' := funext hp
  rfl

theorem update_update :
    (p.update addr size f).update addr size g = p.update addr size fun x page => g x (f x page) := by
  refine ext_page rfl fun x => ?_
  simp only [page_update]
  split_ifs <;> rfl

end Process

/-! ## Mapping and unmapping a region -/

namespace MemoryRegion

/-- What stands behind an address of the region when it is mapped as it records. -/
def backingAt (r : MemoryRegion) (x : ℕ) : Backing :=
  let handle := if r.fd ≠ -1 then .file r.fd else .backing_handle
  if r.phys_base = noPhys then .own none
  else if r.fd ≠ -1 ∧ r.prot = .readOnly then .own (some (handle, r.phys_base + (x - r.base)))
  else .view handle (r.phys_base + (x - r.base))

def pageAt (r : MemoryRegion) (x : ℕ) (prot : PageProt) : HostPage :=
  { alloc_base := r.base, alloc_size := r.size, backing := r.backingAt x, prot }

/-- The pages of the region show what it records, with whatever protection. -/
def Shown (r : MemoryRegion) (p : Process) : Prop :=
  ∀ x, r.base ≤ x → x < r.base + r.size →
    if r.is_mapped then ∃ prot, p.page x = some (r.pageAt x prot) else p.page x = none

theorem Shown.congr (h : r.Shown p)
    (hp : ∀ x, r.base ≤ x → x < r.base + r.size → p'.page x = p.page x) : r.Shown p' := by
  intro x hx hx'
  rw [hp x hx hx']
  exact h x hx hx'

end MemoryRegion

theorem mapRegion_spec (h : mapRegion p r = .ok p') :
    p.Holds r.base r.size ∧ (r.phys_base ≠ noPhys → r.phys_base < 2^63) ∧
      p' = p.update r.base r.size fun x _ => some (r.pageAt x r.prot) := by
  unfold mapRegion at h
  by_cases hphys : r.phys_base = noPhys
  · rw [if_neg (by simp [hphys]), succeeded_eq_ok] at h
    obtain ⟨hh, heq⟩ := ite_none_right_eq_some.mp h
    refine ⟨hh, fun hne => absurd hphys hne, ?_⟩
    rw [← some.inj heq]
    simp only [MemoryRegion.pageAt, MemoryRegion.backingAt, hphys, if_true]
  · rw [if_pos hphys] at h
    by_cases hfile : r.fd ≠ -1 ∧ r.prot = .readOnly
    · -- The copy of a file: the three calls change the same range, one after another.
      rw [if_pos hfile] at h
      obtain ⟨p1, h1, h⟩ := bind_eq_ok.mp h
      obtain ⟨p2, h2, h⟩ := bind_eq_ok.mp h
      rw [succeeded_eq_ok] at h1 h2 h
      obtain ⟨hh, heq1⟩ := ite_none_right_eq_some.mp h1
      obtain ⟨hh2, heq2⟩ := ite_none_right_eq_some.mp h2
      obtain ⟨-, heq⟩ := ite_none_right_eq_some.mp h
      refine ⟨hh, fun _ => hh2.2, ?_⟩
      rw [← some.inj heq, ← some.inj heq2, ← some.inj heq1, Process.update_update, Process.update_update]
      simp only [map_some, MemoryRegion.pageAt, MemoryRegion.backingAt, if_neg hphys, if_pos hfile]
    · rw [if_neg hfile] at h
      by_cases hno : r.prot = .noAccess
      · rw [if_pos hno] at h
        obtain ⟨p1, h1, h⟩ := bind_eq_ok.mp h
        rw [succeeded_eq_ok] at h1 h
        obtain ⟨hh1, heq1⟩ := ite_none_right_eq_some.mp h1
        obtain ⟨-, heq⟩ := ite_none_right_eq_some.mp h
        refine ⟨hh1.1, fun _ => hh1.2, ?_⟩
        rw [← some.inj heq, ← some.inj heq1, Process.update_update]
        simp only [map_some, MemoryRegion.pageAt, MemoryRegion.backingAt, if_neg hphys, if_neg hfile]
      · rw [if_neg hno, succeeded_eq_ok] at h
        obtain ⟨hh, heq⟩ := ite_none_right_eq_some.mp h
        refine ⟨hh.1, fun _ => hh.2, ?_⟩
        rw [← some.inj heq]
        simp only [MemoryRegion.pageAt, MemoryRegion.backingAt, if_neg hphys, if_neg hfile]

theorem unmapRegion_spec (h : unmapRegion p r = .ok p') (hr : r.Shown p) (hm : r.is_mapped = true)
    (hpos : 0 < r.size) : p' = p.update r.base r.size fun _ _ => none := by
  obtain ⟨prot, hpage⟩ : ∃ prot, p.page r.base = some (r.pageAt r.base prot) := by
    have hb := hr r.base (Nat.le_refl _) (by omega)
    rwa [if_pos hm] at hb
  unfold unmapRegion at h
  split_ifs at h
  · rw [succeeded_eq_ok] at h
    unfold Process.unmapViewOfFile2 at h
    rw [hpage] at h
    split at h
    · rename_i heq
      simp only [Option.some.injEq, MemoryRegion.pageAt, HostPage.mk.injEq] at heq
      obtain ⟨hbase, hsize, -, -⟩ := heq
      rw [← hbase, if_pos rfl, ← hsize] at h
      exact (some.inj h).symm
    · simp at h
  · rw [succeeded_eq_ok] at h
    unfold Process.virtualFreeEx at h
    split_ifs at h
    rw [hpage] at h
    split at h
    · simp at h
    · exact (some.inj h).symm
    · rename_i heq
      simp at heq

theorem virtualFreeEx_holds (h : p.virtualFreeEx addr size = some p') :
    p.Holds addr size ∧ p'.reserved = p.reserved := by
  obtain ⟨hh, heq⟩ := ite_none_right_eq_some.mp h
  refine ⟨hh, ?_⟩
  split at heq
  · simp at heq
  · rw [← some.inj heq]
    rfl
  · rw [← some.inj heq]

theorem virtualFreeEx_placeholder (h : p.virtualFreeEx addr size = some p')
    (hp : p.page addr = none) : p.Holds addr size ∧ p' = p := by
  unfold Process.virtualFreeEx at h
  split_ifs at h with hh
  rw [hp] at h
  exact ⟨hh, (some.inj h).symm⟩

/-! ## The regions -/

/-- A region occupies its own bytes. -/
def extent : Extent MemoryRegion Unit where
  size := MemoryRegion.size
  byte := fun _ _ => ()

structure MemoryRegion.Sound (k : ℕ) (r : MemoryRegion) : Prop where
  base : r.base = k
  free : r.is_mapped = false → r.phys_base = noPhys
  offset : r.is_mapped = true → r.phys_base ≠ noPhys → r.phys_base + r.size < noPhys

/-- The regions partition the addresses of `R`, and each is consistent. -/
structure Laid (m : OrdMap MemoryRegion) (R : ℕ → Prop) : Prop where
  partition : m.Partition extent R
  sound : ∀ k r, (k, r) ∈ m → r.Sound k

/-- A boundary between two adjacent free regions. -/
def FreeSeam (m : OrdMap MemoryRegion) (l : ℕ) : Prop :=
  ∃ k a b, (k, a) ∈ m ∧ (l, b) ∈ m ∧ a.is_mapped = false ∧ b.is_mapped = false ∧ k + a.size = l

def MemoryRegion.piece (r : MemoryRegion) (offset size : ℕ) : MemoryRegion :=
  { r with
    base := r.base + offset
    phys_base := if r.is_mapped then r.phys_base + offset else noPhys
    size }

def cut (m : OrdMap MemoryRegion) (k : ℕ) (r : MemoryRegion) (o : ℕ) : OrdMap MemoryRegion :=
  (m.insert k (r.piece 0 o)).insert (k + o) (r.piece o (r.size - o))

section Regions

variable {m : OrdMap MemoryRegion} {R : ℕ → Prop} {k l o : ℕ} {a b r' : MemoryRegion}

theorem MemoryRegion.Sound.piece (h : r.Sound k) (hon : o + n ≤ r.size)
    (hphys : r.is_mapped = true → r.phys_base ≠ noPhys) : (r.piece o n).Sound (k + o) where
  base := by rw [← h.base]; rfl
  free := fun hf => if_neg (by rw [show r.is_mapped = false from hf]; simp)
  offset := fun hm _ => by
    have hm' : r.is_mapped = true := hm
    have := h.offset hm' (hphys hm')
    simp only [MemoryRegion.piece, if_pos hm']
    omega

theorem MemoryRegion.Sound.piece_zero (h : r.Sound k) : r.piece 0 n = { r with size := n } := by
  unfold MemoryRegion.piece
  cases hm : r.is_mapped with
  | true => simp
  | false => simp [h.free hm]

theorem MemoryRegion.piece_piece : (r.piece o n).piece o' n' = r.piece (o + o') n' := by
  unfold MemoryRegion.piece
  cases r.is_mapped <;> simp [Nat.add_assoc]

theorem Laid.cut (h : Laid m R) (hk : (k, r) ∈ m) (ho : 0 < o) (ho' : o < r.size)
    (hphys : r.is_mapped = true → r.phys_base ≠ noPhys) : Laid (cut m k r o) R where
  partition := h.partition.split hk ho ho' rfl rfl
  sound := by
    intro l b hb
    simp only [AddressSpace.cut, mem_insert, Prod.mk.injEq] at hb
    rcases hb with ⟨rfl, rfl⟩ | ⟨⟨rfl, rfl⟩ | ⟨hb, -⟩, -⟩
    · exact (h.sound k r hk).piece (by omega) hphys
    · exact MemoryRegion.Sound.piece (o := 0) (h.sound l r hk) (by omega) hphys
    · exact h.sound l b hb

theorem FreeSeam.of_cut (h : FreeSeam (cut m k r o) l) (hk : (k, r) ∈ m) (ho' : o < r.size) :
    FreeSeam m l ∨ l = k + o := by
  obtain ⟨j, a, b, ha, hb, hfa, hfb, hl⟩ := h
  by_cases hlo : l = k + o
  · exact .inr hlo
  · refine .inl ?_
    simp only [AddressSpace.cut, mem_insert, Prod.mk.injEq] at ha hb
    -- The later region is one of the map, or the first part of the one that is cut.
    obtain ⟨b', hb', hfb'⟩ : ∃ b', (l, b') ∈ m ∧ b'.is_mapped = false := by
      rcases hb with ⟨hl', -⟩ | ⟨⟨rfl, rfl⟩ | ⟨hb, -⟩, -⟩
      · exact absurd hl' hlo
      · exact ⟨r, hk, hfb⟩
      · exact ⟨b, hb, hfb⟩
    rcases ha with ⟨rfl, rfl⟩ | ⟨⟨rfl, rfl⟩ | ⟨ha, -⟩, -⟩
    · refine ⟨k, r, b', hk, hb', hfa, hfb', ?_⟩
      simp only [MemoryRegion.piece] at hl
      omega
    · exact absurd hl.symm hlo
    · exact ⟨j, a, b', ha, hb', hfa, hfb', hl⟩

theorem Laid.replace (h : Laid m R) (hk : (k, r) ∈ m) (hs : r'.size = r.size)
    (hr' : r'.Sound k) : Laid (m.insert k r') R where
  partition := h.partition.replace hk hs
  sound := by
    intro l b hb
    rw [mem_insert, Prod.mk.injEq] at hb
    rcases hb with ⟨rfl, rfl⟩ | ⟨hb, -⟩
    · exact hr'
    · exact h.sound l b hb

theorem FreeSeam.of_replace (h : FreeSeam (m.insert k r') l) (hs : r'.size = r.size) :
    FreeSeam m l ∨ r'.is_mapped = false ∧ (l = k ∨ l = k + r.size) := by
  obtain ⟨j, a, b, ha, hb, hfa, hfb, hl⟩ := h
  rw [mem_insert, Prod.mk.injEq] at ha hb
  rcases ha with ⟨rfl, rfl⟩ | ⟨ha, -⟩
  · exact .inr ⟨hfa, .inr (by omega)⟩
  · rcases hb with ⟨rfl, rfl⟩ | ⟨hb, -⟩
    · exact .inr ⟨hfb, .inl rfl⟩
    · exact .inl ⟨j, a, b, ha, hb, hfa, hfb, hl⟩

theorem Laid.not_freeSeam_mapped (h : Laid m R) (hk : (k, r) ∈ m) (hr : r.is_mapped = true) :
    ¬ FreeSeam m k ∧ ¬ FreeSeam m (k + r.size) := by
  constructor
  · rintro ⟨j, a, b, -, hb, -, hfb, -⟩
    rw [OrdMap.mem_unique hb hk, hr] at hfb
    simp at hfb
  · rintro ⟨j, a, b, ha, -, hfa, -, hl⟩
    -- The region that ends there is the mapped one.
    have hpos : 0 < r.size := h.partition.pos k r hk
    have hapos : 0 < a.size := h.partition.pos j a ha
    have hcov : m.Covers extent (k + r.size - 1) k r :=
      ⟨hk, by omega, show _ < k + r.size by omega⟩
    have hcov' : m.Covers extent (k + r.size - 1) j a :=
      ⟨ha, by omega, show _ < j + a.size by omega⟩
    obtain ⟨-, rfl⟩ := h.partition.covers_unique hcov hcov'
    rw [hr] at hfa
    simp at hfa

theorem Laid.merge (h : Laid m R) (hk : (k, a) ∈ m) (hl : (l, b) ∈ m) (hkl : l = k + a.size)
    (hfa : a.is_mapped = false) : Laid ((m.insert k { a with size := a.size + b.size }).erase l) R where
  partition := h.partition.merge hk hl hkl rfl
  sound := by
    intro j c hc
    rw [OrdMap.mem_erase, mem_insert, Prod.mk.injEq] at hc
    rcases hc with ⟨⟨rfl, rfl⟩ | ⟨hc, -⟩, -⟩
    · exact ⟨(h.sound j a hk).base, (h.sound j a hk).free, fun hm => by simp [hfa] at hm⟩
    · exact h.sound j c hc

theorem FreeSeam.of_merge (h : FreeSeam ((m.insert k { a with size := a.size + b.size }).erase l) x) (hk : (k, a) ∈ m)
    (hl : (l, b) ∈ m) (hkl : l = k + a.size) (hfb : b.is_mapped = false) :
    FreeSeam m x ∧ x ≠ l := by
  obtain ⟨j, c, d, hc, hd, hfc, hfd, hx⟩ := h
  rw [OrdMap.mem_erase, mem_insert, Prod.mk.injEq] at hc hd
  obtain ⟨hd, hxl⟩ := hd
  refine ⟨?_, hxl⟩
  obtain ⟨d', hd', hfd'⟩ : ∃ d', (x, d') ∈ m ∧ d'.is_mapped = false := by
    rcases hd with ⟨rfl, rfl⟩ | ⟨hd, -⟩
    · exact ⟨a, hk, hfd⟩
    · exact ⟨d, hd, hfd⟩
  rcases hc with ⟨⟨rfl, rfl⟩ | ⟨hc, -⟩, -⟩
  · exact ⟨l, b, d', hl, hd', hfb, hfd', by simp only at hx; omega⟩
  · exact ⟨j, c, d', hc, hd', hfc, hfd', hx⟩

end Regions

/-- What holds between the calls, and between the passes of a loop. -/
structure Impl.Wf (s : Impl) : Prop where
  laid : Laid s.regions s.process.Reserved
  shown : ∀ k r, (k, r) ∈ s.regions → r.Shown s.process
  outside : ∀ x, ¬ s.process.Reserved x → s.process.page x = none
  bound : ∀ r ∈ s.process.reserved, r.1 + r.2 ≤ 2^47

namespace Impl

variable {k x y virtual_addr size : ℕ}

theorem Wf.lt_of_reserved (h : s.Wf) (hx : s.process.Reserved x) : x < 2^47 := by
  obtain ⟨r, hr, -, hx⟩ := hx
  have := h.bound r hr
  omega

theorem Wf.end_le (h : s.Wf) (hk : (k, r) ∈ s.regions) : k + r.size ≤ 2^47 := by
  have hpos : 0 < r.size := h.laid.partition.pos k r hk
  have hres : s.process.Reserved (k + r.size - 1) :=
    (h.laid.partition.cover _).mpr ⟨k, r, hk, by omega, show _ < k + r.size by omega⟩
  have := h.lt_of_reserved hres
  omega

theorem Wf.lt_of_floor? (h : s.Wf) (hf : s.regions.floor? x = some (k, r)) (hky : k ≤ y)
    (hyx : y ≤ x) (hy : s.process.Reserved y) : y < k + r.size := by
  obtain ⟨hk, -, hmax⟩ := OrdMap.floor?_eq_some_iff.mp hf
  obtain ⟨l, b, hb, hl, hyb⟩ := (h.laid.partition.cover y).mp hy
  have hlk : l ≤ k := hmax (l, b) hb (by omega)
  rcases Nat.eq_or_lt_of_le hlk with rfl | hlt
  · rwa [OrdMap.mem_unique hb hk] at hyb
  · have hdis : l + b.size ≤ k := h.laid.partition.disjoint l b k r hb hk hlt
    have hyb' : y < l + b.size := hyb
    omega

theorem Wf.floor?_of_mem (h : s.Wf) (hk : (k, r) ∈ s.regions) (hx : k ≤ x)
    (hx' : x < k + r.size) : s.regions.floor? x = some (k, r) :=
  h.laid.partition.floor?_of_covers ⟨hk, hx, hx'⟩

end Impl

end ShadPS4.AddressSpace
