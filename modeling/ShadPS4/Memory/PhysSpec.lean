import ShadPS4.Memory.Areas

/-!
# Physical areas: what carving and merging keep

`Tiles` says that a map of physical areas covers an interval without gap or overlap and that each area's key is its
address, as `dmem_map` and `fmem_map` do.
-/

namespace ShadPS4.Memory

open OrdMap (get?_eq_some_iff hasKey_insert mem_insert mem_unique hasKey_erase)
open Option (some.injEq)

/-- The address lies in `[lo, hi)`. -/
def Span (lo hi x : ℕ) : Prop := lo ≤ x ∧ x < hi

/-- What an area says of one of its bytes. -/
structure PByte where
  addr : ℕ
  memory_type : ℤ
  dma_type : PhysicalMemoryType

/-- The second byte continues the first, and has the same types. -/
def PByte.Continues (b c : PByte) : Prop :=
  c.addr = b.addr + 1 ∧ b.memory_type = c.memory_type ∧ b.dma_type = c.dma_type

def physExtent : Extent PhysicalMemoryArea PByte where
  size area := area.size
  byte area i := ⟨area.base + i, area.memory_type, area.dma_type⟩

@[simp] theorem physExtent_size (area : PhysicalMemoryArea) : physExtent.size area = area.size := rfl

@[simp] theorem physExtent_byte (area : PhysicalMemoryArea) (i : ℕ) :
    physExtent.byte area i = ⟨area.base + i, area.memory_type, area.dma_type⟩ := rfl

/-- The map's areas cover `[lo, hi)`, and are keyed by their address. -/
structure Tiles (m : PhysMap) (lo hi : ℕ) : Prop where
  part : m.Partition physExtent (Span lo hi)
  keyed : ∀ k a, (k, a) ∈ m → a.base = k

variable {m m' : PhysMap} {lo hi k l o addr size x y : ℕ} {a : PhysicalMemoryArea}

theorem Tiles.addr_eq (h : Tiles m lo hi) (hb : m.byteAt physExtent x = some b) : b.addr = x := by
  obtain ⟨k, a, ⟨hka, hk, -⟩, rfl⟩ := h.part.byteAt_eq_some_iff.mp hb
  have := h.keyed k a hka
  simp only [physExtent_byte]
  omega

theorem Tiles.of_byteAt (h : Tiles m lo hi) (hp : m'.Partition physExtent (Span lo hi))
    (hb : ∀ x, m'.byteAt physExtent x = m.byteAt physExtent x) : Tiles m' lo hi := by
  refine ⟨hp, fun k a hka => ?_⟩
  have hpos := hp.pos k a hka
  have hbyte := hp.byteAt_of_covers ⟨hka, le_rfl, by omega⟩
  rw [hb, Nat.sub_self] at hbyte
  simpa using h.addr_eq hbyte

theorem Tiles.end_le (h : Tiles m lo hi) (hk : (k, a) ∈ m) : k + a.size ≤ hi := by
  have hpos := h.part.pos k a hk
  simp only [physExtent_size] at hpos
  have := (h.part.cover (k + a.size - 1)).mpr ⟨k, a, hk, by omega, by simp; omega⟩
  unfold Span at this
  omega

/-! ## Splitting and carving -/

theorem splitPhys_spec (h : Tiles m lo hi) (hs : splitPhys m k o = .ok (m', l)) :
    ∃ a, (k, a) ∈ m ∧ 0 < o ∧ o < a.size ∧ l = k + o ∧ Tiles m' lo hi ∧
      (∀ x, m'.byteAt physExtent x = m.byteAt physExtent x) ∧ (k, { a with size := o }) ∈ m' ∧
      (k + o, { a with base := k + o, size := a.size - o }) ∈ m' ∧
      ∀ y, m'.HasKey y ↔ m.HasKey y ∨ y = k + o := by
  simp only [splitPhys, bind_eq_ok, deref_eq_ok, require_eq_ok, get?_eq_some_iff,
    pure_eq_ok, Prod.mk.injEq] at hs
  obtain ⟨a, hka, -, ⟨ho', ho⟩, hm', hl⟩ := hs
  obtain rfl := h.keyed k a hka
  have hnew : ¬ (m.insert a.base { a with size := o }).HasKey (a.base + o) := by
    rw [hasKey_insert]
    rintro (heq | hkey)
    · omega
    · exact h.part.not_hasKey_inside hka ho ho' hkey
  rw [OrdMap.emplace_of_not_hasKey hnew] at hm'
  subst hm'
  have hpart := h.part.split hka ho ho' (c := { a with size := o })
    (d := { a with base := a.base + o, size := a.size - o }) rfl rfl
  have hbytes : ∀ x, _ = m.byteAt physExtent x := fun x =>
    h.part.byteAt_split (x := x) hka ho ho' (c := { a with size := o })
      (d := { a with base := a.base + o, size := a.size - o }) rfl rfl (fun i _ => rfl)
      (fun i _ => by simp only [physExtent_byte, Nat.add_assoc])
  refine ⟨a, hka, ho, ho', by omega, h.of_byteAt hpart hbytes, hbytes, ?_, ?_, ?_⟩
  · simp [mem_insert]
    omega
  · simp [mem_insert]
  · intro y
    simp only [hasKey_insert]
    constructor
    · rintro (rfl | rfl | hy)
      · exact .inr rfl
      · exact .inl ⟨a, hka⟩
      · exact .inl hy
    · rintro (hy | rfl)
      · exact .inr (.inr hy)
      · exact .inl rfl

theorem splitPhys_ok (hk : (k, a) ∈ m) (ho : 0 < o) (ho' : o < a.size) : ∃ m' l, splitPhys m k o = .ok (m', l) := by
  simp [splitPhys, get?_eq_some_iff.mpr hk, deref, require, ho, ho', bind, Except.bind, pure, Except.pure]

/-- What carving `[addr, addr + size)` out of a map does: the range lies in one area and becomes an
area of its own, every byte stays as it was, and the only new cuts are at the range's ends. -/
structure Carved (m m' : PhysMap) (addr size : ℕ) : Prop where
  pos : 0 < size
  fits : ∃ k a, (k, a) ∈ m ∧ k ≤ addr ∧ addr + size ≤ k + a.size
  entry : ∃ a, (addr, a) ∈ m' ∧ a.base = addr ∧ a.size = size
  bytes : ∀ x, m'.byteAt physExtent x = m.byteAt physExtent x
  keys : ∀ y, m'.HasKey y → m.HasKey y ∨ y = addr ∨ y = addr + size

theorem carvePhysArea_spec (h : Tiles m lo hi) (hsize : size < 2^64)
    (hc : carvePhysArea m addr size = .ok (m', k)) : k = addr ∧ Tiles m' lo hi ∧ Carved m m' addr size := by
  simp only [carvePhysArea, bind_eq_ok, deref_eq_ok, require_eq_ok, Prod.exists, PhysicalMemoryArea.getEnd] at hc
  obtain ⟨j, a, hf, -, hend, -, hbase, -, hfit, m₁, hm1, hc⟩ := hc
  rw [OrdMap.floor?_eq_some_iff] at hf
  obtain ⟨hja, hj, -⟩ := hf
  have haj := h.keyed j a hja
  -- The first cut is at the end of the range, and the area found shrinks to end there.
  have hfirst : ∃ a1, (j, a1) ∈ m₁ ∧ a1.base = j ∧ a1.size = add64 (addr - a.base) size ∧
      Tiles m₁ lo hi ∧ (∀ x, m₁.byteAt physExtent x = m.byteAt physExtent x) ∧
      (∀ y, m₁.HasKey y → m.HasKey y ∨ y = j + add64 (addr - a.base) size) := by
    rw [ite_not] at hm1
    split_ifs at hm1 with heq
    · rw [pure_eq_ok] at hm1
      subst hm1
      exact ⟨a, hja, haj, heq.symm, h, fun _ => rfl, fun y hy => .inl hy⟩
    · simp only [map_eq_ok, Prod.exists] at hm1
      obtain ⟨m₂, l, hs, rfl⟩ := hm1
      obtain ⟨b, hjb, -, -, -, ht, hbytes, hfst, -, hkeys⟩ := splitPhys_spec h hs
      obtain rfl := mem_unique hja hjb
      exact ⟨_, hfst, haj, rfl, ht, hbytes, fun y => (hkeys y).mp⟩
  obtain ⟨a1, hja1, hbase1, hsize1, ht1, hbytes1, hkeys1⟩ := hfirst
  rw [ite_not] at hc
  split_ifs at hc with hstart
  · -- The range starts where the area does.
    simp only [pure_eq_ok, Prod.mk.injEq] at hc
    obtain ⟨rfl, rfl⟩ := hc
    have hpos1 := ht1.part.pos j a1 hja1
    simp only [physExtent_size] at hpos1
    have hadd : add64 (addr - a.base) size = size := by
      rw [hstart, add64_of_lt (by omega), Nat.zero_add]
    obtain rfl : j = addr := by omega
    refine ⟨rfl, ht1, by omega, ⟨j, a, hja, hj, by omega⟩, ⟨a1, hja1, hbase1, by omega⟩, hbytes1, ?_⟩
    intro y hy
    rcases hkeys1 y hy with hy | rfl
    · exact .inl hy
    · exact .inr (.inr (by omega))
  · -- The second cut is at the start of the range.
    obtain ⟨b, hjb, hpos2, hlt, rfl, ht, hbytes, -, hsnd, hkeys⟩ := splitPhys_spec ht1 hc
    obtain rfl := mem_unique hja1 hjb
    have hadd : add64 (addr - a.base) size = addr - a.base + size := by
      unfold add64 at hsize1 ⊢
      omega
    have haddr : j + (addr - a.base) = addr := by omega
    rw [haddr] at hsnd hkeys ⊢
    refine ⟨rfl, ht, by omega, ⟨j, a, hja, hj, by omega⟩, ⟨_, hsnd, rfl, by simp; omega⟩, ?_, ?_⟩
    · intro x
      rw [hbytes, hbytes1]
    · intro y hy
      rcases (hkeys y).mp hy with hy | rfl
      · rcases hkeys1 y hy with hy | rfl
        · exact .inl hy
        · exact .inr (.inr (by omega))
      · exact .inr (.inl rfl)

theorem carvePhysArea_ok (h : Tiles m lo hi) (hhi : hi < 2^64) (hk : (k, a) ∈ m) (hka : k ≤ addr)
    (hsize : 0 < size) (hend : addr + size ≤ k + a.size) : ∃ m', carvePhysArea m addr size = .ok (m', addr) := by
  have hbase := h.keyed k a hk
  have hle := h.end_le hk
  have hfloor := h.part.floor?_of_covers ⟨hk, hka, by simp only [physExtent_size]; omega⟩
  have hadd : add64 (addr - a.base) size = addr - a.base + size := add64_of_lt (by omega)
  have hreq : addr ≤ a.getEnd ∧ a.base ≤ addr ∧ addr - a.base + size ≤ a.size := by
    unfold PhysicalMemoryArea.getEnd
    omega
  rcases hc : carvePhysArea m addr size with e | ⟨m', j⟩
  · exfalso
    simp only [carvePhysArea, hfloor, bind_eq_error, deref_eq_error, require_eq_error, deref_eq_ok,
      require_eq_ok, false_and, false_or, reduceCtorEq, some.injEq, Prod.exists,
      Prod.mk.injEq, ite_not] at hc
    obtain ⟨k', a', ⟨rfl, rfl⟩, hc⟩ := hc
    simp only [hadd, hreq, not_true_eq_false, false_and, false_or, true_and, exists_const] at hc
    rcases hc with hc | ⟨m₁, hm1, hc⟩
    · -- The cut at the end of the range is inside the area.
      split_ifs at hc with heq
      · exact pure_ne_error hc
      · obtain ⟨m₁, l, hs⟩ := splitPhys_ok hk (o := addr - a.base + size) (by omega) (by omega)
        rw [hs] at hc
        simp [Functor.map, Except.map] at hc
    · -- The cut at its start is inside what is left.
      split_ifs at hc with heq
      · exact pure_ne_error hc
      · have hmem : ∃ a1, (k, a1) ∈ m₁ ∧ a1.size = addr - a.base + size := by
          split_ifs at hm1 with hwhole
          · rw [pure_eq_ok] at hm1
            exact ⟨a, hm1 ▸ hk, hwhole.symm⟩
          · simp only [map_eq_ok, Prod.exists] at hm1
            obtain ⟨m₂, l, hs, rfl⟩ := hm1
            obtain ⟨b, -, -, -, -, -, -, hfst, -⟩ := splitPhys_spec h hs
            exact ⟨_, hfst, rfl⟩
        obtain ⟨a1, hka1, hs1⟩ := hmem
        obtain ⟨m₂, l, hs⟩ := splitPhys_ok hka1 (o := addr - a.base) (by omega) (by omega)
        rw [hs] at hc
        simp at hc
  · exact ⟨m', by rw [(carvePhysArea_spec h (by omega) hc).1]⟩

/-! ## Merging -/

/-- The map does not cut a byte from the one after it, at `y`, when the second continues the first. -/
def Glued (m : PhysMap) (y : ℕ) : Prop :=
  ∀ x b c, y = x + 1 → m.byteAt physExtent x = some b → m.byteAt physExtent y = some c →
    b.Continues c → ¬ m.HasKey y

theorem next_key_eq (h : m.Partition physExtent (Span lo hi)) (hk : (k, a) ∈ m)
    (hn : m.next? k = some (l, b)) : l = k + a.size := by
  rw [OrdMap.next?_eq_some_iff] at hn
  obtain ⟨hlb, hkl, hmin⟩ := hn
  have hle := h.disjoint k a l b hk hlb hkl
  simp only [physExtent_size] at hle
  have hklo := (h.cover k).mpr ⟨k, a, hk, le_rfl, by have := h.pos k a hk; omega⟩
  have hlhi := (h.cover l).mpr ⟨l, b, hlb, le_rfl, by have := h.pos l b hlb; omega⟩
  have hin : Span lo hi (k + a.size) := by
    unfold Span at hklo hlhi ⊢
    omega
  obtain ⟨j, c, hjc, hj, hjend⟩ := (h.cover _).mp hin
  rcases Nat.lt_trichotomy j k with hlt | rfl | hgt
  · have := h.disjoint j c k a hjc hk hlt
    omega
  · obtain rfl := mem_unique hjc hk
    simp only [physExtent_size] at hjend
    omega
  · have := hmin (j, c) hjc hgt
    omega

theorem prev_key_eq (h : m.Partition physExtent (Span lo hi)) (hk : (k, a) ∈ m)
    (hp : m.prev? k = some (l, b)) : k = l + b.size := by
  rw [OrdMap.prev?_eq_some_iff] at hp
  obtain ⟨hlb, hlk, hmax⟩ := hp
  rcases hn : m.next? l with - | ⟨j, c⟩
  · rw [OrdMap.next?_eq_none_iff] at hn
    have := hn (k, a) hk
    omega
  · have hj := next_key_eq h hlb hn
    rw [OrdMap.next?_eq_some_iff] at hn
    obtain ⟨hjc, hlj, hmin⟩ := hn
    have h1 := hmin (k, a) hk hlk
    have h2 : ¬ j < k := fun hlt => by
      have := hmax (j, c) hjc hlt
      omega
    omega

theorem canMergeWith_iff (hpos : 0 < a.size) : a.canMergeWith b = true ↔
      (physExtent.byte a (a.size - 1)).Continues (physExtent.byte b 0) := by
  simp only [PhysicalMemoryArea.canMergeWith, decide_eq_true_eq, PByte.Continues, physExtent_byte]
  constructor
  · rintro ⟨h1, h2, h3⟩
    exact ⟨by omega, h2, h3⟩
  · rintro ⟨h1, h2, h3⟩
    exact ⟨by omega, h2, h3⟩

/-- What merging an area with its neighbours does: every byte stays, no cut is new, and the area is
not cut from a neighbour that it continues, or that continues it. -/
structure Merged (m m' : PhysMap) (lo hi k size : ℕ) : Prop where
  part : m'.Partition physExtent (Span lo hi)
  bytes : ∀ x, m'.byteAt physExtent x = m.byteAt physExtent x
  keys : ∀ y, m'.HasKey y → m.HasKey y
  glued_start : Glued m' k
  glued_end : Glued m' (k + size)

theorem mergeNextPhys_spec (h : m.Partition physExtent (Span lo hi)) (hk : (k, a) ∈ m) :
    ∃ m' a', mergeNextPhys m k = .ok m' ∧ m'.Partition physExtent (Span lo hi) ∧
      (∀ x, m'.byteAt physExtent x = m.byteAt physExtent x) ∧ (∀ y, m'.HasKey y → m.HasKey y) ∧
      (k, a') ∈ m' ∧ a.size ≤ a'.size ∧ Glued m' (k + a.size) := by
  have hpos := h.pos k a hk
  simp only [physExtent_size] at hpos
  have hstay : m.next? k = none → Glued m (k + a.size) := by
    intro hn x b c hx hb hc hcont hkey
    rw [OrdMap.next?_eq_none_iff] at hn
    obtain ⟨d, hd⟩ := hkey
    have := hn _ hd
    omega
  simp only [mergeNextPhys, get?_eq_some_iff.mpr hk, deref, bind, Except.bind]
  rcases hn : m.next? k with - | ⟨l, b⟩
  · exact ⟨m, a, rfl, h, fun _ => rfl, fun _ hy => hy, hk, le_rfl, hstay hn⟩
  · have hl := next_key_eq h hk hn
    rw [OrdMap.next?_eq_some_iff] at hn
    have hposl := h.pos l b hn.1
    simp only [physExtent_size] at hposl
    simp only
    split_ifs with hcan
    · have hmerge := h.merge hk hn.1 hl (c := { a with size := a.size + b.size }) rfl
      have hcan' := hcan
      simp only [PhysicalMemoryArea.canMergeWith, decide_eq_true_eq] at hcan'
      obtain ⟨hbase, hmt, hdma⟩ := hcan'
      refine ⟨_, { a with size := a.size + b.size }, rfl, hmerge, ?_, ?_, ?_, ?_, ?_⟩
      · intro x
        refine h.byteAt_merge hk hn.1 hl rfl (fun i _ => rfl) (fun i _ => ?_)
        simp only [physExtent_byte, physExtent_size, ← hbase, hmt, hdma, Nat.add_assoc]
      · intro y hy
        simp only [hasKey_erase, hasKey_insert] at hy
        rcases hy with ⟨rfl | hy, -⟩
        · exact ⟨a, hk⟩
        · exact hy
      · simp only [OrdMap.mem_erase, mem_insert, true_or, true_and]
        omega
      · simp
      · intro x c d hx hc hd hcont hkey
        simp only [hasKey_erase] at hkey
        exact hkey.2 hl.symm
    · refine ⟨m, a, rfl, h, fun _ => rfl, fun _ hy => hy, hk, le_rfl, ?_⟩
      intro x c d hx hc hd hcont hkey
      rw [canMergeWith_iff hpos] at hcan
      have hc' := h.byteAt_of_covers (x := x) ⟨hk, by omega, by simp only [physExtent_size]; omega⟩
      have hd' := h.byteAt_of_covers (x := k + a.size) ⟨hn.1, by omega, by
        simp only [physExtent_size]; omega⟩
      rw [hc', some.injEq] at hc
      rw [hd', some.injEq] at hd
      rw [← hc, ← hd, show x - k = a.size - 1 by omega, show k + a.size - l = 0 by omega] at hcont
      exact hcan hcont

theorem mem_of_mergeAdjacentPhys (hm : mergeAdjacentPhys m k = .ok (m', l)) : ∃ a, (k, a) ∈ m := by
  simp only [mergeAdjacentPhys, mergeNextPhys, bind_eq_ok, deref_eq_ok] at hm
  obtain ⟨-, ⟨a, ha, -⟩, -⟩ := hm
  exact ⟨a, get?_eq_some_iff.mp ha⟩

theorem mergeAdjacentPhys_spec (h : m.Partition physExtent (Span lo hi)) (hk : (k, a) ∈ m) :
    ∃ m' l b, mergeAdjacentPhys m k = .ok (m', l) ∧ Merged m m' lo hi k a.size ∧
      (l, b) ∈ m' ∧ l ≤ k ∧ k + a.size ≤ l + b.size := by
  obtain ⟨m₁, a1, hnext, hpart, hbytes, hkeys, hk1, hle, hglue⟩ := mergeNextPhys_spec h hk
  have hpos := hpart.pos k a1 hk1
  simp only [physExtent_size] at hpos
  simp only [mergeAdjacentPhys, hnext, mergePrevPhys, get?_eq_some_iff.mpr hk1, deref, bind, Except.bind]
  rcases hp : m₁.prev? k with - | ⟨l, b⟩
  · refine ⟨m₁, k, a1, rfl, ⟨hpart, hbytes, hkeys, ?_, hglue⟩, hk1, le_rfl, by omega⟩
    intro x c d hx hc hd hcont hkey
    rw [OrdMap.prev?_eq_none_iff] at hp
    obtain ⟨j, e, ⟨hje, hj, -⟩, -⟩ := hpart.byteAt_eq_some_iff.mp hc
    have := hp _ hje
    omega
  · have hl := prev_key_eq hpart hk1 hp
    rw [OrdMap.prev?_eq_some_iff] at hp
    have hposl := hpart.pos l b hp.1
    simp only
    split_ifs with hcan
    · have hmerge := hpart.merge hp.1 hk1 hl (c := { b with size := b.size + a1.size }) rfl
      have hcan' := hcan
      simp only [PhysicalMemoryArea.canMergeWith, decide_eq_true_eq] at hcan'
      obtain ⟨hbase, hmt, hdma⟩ := hcan'
      have hbytes' : ∀ x, _ = m₁.byteAt physExtent x := fun x =>
        hpart.byteAt_merge (x := x) hp.1 hk1 hl (c := { b with size := b.size + a1.size }) rfl
          (fun i _ => rfl) (fun i _ => by
            simp only [physExtent_byte, physExtent_size, ← hbase, hmt, hdma, Nat.add_assoc])
      have hkeys' : ∀ y, OrdMap.HasKey (OrdMap.erase (m₁.insert l
          { b with size := b.size + a1.size }) k) y → m₁.HasKey y := by
        intro y hy
        simp only [hasKey_erase, hasKey_insert] at hy
        rcases hy with ⟨rfl | hy, -⟩
        · exact ⟨b, hp.1⟩
        · exact hy
      refine ⟨_, l, { b with size := b.size + a1.size }, rfl, ⟨hmerge, ?_, ?_, ?_, ?_⟩, ?_, ?_, ?_⟩
      · intro x
        rw [hbytes', hbytes]
      · exact fun y hy => hkeys y (hkeys' y hy)
      · intro x c d hx hc hd hcont hkey
        simp only [hasKey_erase] at hkey
        exact hkey.2 rfl
      · intro x c d hx hc hd hcont hkey
        rw [hbytes'] at hc hd
        exact hglue x c d hx hc hd hcont (hkeys' _ hkey)
      · simp only [OrdMap.mem_erase, mem_insert, true_or, true_and]
        omega
      · omega
      · simp only
        omega
    · refine ⟨m₁, k, a1, rfl, ⟨hpart, hbytes, hkeys, ?_, hglue⟩, hk1, le_rfl, by omega⟩
      intro x c d hx hc hd hcont hkey
      rw [canMergeWith_iff hposl] at hcan
      have hc' := hpart.byteAt_of_covers (x := x) ⟨hp.1, by omega, by simp only [physExtent_size]; omega⟩
      have hd' := hpart.byteAt_of_covers (x := k) ⟨hk1, le_rfl, by simp only [physExtent_size]; omega⟩
      rw [hc', some.injEq] at hc
      rw [hd', some.injEq] at hd
      rw [← hc, ← hd, show x - l = b.size - 1 by omega, Nat.sub_self] at hcont
      exact hcan hcont

/-! ## Retyping a range -/

/-- What carving a range and replacing its area does: the bytes of the range change by `f`, and the
other bytes stay. -/
structure Retyped (m m' : PhysMap) (lo hi addr size : ℕ) (f : PByte → PByte) : Prop where
  tiles : Tiles m' lo hi
  pos : 0 < size
  fits : ∃ k a, (k, a) ∈ m ∧ k ≤ addr ∧ addr + size ≤ k + a.size
  bytes : ∀ x, m'.byteAt physExtent x =
    if InRange addr size x then (m.byteAt physExtent x).map f else m.byteAt physExtent x
  keys : ∀ y, m'.HasKey y → m.HasKey y ∨ y = addr ∨ y = addr + size

theorem Retyped.span (h : Retyped m m' lo hi addr size f) (ht : Tiles m lo hi)
    (hx : InRange addr size x) : Span lo hi x := by
  obtain ⟨k, a, hk, hka, hend⟩ := h.fits
  unfold InRange at hx
  exact (ht.part.cover x).mpr ⟨k, a, hk, by omega, by simp only [physExtent_size]; omega⟩

theorem retyped_of_carve (h : Tiles m lo hi)
    (hsize : size < 2^64) (hc : carvePhysArea m addr size = .ok (m', k)) (hg : m'.get? k = some a)
    (hb : d.base = a.base) (hs : d.size = a.size) (hf : ∀ i, physExtent.byte d i = f (physExtent.byte a i)) :
    addr = k ∧ a.base = addr ∧ a.size = size ∧ Retyped m (m'.insert k d) lo hi addr size f := by
  obtain ⟨rfl, ht, hcarved⟩ := carvePhysArea_spec h hsize hc
  rw [get?_eq_some_iff] at hg
  obtain ⟨a1, hka1, hbase, hsz⟩ := hcarved.entry
  obtain rfl := mem_unique hg hka1
  have hpart := ht.part.replace hg (b := d) hs
  have hbytes : ∀ x, (m'.insert k d).byteAt physExtent x =
      if InRange k size x then (m.byteAt physExtent x).map f else m.byteAt physExtent x := by
    intro x
    rw [ht.part.byteAt_replace hg hs, ← hcarved.bytes, physExtent_size, hsz]
    by_cases hx : InRange k size x
    · rw [if_pos (c := k ≤ x ∧ x < k + size) hx, if_pos hx,
        ht.part.byteAt_of_covers ⟨hg, hx.1, by rw [physExtent_size, hsz]; exact hx.2⟩, hf]
      rfl
    · rw [if_neg (c := k ≤ x ∧ x < k + size) hx, if_neg hx]
  refine ⟨rfl, hbase, hsz, ⟨hpart, ?_⟩, hcarved.pos, hcarved.fits, hbytes, ?_⟩
  · intro l b hlb
    rw [mem_insert, Prod.mk.injEq] at hlb
    rcases hlb with ⟨rfl, rfl⟩ | ⟨hlb, -⟩
    · omega
    · exact ht.keyed l b hlb
  · intro y hy
    rw [hasKey_insert] at hy
    rcases hy with rfl | hy
    · exact .inr (.inl rfl)
    · exact hcarved.keys y hy

theorem byteAt_of_carve (h : Tiles m lo hi) (hsize : size < 2^64)
    (hc : carvePhysArea m addr size = .ok (m', k)) (hg : m'.get? k = some a)
    (hi : i < size) : m.byteAt physExtent (addr + i) = some (physExtent.byte a i) := by
  obtain ⟨rfl, ht, hcarved⟩ := carvePhysArea_spec h hsize hc
  rw [get?_eq_some_iff] at hg
  obtain ⟨a1, hka1, -, hsz⟩ := hcarved.entry
  obtain rfl := mem_unique hg hka1
  rw [← hcarved.bytes, ht.part.byteAt_of_covers (k := k) ⟨hg, by omega, by
    simp only [physExtent_size]; omega⟩, Nat.add_sub_cancel_left]

theorem Retyped.merge (ht : Tiles m lo hi)
    (h : Retyped m m' lo hi addr size f) (hk : (addr, a) ∈ m') (hs : a.size = size)
    (hm : mergeAdjacentPhys m' addr = .ok (m₂, k)) : Retyped m m₂ lo hi addr size f ∧
      ∀ y, Glued m y ∨ addr ≤ y ∧ y ≤ addr + size → Glued m₂ y := by
  obtain ⟨m3, l, b, hok, hmerged, -⟩ := mergeAdjacentPhys_spec h.tiles.part hk
  rw [hok, Except.ok.injEq, Prod.mk.injEq] at hm
  obtain ⟨rfl, rfl⟩ := hm
  have hr2 : Retyped m m3 lo hi addr size f := by
    refine ⟨h.tiles.of_byteAt hmerged.part hmerged.bytes, h.pos, h.fits, fun x => ?_, ?_⟩
    · rw [hmerged.bytes, h.bytes]
    · exact fun y hy => h.keys y (hmerged.keys y hy)
  refine ⟨hr2, fun y hy => ?_⟩
  -- At an end of the range the merge itself leaves no cut.
  by_cases hstart : y = addr
  · exact hstart ▸ hmerged.glued_start
  by_cases hend : y = addr + size
  · rw [hend, ← hs]
    exact hmerged.glued_end
  intro x c d hx hc hd hcont hkey
  have hkey' : m.HasKey y := by
    rcases hr2.keys y hkey with hk' | hk' | hk'
    · exact hk'
    · exact absurd hk' hstart
    · exact absurd hk' hend
  by_cases hin : InRange addr size y
  · -- Inside the range there was no cut before.
    obtain ⟨j, e, hje, hj, hjend⟩ := h.fits
    unfold InRange at hin
    have := ht.part.not_hasKey_inside hje (o := y - j) (by omega)
      (by simp only [physExtent_size]; omega)
    rw [show j + (y - j) = y by omega] at this
    exact this hkey'
  · have hin' : ¬ InRange addr size x := by
      unfold InRange at hin ⊢
      omega
    rw [hr2.bytes, if_neg hin'] at hc
    rw [hr2.bytes, if_neg hin] at hd
    rcases hy with hy | hy
    · exact hy x c d hx hc hd hcont hkey'
    · unfold InRange at hin
      omega

theorem retyped_of_carve_merge
    (ht : Tiles m lo hi) (hsize : size < 2^64) (hc : carvePhysArea m addr size = .ok (m₁, k))
    (hg : m₁.get? k = some a) (hm : mergeAdjacentPhys (m₁.insert k a') k = .ok (m₂, l))
    (hb : a'.base = a.base) (hs : a'.size = a.size) (hf : ∀ i, physExtent.byte a' i = f (physExtent.byte a i)) :
    Retyped m m₂ lo hi addr size f ∧ ∀ y, Glued m y ∨ addr ≤ y ∧ y ≤ addr + size → Glued m₂ y := by
  obtain ⟨rfl, -, hsz, hr⟩ := retyped_of_carve ht hsize hc hg hb hs hf
  exact hr.merge ht (mem_insert.mpr (.inl rfl)) (hs.trans hsz) hm

/-- The bytes in `X` changed by `f`, the other bytes stayed, and no byte was cut from one that
continues it. -/
structure RetypedOn (m m' : PhysMap) (lo hi : ℕ) (X : ℕ → Prop) (f : PByte → PByte) : Prop where
  tiles : Tiles m' lo hi
  inside : ∀ x, X x → m'.byteAt physExtent x = (m.byteAt physExtent x).map f
  outside : ∀ x, ¬ X x → m'.byteAt physExtent x = m.byteAt physExtent x
  span : ∀ x, X x → Span lo hi x
  glued : ∀ y, Glued m y → Glued m' y
  edges : ∀ x, X x ∨ X (x + 1) → Glued m' (x + 1)

namespace RetypedOn

variable {m₁ m₂ : PhysMap} {X Y : ℕ → Prop} {f : PByte → PByte}

theorem refl (ht : Tiles m lo hi) (hX : ∀ x, ¬ X x) : RetypedOn m m lo hi X f :=
  ⟨ht, fun x hx => absurd hx (hX x), fun _ _ => rfl, fun x hx => absurd hx (hX x), fun _ h => h,
    fun x hx => hx.elim (fun h => absurd h (hX x)) fun h => absurd h (hX _)⟩

theorem congr (h : RetypedOn m m' lo hi X f) (hXY : ∀ x, X x ↔ Y x) : RetypedOn m m' lo hi Y f :=
  ⟨h.tiles, fun x hx => h.inside x ((hXY x).mpr hx), fun x hx => h.outside x fun hX =>
    hx ((hXY x).mp hX), fun x hx => h.span x ((hXY x).mpr hx), h.glued, fun x hx =>
    h.edges x (hx.imp (hXY x).mpr (hXY _).mpr)⟩

theorem of_retyped (ht : Tiles m lo hi) (hr : Retyped m m' lo hi addr size f)
    (hg : ∀ y, Glued m y ∨ addr ≤ y ∧ y ≤ addr + size → Glued m' y) : RetypedOn m m' lo hi (InRange addr size) f :=
  ⟨hr.tiles, fun x hx => by rw [hr.bytes, if_pos hx], fun x hx => by rw [hr.bytes, if_neg hx],
    fun _ hx => hr.span ht hx, fun y hy => hg y (.inl hy), fun x hx => hg _ (.inr (by
      unfold InRange at hx
      omega))⟩

theorem trans (h : RetypedOn m m₁ lo hi X f) (h' : RetypedOn m₁ m₂ lo hi Y f)
    (hf : ∀ b, f (f b) = f b) : RetypedOn m m₂ lo hi (fun x => X x ∨ Y x) f := by
  refine ⟨h'.tiles, fun x hx => ?_, fun x hx => ?_, fun x hx => ?_, fun y hy =>
    h'.glued y (h.glued y hy), fun x hx => ?_⟩
  · by_cases hX : X x
    · by_cases hY : Y x
      · rw [h'.inside x hY, h.inside x hX, Option.map_map, show f ∘ f = f from funext hf]
      · rw [h'.outside x hY, h.inside x hX]
    · rw [h'.inside x (hx.resolve_left hX), h.outside x hX]
  · rw [h'.outside x fun hY => hx (.inr hY), h.outside x fun hX => hx (.inl hX)]
  · exact hx.elim (h.span x) (h'.span x)
  · rcases hx with (hX | hY) | (hX | hY)
    · exact h'.glued _ (h.edges x (.inl hX))
    · exact h'.edges x (.inl hY)
    · exact h'.glued _ (h.edges x (.inr hX))
    · exact h'.edges x (.inr hY)

end RetypedOn

def setDma (type : PhysicalMemoryType) (b : PByte) : PByte := { b with dma_type := type }

@[simp] theorem setDma_setDma (t t' : PhysicalMemoryType) (b : PByte) : setDma t (setDma t' b) = setDma t b := rfl

@[simp] theorem setDma_dma_type (t : PhysicalMemoryType) (b : PByte) : (setDma t b).dma_type = t := rfl

end ShadPS4.Memory
