import ShadPS4.Memory.View

/-!
# Backing a virtual range with physical areas

The loop that `PoolCommit` and the flexible branch of `MapMemory` share takes the areas of one type in order, as
many as the range needs.
-/

namespace ShadPS4.Memory

open MemoryManager
open OrdMap (empty mem_insert mem_def)
open Option (map_some isSome_iff_exists map_eq_some_iff some.injEq)

variable {m m' : PhysMap} {lo hi k d n x i : ℕ} {a : PhysicalMemoryArea}

theorem single_part (hpos : 0 < a.size) : (empty.insert k a).Partition physExtent (Span k (k + a.size)) := by
  exact (OrdMap.empty_partition.extend hpos fun x _ _ => id).congr fun x => by simp [Span]

theorem insert_eq_appendAreas : m.insert d a = appendAreas d (empty.insert 0 a).entries m := by
  simp [OrdMap.insert, empty, appendAreas]

theorem record_part (h : m.Partition physExtent (Span 0 d)) (hpos : 0 < a.size) :
    (m.insert d a).Partition physExtent (Span 0 (d + a.size)) := by
  have hs := single_part (k := 0) hpos
  rw [Nat.zero_add] at hs
  exact appendAreas_part h hs

theorem record_byteAt (h : m.Partition physExtent (Span 0 d)) (hpos : 0 < a.size) :
    (m.insert d a).byteAt physExtent i = if i < d then m.byteAt physExtent i
      else if i < d + a.size then some (physExtent.byte a (i - d)) else none := by
  have hs := single_part (k := 0) hpos
  split_ifs with h1 h2
  · rw [insert_eq_appendAreas]
    exact appendAreas_byteAt_fst h hs h1
  · rw [insert_eq_appendAreas, show i = d + (i - d) by omega, appendAreas_byteAt_snd h hs (by omega),
      hs.byteAt_of_covers (k := 0) (a := a) ⟨by simp, Nat.zero_le _, by
        simp only [physExtent_size]; omega⟩]
    simp
  · rw [(record_part h hpos).byteAt_eq_none_iff]
    unfold Span
    omega

/-- The invariant of the loop: what is backed so far. -/
structure Backs (m : PhysMap) (lo hi : ℕ) (want : PhysicalMemoryType) (f : PByte → PByte)
    (mapped_addr size : ℕ) (calls : List HostCall) (b : Backing) : Prop where
  le : b.remaining_size ≤ size
  part : b.phys_areas.Partition physExtent (Span 0 (size - b.remaining_size))
  map : RetypedOn m b.map lo hi
    (fun x => ∃ i c, b.phys_areas.byteAt physExtent i = some c ∧ c.addr = x) f
  bytes : ∀ i c, b.phys_areas.byteAt physExtent i = some c →
    ∃ c₀, m.byteAt physExtent c.addr = some c₀ ∧ c₀.dma_type = want ∧ c = f c₀
  inj : ∀ i j c c', b.phys_areas.byteAt physExtent i = some c →
    b.phys_areas.byteAt physExtent j = some c' → c.addr = c'.addr → i = j
  phys : ∀ v, hostPhys b.calls v =
    if InRange mapped_addr (size - b.remaining_size) v then
      (b.phys_areas.byteAt physExtent (v - mapped_addr)).map (·.addr)
    else hostPhys calls v

/-- What the loop asks of the change that it makes to an area: it keeps the area's place, and gives
it another type than the one wanted. -/
structure Retypes (want : PhysicalMemoryType) (retype : PhysicalMemoryArea → PhysicalMemoryArea)
    (f : PByte → PByte) : Prop where
  base : ∀ a, (retype a).base = a.base
  size : ∀ a, (retype a).size = a.size
  byte : ∀ a i, physExtent.byte (retype a) i = f (physExtent.byte a i)
  addr : ∀ c, (f c).addr = c.addr
  idem : ∀ c, f (f c) = f c
  ne : ∀ c, (f c).dma_type ≠ want

variable {want : PhysicalMemoryType} {retype : PhysicalMemoryArea → PhysicalMemoryArea}
  {f : PByte → PByte} {e : Bool} {mapped_addr size : ℕ} {calls : List HostCall} {b b' : Backing}

theorem empty_part : (empty : PhysMap).Partition physExtent (Span 0 0) :=
  OrdMap.empty_partition.congr fun x => by simp [Span]

theorem Backs.start (ht : Tiles m lo hi) : Backs m lo hi want f mapped_addr size calls
      { map := m, phys_areas := .empty, calls, remaining_size := size } := by
  refine ⟨le_rfl, ?_, .refl ht ?_, ?_, ?_, fun v => ?_⟩
  · rw [Nat.sub_self]
    exact empty_part
  · rintro x ⟨i, c, hc, -⟩
    simp [byteAt_empty] at hc
  · intro i c hc
    simp [byteAt_empty] at hc
  · intro i j c c' hc
    simp [byteAt_empty] at hc
  · rw [if_neg]
    unfold InRange
    simp only [Nat.sub_self]
    omega

theorem Backs.step (hr : Retypes want retype f) (hhi : hi < 2^64) (hsize : size < 2^64)
    (h : Backs m lo hi want f mapped_addr size calls b) (hk : (k, a) ∈ b.map)
    (hw : a.dma_type = want) (hn : n = min b.remaining_size a.size) (hrem : 0 < b.remaining_size)
    (hc : carvePhysArea b.map a.base n = .ok (m1, j)) (hg : m1.get? j = some new_area)
    (hpa : mergeAdjacentPhys (b.phys_areas.insert (size - b.remaining_size) (retype new_area))
      (size - b.remaining_size) = .ok (pa, l))
    (hm : mergeAdjacentPhys (m1.insert j (retype new_area)) j = .ok (m2, l')) :
    Backs m lo hi want f mapped_addr size calls {
      map := m2, phys_areas := pa
      calls := .map (mapped_addr + (size - b.remaining_size)) n (retype new_area).base e :: b.calls
      remaining_size := b.remaining_size - n } := by
  have ht := h.map.tiles
  have hkb := ht.keyed k a hk
  have hpos := ht.part.pos k a hk
  have hend := ht.end_le hk
  have hle := h.le
  simp only [physExtent_size] at hpos
  obtain ⟨rfl, hnb, hns, -⟩ := retyped_of_carve ht (by omega) hc hg (hr.base _) (hr.size _)
    (hr.byte _)
  obtain ⟨hret, hglue⟩ := retyped_of_carve_merge ht (by omega) hc hg hm (hr.base _) (hr.size _)
    (hr.byte _)
  -- The range taken has the type wanted, and so is not recorded yet.
  have hcovers : ∀ i < n, b.map.byteAt physExtent (k + i) = some (physExtent.byte new_area i) :=
    fun i hi => hkb ▸ byteAt_of_carve ht (by omega) hc hg hi
  have hwant : new_area.dma_type = want := by
    have h0 := hcovers 0 (by omega)
    rw [Nat.add_zero, ht.part.byteAt_of_covers ⟨hk, le_rfl, by
      simp only [physExtent_size]; omega⟩, some.injEq] at h0
    rw [← hw]
    exact (congrArg PByte.dma_type h0).symm
  have hnew : ∀ x, InRange k n x → ¬ ∃ i c, b.phys_areas.byteAt physExtent i = some c ∧ c.addr = x := by
    rintro x hx ⟨i, c, hc, rfl⟩
    have hin := h.map.inside c.addr ⟨i, c, hc, rfl⟩
    obtain ⟨c0, hc0, -⟩ := h.bytes i c hc
    have hcov := hcovers (c.addr - k) (by have := hx.1; have := hx.2; omega)
    rw [show k + (c.addr - k) = c.addr by have := hx.1; omega, hin, hc0, map_some,
      some.injEq] at hcov
    exact hr.ne c0 (by rw [hcov]; exact hwant)
  -- The areas recorded, before and after the merge.
  have hnspos : 0 < (retype new_area).size := by
    rw [hr.size, hns]
    omega
  have hpart := record_part h.part hnspos
  obtain ⟨pa', l1, b1, hok, hmerged, -⟩ := mergeAdjacentPhys_spec hpart (mem_insert.mpr (.inl rfl))
  rw [hok, Except.ok.injEq, Prod.mk.injEq] at hpa
  obtain ⟨rfl, -⟩ := hpa
  have hdone : size - (b.remaining_size - n) = size - b.remaining_size + n := by omega
  have hbyte : ∀ i, pa'.byteAt physExtent i =
      if i < size - b.remaining_size then b.phys_areas.byteAt physExtent i
      else if i < size - b.remaining_size + n then
        some (f (physExtent.byte new_area (i - (size - b.remaining_size)))) else none := by
    intro i
    rw [hmerged.bytes, record_byteAt h.part hnspos, hr.size, hns, hr.byte]
  have hold : ∀ i c, b.phys_areas.byteAt physExtent i = some c → i < size - b.remaining_size := by
    intro i c hc
    exact (h.part.byteAt_isSome_iff.mp (isSome_iff_exists.mpr ⟨c, hc⟩)).2
  have hcases : ∀ i c, pa'.byteAt physExtent i = some c ↔ b.phys_areas.byteAt physExtent i = some c ∨
      ∃ j < n, i = size - b.remaining_size + j ∧ c = f (physExtent.byte new_area j) := by
    intro i c
    rw [hbyte]
    constructor
    · intro hc
      split_ifs at hc with h1 h2
      · exact .inl hc
      · exact .inr ⟨i - (size - b.remaining_size), by omega, by omega, by simpa using hc.symm⟩
    · rintro (hc | ⟨j, hj, rfl, rfl⟩)
      · rw [if_pos (hold i c hc), hc]
      · rw [if_neg (by omega), if_pos (by omega), Nat.add_sub_cancel_left]
  have haddr : ∀ j, (f (physExtent.byte new_area j)).addr = k + j := by
    intro j
    rw [hr.addr]
    simp only [physExtent_byte]
    omega
  refine ⟨by simp only; omega, ?_, ?_, ?_, ?_, ?_⟩
  · simp only [hdone]
    rw [← hns, ← hr.size]
    exact hmerged.part
  · have hon := RetypedOn.of_retyped ht hret hglue
    refine (h.map.trans hon hr.idem).congr fun x => ?_
    simp only [hcases]
    constructor
    · rintro (⟨i, c, hc, rfl⟩ | ⟨h1, h2⟩)
      · exact ⟨i, c, .inl hc, rfl⟩
      · exact ⟨_, _, .inr ⟨x - k, by omega, rfl, rfl⟩, by rw [haddr]; omega⟩
    · rintro ⟨i, c, hc | ⟨j, hj, -, rfl⟩, rfl⟩
      · exact .inl ⟨i, c, hc, rfl⟩
      · exact .inr (by rw [haddr]; exact ⟨by omega, by omega⟩)
  · intro i c hc
    rcases (hcases i c).mp hc with hc | ⟨j, hj, -, rfl⟩
    · exact h.bytes i c hc
    · refine ⟨physExtent.byte new_area j, ?_, hwant, rfl⟩
      rw [haddr, ← h.map.outside _ (hnew _ ⟨by omega, by omega⟩)]
      exact hcovers j hj
  · intro i i' c c' hc hc' heq
    rcases (hcases i c).mp hc with hc | ⟨j, hj, rfl, rfl⟩
    · rcases (hcases i' c').mp hc' with hc' | ⟨j', hj', rfl, rfl⟩
      · exact h.inj i i' c c' hc hc' heq
      · rw [haddr] at heq
        exact absurd ⟨i, c, hc, heq⟩ (hnew _ ⟨by omega, by omega⟩)
    · rcases (hcases i' c').mp hc' with hc' | ⟨j', hj', rfl, rfl⟩
      · rw [haddr] at heq
        exact absurd ⟨i', c', hc', heq.symm⟩ (hnew _ ⟨by omega, by omega⟩)
      · rw [haddr, haddr] at heq
        omega
  · intro v
    simp only [hostPhys, hdone]
    have hbase : (retype new_area).base = k := by
      rw [hr.base]
      omega
    have hne : ¬ k = minusOne := by
      unfold minusOne
      omega
    by_cases hv : InRange (mapped_addr + (size - b.remaining_size)) n v
    · rw [if_pos hv, hbase, if_neg hne, if_pos (by unfold InRange at *; omega)]
      have hcase := (hcases (v - mapped_addr) (f (physExtent.byte new_area
        (v - (mapped_addr + (size - b.remaining_size)))))).mpr (.inr ⟨_, by
          have := hv.1; have := hv.2; omega, by have := hv.1; omega, rfl⟩)
      rw [hcase, map_some, haddr]
    · rw [if_neg hv, h.phys]
      by_cases hv' : InRange mapped_addr (size - b.remaining_size) v
      · rw [if_pos hv', if_pos (by unfold InRange at *; omega), hbyte, if_pos (by
          have := hv'.1; have := hv'.2; omega)]
      · rw [if_neg hv', if_neg (by unfold InRange at *; omega)]

theorem backFrom_spec (hr : Retypes want retype f)
    (hhi : hi < 2^64) (hsize : size < 2^64) (h : Backs m lo hi want f mapped_addr size calls b)
    (hcur : cur = mapped_addr + (size - b.remaining_size))
    (hb : backFrom want retype e mapped_addr fuel b handle cur = .ok b') :
    Backs m lo hi want f mapped_addr size calls b' := by
  induction fuel generalizing b handle cur with
  | zero =>
    cases handle with
    | none =>
      simp only [backFrom, pure_eq_ok] at hb
      exact hb ▸ h
    | some k =>
      simp only [backFrom] at hb
      split_ifs at hb
      rw [pure_eq_ok] at hb
      exact hb ▸ h
  | succ fuel ih =>
    cases handle with
    | none =>
      simp only [backFrom, pure_eq_ok] at hb
      exact hb ▸ h
    | some k =>
      simp only [backFrom] at hb
      split_ifs at hb with hz
      · rw [pure_eq_ok] at hb
        exact hb ▸ h
      · simp only [bind_eq_ok, deref_eq_ok, OrdMap.get?_eq_some_iff] at hb
        obtain ⟨a, hk, hb⟩ := hb
        split_ifs at hb with hw
        · exact ih h hcur hb
        · simp only [bind_eq_ok, deref_eq_ok, Prod.exists] at hb
          obtain ⟨m1, j, hc, new_area, hg, pa, l, hpa, m2, l', hm, hb⟩ := hb
          have hd : cur - mapped_addr = size - b.remaining_size := by omega
          rw [hd] at hpa
          have hstep := h.step (e := e) hr hhi hsize hk (not_not.mp hw) rfl (by omega) hc hg
            hpa hm
          rw [← hcur] at hstep
          refine ih hstep ?_ hb
          have := h.le
          simp only
          omega

theorem hasKey_end (h : m.Partition physExtent (Span lo hi)) (hk : (k, a) ∈ m)
    (hend : Span lo hi (k + a.size)) : m.HasKey (k + a.size) := by
  obtain ⟨j, c, hj, hjk, hjend⟩ := (h.cover _).mp hend
  have hpos := h.pos k a hk
  simp only [physExtent_size] at hpos hjend
  have hjeq : j = k + a.size := by
    rcases Nat.lt_trichotomy j k with hlt | rfl | hgt
    · have := h.disjoint j c k a hj hk hlt
      simp only [physExtent_size] at this
      omega
    · obtain rfl := OrdMap.mem_unique hj hk
      omega
    · have := h.disjoint k a j c hk hj hgt
      simp only [physExtent_size] at this
      omega
  exact ⟨c, hjeq ▸ hj⟩

theorem next_le_of_not_covered (h : m.Partition physExtent (Span lo hi))
    (hl : (l, a) ∈ m) (hx : Span lo hi x) (hlx : l + a.size ≤ x) :
    ∃ l', (m.next? l).map (·.1) = some l' ∧ l + a.size ≤ l' ∧ l' ≤ x := by
  obtain ⟨j, c, hj, hjx, hjend⟩ := (h.cover x).mp hx
  have hpos := h.pos l a hl
  simp only [physExtent_size] at hpos hjend
  have hlj : l < j := by
    rcases Nat.lt_trichotomy j l with hlt | rfl | hgt
    · have := h.disjoint j c l a hj hl hlt
      simp only [physExtent_size] at this
      omega
    · obtain rfl := OrdMap.mem_unique hj hl
      omega
    · exact hgt
  rcases hn : m.next? l with - | ⟨l', b⟩
  · rw [OrdMap.next?_eq_none_iff] at hn
    have := hn _ hj
    omega
  · have heq := next_key_eq h hl hn
    exact ⟨l', rfl, by omega, by omega⟩

theorem backFrom_ok (hr : Retypes want retype f)
    (hhi : hi < 2^64) (hsize : size < 2^64) (h : Backs m lo hi want f mapped_addr size calls b)
    (hcur : cur = mapped_addr + (size - b.remaining_size))
    (hwalk : b.remaining_size = 0 ∨ ((∀ y, b.map.HasKey y → y ≤ K) ∧
      (∀ l, handle = some l → b.map.HasKey l ∧ K < l + fuel) ∧
      ∀ x c, b.map.byteAt physExtent x = some c → c.dma_type = want → ∃ l, handle = some l ∧ l ≤ x)) :
    ∃ b', backFrom want retype e mapped_addr fuel b handle cur = .ok b' ∧
      (b'.remaining_size = 0 ∨ ∀ x c, b'.map.byteAt physExtent x = some c → c.dma_type ≠ want) := by
  induction fuel generalizing b handle cur with
  | zero =>
    cases handle with
    | none =>
      refine ⟨b, rfl, hwalk.imp_right fun hw x c hc hd => ?_⟩
      obtain ⟨l, hl, -⟩ := hw.2.2 x c hc hd
      simp at hl
    | some l =>
      rcases hwalk with hz | ⟨hK, hl, -⟩
      · exact ⟨b, by simp [backFrom, hz, pure, Except.pure], .inl hz⟩
      · obtain ⟨hkey, hlt⟩ := hl l rfl
        have := hK l hkey
        omega
  | succ fuel ih =>
    cases handle with
    | none =>
      refine ⟨b, rfl, hwalk.imp_right fun hw x c hc hd => ?_⟩
      obtain ⟨l, hl, -⟩ := hw.2.2 x c hc hd
      simp at hl
    | some l =>
      by_cases hz : b.remaining_size = 0
      · exact ⟨b, by simp [backFrom, hz, pure, Except.pure], .inl hz⟩
      obtain ⟨hK, hl, hwx⟩ := hwalk.resolve_left hz
      obtain ⟨⟨a, hla⟩, hlt⟩ := hl l rfl
      have ht := h.map.tiles
      have hle := h.le
      have hpos := ht.part.pos l a hla
      have hlb := ht.keyed l a hla
      have hspan : ∀ x c, b.map.byteAt physExtent x = some c → Span lo hi x := fun x c hc =>
        ht.part.byteAt_isSome_iff.mp (isSome_iff_exists.mpr ⟨c, hc⟩)
      simp only [physExtent_size] at hpos
      simp only [backFrom, if_neg hz, OrdMap.get?_eq_some_iff.mpr hla, deref, bind, Except.bind]
      by_cases hw : a.dma_type = want
      · -- The area, or its first part, is taken.
        rw [if_neg (not_not.mpr hw)]
        have hfit : a.base + min b.remaining_size a.size ≤ l + a.size := by omega
        obtain ⟨m1, hc⟩ := carvePhysArea_ok ht hhi hla (by omega) (by omega) hfit
        obtain ⟨-, -, hcarved⟩ := carvePhysArea_spec ht (by omega) hc
        obtain ⟨new_area, hna, -, hns⟩ := hcarved.entry
        have hg := OrdMap.get?_eq_some_iff.mpr hna
        have hsz := hr.size new_area
        obtain ⟨-, -, -, hret1⟩ := retyped_of_carve ht (by omega) hc hg (hr.base _) (hr.size _)
          (hr.byte _)
        obtain ⟨m2, l2, b2, hm, hmerged, hl2, hle2, hend2⟩ := mergeAdjacentPhys_spec
          hret1.tiles.part (mem_insert.mpr (.inl rfl))
        obtain ⟨hret, -⟩ := retyped_of_carve_merge ht (by omega) hc hg hm (hr.base _) (hr.size _)
          (hr.byte _)
        obtain ⟨pa, l3, b3, hpa, -⟩ := mergeAdjacentPhys_spec
          (record_part h.part (a := retype new_area) (by omega)) (mem_insert.mpr (.inl rfl))
        have hd : cur - mapped_addr = size - b.remaining_size := by omega
        have hstep := h.step (e := e) hr hhi hsize hla hw rfl (by omega) hc hg hpa hm
        rw [← hcur] at hstep
        simp only [hc, hg, hd, hpa, hm]
        refine ih hstep (by simp only; omega) ?_
        -- Either nothing remains, or the area was taken whole.
        rcases Nat.lt_or_ge a.size b.remaining_size with hwhole | hlast
        · have hmin : min b.remaining_size a.size = a.size := by omega
          rw [hmin] at hret hns
          refine .inr ⟨fun y hy => ?_, fun l' hl' => ?_, fun x c hc hd => ?_⟩
          · rcases hret.keys y hy with hy' | rfl | rfl
            · exact hK y hy'
            · exact hK _ (hlb ▸ ⟨a, hla⟩)
            · obtain ⟨d, hd⟩ := hy
              have hspan' := (hret.tiles.part.cover _).mpr ⟨_, d, hd, le_rfl, by
                have := hret.tiles.part.pos _ d hd; omega⟩
              rw [hlb] at hspan' ⊢
              exact hK _ (hasKey_end ht.part hla hspan')
          · rw [map_eq_some_iff] at hl'
            obtain ⟨⟨l', c⟩, hn, rfl⟩ := hl'
            have heq := next_key_eq hret.tiles.part hl2 hn
            rw [OrdMap.next?_eq_some_iff] at hn
            exact ⟨⟨c, hn.1⟩, by simp only; omega⟩
          · -- A byte of the type wanted is after what was taken, and outside the merged area.
            have hin : ¬ InRange a.base a.size x := by
              intro hin
              have hb := hret.bytes x
              rw [if_pos hin] at hb
              rw [hc] at hb
              obtain ⟨c0, -, hc0⟩ := map_eq_some_iff.mp hb.symm
              exact hr.ne c0 (hc0 ▸ hd)
            have hold : b.map.byteAt physExtent x = some c := by
              rw [← hc, hret.bytes, if_neg hin]
            obtain ⟨l', hl', hlx⟩ := hwx x c hold hd
            simp only [some.injEq] at hl'
            have hmtype : b2.dma_type ≠ want := by
              have h1 := hret.tiles.part.byteAt_of_covers (x := l) ⟨hl2, by omega, by
                simp only [physExtent_size]; omega⟩
              rw [hret.bytes, if_pos ⟨by omega, by omega⟩] at h1
              obtain ⟨c0, -, hc0⟩ := map_eq_some_iff.mp h1
              intro hbw
              exact hr.ne c0 (by rw [hc0]; exact hbw)
            have hxend : l2 + b2.size ≤ x := by
              by_contra hlt'
              have h1 := hret.tiles.part.byteAt_of_covers (x := x) ⟨hl2, by omega, by
                simp only [physExtent_size]; omega⟩
              rw [hc, some.injEq] at h1
              exact hmtype (by rw [h1] at hd; exact hd)
            obtain ⟨l', hl', -, hl'x⟩ := next_le_of_not_covered hret.tiles.part hl2 (hspan x c hold) hxend
            exact ⟨l', hl', hl'x⟩
        · exact .inl (by simp only; omega)
      · -- The area is of another type, and is passed over.
        rw [if_pos hw]
        refine ih h hcur (.inr ⟨hK, fun l' hl' => ?_, fun x c hc hd => ?_⟩)
        · rw [map_eq_some_iff] at hl'
          obtain ⟨⟨l', c⟩, hn, rfl⟩ := hl'
          rw [OrdMap.next?_eq_some_iff] at hn
          exact ⟨⟨c, hn.1⟩, by simp only; omega⟩
        · obtain ⟨l', hl', hlx⟩ := hwx x c hc hd
          simp only [some.injEq] at hl'
          subst hl'
          have hxend : l + a.size ≤ x := by
            by_contra hlt'
            rw [ht.part.byteAt_of_covers (x := x) ⟨hla, hlx, by
              simp only [physExtent_size]; omega⟩, some.injEq] at hc
            exact hw (by rw [← hd, ← hc]; rfl)
          obtain ⟨l', hl', -, hl'x⟩ := next_le_of_not_covered ht.part hla (hspan x c hc) hxend
          exact ⟨l', hl', hl'x⟩

theorem backRange_spec (hr : Retypes want retype f) (ht : Tiles m lo hi) (hhi : hi < 2^64) (hsize : size < 2^64)
    (hb : backRange want retype e mapped_addr size m calls = .ok b) : Backs m lo hi want f mapped_addr size calls b :=
  backFrom_spec hr hhi hsize (.start ht) (by simp) hb

theorem Backs.ncard_le (h : Backs m lo hi want f mapped_addr size calls b) :
    {x | ∃ i c, b.phys_areas.byteAt physExtent i = some c ∧ c.addr = x}.ncard ≤ size - b.remaining_size := by
  have himage : {x | ∃ i c, b.phys_areas.byteAt physExtent i = some c ∧ c.addr = x} ⊆
      (fun i => ((b.phys_areas.byteAt physExtent i).map (·.addr)).getD 0) ''
        ↑(Finset.range (size - b.remaining_size)) := by
    rintro x ⟨i, c, hc, rfl⟩
    have hi := (h.part.byteAt_isSome_iff.mp (isSome_iff_exists.mpr ⟨c, hc⟩)).2
    exact ⟨i, by simpa using hi, by simp [hc]⟩
  calc _ ≤ _ := Set.ncard_le_ncard himage ((Finset.finite_toSet _).image _)
    _ ≤ _ := Set.ncard_image_le (Finset.finite_toSet _)
    _ = size - b.remaining_size := by rw [Set.ncard_coe_finset, Finset.card_range]

/-- The physical addresses that a map of physical areas records. -/
def physAddrs (pa : PhysMap) (i : ℕ) : Option ℕ := (pa.byteAt physExtent i).map (·.addr)

theorem Backs.whole (h : Backs m lo hi want f mapped_addr size calls b) (hrem : b.remaining_size = 0) :
    b.phys_areas.Partition physExtent (Span 0 size) ∧
      RetypedOn m b.map lo hi (fun x => ∃ i < size, physAddrs b.phys_areas i = some x) f ∧
      (∀ i < size, ∃ x, physAddrs b.phys_areas i = some x ∧ (m.byteAt physExtent x).map (·.dma_type) = some want) ∧
      (∀ i < size, ∀ j < size, physAddrs b.phys_areas i = physAddrs b.phys_areas j → i = j) ∧
      ∀ v, hostPhys b.calls v = if InRange mapped_addr size v then
        physAddrs b.phys_areas (v - mapped_addr) else hostPhys calls v := by
  have hpart := h.part
  have hphys := h.phys
  rw [hrem, Nat.sub_zero] at hpart
  simp only [hrem, Nat.sub_zero] at hphys
  -- Each offset of the range has a recorded byte.
  have hsome : ∀ i < size, ∃ c, b.phys_areas.byteAt physExtent i = some c := fun i hi =>
    isSome_iff_exists.mp (hpart.byteAt_isSome_iff.mpr ⟨Nat.zero_le i, hi⟩)
  refine ⟨hpart, h.map.congr fun x => ⟨?_, ?_⟩, ?_, ?_, hphys⟩
  · rintro ⟨i, c, hc, rfl⟩
    obtain ⟨-, hi⟩ := hpart.byteAt_isSome_iff.mp (isSome_iff_exists.mpr ⟨c, hc⟩)
    exact ⟨i, hi, by simp [physAddrs, hc]⟩
  · rintro ⟨i, hi, hx⟩
    obtain ⟨c, hc, hx⟩ := map_eq_some_iff.mp hx
    exact ⟨i, c, hc, hx⟩
  · intro i hi
    obtain ⟨c, hc⟩ := hsome i hi
    obtain ⟨c0, hc0, hw, -⟩ := h.bytes i c hc
    exact ⟨c.addr, by simp [physAddrs, hc], by simp [hc0, hw]⟩
  · intro i hi j hj hij
    obtain ⟨c, hc⟩ := hsome i hi
    obtain ⟨c', hc'⟩ := hsome j hj
    exact h.inj i j c c' hc hc' (by simpa [physAddrs, hc, hc'] using hij)

theorem backRange_ok (hr : Retypes want retype f) (ht : Tiles m lo hi) (hhi : hi < 2^64) (hsize : size < 2^64)
    (henough : size ≤ {x | ∃ c, m.byteAt physExtent x = some c ∧ c.dma_type = want}.ncard) :
    ∃ b, backRange want retype e mapped_addr size m calls = .ok b ∧ b.remaining_size = 0 := by
  have hstart : Backs m lo hi want f mapped_addr size calls _ := Backs.start ht
  -- The last area's key bounds the keys, and the walk starts at the first area.
  have hwalk : (∀ y, m.HasKey y → y ≤ (m.last?.map (·.1)).getD 0) ∧ (∀ l, m.first?.map (·.1) = some l →
        m.HasKey l ∧ (m.last?.map (·.1)).getD 0 < l + ((m.last?.map (·.1)).getD 0 + 1)) ∧
      ∀ x c, m.byteAt physExtent x = some c → c.dma_type = want →
        ∃ l, m.first?.map (·.1) = some l ∧ l ≤ x := by
    refine ⟨?_, ?_, ?_⟩
    · rintro y ⟨a, hy⟩
      rcases hl : m.last? with - | ⟨k, c⟩
      · simp only [OrdMap.last?, List.getLast?_eq_none_iff] at hl
        rw [mem_def, hl] at hy
        simp at hy
      · have := (OrdMap.last?_eq_some_iff.mp hl).2 _ hy
        simpa using this
    · intro l hl
      obtain ⟨⟨k, c⟩, hf, rfl⟩ := map_eq_some_iff.mp hl
      exact ⟨⟨c, (OrdMap.first?_eq_some_iff.mp hf).1⟩, by omega⟩
    · intro x c hc _
      obtain ⟨k, a, ⟨hk, hkx, -⟩, -⟩ := ht.part.byteAt_eq_some_iff.mp hc
      rcases hf : m.first? with - | ⟨j, d⟩
      · simp only [OrdMap.first?, List.head?_eq_none_iff] at hf
        rw [mem_def, hf] at hk
        simp at hk
      · have := (OrdMap.first?_eq_some_iff.mp hf).2 _ hk
        exact ⟨j, rfl, by simp only at this; omega⟩
  obtain ⟨b, hb, hdone⟩ := backFrom_ok (e := e) hr hhi hsize hstart
    (by simp : mapped_addr = mapped_addr + (size - size)) (.inr hwalk)
  have hbacks := backFrom_spec hr hhi hsize hstart (by simp) hb
  refine ⟨b, hb, hdone.elim id fun hnone => ?_⟩
  -- Every byte of the type wanted was recorded, and these are too few.
  have hsub : {x | ∃ c, m.byteAt physExtent x = some c ∧ c.dma_type = want} ⊆
      {x | ∃ i c, b.phys_areas.byteAt physExtent i = some c ∧ c.addr = x} := by
    rintro x ⟨c, hc, hw⟩
    by_contra hx
    exact hnone x c (by rw [hbacks.map.outside x hx, hc]) hw
  have hfin : {x | ∃ i c, b.phys_areas.byteAt physExtent i = some c ∧ c.addr = x}.Finite := by
    refine (Set.finite_Iio hi).subset ?_
    rintro x hx
    exact (hbacks.map.span x hx).2
  have h1 := Set.ncard_le_ncard hsub hfin
  have h2 := hbacks.ncard_le
  have h3 := hbacks.le
  omega

end ShadPS4.Memory
