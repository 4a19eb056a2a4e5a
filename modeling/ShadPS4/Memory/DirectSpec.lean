import ShadPS4.Memory.UnmapSpec

/-!
# Direct memory, byte by byte

What `Allocate`, `PoolExpand`, and `Free` do to the bytes of a state. The first two retype one range, which was
free unless the alignment of the start of the search wraps.
-/

namespace ShadPS4.Memory

open List
open Option (some.injEq)
open OrdMap (mem_tailFrom floor?_eq_some_iff mem_unique)
open MemoryManager

variable {rs : List (ℕ × ℕ)}
variable {k n p start : ℕ} {l : List (ℕ × PhysicalMemoryArea)} {area : PhysicalMemoryArea}
  {is_checked : Bool}
variable {cfg : Config} {s s' s₁ : MemoryManager} {size alignment x v : ℕ}

/-! ## Allocation -/

theorem alignment_pos_lt (hd : 0 < d ∧ d < 2^64) (ha : alignment < 2^64) :
    0 < (if 0 < alignment then alignment else d) ∧ (if 0 < alignment then alignment else d) < 2^64 := by
  split_ifs with hpos
  · exact ⟨hpos, ha⟩
  · exact hd

theorem findFreeDmem_spec (hf : findFreeDmem size alignment ms l = some (k, ms')) :
    ∃ a, (k, a) ∈ l ∧ a.dma_type = .free ∧ add64 ms' size ≤ a.getEnd ∧
      (l.head? = some (k, a) ∧ ms' = ms ∨ ms' = alignUp a.base alignment) := by
  induction l generalizing ms with
  | nil => simp [findFreeDmem] at hf
  | cons e rest ih =>
    obtain ⟨j, area⟩ := e
    simp only [findFreeDmem] at hf
    split_ifs at hf with ht
    · obtain ⟨a, hmem, hfree, hend, hstart⟩ := ih hf
      refine ⟨a, mem_cons_of_mem _ hmem, hfree, hend, .inr ?_⟩
      rcases hstart with ⟨hhead, rfl⟩ | hstart
      · cases rest with
        | nil => simp at hhead
        | cons f rest =>
          obtain rfl : f = (k, a) := by simpa using hhead
          rfl
      · exact hstart
    · rw [some.injEq, Prod.mk.injEq] at hf
      obtain ⟨rfl, rfl⟩ := hf
      obtain ⟨hfree, hend⟩ := not_or.mp ht
      exact ⟨area, mem_cons_self, not_not.mp hfree, Nat.le_of_not_lt hend, .inl ⟨rfl, rfl⟩⟩

/-- What `Allocate` and `PoolExpand` do to direct memory: the range takes the types given. -/
structure Taken (s s' : MemoryManager) (addr size : ℕ) (type : PhysicalMemoryType)
    (memory_type : ℤ) : Prop where
  frame : s' = { s with dmem_map := s'.dmem_map, pool_budget := s'.pool_budget }
  dmem : Retyped s.dmem_map s'.dmem_map 0 s.total_direct_size addr size
    fun b => { b with memory_type, dma_type := type }

theorem WF.of_dmem (h : WF cfg s) (hs : s' = { s with
      dmem_map := s'.dmem_map, pool_budget := s'.pool_budget })
    (ht : Tiles s'.dmem_map 0 s.total_direct_size) (hb : s'.pool_budget < 2^64) : WF cfg s' := by
  rw [hs]
  exact ⟨h.virt, ht, h.flexible, h.direct_le, h.paddr_lt, h.usage_lt, hb⟩

theorem WF.free_of_found (h : WF cfg s) (ha : 0 < alignment) (ha' : alignment < 2^64)
    (hfloor : s.dmem_map.floor? start = some (k, area)) (hms : ms = alignUp (max start area.base) alignment)
    (hf : findFreeDmem size alignment ms (s.dmem_map.tailFrom k) = some (v, addr))
    (hspan : ∀ x, InRange addr size x → x < s.total_direct_size)
    (hwrap : start ≤ alignUp start alignment) (hx : InRange addr size x) : s.dma x = some .free := by
  obtain ⟨a, hmem, hfree, hend, hstart⟩ := findFreeDmem_spec hf
  have hmem' := (mem_tailFrom.mp hmem).1
  have hlt : ∀ k a, (k, a) ∈ s.dmem_map → a.base < 2^63 := by
    intro k a hk
    have := h.direct.keyed k a hk
    have := h.direct.end_le hk
    have := h.direct_le
    have := cfg.sizes_lt
    omega
  -- The start found is not before the area.
  have hle : a.base ≤ addr := by
    rcases hstart with ⟨hhead, rfl⟩ | rfl
    · have hka : (k, area) = (v, a) := by
        have hfirst := (OrdMap.head?_eq_some_iff_of_sorted OrdMap.tailFrom_sorted).mp hhead
        have hk := mem_tailFrom.mpr ⟨(floor?_eq_some_iff.mp hfloor).1, le_rfl⟩
        have h1 := hfirst.2 _ hk
        have h2 := (mem_tailFrom.mp hmem).2
        obtain rfl : k = v := by omega
        rw [mem_unique (floor?_eq_some_iff.mp hfloor).1 hmem']
      rw [Prod.mk.injEq] at hka
      rw [hms, ← hka.2]
      rcases Nat.le_total start area.base with hc | hc
      · rw [Nat.max_eq_right hc]
        exact le_alignUp (hka.2 ▸ hlt v a hmem') ha ha'
      · rw [Nat.max_eq_left hc]
        omega
    · exact le_alignUp (hlt v a hmem') ha ha'
  obtain ⟨hx1, hx2⟩ := hx
  have hno : add64 addr size = addr + size := by
    have := hspan (addr + size - 1) ⟨by omega, by omega⟩
    have := h.direct_le
    have := cfg.sizes_lt
    exact add64_of_lt (by omega)
  have hkey := h.direct.keyed v a hmem'
  unfold PhysicalMemoryArea.getEnd at hend
  rw [dma, dbyte, h.direct.part.byteAt_of_covers ⟨hmem', (by omega : v ≤ x), by simp only [physExtent_size]; omega⟩]
  simp [hfree]

theorem Retyped.merge_at {m m1 m2 : PhysMap} {lo hi addr l : ℕ} {f : PByte → PByte}
    (h : Retyped m m1 lo hi addr size f) (hm : mergeAdjacentPhys m1 k = .ok (m2, l)) :
    Retyped m m2 lo hi addr size f := by
  obtain ⟨a, hk⟩ := mem_of_mergeAdjacentPhys hm
  obtain ⟨m', l', b, hok, hmerged, -⟩ := mergeAdjacentPhys_spec h.tiles.part hk
  rw [hok, Except.ok.injEq, Prod.mk.injEq] at hm
  obtain ⟨rfl, rfl⟩ := hm
  refine ⟨h.tiles.of_byteAt hmerged.part hmerged.bytes, h.pos, h.fits, fun x => ?_, fun y hy => ?_⟩
  · rw [hmerged.bytes, h.bytes]
  · exact h.keys y (hmerged.keys y hy)

theorem allocate_spec (h : WF cfg s) (hsize : size < 2^64) (ha : alignment < 2^64)
    (hm : s.allocate start last size alignment memory_type = .ok (s', r)) :
    WF cfg s' ∧ (s' = s ∧ r = none ∨ ∃ addr, r = some addr ∧ s'.pool_budget = s.pool_budget ∧
      Taken s s' addr size .allocated memory_type ∧
      (start ≤ alignUp start (if 0 < alignment then alignment else kb16) →
        ∀ x, InRange addr size x → s.dma x = some .free)) := by
  simp only [allocate, findDmemArea, bind_eq_ok, deref_eq_ok, Prod.exists] at hm
  obtain ⟨k, area, hfloor, hm⟩ := hm
  split at hm
  · rw [pure_eq_ok, Prod.mk.injEq] at hm
    obtain ⟨rfl, rfl⟩ := hm
    exact ⟨h, .inl ⟨rfl, rfl⟩⟩
  · rename_i j addr hfound
    split_ifs at hm with hend
    · rw [pure_eq_ok, Prod.mk.injEq] at hm
      obtain ⟨rfl, rfl⟩ := hm
      exact ⟨h, .inl ⟨rfl, rfl⟩⟩
    · simp only [bind_eq_ok, deref_eq_ok, pure_eq_ok, Prod.exists, Prod.mk.injEq] at hm
      obtain ⟨m1, l, hc, a, hg, m2, l', hmerge, rfl, rfl⟩ := hm
      obtain ⟨rfl, -, -, hret⟩ := retyped_of_carve (d := { a with memory_type, dma_type := .allocated })
        (f := fun b => { b with memory_type, dma_type := .allocated }) h.direct hsize hc hg rfl rfl
        fun _ => rfl
      have hret2 := hret.merge_at hmerge
      refine ⟨h.of_dmem rfl hret2.tiles h.budget_lt, .inr ⟨addr, rfl, rfl, ⟨rfl, hret2⟩, ?_⟩⟩
      intro hwrap x hx
      obtain ⟨hpos, hlt⟩ := alignment_pos_lt (d := kb16) (by decide) ha
      exact h.free_of_found hpos hlt hfloor rfl hfound (fun x hx => (hret2.span h.direct hx).2) hwrap hx

theorem poolExpand_spec (h : WF cfg s) (hsize : size < 2^64) (ha : alignment < 2^64)
    (hm : s.poolExpand start last size alignment = .ok (s', r)) : WF cfg s' ∧ (s' = s ∧ r = none ∨
      ∃ addr, r = some addr ∧ s'.pool_budget = add64 s.pool_budget size ∧ Taken s s' addr size .pooled 3 ∧
      (start ≤ alignUp start (if 0 < alignment then alignment else kb64) →
        ∀ x, InRange addr size x → s.dma x = some .free)) := by
  simp only [poolExpand, findDmemArea, bind_eq_ok, deref_eq_ok, Prod.exists] at hm
  obtain ⟨k, area, hfloor, hm⟩ := hm
  split at hm
  · rw [pure_eq_ok, Prod.mk.injEq] at hm
    obtain ⟨rfl, rfl⟩ := hm
    exact ⟨h, .inl ⟨rfl, rfl⟩⟩
  · rename_i j addr hfound
    simp only [bind_eq_ok, deref_eq_ok, pure_eq_ok, Prod.exists, Prod.mk.injEq] at hm
    obtain ⟨m1, l, hc, a, hg, rfl, rfl⟩ := hm
    obtain ⟨rfl, -, -, hret⟩ := retyped_of_carve (d := { a with dma_type := .pooled, memory_type := 3 })
      (f := fun b => { b with memory_type := 3, dma_type := .pooled }) h.direct hsize hc hg rfl rfl
      fun _ => rfl
    refine ⟨h.of_dmem rfl hret.tiles (add64_lt _ _), .inr ⟨addr, rfl, rfl, ⟨rfl, hret⟩, ?_⟩⟩
    intro hwrap x hx
    obtain ⟨hpos, hlt⟩ := alignment_pos_lt (d := kb64) (by decide) ha
    refine h.free_of_found hpos hlt hfloor ?_ hfound (fun x hx => (hret.span h.direct hx).2) hwrap hx
    -- The start is aligned from the later of the two addresses.
    split_ifs with h1
    all_goals congr 1; omega

/-! ## The areas that a release frees -/

/-- The byte of direct memory at `x` is in use. -/
def MemoryManager.InUse (s : MemoryManager) (x : ℕ) : Prop := ∃ t, s.dma x = some t ∧ t ≠ .free

/-- The bytes that a release of `size` bytes from `phys_addr` on frees: it counts the bytes in use
only, so that it goes past the range by as many bytes as are free in it. -/
def MemoryManager.Released (s : MemoryManager) (phys_addr size x : ℕ) : Prop :=
  phys_addr ≤ x ∧ s.InUse x ∧ {y | (phys_addr ≤ y ∧ s.InUse y) ∧ y < x}.ncard < size

/-- The byte is in use and lies in one of the areas, from `p` on. -/
def UsedFrom (p : ℕ) (l : List (ℕ × PhysicalMemoryArea)) (x : ℕ) : Prop :=
  p ≤ x ∧ ∃ e ∈ l, e.2.dma_type ≠ .free ∧ InRange e.1 e.2.size x

theorem finite_usedFrom (p : ℕ) (l : List (ℕ × PhysicalMemoryArea)) (x : ℕ) : {y | UsedFrom p l y ∧ y < x}.Finite :=
  (Set.finite_Iio x).subset fun _ hy => hy.2

theorem freeList_spec (hl : l.Pairwise fun e f => e.1 + e.2.size ≤ f.1)
    (hp : ∀ e ∈ l, p ≤ e.1 + e.2.size ∧ e.1 + e.2.size < 2^64) (hf : freeList is_checked p n l = some rs) (x : ℕ) :
    (∃ r ∈ rs, InRange r.1 r.2 x) ↔ UsedFrom p l x ∧ {y | UsedFrom p l y ∧ y < x}.ncard < n := by
  induction l generalizing n rs with
  | nil =>
    simp only [freeList, some.injEq] at hf
    subst hf
    simp [UsedFrom]
  | cons e rest ih =>
    obtain ⟨hhead, hrest⟩ := pairwise_cons.mp hl
    have hp' := fun f hf => hp f (mem_cons_of_mem e hf)
    obtain ⟨k, a⟩ := e
    simp only [freeList] at hf
    split_ifs at hf with hz hfree hchk
    · rw [some.injEq] at hf
      subst hf
      simp [hz]
    · -- A free area is skipped.
      have hsame : UsedFrom p ((k, a) :: rest) = UsedFrom p rest := by
        funext y
        simp [UsedFrom, hfree]
      rw [hsame]
      exact ih hrest hp' hf
    · obtain ⟨rs', hrs', rfl⟩ := Option.map_eq_some_iff.mp hf
      obtain ⟨hpe, hlt⟩ := hp (k, a) mem_cons_self
      simp only at hpe hlt hhead hfree
      rw [sub64_of_le (by omega) (by omega)] at hrs' ⊢
      have hrec := ih hrest hp' hrs'
      have hafter : ∀ y, UsedFrom p rest y → k + a.size ≤ y := by
        rintro y ⟨-, f, hf, -, hy, -⟩
        exact (hhead f hf).trans hy
      have hcons : ∀ y, UsedFrom p ((k, a) :: rest) y ↔
          InRange (max p k) (k + a.size - max p k) y ∨ UsedFrom p rest y := by
        intro y
        simp only [UsedFrom, mem_cons, exists_eq_or_imp, hfree, ne_eq, not_false_eq_true,
          true_and, and_or_left, InRange]
        exact or_congr_left (by omega)
      simp only [mem_cons, exists_eq_or_imp, hrec, hcons]
      rcases Nat.lt_or_ge x (k + a.size) with hx | hx
      · -- The byte lies in the area or before it.
        have hnot : ¬ UsedFrom p rest x := fun h => absurd (hafter x h) (by omega)
        have hset : {y | (InRange (max p k) (k + a.size - max p k) y ∨ UsedFrom p rest y) ∧ y < x} =
            {y | InRange (max p k) (x - max p k) y} := by
          ext y
          simp only [Set.mem_ofPred_eq, InRange]
          constructor
          · rintro ⟨hy | hy, hyx⟩
            · omega
            · have := hafter y hy
              omega
          · intro hy
            exact ⟨.inl (by omega), by omega⟩
        rw [hset, ncard_inRange]
        simp only [hnot, false_and, or_false, InRange]
        omega
      · -- The byte lies after the area, all of which counts.
        have hset : {y | (InRange (max p k) (k + a.size - max p k) y ∨ UsedFrom p rest y) ∧ y < x} =
            {y | InRange (max p k) (k + a.size - max p k) y} ∪ {y | UsedFrom p rest y ∧ y < x} := by
          ext y
          simp only [Set.mem_ofPred_eq, Set.mem_union, InRange]
          constructor
          · rintro ⟨hy | hy, hyx⟩
            · exact .inl hy
            · exact .inr ⟨hy, hyx⟩
          · rintro (hy | hy)
            · exact ⟨.inl hy, by omega⟩
            · exact ⟨.inr hy.1, hy.2⟩
        have hdisj : Disjoint {y | InRange (max p k) (k + a.size - max p k) y}
            {y | UsedFrom p rest y ∧ y < x} := by
          rw [Set.disjoint_left]
          rintro y ⟨hy1, hy2⟩ ⟨hy, -⟩
          have := hafter y hy
          omega
        have hfin : {y | InRange (max p k) (k + a.size - max p k) y}.Finite :=
          (Set.finite_Iio (k + a.size)).subset fun y hy => by
            obtain ⟨h1, h2⟩ := hy
            simp only [Set.mem_Iio]
            omega
        rw [hset, Set.ncard_union_eq hdisj hfin (finite_usedFrom p rest x), ncard_inRange]
        have hnot : ¬ InRange (max p k) (k + a.size - max p k) x := by
          unfold InRange
          omega
        have hnot' : ¬ InRange (max p k) (min n (a.size - (max p k - k))) x := by
          unfold InRange
          omega
        simp only [hnot, hnot', false_or]
        refine and_congr_right fun _ => ?_
        omega

theorem freeList_size_le (hf : freeList is_checked p n l = some rs) : ∀ r ∈ rs, r.2 ≤ n := by
  induction l generalizing n rs with
  | nil =>
    simp only [freeList, some.injEq] at hf
    simp [← hf]
  | cons e rest ih =>
    simp only [freeList] at hf
    split_ifs at hf
    · simp_all
    · exact ih hf
    · obtain ⟨rs', hrs', rfl⟩ := Option.map_eq_some_iff.mp hf
      intro r hr
      rcases mem_cons.mp hr with rfl | hr
      · exact Nat.min_le_left _ _
      · exact (ih hrs' r hr).trans (Nat.sub_le _ _)

theorem WF.le_floor_end (h : WF cfg s) (hp : p ≤ s.total_direct_size) (hf : s.dmem_map.floor? p = some (k, area)) :
    p ≤ k + area.size := by
  obtain ⟨hk, -, hmax⟩ := floor?_eq_some_iff.mp hf
  by_contra hlt
  obtain ⟨l, b, hl, hly, hyl⟩ := (h.direct.part.cover (k + area.size)).mp ⟨Nat.zero_le _, by omega⟩
  have hlk := hmax (l, b) hl (by simp only; omega)
  simp only [physExtent_size] at hlk hyl
  rcases Nat.lt_or_eq_of_le hlk with hlk | rfl
  · have := h.direct.part.disjoint l b k area hl hk hlk
    simp only [physExtent_size] at this
    omega
  · rw [mem_unique hk hl] at hyl
    omega

theorem WF.usedFrom_iff (h : WF cfg s) (hf : s.dmem_map.floor? p = some (k, area)) :
    UsedFrom p (s.dmem_map.tailFrom k) x ↔ p ≤ x ∧ s.InUse x := by
  refine and_congr_right fun hpx => ?_
  constructor
  · rintro ⟨⟨j, a⟩, he, hused, hx⟩
    refine ⟨a.dma_type, ?_, hused⟩
    rw [dma, dbyte, h.direct.part.byteAt_of_covers ⟨(mem_tailFrom.mp he).1, hx⟩]
    rfl
  · rintro ⟨t, ht, hused⟩
    obtain ⟨b, hb, rfl⟩ := Option.map_eq_some_iff.mp ht
    obtain ⟨j, a, ⟨hj, hjx, hxj⟩, rfl⟩ := h.direct.part.byteAt_eq_some_iff.mp hb
    refine ⟨(j, a), mem_tailFrom.mpr ⟨hj, ?_⟩, hused, hjx, hxj⟩
    -- An area that starts before the address and reaches past it is the one found.
    rcases Nat.lt_or_ge p j with hlt | hge
    · have := (floor?_eq_some_iff.mp hf).2.1
      omega
    · have := h.direct.part.floor?_of_covers (x := p) ⟨hj, hge, by omega⟩
      rw [hf, some.injEq, Prod.mk.injEq] at this
      exact this.1.le

def releaseByte (b : PByte) : PByte := { b with dma_type := .free, memory_type := 0 }

theorem releaseAreas_spec (ht : Tiles m lo hi) (hrs : ∀ r ∈ rs, r.2 < 2^64) (hr : releaseAreas rs m = .ok m') :
    RetypedOn m m' lo hi (fun x => ∃ r ∈ rs, InRange r.1 r.2 x) releaseByte := by
  induction rs generalizing m with
  | nil =>
    rw [releaseAreas, pure_eq_ok] at hr
    exact hr ▸ .refl ht (by simp)
  | cons r rest ih =>
    simp only [releaseAreas, bind_eq_ok, deref_eq_ok, Prod.exists] at hr
    obtain ⟨m1, k, hc, a, hg, m2, l, hm, hr⟩ := hr
    obtain ⟨hret, hglue⟩ := retyped_of_carve_merge (f := releaseByte) ht (hrs _ mem_cons_self)
      hc hg hm rfl rfl fun _ => rfl
    have hrest := ih hret.tiles (fun r hr => hrs r (mem_cons_of_mem _ hr)) hr
    exact ((RetypedOn.of_retyped ht hret hglue).trans hrest fun _ => rfl).congr fun x => by simp

/-- The virtual byte `v` lies in the range that a release of `[phys_addr, phys_addr + size)` unmaps for one of the
physical areas of a direct mapping. -/
def MemoryManager.Removed (s : MemoryManager) (phys_addr size v : ℕ) : Prop :=
  ∃ k vma j a, (k, vma) ∈ s.vma_map ∧ vma.type = .direct ∧ (j, a) ∈ vma.phys_areas ∧
    a.base < add64 phys_addr size ∧ phys_addr < a.base + a.size ∧
    InRange (k + j + (max a.base phys_addr - a.base))
      (min (a.size - (max a.base phys_addr - a.base)) size) v

theorem WF.phys_end_le (h : WF cfg s)
    (hk : (k, vma) ∈ s.vma_map) (ht : vma.type.HasPhysicalBacking) (hj : (j, a) ∈ vma.phys_areas) :
    0 < a.size ∧ j + a.size ≤ vma.size := by
  have hpart := (h.virt.backed k vma hk).part ht
  have hpos := hpart.pos j a hj
  simp only [physExtent_size] at hpos
  have := ((hpart.cover (j + a.size - 1)).mpr ⟨j, a, hj, by omega, by simp only [physExtent_size]; omega⟩).2
  omega

theorem WF.removed_iff (h : WF cfg s) : (∃ r ∈ removeList s.vma_map p n, Contig cfg r.1 r.2 v) ↔ s.Removed p n v := by
  have hcontig : ∀ k vma j a, (k, vma) ∈ s.vma_map → vma.type = .direct →
      (j, a) ∈ vma.phys_areas → ∀ v, InRange (k + j + (max a.base p - a.base))
        (min (a.size - (max a.base p - a.base)) n) v → cfg.Usable v := by
    intro k vma j a hk ht hj v hv
    obtain ⟨-, hend⟩ := h.phys_end_le hk (.inl ht) hj
    obtain ⟨h1, h2⟩ := hv
    exact h.usable_of_mem hk ⟨by omega, by omega⟩
  constructor
  · rintro ⟨r, hr, hv⟩
    simp only [removeList, mem_flatMap, Prod.exists] at hr
    obtain ⟨k, vma, hk, hr⟩ := hr
    split_ifs at hr with ht
    · simp only [mem_filterMap, Prod.exists, removeRange] at hr
      obtain ⟨j, a, hj, hr⟩ := hr
      split_ifs at hr with hc
      rw [some.injEq] at hr
      subst hr
      rw [h.virt.keyed k vma hk] at hv
      exact ⟨k, vma, j, a, hk, ht, hj, hc.1, hc.2, hv.1⟩
    · simp at hr
  · rintro ⟨k, vma, j, a, hk, ht, hj, h1, h2, hv⟩
    refine ⟨(k + j + (max a.base p - a.base), min (a.size - (max a.base p - a.base)) n), ?_,
      (contig_iff_of_usable (hcontig k vma j a hk ht hj) v).mpr hv⟩
    simp only [removeList, mem_flatMap, Prod.exists]
    refine ⟨k, vma, hk, ?_⟩
    rw [if_pos ht]
    simp only [mem_filterMap, Prod.exists, removeRange]
    exact ⟨j, a, hj, by rw [if_pos ⟨h1, h2⟩, h.virt.keyed k vma hk]⟩

theorem WF.removeList_lt (h : WF cfg s) (hn : n < 2^64) (r : ℕ × ℕ)
    (hr : r ∈ removeList s.vma_map p n) : r.1 < 2^64 ∧ r.2 < 2^64 := by
  simp only [removeList, mem_flatMap, Prod.exists] at hr
  obtain ⟨k, vma, hk, hr⟩ := hr
  split_ifs at hr with ht
  · simp only [mem_filterMap, Prod.exists, removeRange] at hr
    obtain ⟨j, a, hj, hr⟩ := hr
    split_ifs at hr with hc
    rw [some.injEq] at hr
    subst hr
    obtain ⟨-, hend⟩ := h.phys_end_le hk (.inl ht) hj
    have := h.end_lt hk
    have := h.virt.keyed k vma hk
    omega
  · simp at hr

/-- What a release does: the virtual bytes `Removed` are unmapped, and then the physical bytes
`Released` are freed. -/
def Freed (cfg : Config) (s s' : MemoryManager) (phys_addr size : ℕ) : Prop :=
  ∃ s₁, WF cfg s₁ ∧ Unmapped cfg s s₁ (s.Removed phys_addr size) ∧
    s' = { s₁ with dmem_map := s'.dmem_map } ∧
    RetypedOn s₁.dmem_map s'.dmem_map 0 s.total_direct_size (s.Released phys_addr size) releaseByte

theorem free_spec (h : WF cfg s) (hn : n < 2^64) (hm : s.free p n is_checked = .ok (s', r)) :
    WF cfg s' ∧ (s' = s ∧ (¬ s.FreeInBounds p n is_checked ∨ r ≠ .ok) ∨
      r = .ok ∧ s.FreeInBounds p n is_checked ∧ Freed cfg s s' p n) := by
  unfold MemoryManager.free at hm
  by_cases hb : s.FreeInBounds p n is_checked
  · simp only [hb, not_true_eq_false, if_false, findDmemArea, bind_eq_ok, deref_eq_ok, Prod.exists] at hm
    obtain ⟨k, area, hf, hm⟩ := hm
    split at hm
    · rw [pure_eq_ok, Prod.mk.injEq] at hm
      obtain ⟨rfl, rfl⟩ := hm
      exact ⟨h, .inl ⟨rfl, .inr (by decide)⟩⟩
    · rename_i rs hrs
      simp only [bind_eq_ok, pure_eq_ok, Prod.mk.injEq] at hm
      obtain ⟨s₁, hun, m', hrel, rfl, rfl⟩ := hm
      obtain ⟨hwf1, hun⟩ := unmapRanges_spec h (h.removeList_lt hn) hun
      have hlt : s.total_direct_size < 2^64 := by
        have := h.direct_le
        have := cfg.sizes_lt
        omega
      have hmem : ∀ e ∈ s.dmem_map.tailFrom k, p ≤ e.1 + e.2.size ∧ e.1 + e.2.size < 2^64 := by
        rintro ⟨j, a⟩ he
        obtain ⟨hj, hkj⟩ := mem_tailFrom.mp he
        have hend := h.direct.end_le hj
        obtain ⟨hk, -, hmax⟩ := floor?_eq_some_iff.mp hf
        simp only at hkj ⊢
        refine ⟨?_, by omega⟩
        rcases Nat.lt_or_eq_of_le hkj with hkj | rfl
        · have := mt (hmax (j, a) hj) (by simp only; omega)
          omega
        · rw [← mem_unique hk hj]
          exact h.le_floor_end hb.1 hf
      have hsorted : (s.dmem_map.tailFrom k).Pairwise fun e f => e.1 + e.2.size ≤ f.1 := by
        refine OrdMap.tailFrom_sorted.imp_of_mem fun {e f} he hf hlt => ?_
        exact h.direct.part.disjoint _ _ _ _ (mem_tailFrom.mp he).1 (mem_tailFrom.mp hf).1 hlt
      have hset := freeList_spec hsorted hmem hrs
      have hret := releaseAreas_spec hwf1.direct (fun r hr => (freeList_size_le hrs r hr).trans_lt hn) hrel
      rw [hun.total_direct] at hret
      refine ⟨?_, .inr ⟨rfl, hb, s₁, hwf1, hun.congr fun v => h.removed_iff, rfl, hret.congr fun x => ?_⟩⟩
      · exact hwf1.of_dmem rfl (hun.total_direct ▸ hret.tiles) hwf1.budget_lt
      · simp only [hset, h.usedFrom_iff hf, Released, and_assoc]
  · simp only [hb, not_false_eq_true, if_true, pure_eq_ok, Prod.mk.injEq] at hm
    obtain ⟨rfl, -⟩ := hm
    exact ⟨h, .inl ⟨rfl, .inl hb⟩⟩

end ShadPS4.Memory
