import ShadPS4.Memory.SearchSpec

/-!
# Direct memory is searched first fit

`Allocate` and `PoolExpand` run the same search: an area is taken if it is free and its first aligned address from
the start of the search on, plus the size, is not beyond its end.
-/

namespace ShadPS4.Memory

open MemoryManager

variable {call : Except Fault (MemoryManager × Option ℕ)}
variable {cfg : Config} {s s' : MemoryManager} {m : PhysMap} {start last size alignment k l p : ℕ}
  {area next : PhysicalMemoryArea}

theorem Reachable.direct_pos (h : Reachable cfg s) : 0 < s.total_direct_size := by
  refine (Run.invariant (P := fun s => WF cfg s ∧ 0 < s.total_direct_size) h
    (fun s hs => hs ▸ ⟨wf_new cfg, cfg.direct_pos⟩) fun s op s' ⟨hwf, hpos⟩ hg he => ?_).2
  obtain ⟨hwf', heffect⟩ := Op.exec_spec hwf hg.1 he
  refine ⟨hwf', ?_⟩
  have hsame : s'.total_direct_size = s.total_direct_size → 0 < s'.total_direct_size :=
    fun heq => heq ▸ hpos
  rcases heffect with rfl | heffect
  · exact hpos
  cases op with
  | allocate _ _ _ _ _ =>
    obtain ⟨_, -, htaken, -⟩ := heffect
    exact hsame (htaken.frame ▸ rfl)
  | poolExpand _ _ _ _ =>
    obtain ⟨_, -, htaken, -⟩ := heffect
    exact hsame (htaken.frame ▸ rfl)
  | free _ _ _ =>
    obtain ⟨-, s1, -, hunmapped, hframe, -⟩ := heffect
    exact hsame ((congrArg total_direct_size hframe).trans hunmapped.total_direct)
  | poolCommit _ _ _ _ => exact hsame heffect.2.choose_spec.total_direct
  | poolDecommit _ _ =>
    obtain ⟨-, s1, -, hdec, rfl⟩ := heffect
    exact hsame (hdec.frame ▸ rfl)
  | mapMemory _ _ _ _ _ _ _ _ _ =>
    obtain ⟨-, _, -, s1, _, -, hunmapped, hmapped, -⟩ := heffect
    exact hsame (hmapped.total_direct.trans hunmapped.total_direct)
  | mapFile _ _ _ _ _ _ _ =>
    obtain ⟨_, _, -, s1, _, -, hunmapped, hmapped, -⟩ := heffect
    exact hsame (hmapped.total_direct.trans hunmapped.total_direct)
  | unmapMemory _ _ => exact hsame heffect.total_direct
  | protect _ _ _ => exact hsame heffect.sameCore.total_direct
  | setDirectMemoryType _ _ _ => exact hsame heffect.1.total_direct
  | nameVirtualRange _ _ _ => exact hsame heffect.1.total_direct
  | setupMemoryRegions size mem1 mem2 =>
    simp only [Op.exec, setupMemoryRegions, bind_eq_ok, pure_eq_ok, Prod.exists] at he
    obtain ⟨-, -, -, -, -, -, -, rfl⟩ := he
    exact hg.1.2

/-! ## The aligned ranges of free memory -/

/-- One free area holds `[p, p + size)`. -/
def PhysMap.HoldsFree (m : PhysMap) (p size : ℕ) : Prop :=
  ∃ k area, (k, area) ∈ m ∧ area.dma_type = .free ∧ k ≤ p ∧ p + size ≤ k + area.size

/-- The aligned ranges from `start` on that a free area holds, by their first byte. -/
def PhysMap.places (m : PhysMap) (start size alignment : ℕ) : Set ℕ :=
  {p | alignment ∣ p ∧ start ≤ p ∧ m.HoldsFree p size}

/-- The search for a range from `start` on takes the area: it is free, and what it takes for the end of the
range is not beyond the end of the area. -/
def Accepts (start size alignment : ℕ) (e : ℕ × PhysicalMemoryArea) : Prop :=
  e.2.dma_type = .free ∧ add64 (alignUp (max start e.1) alignment) size ≤ e.1 + e.2.size

instance (start size alignment : ℕ) : DecidablePred (Accepts start size alignment) :=
  fun _ => inferInstanceAs (Decidable (_ ∧ _))

/-- The search takes the area found for `start`, or one after it. -/
def PhysMap.SearchEnds (m : PhysMap) (start size alignment : ℕ) : Prop :=
  ∃ k area, m.floor? start = some (k, area) ∧ ∃ e ∈ m.tailFrom k, Accepts start size alignment e

theorem findFreeDmem_eq (hkeyed : ∀ e ∈ areas, e.2.base = e.1) (hafter : ∀ e ∈ areas.tail, start ≤ e.1)
    (hfirst : ∀ e ∈ areas.head?, mapping_start = alignUp (max start e.1) alignment) :
    findFreeDmem size alignment mapping_start areas = (areas.find? (Accepts start size alignment)).map
        fun e => (e.1, alignUp (max start e.1) alignment) := by
  induction areas generalizing mapping_start with
  | nil => rfl
  | cons e rest ih =>
    obtain ⟨k, area⟩ := e
    have hbase : area.base = k := hkeyed _ List.mem_cons_self
    have hstart : mapping_start = alignUp (max start k) alignment := hfirst _ rfl
    have haccepts : ¬ (area.dma_type ≠ .free ∨ area.getEnd < add64 mapping_start size) ↔
        Accepts start size alignment (k, area) := by
      rw [Accepts, PhysicalMemoryArea.getEnd, hbase, hstart, not_or, not_not, Nat.not_lt]
    simp only [findFreeDmem]
    by_cases hacc : Accepts start size alignment (k, area)
    · rw [if_neg (haccepts.mpr hacc), List.find?_cons_of_pos (by simpa using hacc), Option.map_some,
        hstart]
    · rw [if_pos (not_not.mp (mt haccepts.mp hacc)), List.find?_cons_of_neg (by simpa using hacc)]
      apply ih
      · exact fun e he => hkeyed e (List.mem_cons_of_mem _ he)
      · exact fun e he => hafter e (List.mem_of_mem_tail he)
      · intro e he
        cases rest with
        | nil => cases he
        | cons f rest =>
          obtain rfl : f = e := by simpa using he
          have hle : start ≤ f.1 := hafter f List.mem_cons_self
          simp only [hkeyed f (List.mem_cons_of_mem _ List.mem_cons_self), Nat.max_eq_right hle]

theorem accepts_of_mem_places (h : Tiles m 0 l) (hl : l < 2^63) (ha : 0 < alignment)
    (ha' : alignment < 2^64) (hpos : 0 < size) (hf : m.floor? start = some (k, area))
    (hp : p ∈ m.places start size alignment) :
    p < 2^63 ∧ ∃ e ∈ m.tailFrom k, Accepts start size alignment e ∧ max start e.1 ≤ p ∧ p + size < 2^63 := by
  obtain ⟨hdvd, hstart, j, next, hj, hfree, hjp, hend⟩ := hp
  obtain ⟨hk, hks, -⟩ := OrdMap.floor?_eq_some_iff.mp hf
  have hle := h.end_le hj
  have hmax : max start j ≤ p := Nat.max_le.mpr ⟨hstart, hjp⟩
  have hround := roundUp_le ha hdvd hmax
  refine ⟨by omega, (j, next), OrdMap.mem_tailFrom.mpr ⟨hj, ?_⟩, ⟨hfree, ?_⟩, hmax, by omega⟩
  · -- An earlier area ends where the area found for the start begins, or before.
    by_contra hlt
    have hbefore := h.part.disjoint j next k area hj hk (by omega)
    rw [physExtent_size] at hbefore
    omega
  · show add64 (alignUp (max start j) alignment) size ≤ j + next.size
    rw [alignUp_eq_roundUp ha ha' (by omega), add64_of_lt (by omega)]
    omega

theorem find?_accepts_spec (h : Tiles m 0 l) (hl : l < 2^63)
    (ha : 0 < alignment) (ha' : alignment < 2^64) (hpos : 0 < size) (hf : m.floor? start = some (k, area))
    (he : (m.tailFrom k).find? (Accepts start size alignment) = some e) :
    IsLeast (m.places start size alignment) (alignUp (max start e.1) alignment) ∧
        e.1 ≤ alignUp (max start e.1) alignment ∧ alignUp (max start e.1) alignment + size ≤ e.1 + e.2.size ∨
      m.places start size alignment = ∅ ∧ (start < 2^63 → 2^64 ≤ alignUp (max start e.1) alignment + size) := by
  obtain ⟨hacc, before, after, hsplit, hbefore⟩ := List.find?_eq_some_iff_append.mp he
  obtain ⟨hfree, hend⟩ : Accepts start size alignment e := by simpa using hacc
  have hmem : e ∈ m.tailFrom k := hsplit ▸ List.mem_append_right _ List.mem_cons_self
  have hem := (OrdMap.mem_tailFrom.mp hmem).1
  have hle := h.end_le (k := e.1) (a := e.2) hem
  rcases Set.eq_empty_or_nonempty (m.places start size alignment) with hnone | ⟨p, hp⟩
  · refine .inr ⟨hnone, fun hstart => ?_⟩
    by_contra hlt
    rw [alignUp_eq_roundUp ha ha' (by omega)] at hend hlt
    rw [add64_of_lt (by omega)] at hend
    have hround := le_roundUp (n := max start e.1) ha
    have : roundUp (max start e.1) alignment ∈ m.places start size alignment :=
      ⟨dvd_roundUp _ _, by omega, e.1, e.2, hem, hfree, by omega, hend⟩
    rw [hnone] at this
    exact this
  · -- Every range that fits is in an area that is taken, and so not before the first of these.
    have hfirst : ∀ q ∈ m.places start size alignment,
        max start e.1 ≤ q ∧ q + size < 2^63 ∧ roundUp (max start e.1) alignment ≤ q := by
      intro q hq
      obtain ⟨-, f, hfm, hfacc, hfq, hqlt⟩ := accepts_of_mem_places h hl ha ha' hpos hf hq
      have hef : e.1 ≤ f.1 := by
        rw [hsplit, List.mem_append, List.mem_cons] at hfm
        rcases hfm with hfm | rfl | hfm
        · have := hbefore f hfm
          simp [hfacc] at this
        · exact le_rfl
        · have hsorted := OrdMap.tailFrom_sorted (m := m) (k := k)
          rw [hsplit] at hsorted
          exact ((List.pairwise_cons.mp (List.pairwise_append.mp hsorted).2.1).1 f hfm).le
      have hle' : max start e.1 ≤ q := by omega
      exact ⟨hle', hqlt, roundUp_le ha hq.1 hle'⟩
    obtain ⟨hple, hplt, hround⟩ := hfirst p hp
    rw [alignUp_eq_roundUp ha ha' (by omega)] at hend ⊢
    rw [add64_of_lt (by omega)] at hend
    have hge := le_roundUp (n := max start e.1) ha
    have hein : e.1 ≤ roundUp (max start e.1) alignment := by omega
    exact .inl ⟨⟨⟨dvd_roundUp _ _, by omega, e.1, e.2, hem, hfree, hein, hend⟩,
      fun q hq => (hfirst q hq).2.2⟩, hein, hend⟩

theorem hasKey_of_splitPhys (hs : splitPhys m j o = .ok (m', l)) (hk : m.HasKey k) : m'.HasKey k := by
  simp only [splitPhys, bind_eq_ok, deref_eq_ok, require_eq_ok, pure_eq_ok, Prod.mk.injEq] at hs
  obtain ⟨_, -, -, -, rfl, -⟩ := hs
  simp only [OrdMap.emplace]
  split_ifs
  all_goals simp [hk]

theorem hasKey_of_carvePhysArea (hc : carvePhysArea m p size = .ok (m', j)) (hk : m.HasKey k) : m'.HasKey k := by
  simp only [carvePhysArea, bind_eq_ok, deref_eq_ok, require_eq_ok, Prod.exists] at hc
  obtain ⟨i, area, -, -, -, -, -, -, -, m1, hfirst, hsecond⟩ := hc
  have hk1 : m1.HasKey k := by
    split_ifs at hfirst
    · obtain ⟨⟨m1, j⟩, hs, rfl⟩ := map_eq_ok.mp hfirst
      exact hasKey_of_splitPhys hs hk
    · rw [pure_eq_ok] at hfirst
      exact hfirst ▸ hk
  split_ifs at hsecond
  · exact hasKey_of_splitPhys hsecond hk1
  · rw [pure_eq_ok, Prod.mk.injEq] at hsecond
    exact hsecond.1 ▸ hk1

theorem carve_ok (h : Tiles m 0 l) (hl : l < 2^63) (hk : (k, area) ∈ m) (hkp : k ≤ p)
    (hpos : 0 < size) (hend : p + size ≤ k + area.size) :
    ∃ m1 taken, carvePhysArea m p size = .ok (m1, p) ∧ m1.get? p = some taken ∧ m1.HasKey k := by
  have hle := h.end_le hk
  obtain ⟨m1, hc⟩ := carvePhysArea_ok h (by omega) hk hkp hpos hend
  obtain ⟨-, -, hcarved⟩ := carvePhysArea_spec h (by omega) hc
  obtain ⟨taken, hm, -, -⟩ := hcarved.entry
  exact ⟨m1, taken, hc, OrdMap.get?_eq_some_iff.mpr hm, hasKey_of_carvePhysArea hc ⟨area, hk⟩⟩

/-! ## The calls -/

/-- A call searches first fit for `size` bytes of `[start, last)`. -/
def MemoryManager.FirstFit (s : MemoryManager) (start last size alignment : ℕ)
    (call : Except Fault (MemoryManager × Option ℕ)) : Prop :=
  ∃ s' r, call = .ok (s', r) ∧
    (r = none ∧ (¬ ∃ p ∈ s.dmem_map.places start size alignment, p + size ≤ last) ∧
        (∀ x, s'.dma x = s.dma x) ∨
      ∃ p, r = some p ∧
        IsLeast {p ∈ s.dmem_map.places start size alignment | p + size ≤ last} p ∧
        (∀ x, InRange p size x → s.dma x = some .free) ∧
        ∀ x, ¬ InRange p size x → s'.dma x = s.dma x)

theorem firstFit_none (hcall : call = .ok (s, none)) : s.FirstFit start last size alignment call ↔
      ¬ ∃ p ∈ s.dmem_map.places start size alignment, p + size ≤ last := by
  constructor
  · rintro ⟨s', r, hr, ⟨-, hnone, -⟩ | ⟨p, hp, -⟩⟩
    · exact hnone
    · rw [hcall, Except.ok.injEq, Prod.mk.injEq] at hr
      exact absurd (hp.symm.trans hr.2.symm) (by simp)
  · exact fun hnone => ⟨s, none, hcall, .inl ⟨rfl, hnone, fun _ => rfl⟩⟩

theorem isLeast_of_firstFit (hcall : call = .ok (s', some p)) (hfit : s.FirstFit start last size alignment call) :
    IsLeast {p ∈ s.dmem_map.places start size alignment | p + size ≤ last} p := by
  obtain ⟨s1, r, hr, ⟨hnone, -⟩ | ⟨q, hq, hleast, -⟩⟩ := hfit
  · rw [hcall, Except.ok.injEq, Prod.mk.injEq] at hr
    exact absurd (hr.2.trans hnone) (by simp)
  · rw [hcall, Except.ok.injEq, Prod.mk.injEq, hq, Option.some.injEq] at hr
    exact hr.2 ▸ hleast

theorem dma_of_holdsFree (h : Tiles s.dmem_map 0 l) (hp : s.dmem_map.HoldsFree p size)
    (hx : InRange p size x) : s.dma x = some .free := by
  obtain ⟨k, area, hk, hfree, hkp, hend⟩ := hp
  have hcovers : s.dmem_map.Covers physExtent x k area := by
    have := hx.1
    have := hx.2
    exact ⟨hk, by omega, by rw [physExtent_size]; omega⟩
  rw [dma, dbyte, h.part.byteAt_of_covers hcovers]
  simp [hfree]

theorem firstFit_of_taken (h : Tiles s.dmem_map 0 l)
    (hcall : call = .ok (s', some p)) (htaken : Taken s s' p size type memory_type)
    (hleast : IsLeast (s.dmem_map.places start size alignment) p) (hlast : p + size ≤ last) :
    s.FirstFit start last size alignment call := by
  refine ⟨s', some p, hcall, .inr ⟨p, rfl, ⟨⟨hleast.1, hlast⟩, fun q hq => hleast.2 hq.1⟩,
    fun x hx => dma_of_holdsFree h hleast.1.2.2 hx, fun x hx => ?_⟩⟩
  rw [dma, dma, dbyte, dbyte, htaken.dmem.bytes, if_neg hx]

theorem WF.findFreeDmem_eq (h : WF cfg s) (hf : s.dmem_map.floor? start = some (k, area)) :
    findFreeDmem size alignment (alignUp (max start area.base) alignment) (s.dmem_map.tailFrom k) =
      ((s.dmem_map.tailFrom k).find? (Accepts start size alignment)).map
        fun e => (e.1, alignUp (max start e.1) alignment) := by
  obtain ⟨hk, -, hlast⟩ := OrdMap.floor?_eq_some_iff.mp hf
  have htail := OrdMap.tailFrom_eq_cons hk
  apply Memory.findFreeDmem_eq
  · exact fun e he => h.direct.keyed _ _ (OrdMap.mem_tailFrom.mp he).1
  · intro e he
    rw [htail, List.tail_cons, OrdMap.mem_tailFrom] at he
    by_contra hlt
    have := hlast e he.1 (by omega)
    omega
  · intro e he
    rw [htail, List.head?_cons, Option.mem_some_iff] at he
    rw [← he, h.direct.keyed k area hk]

theorem alignUp_lt_word (alignment : ℕ) (hx : x < 2^64) : alignUp x alignment < 2^64 := by
  unfold alignUp
  simp only
  split_ifs
  · have := Nat.sub_le x (x % alignment)
    omega
  · exact add64_lt _ _

theorem WF.search_cases (h : WF cfg s) (ha : 0 < alignment) (ha' : alignment < 2^64)
    (hpos : 0 < size) (hf : s.dmem_map.floor? start = some (k, area)) :
    ((s.dmem_map.tailFrom k).find? (Accepts start size alignment) = none ∧
        s.dmem_map.places start size alignment = ∅ ∧ ¬ s.dmem_map.SearchEnds start size alignment) ∨
      ∃ e, (s.dmem_map.tailFrom k).find? (Accepts start size alignment) = some e ∧
        e ∈ s.dmem_map ∧ s.dmem_map.SearchEnds start size alignment ∧
        (IsLeast (s.dmem_map.places start size alignment) (alignUp (max start e.1) alignment) ∧
            e.1 ≤ alignUp (max start e.1) alignment ∧ alignUp (max start e.1) alignment + size ≤ e.1 + e.2.size ∨
          s.dmem_map.places start size alignment = ∅ ∧
            (start < 2^63 → 2^64 ≤ alignUp (max start e.1) alignment + size)) := by
  have hlt : s.total_direct_size < 2^63 := by
    have := h.direct_le
    have := cfg.sizes_lt
    omega
  cases he : (s.dmem_map.tailFrom k).find? (Accepts start size alignment) with
  | none =>
    have hno : ∀ e ∈ s.dmem_map.tailFrom k, ¬ Accepts start size alignment e := by
      simpa using List.find?_eq_none.mp he
    refine .inl ⟨rfl, Set.eq_empty_iff_forall_notMem.mpr fun p hp => ?_, ?_⟩
    · obtain ⟨-, e, hmem, hacc, -⟩ := accepts_of_mem_places h.direct hlt ha ha' hpos hf hp
      exact hno e hmem hacc
    · rintro ⟨k', area', hf', e, hmem, hacc⟩
      rw [hf, Option.some.injEq, Prod.mk.injEq] at hf'
      exact hno e (hf'.1 ▸ hmem) hacc
  | some e =>
    have hmem := List.mem_of_find?_eq_some he
    have hacc : Accepts start size alignment e := by simpa using List.find?_some he
    exact .inr ⟨e, rfl, (OrdMap.mem_tailFrom.mp hmem).1, ⟨k, area, hf, e, hmem, hacc⟩,
      find?_accepts_spec h.direct hlt ha ha' hpos hf he⟩

theorem exists_floor (h : Tiles m 0 l) (hl : 0 < l) (start : ℕ) : ∃ e, m.floor? start = some e := by
  obtain ⟨k, area, hk, hzero, -⟩ := (h.part.cover 0).mp ⟨le_rfl, hl⟩
  rw [← Option.ne_none_iff_exists']
  intro hnone
  have : start < k := OrdMap.floor?_eq_none_iff.mp hnone _ hk
  omega

theorem WF.allocate_eq (last size alignment : ℕ) (memory_type : ℤ) (h : WF cfg s)
    (hf : s.dmem_map.floor? start = some (k, area)) : s.allocate start last size alignment memory_type =
      match (s.dmem_map.tailFrom k).find?
          (Accepts start size (if 0 < alignment then alignment else kb16)) with
      | none => .ok (s, none)
      | some e =>
        let p := alignUp (max start e.1) (if 0 < alignment then alignment else kb16)
        if last < add64 p size then .ok (s, none)
        else do
          let (m, handle) ← carvePhysArea s.dmem_map p size
          let taken ← deref (m.get? handle)
          let m := m.insert handle { taken with memory_type, dma_type := .allocated }
          let (m, _) ← mergeAdjacentPhys m e.1
          return ({ s with dmem_map := m }, some p) := by
  simp only [allocate, findDmemArea, hf, deref, bind, Except.bind, pure, Except.pure, h.findFreeDmem_eq hf]
  split <;> rename_i heq
  · rw [Option.map_eq_none_iff] at heq
    rw [heq]
  · obtain ⟨e, he, hp⟩ := Option.map_eq_some_iff.mp heq
    rw [Prod.mk.injEq] at hp
    rw [he, ← hp.1, ← hp.2]

theorem WF.poolExpand_eq (last size alignment : ℕ) (h : WF cfg s) (hf : s.dmem_map.floor? start = some (k, area)) :
    s.poolExpand start last size alignment =
      match (s.dmem_map.tailFrom k).find?
          (Accepts start size (if 0 < alignment then alignment else kb64)) with
      | none => .ok (s, none)
      | some e => do
        let p := alignUp (max start e.1) (if 0 < alignment then alignment else kb64)
        let (m, handle) ← carvePhysArea s.dmem_map p size
        let taken ← deref (m.get? handle)
        let m := m.insert handle { taken with dma_type := .pooled, memory_type := 3 }
        return ({ s with dmem_map := m, pool_budget := add64 s.pool_budget size }, some p) := by
  -- The start is aligned from the later of the two addresses.
  have hstart : (if area.base < start then
        alignUp start (if 0 < alignment then alignment else kb64)
      else alignUp area.base (if 0 < alignment then alignment else kb64)) =
      alignUp (max start area.base) (if 0 < alignment then alignment else kb64) := by
    split_ifs
    all_goals congr 1; omega
  simp only [poolExpand, findDmemArea, hf, deref, bind, Except.bind, pure, Except.pure, hstart, h.findFreeDmem_eq hf]
  split <;> rename_i heq
  · rw [Option.map_eq_none_iff] at heq
    rw [heq]
  · obtain ⟨e, he, hp⟩ := Option.map_eq_some_iff.mp heq
    rw [Prod.mk.injEq] at hp
    rw [he, ← hp.2]

theorem allocate_firstFit_iff (h : WF cfg s) (hdirect : 0 < s.total_direct_size)
    (hstart : start < 2^63) (hpos : 0 < size) (hsize : size < 2^64) (hle : size ≤ last) (ha' : alignment < 2^64) :
    s.FirstFit start last size (if 0 < alignment then alignment else kb16)
        (s.allocate start last size alignment memory_type) ↔
      (s.dmem_map.places start size (if 0 < alignment then alignment else kb16)).Nonempty ∨
        ¬ s.dmem_map.SearchEnds start size (if 0 < alignment then alignment else kb16) := by
  obtain ⟨ha, hlt⟩ := alignment_pos_lt (d := kb16) (by decide) ha'
  have hspec := fun s' r (hm : s.allocate start last size alignment memory_type = .ok (s', r)) =>
    allocate_spec h hsize ha' hm
  obtain ⟨⟨k, area⟩, hf⟩ := exists_floor h.direct hdirect start
  have hcall := h.allocate_eq last size alignment memory_type hf
  have hbound : s.total_direct_size < 2^63 := by
    have := h.direct_le
    have := cfg.sizes_lt
    omega
  have hcases := h.search_cases ha hlt hpos hf
  generalize (if 0 < alignment then alignment else kb16) = a at *
  rcases hcases with ⟨hnone, hempty, hends⟩ | ⟨e, hfound, hem, hends, ⟨hleast, hep, hend⟩ | ⟨hempty, hwrap⟩⟩
  · -- No area is taken.
    rw [hnone] at hcall
    rw [firstFit_none hcall, hempty]
    simp [hends]
  · -- The first range is taken, unless it ends too late.
    have hle' := h.direct.end_le hem
    simp only [hfound, add64_of_lt (by omega : alignUp (max start e.1) a + size < 2^64)] at hcall
    refine iff_of_true ?_ (.inl ⟨_, hleast.1⟩)
    split_ifs at hcall with hlate
    · rw [firstFit_none hcall]
      rintro ⟨q, hq, hqend⟩
      have := hleast.2 hq
      omega
    · obtain ⟨m1, taken, hc, hg, hkey⟩ := carve_ok h.direct hbound hem hep hpos hend
      obtain ⟨-, -, -, hret⟩ := retyped_of_carve (d := { taken with memory_type, dma_type := .allocated })
        (f := fun b => { b with memory_type, dma_type := .allocated }) h.direct hsize hc hg rfl rfl
        fun _ => rfl
      obtain ⟨area', harea⟩ := OrdMap.hasKey_insert.mpr (.inr hkey)
      obtain ⟨m2, j, -, hmerge, -⟩ := mergeAdjacentPhys_spec hret.tiles.part harea
      simp only [hc, hg, hmerge, deref, bind, Except.bind, pure, Except.pure] at hcall
      obtain ⟨-, ⟨-, hr⟩ | ⟨p, hr, -, htaken, -⟩⟩ := hspec _ _ hcall
      · cases hr
      · rw [Option.some.injEq] at hr
        subst hr
        exact firstFit_of_taken h.direct hcall htaken hleast (by omega)
  · -- The sum wraps, and the range is in no area.
    refine iff_of_false ?_ ?_
    · rintro ⟨s', r, hr, -⟩
      have hmax : max start e.1 < 2^64 := by
        have := h.direct.end_le hem
        omega
      have hlt' := alignUp_lt_word a hmax
      have hearly : ¬ last < add64 (alignUp (max start e.1) a) size := by
        unfold add64
        omega
      simp only [hr, hfound, if_neg hearly] at hcall
      obtain ⟨⟨m1, j⟩, hc, -⟩ := bind_eq_ok.mp hcall.symm
      obtain ⟨-, -, hcarved⟩ := carvePhysArea_spec h.direct hsize hc
      obtain ⟨i, next, hi, -, hin⟩ := hcarved.fits
      have := h.direct.end_le hi
      omega
    · simp [hempty, hends]

theorem poolExpand_firstFit_iff (h : WF cfg s) (hdirect : 0 < s.total_direct_size)
    (hpos : 0 < size) (hsize : size < 2^64) (ha' : alignment < 2^64) :
    s.FirstFit start last size (if 0 < alignment then alignment else kb64) (s.poolExpand start last size alignment) ↔
      (∃ p ∈ s.dmem_map.places start size (if 0 < alignment then alignment else kb64), p + size ≤ last) ∨
        ¬ s.dmem_map.SearchEnds start size (if 0 < alignment then alignment else kb64) := by
  obtain ⟨ha, hlt⟩ := alignment_pos_lt (d := kb64) (by decide) ha'
  have hspec := fun s' r (hm : s.poolExpand start last size alignment = .ok (s', r)) =>
    poolExpand_spec h hsize ha' hm
  obtain ⟨⟨k, area⟩, hf⟩ := exists_floor h.direct hdirect start
  have hcall := h.poolExpand_eq last size alignment hf
  have hbound : s.total_direct_size < 2^63 := by
    have := h.direct_le
    have := cfg.sizes_lt
    omega
  have hcases := h.search_cases ha hlt hpos hf
  rcases hcases with ⟨hnone, hempty, hends⟩ | ⟨e, hfound, hem, hends, ⟨hleast, hep, hend⟩ | ⟨hempty, hwrap⟩⟩
  · -- No area is taken.
    rw [hnone] at hcall
    rw [firstFit_none hcall, hempty]
    simp [hends]
  · -- The first range is taken, even if it ends too late.
    obtain ⟨m1, taken, hc, hg, -⟩ := carve_ok h.direct hbound hem hep hpos hend
    simp only [hfound, hc, hg, deref, bind, Except.bind, pure, Except.pure] at hcall
    simp only [hends, not_true_eq_false, or_false]
    constructor
    · intro hfit
      have hfirst := isLeast_of_firstFit hcall hfit
      exact ⟨_, hfirst.1.1, hfirst.1.2⟩
    · rintro ⟨q, hq, hqend⟩
      have hpq := hleast.2 hq
      obtain ⟨-, ⟨-, hr⟩ | ⟨p, hr, -, htaken, -⟩⟩ := hspec _ _ hcall
      · cases hr
      · rw [Option.some.injEq] at hr
        subst hr
        exact firstFit_of_taken h.direct hcall htaken hleast (by omega)
  · -- The sum wraps, and the call returns a range if it returns.
    refine iff_of_false (fun hfit => ?_) ?_
    · obtain ⟨s', r, hr, hnone | ⟨p, -, hp, -⟩⟩ := hfit
      · simp only [hr, hfound, bind_eq_ok, pure_eq_ok, eq_comm (a := Except.ok (s', r)), Prod.mk.injEq] at hcall
        obtain ⟨_, -, _, -, -, hsome⟩ := hcall
        exact absurd (hsome.trans hnone.1) (by simp)
      · have := hp.1.1
        rw [hempty] at this
        exact this
    · rw [hempty]
      simp [hends]

/-! ## The guest's calls -/

/-- With the arguments that the kernel lets through, `Allocate` and `PoolExpand` search first fit exactly under
the conditions given: some range fits (for `PoolExpand`, before the end of the search), or no free area from
the start on takes the search in because a sum wraps. -/
theorem firstFit_iff (h : Reachable cfg s) :
    (∀ (searchStart searchEnd : Int64) (len alignment : UInt64) (memoryType : Int32)
        (physAddrOut : Bool), allocateDirectMemoryError searchStart.toInt searchEnd.toInt len.toNat
          alignment.toNat memoryType.toInt physAddrOut = none →
      let a := if 0 < alignment.toNat then alignment.toNat else kb16
      (s.FirstFit (word searchStart.toInt) (word searchEnd.toInt) len.toNat a
          (s.allocate (word searchStart.toInt) (word searchEnd.toInt) len.toNat alignment.toNat
            memoryType.toInt) ↔
        (s.dmem_map.places (word searchStart.toInt) len.toNat a).Nonempty ∨
          ¬ s.dmem_map.SearchEnds (word searchStart.toInt) len.toNat a)) ∧
    (∀ (searchStart searchEnd len alignment : UInt64) (physAddrOut : Bool),
        memoryPoolExpandError searchStart.toNat searchEnd.toNat len.toNat alignment.toNat
          physAddrOut = none →
      let a := if 0 < alignment.toNat then alignment.toNat else kb64
      (s.FirstFit searchStart.toNat searchEnd.toNat len.toNat a
          (s.poolExpand searchStart.toNat searchEnd.toNat len.toNat alignment.toNat) ↔
        (∃ p ∈ s.dmem_map.places searchStart.toNat len.toNat a, p + len.toNat ≤ searchEnd.toNat) ∨
          ¬ s.dmem_map.SearchEnds searchStart.toNat len.toNat a)) := by
  constructor
  · intro searchStart searchEnd len alignment memoryType physAddrOut hadmit
    unfold allocateDirectMemoryError at hadmit
    split_ifs at hadmit with hneg hlen hal htype hout hrange
    have hlo := searchStart.toInt_lt
    have hbound : word searchStart.toInt < 2^63 := by
      unfold word
      omega
    unfold RangeTooSmall at hrange
    exact allocate_firstFit_iff h.wf h.direct_pos hbound (by omega) len.toNat_lt (by omega)
      alignment.toNat_lt
  · intro searchStart searchEnd len alignment physAddrOut hadmit
    unfold memoryPoolExpandError at hadmit
    split_ifs at hadmit with hneg hlen hal hout hrange
    exact poolExpand_firstFit_iff h.wf h.direct_pos (by omega) len.toNat_lt alignment.toNat_lt

theorem firstFit_iff_sample : ((MemoryManager.new .sample).FirstFit 0 0x100000000 0x4000 kb16
        ((MemoryManager.new .sample).allocate 0 0x100000000 0x4000 0 0) ↔
      ((MemoryManager.new .sample).dmem_map.places 0 0x4000 kb16).Nonempty ∨
        ¬ (MemoryManager.new .sample).dmem_map.SearchEnds 0 0x4000 kb16) ∧
    ((MemoryManager.new .sample).FirstFit 0 0x100000000 0x10000 kb64
        ((MemoryManager.new .sample).poolExpand 0 0x100000000 0x10000 0) ↔
      (∃ p ∈ (MemoryManager.new .sample).dmem_map.places 0 0x10000 kb64, p + 0x10000 ≤ 0x100000000) ∨
        ¬ (MemoryManager.new .sample).dmem_map.SearchEnds 0 0x10000 kb64) :=
  ⟨(firstFit_iff (reachable_new .sample)).1 0 0x100000000 0x4000 0 0 true (by decide),
    (firstFit_iff (reachable_new .sample)).2 0 0x100000000 0x10000 0 true (by decide)⟩

/-- While all of direct memory is free, `PoolExpand` does not heed the end of the search, and an alignment
near `2^64` makes `Allocate` fail an assertion. -/
theorem search_end_ignored :
    ((MemoryManager.new .sample).sceKernelMemoryPoolExpand 0x10000 0x20000 0x10000 0x20000 true).map
        (·.2) = .ok (.ok 0x20000) ∧ ¬ (MemoryManager.new .sample).FirstFit 0x10000 0x20000 0x10000 0x20000
        ((MemoryManager.new .sample).poolExpand 0x10000 0x20000 0x10000 0x20000) ∧
    (MemoryManager.new .sample).sceKernelAllocateDirectMemory 0x4000 0x100000000 0x4000
        0xffffffffffffc000 0 true = .error (.assertion .carvePhysAddress) ∧
      ¬ (MemoryManager.new .sample).FirstFit 0x4000 0x100000000 0x4000 0xffffffffffffc000
        ((MemoryManager.new .sample).allocate 0x4000 0x100000000 0x4000 0xffffffffffffc000 0) := by
  refine ⟨by decide, fun hfit => ?_, by decide, ?_⟩
  · obtain ⟨⟨s', r⟩, hcall, hr⟩ := exists_of_returns (x := (MemoryManager.new .sample).poolExpand
      0x10000 0x20000 0x10000 0x20000) (t := fun x => x.2 = some 0x20000) (by decide)
    obtain rfl : r = some 0x20000 := by simpa using hr
    have := (isLeast_of_firstFit hcall hfit).1.2
    omega
  · rintro ⟨s', r, hr, -⟩
    cases hr

end ShadPS4.Memory
