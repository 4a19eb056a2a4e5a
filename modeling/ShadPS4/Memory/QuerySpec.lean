import ShadPS4.Memory.Reach
import ShadPS4.Memory.Queries

/-!
# Queries of direct memory

`DirectMemoryQuery` reports the area that it finds, and its end by a second walk.
-/

namespace ShadPS4.Memory

open Nat
open OrdMap (tailFrom_eq_cons mem_unique)
open MemoryManager

variable {cfg : Config} {s : MemoryManager} {m : PhysMap} {addr hi k l end_ : ℕ}
  {area next : PhysicalMemoryArea} {memoryType : ℤ} {find_next : Bool}

/-- The report is of `addr`, or of what comes after it, and all of it is in use with one memory type. -/
structure MemoryManager.Reported (s : MemoryManager) (addr : ℕ) (find_next : Bool)
    (info : OrbisQueryInfo) : Prop where
  pos : info.start < info.end_
  place : info.start ≤ addr ∧ addr < info.end_ ∨
    find_next = true ∧ addr < info.start ∧
      ∀ x, addr ≤ x → x < info.start → s.dma x = some .free
  bytes : ∀ x, info.start ≤ x → x < info.end_ →
    ∃ b, s.dbyte x = some b ∧ b.dma_type ≠ .free ∧ b.memory_type = info.memoryType

/-- The area that a query finds: the one of the address, or the first one after it that is in use. -/
def PhysMap.Finds (m : PhysMap) (addr : ℕ) (find_next : Bool) (k : ℕ) (area : PhysicalMemoryArea) : Prop :=
  (k, area) ∈ m ∧ area.dma_type ≠ .free ∧
    (InRange k area.size addr ∨ find_next = true ∧ addr < k ∧
      ∀ l next, (l, next) ∈ m → addr < l + next.size → l < k → next.dma_type = .free)

/-- The second walk passes the area. -/
def PhysicalMemoryArea.Extends (area : PhysicalMemoryArea) : Prop :=
  area.dma_type = .mapped ∨ area.dma_type = .allocated

/-! ## The end of a report -/

theorem Tiles.hasKey_end (h : Tiles m 0 hi) (hk : (k, area) ∈ m) :
    m.HasKey (k + area.size) ∨ m.tailFrom (k + area.size) = [] := by
  have hle := h.end_le hk
  rcases lt_or_ge (k + area.size) hi with hlt | hge
  · exact .inl (h.part.hasKey_end hk ⟨zero_le _, hlt⟩)
  · refine .inr (List.filter_eq_nil_iff.mpr ?_)
    rintro ⟨l, next⟩ hl
    have hpos := h.part.pos l next hl
    have := h.end_le hl
    rw [physExtent_size] at hpos
    simp only [decide_eq_true_eq, not_le]
    omega

theorem Tiles.byteAt_area (h : Tiles m 0 hi) (hk : (k, area) ∈ m) (hx : InRange k area.size x) :
    ∃ b, m.byteAt physExtent x = some b ∧ b.dma_type = area.dma_type ∧ b.memory_type = area.memory_type :=
  ⟨_, h.part.byteAt_of_covers ⟨hk, hx.1, hx.2⟩, rfl, rfl⟩

theorem bytes_of_extends (h : Tiles m 0 hi) (hk : (k, area) ∈ m) (hext : area.Extends)
    (hkx : k ≤ x) (hx : x < k + area.size) :
    ∃ b, m.byteAt physExtent x = some b ∧ b.dma_type ≠ .free ∧ b.memory_type = area.memory_type := by
  obtain ⟨b, hb, hdma, hmt⟩ := h.byteAt_area hk ⟨hkx, hx⟩
  refine ⟨b, hb, ?_, hmt⟩
  rw [hdma]
  rcases hext with hu | hu <;> simp [hu]

theorem queryEnd_spec (memoryType : ℤ) (end_ : ℕ) (h : Tiles m 0 hi)
    (hareas : areas = m.tailFrom k) (hk : m.HasKey k ∨ areas = []) : queryEnd memoryType areas end_ = end_ ∨
      k < queryEnd memoryType areas end_ ∧ ∀ x, k ≤ x → x < queryEnd memoryType areas end_ →
          ∃ b, m.byteAt physExtent x = some b ∧ b.dma_type ≠ .free ∧ b.memory_type = memoryType := by
  induction areas generalizing k end_ with
  | nil => exact .inl rfl
  | cons e rest ih =>
    obtain ⟨area, hmem⟩ := hk.resolve_right (by simp)
    rw [tailFrom_eq_cons hmem, h.part.tailFrom_succ hmem, List.cons.injEq] at hareas
    obtain ⟨rfl, hrest⟩ := hareas
    have hpos := h.part.pos k area hmem
    rw [physExtent_size] at hpos
    have hbase : area.getEnd = k + area.size := by rw [PhysicalMemoryArea.getEnd, h.keyed k area hmem]
    simp only [queryEnd, hbase]
    split_ifs with hext
    · obtain ⟨htype, huse⟩ := hext
      have hhere := fun x => htype ▸ bytes_of_extends (x := x) h hmem huse
      rcases ih (k + area.size) hrest (hrest ▸ h.hasKey_end hmem) with heq | ⟨hlt, hbytes⟩
      · rw [heq]
        exact .inr ⟨by omega, hhere⟩
      · refine .inr ⟨by omega, fun x hkx hx => ?_⟩
        rcases lt_or_ge x (k + area.size) with hxk | hxk
        · exact hhere x hkx hxk
        · exact hbytes x hxk hx
    · exact .inl rfl

theorem queryEnd_of_extends (end_ : ℕ) (h : Tiles m 0 hi) (hk : (k, area) ∈ m) (hext : area.Extends) :
    k + area.size ≤ queryEnd area.memory_type (m.tailFrom k) end_ ∧
      ∀ x, k ≤ x → x < queryEnd area.memory_type (m.tailFrom k) end_ →
        ∃ b, m.byteAt physExtent x = some b ∧ b.dma_type ≠ .free ∧ b.memory_type = area.memory_type := by
  have hbase : area.getEnd = k + area.size := by rw [PhysicalMemoryArea.getEnd, h.keyed k area hk]
  have hhere := fun x => bytes_of_extends (x := x) h hk hext
  rw [tailFrom_eq_cons hk, queryEnd, if_pos ⟨rfl, hext⟩, hbase, h.part.tailFrom_succ hk, physExtent_size]
  rcases queryEnd_spec area.memory_type (k + area.size) h rfl (h.hasKey_end hk) with heq | ⟨hlt, hbytes⟩
  · rw [heq]
    exact ⟨le_rfl, hhere⟩
  · refine ⟨hlt.le, fun x hkx hx => ?_⟩
    rcases lt_or_ge x (k + area.size) with hxk | hxk
    · exact hhere x hkx hxk
    · exact hbytes x hxk hx

theorem queryEnd_of_not_extends (hk : (k, area) ∈ m) (hext : ¬ area.Extends) :
    queryEnd memoryType (m.tailFrom k) end_ = end_ := by
  rw [tailFrom_eq_cons hk, queryEnd, if_neg fun hc => hext hc.2]

/-! ## The area that is reported -/

theorem dropFree_spec (h : Tiles m 0 hi)
    (hareas : areas = m.tailFrom k) (hk : m.HasKey k ∨ areas = []) : areas.dropWhile (·.2.dma_type = .free) = [] ∧
        (∀ l next, (l, next) ∈ m → k ≤ l → next.dma_type = .free) ∨
      ∃ l next, areas.dropWhile (·.2.dma_type = .free) = m.tailFrom l ∧ (l, next) ∈ m ∧
        next.dma_type ≠ .free ∧ k ≤ l ∧ ∀ j a, (j, a) ∈ m → k ≤ j → j < l → a.dma_type = .free := by
  induction areas generalizing k with
  | nil =>
    refine .inl ⟨rfl, fun l next hl hkl => ?_⟩
    have hmem := OrdMap.mem_tailFrom.mpr ⟨hl, hkl⟩
    rw [← hareas] at hmem
    cases hmem
  | cons e rest ih =>
    obtain ⟨area, hmem⟩ := hk.resolve_right (by simp)
    have htail := hareas
    rw [tailFrom_eq_cons hmem, h.part.tailFrom_succ hmem, List.cons.injEq] at hareas
    obtain ⟨rfl, hrest⟩ := hareas
    by_cases hfree : area.dma_type = .free
    · -- The area itself, or one from its end on.
      have hstep : ∀ l next, (l, next) ∈ m → k ≤ l → (l, next) = (k, area) ∨ k + area.size ≤ l := by
        intro l next hl hkl
        rcases eq_or_lt_of_le hkl with rfl | hlt
        · exact .inl (by rw [mem_unique hl hmem])
        · exact .inr (h.part.disjoint k area l next hmem hl hlt)
      rw [List.dropWhile_cons_of_pos (by simpa using hfree)]
      rcases ih hrest (hrest ▸ h.hasKey_end hmem) with ⟨hnil, hall⟩ | ⟨l, next, hdrop, hl, hne, hle, hall⟩
      · refine .inl ⟨hnil, fun l next hl hkl => ?_⟩
        rcases hstep l next hl hkl with heq | hle
        · rw [Prod.mk.injEq] at heq
          exact heq.2 ▸ hfree
        · exact hall l next hl hle
      · refine .inr ⟨l, next, hdrop, hl, hne, by omega, fun j a hj hkj hjl => ?_⟩
        rcases hstep j a hj hkj with heq | hle
        · rw [Prod.mk.injEq] at heq
          exact heq.2 ▸ hfree
        · exact hall j a hj hle hjl
    · rw [List.dropWhile_cons_of_neg (by simpa using hfree)]
      exact .inr ⟨k, area, htail, hmem, hfree, le_rfl, fun j a _ hkj hjk => by omega⟩

theorem directMemoryQuery_spec (h : Tiles s.dmem_map 0 s.total_direct_size) (addr : ℕ) (find_next : Bool) :
    (∃ k area, s.dmem_map.Finds addr find_next k area ∧
        ∀ out_info, s.directMemoryQuery addr find_next out_info = .ok (.ok {
          start := k
          end_ := queryEnd area.memory_type (s.dmem_map.tailFrom k) out_info.end_
          memoryType := area.memory_type })) ∨
      (∀ k area, ¬ s.dmem_map.Finds addr find_next k area) ∧
        ∀ out_info, s.directMemoryQuery addr find_next out_info = .ok (.error .eacces) := by
  rcases lt_or_ge addr s.total_direct_size with hlt | hge
  swap
  · refine .inr ⟨?_, fun out_info => ?_⟩
    · rintro k area ⟨hk, -, ⟨h1, h2⟩ | ⟨-, hbefore, -⟩⟩
      all_goals
        have := h.end_le hk
        omega
    · rw [directMemoryQuery, if_pos hge]
      rfl
  obtain ⟨k, area, hcovers⟩ := (h.part.cover addr).mp ⟨zero_le _, hlt⟩
  obtain ⟨hk, hka, hend⟩ := id hcovers
  rw [physExtent_size] at hend
  have hf := h.part.floor?_of_covers hcovers
  have hquery : ∀ out_info, s.directMemoryQuery addr find_next out_info =
      match (if find_next then (s.dmem_map.tailFrom k).dropWhile (·.2.dma_type = .free)
        else s.dmem_map.tailFrom k) with
      | [] => .ok (.error .eacces)
      | e :: rest => if e.2.dma_type = .free then .ok (.error .eacces) else .ok (.ok {
          start := e.2.base
          end_ := queryEnd e.2.memory_type (e :: rest) out_info.end_
          memoryType := e.2.memory_type }) := by
    intro out_info
    rw [directMemoryQuery, if_neg (by omega)]
    simp only [findDmemArea, hf, deref, bind, Except.bind, pure, Except.pure]
    split <;> rename_i heq <;> rw [heq]
  -- The areas from one in use on are reported.
  have hreport : ∀ l next, (l, next) ∈ s.dmem_map → next.dma_type ≠ .free →
      (if find_next then (s.dmem_map.tailFrom k).dropWhile (·.2.dma_type = .free)
        else s.dmem_map.tailFrom k) = s.dmem_map.tailFrom l →
      ∀ out_info, s.directMemoryQuery addr find_next out_info = .ok (.ok {
        start := l
        end_ := queryEnd next.memory_type (s.dmem_map.tailFrom l) out_info.end_
        memoryType := next.memory_type }) := by
    intro l next hl hne heq out_info
    rw [hquery, heq, tailFrom_eq_cons hl]
    simp only [if_neg hne, h.keyed l next hl]
  by_cases hfree : area.dma_type = .free
  swap
  · -- The address is in use.
    refine .inl ⟨k, area, ⟨hk, hfree, .inl ⟨hka, hend⟩⟩, hreport k area hk hfree ?_⟩
    split_ifs
    · rw [tailFrom_eq_cons hk, List.dropWhile_cons_of_neg (by simpa using hfree)]
    · rfl
  -- Nothing in use contains the address.
  have houtside : ∀ l next, (l, next) ∈ s.dmem_map → next.dma_type ≠ .free → ¬ InRange l next.size addr := by
    intro l next hl hne hin
    obtain ⟨rfl, rfl⟩ := h.part.covers_unique hcovers ⟨hl, hin.1, hin.2⟩
    exact hne hfree
  cases hnext : find_next with
  | false =>
    refine .inr ⟨?_, fun out_info => ?_⟩
    · rintro l next ⟨hl, hne, hin | ⟨hno, -⟩⟩
      · exact houtside l next hl hne hin
      · cases hno
    · rw [← hnext, hquery, hnext]
      simp only [Bool.false_eq_true, if_false, tailFrom_eq_cons hk, if_pos hfree]
  | true =>
    -- An area that ends after the address is the one found, or a later one.
    have hafter : ∀ l next, (l, next) ∈ s.dmem_map → addr < l + next.size → k ≤ l := by
      intro l next hl hlt
      by_contra hlk
      have := h.part.disjoint l next k area hl hk (by omega)
      rw [physExtent_size] at this
      omega
    rcases dropFree_spec h rfl (.inl ⟨area, hk⟩) with ⟨hnil, hall⟩ | ⟨l, next, hdrop, hl, hne, hkl, hall⟩
    · refine .inr ⟨?_, fun out_info => ?_⟩
      · rintro l next ⟨hl, hne, hin | ⟨-, hlt, -⟩⟩
        · exact houtside l next hl hne hin
        · exact hne (hall l next hl (hafter l next hl (by omega)))
      · rw [← hnext, hquery, hnext, if_pos rfl, hnil]
    · refine .inl ⟨l, next, ⟨hl, hne, .inr ⟨rfl, ?_, fun j a hj hlt hjl => ?_⟩⟩, ?_⟩
      · by_contra hle
        have hlk : l = k := by
          by_contra hlk
          have := h.part.disjoint k area l next hk hl (by omega)
          rw [physExtent_size] at this
          omega
        subst hlk
        exact hne (mem_unique hl hk ▸ hfree)
      · exact hall j a hj (hafter j a hj hlt) hjl
      · rw [← hnext]
        exact hreport l next hl hne (by rw [hnext, if_pos rfl, hdrop])

theorem PhysMap.Finds.unique (h : Tiles m 0 hi) (hk : m.Finds addr find_next k area)
    (hl : m.Finds addr find_next l next) : k = l ∧ area = next := by
  obtain ⟨hkm, hkf, hkp⟩ := hk
  obtain ⟨hlm, hlf, hlp⟩ := hl
  suffices hkl : k = l by
    subst hkl
    exact ⟨rfl, mem_unique hkm hlm⟩
  rcases hkp with hin | ⟨-, hafter, hbetween⟩ <;> rcases hlp with hin' | ⟨-, hafter', hbetween'⟩
  · exact (h.part.covers_unique ⟨hkm, hin.1, hin.2⟩ ⟨hlm, hin'.1, hin'.2⟩).1
  · exact absurd (hbetween' k area hkm hin.2 (by have := hin.1; omega)) hkf
  · exact absurd (hbetween l next hlm hin'.2 (by have := hin'.1; omega)) hlf
  · by_contra hne
    rcases lt_or_gt_of_ne hne with hlt | hlt
    · exact hkf (hbetween' k area hkm (by omega) hlt)
    · exact hlf (hbetween l next hlm (by omega) hlt)

/-- Whatever the structure held before, `DirectMemoryQuery` reports what it is for exactly if the area found, if
any, is allocated or mapped. -/
theorem directMemoryQuery_iff (h : Reachable cfg s) (addr : UInt64) (find_next : Bool) :
    (∀ out_info info, s.directMemoryQuery addr.toNat find_next out_info = .ok (.ok info) →
        s.Reported addr.toNat find_next info) ↔
      ∀ k area, s.dmem_map.Finds addr.toNat find_next k area → area.Extends := by
  generalize addr.toNat = addr
  have htiles := h.wf.direct
  rcases directMemoryQuery_spec htiles addr find_next with ⟨k, area, hfinds, hquery⟩ | ⟨hnone, hquery⟩
  swap
  · refine iff_of_true (fun out_info info hinfo => ?_) fun k area hfinds => absurd hfinds (hnone k area)
    rw [hquery, Except.ok.injEq] at hinfo
    cases hinfo
  constructor
  · intro hreported l next hfinds'
    obtain ⟨rfl, rfl⟩ := hfinds.unique htiles hfinds'
    by_contra hext
    -- The caller left a zero as the end.
    have hpos := (hreported ⟨0, 0, 0⟩ _ (hquery _)).pos
    rw [queryEnd_of_not_extends hfinds.1 hext] at hpos
    simp only at hpos
    omega
  · intro hext out_info info hinfo
    rw [hquery, Except.ok.injEq, Except.ok.injEq] at hinfo
    subst hinfo
    obtain ⟨hend, hbytes⟩ := queryEnd_of_extends out_info.end_ htiles hfinds.1 (hext k area hfinds)
    have hpos := htiles.part.pos k area hfinds.1
    rw [physExtent_size] at hpos
    refine ⟨by simp only; omega, ?_, hbytes⟩
    rcases hfinds.2.2 with hin | ⟨hnext, hafter, hbetween⟩
    · exact .inl ⟨hin.1, lt_of_lt_of_le hin.2 hend⟩
    · refine .inr ⟨hnext, hafter, fun x hax hxk => ?_⟩
      have hlt := htiles.end_le hfinds.1
      obtain ⟨j, a, hj⟩ := (htiles.part.cover x).mp ⟨zero_le _, by simp only at hxk; omega⟩
      have hfree := hbetween j a hj.1 (lt_of_le_of_lt hax hj.2.2) (lt_of_le_of_lt hj.2.1 hxk)
      rw [dma, dbyte, htiles.part.byteAt_of_covers hj]
      simp [hfree]

theorem directMemoryQuery_iff_allocated : ∃ s,
    replay .sample [.allocate 0 0x100000000 0x4000 0 0] (.new .sample) = some s ∧
      ((∀ out_info info, s.directMemoryQuery 0 true out_info = .ok (.ok info) → s.Reported 0 true info) ↔
        ∀ k area, s.dmem_map.Finds 0 true k area → area.Extends) := by
  obtain ⟨s, hs, hr, -⟩ := exists_of_replay .sample [.allocate 0 0x100000000 0x4000 0 0]
    (fun _ => true) (by decide)
  exact ⟨s, hs, directMemoryQuery_iff hr 0 true⟩

/-- A query of an address in the pool succeeds and leaves the end that the caller wrote. -/
theorem pool_end_unset : ∃ s, replay .sample [.poolExpand 0 0x100000000 0x10000 0] (.new .sample) = some s ∧
      Reachable .sample s ∧ s.sceKernelDirectMemoryQuery 0x4000 0 ⟨0, 0, 0⟩ = .ok (.ok ⟨0, 0, 3⟩) ∧
      ¬ s.Reported 0x4000 false ⟨0, 0, 3⟩ := by
  obtain ⟨s, hs, hr, hq⟩ := exists_of_replay .sample [.poolExpand 0 0x100000000 0x10000 0]
    (fun s => s.sceKernelDirectMemoryQuery 0x4000 0 ⟨0, 0, 0⟩ = .ok (.ok ⟨0, 0, 3⟩))
    (by decide)
  exact ⟨s, hs, hr, of_decide_eq_true hq, fun hreported => absurd hreported.pos (by decide)⟩

end ShadPS4.Memory
