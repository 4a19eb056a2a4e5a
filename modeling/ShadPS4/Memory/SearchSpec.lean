import ShadPS4.Lib.Aligned
import ShadPS4.Memory.Coverage

/-!
# The search for a free virtual range

`SearchFree` looks at the start of the search in the area found for it, and at the first aligned address of each
later free area.
-/

namespace ShadPS4.Memory

open MemoryManager

section

variable {s : MemoryManager} {m : VMAMap} {k addr size alignment p r : ℕ} {vma : VirtualMemoryArea}
  {l : List (ℕ × VirtualMemoryArea)} {e : ℕ × VirtualMemoryArea}

theorem alignUp_eq_roundUp (ha : 0 < alignment) (ha' : alignment < 2^64) (h : addr < 2^63) :
    alignUp addr alignment = roundUp addr alignment := by
  unfold alignUp
  simp only
  split_ifs with hzero
  · exact (roundUp_of_dvd ha (Nat.dvd_of_mod_eq_zero hzero)).symm
  · rw [roundUp_of_mod_ne ha hzero]
    apply add64_of_lt
    rcases Nat.lt_or_ge addr alignment with hlt | hge
    · rw [Nat.mod_eq_of_lt hlt]
      omega
    · omega

theorem roundUp_lt_word (ha : 0 < alignment) (ha' : alignment < 2^63) (h : addr < 2^63) :
    roundUp addr alignment < 2^64 := by
  have := roundUp_lt (n := addr) ha
  omega

/-- The area is free and holds `[p, p + size)`. -/
def VirtualMemoryArea.FitsAt (vma : VirtualMemoryArea) (k p size : ℕ) : Prop :=
  vma.type = .free ∧ k ≤ p ∧ p + size ≤ k + vma.size

/-- One free area of the map holds `[p, p + size)`. -/
def VMAMap.Fits (m : VMAMap) (p size : ℕ) : Prop := ∃ k vma, (k, vma) ∈ m ∧ vma.FitsAt k p size

/-- The aligned ranges below `limit` that the areas of a list hold. -/
def fitsIn (l : List (ℕ × VirtualMemoryArea)) (size alignment limit : ℕ) : Set ℕ :=
  {p | alignment ∣ p ∧ p < limit ∧ ∃ e ∈ l, e.2.FitsAt e.1 p size}

theorem fitsIn_cons_of_not (h : ∀ p, alignment ∣ p → p < limit → ¬ e.2.FitsAt e.1 p size) :
    fitsIn (e :: l) size alignment limit = fitsIn l size alignment limit := by
  ext p
  simp only [fitsIn, List.mem_cons, exists_eq_or_imp, Set.mem_ofPred_eq]
  constructor
  · rintro ⟨hp, hlt, hfit | hrest⟩
    · exact absurd hfit (h p hp hlt)
    · exact ⟨hp, hlt, hrest⟩
  · rintro ⟨hp, hlt, hrest⟩
    exact ⟨hp, hlt, .inr hrest⟩

theorem roundUp_le_of_mem_fitsIn (h : AreaList (e :: l)) (ha : 0 < alignment)
    (hp : p ∈ fitsIn (e :: l) size alignment limit) : roundUp e.1 alignment ≤ p := by
  obtain ⟨hdvd, -, f, hf, -, hfp, -⟩ := hp
  apply roundUp_le ha hdvd
  rcases List.mem_cons.mp hf with rfl | hf
  · exact hfp
  · have := h.head_le hf
    omega

theorem searchFreeFrom_spec (size limit : ℕ) (h : AreaList l) (ha : 0 < alignment) (ha' : alignment < 2^63) :
    (∀ r, searchFreeFrom size alignment limit l = some r → IsLeast (fitsIn l size alignment limit) r) ∧
      (searchFreeFrom size alignment limit l = none → fitsIn l size alignment limit = ∅) := by
  induction l with
  | nil => simp [searchFreeFrom, fitsIn]
  | cons e rest ih =>
    obtain ⟨hpos, hbase, hlt⟩ := h.area e List.mem_cons_self
    have hstart := alignUp_eq_roundUp ha (by omega) (show e.1 < 2^63 by omega)
    have hle := le_roundUp (n := e.1) ha
    unfold searchFreeFrom
    simp only [hbase, hstart]
    split_ifs with hfree hfar hlimit hfits
    · rw [fitsIn_cons_of_not fun p _ _ hp => hfree hp.1]
      exact ih h.tail
    · rw [fitsIn_cons_of_not fun p hp _ hfit => ?_]
      · exact ih h.tail
      · have := roundUp_le ha hp hfit.2.1
        have := hfit.2.2
        omega
    · -- Every later range begins beyond the limit as well.
      refine ⟨by simp, fun _ => Set.eq_empty_iff_forall_notMem.mpr fun p hp => ?_⟩
      have := roundUp_le_of_mem_fitsIn h ha hp
      have := hp.2.1
      omega
    · refine ⟨fun r hr => ?_, by simp⟩
      rw [Option.some.injEq] at hr
      subst hr
      rw [ne_eq, not_not] at hfree
      exact ⟨⟨dvd_roundUp _ _, by omega, e, List.mem_cons_self, hfree, hle, by omega⟩,
        fun p hp => roundUp_le_of_mem_fitsIn h ha hp⟩
    · rw [fitsIn_cons_of_not fun p hp _ hfit => ?_]
      · exact ih h.tail
      · have := roundUp_le ha hp hfit.2.1
        have := hfit.2.2
        omega

/-! ## The search -/

section

variable (s : MemoryManager)

/-- Where `SearchFree` begins. -/
def MemoryManager.searchStart (virtual_addr : ℕ) : ℕ :=
  max virtual_addr s.impl.system_managed_base

/-- `max_search_address`. -/
def MemoryManager.searchLimit : ℕ := s.impl.user_base + s.impl.user_size

/-- The address is neither before the first area nor at or after the end of the last one. -/
def VMAMap.InBounds (m : VMAMap) (addr : ℕ) : Prop :=
  (∃ e ∈ m, e.1 ≤ addr) ∧ ∃ e ∈ m, addr < e.1 + e.2.size

/-- The places where a search from `start` can put a range: aligned, in one free area, and below the limit
unless they are the very first one. -/
def MemoryManager.places (start size alignment : ℕ) : Set ℕ :=
  {p | alignment ∣ p ∧ start ≤ p ∧ s.vma_map.Fits p size ∧
    (p < s.searchLimit ∨ p = roundUp start alignment)}

/-- The area found at `q` is free, and `q + size` lies in it after it wraps. -/
def MemoryManager.WrapsAt (q size : ℕ) : Prop :=
  ∃ k vma, s.vma_map.floor? q = some (k, vma) ∧ vma.type = .free ∧ 2^64 ≤ q + size ∧
    q + size ≤ 2^64 + (k + vma.size)

end

theorem mem_places_iff (h : s.vma_map.UserAreas) (ha : 0 < alignment) (hsize : 0 < size)
    (hf : s.vma_map.floor? (roundUp start alignment) = some (k, vma)) : p ∈ s.places start size alignment ↔
      p = roundUp start alignment ∧ vma.FitsAt k p size ∨
        (alignment ∣ p ∧ p < s.searchLimit ∧ roundUp start alignment < p ∧ vma.FitsAt k p size) ∨
        p ∈ fitsIn (s.vma_map.tailFrom (k + 1)) size alignment s.searchLimit := by
  obtain ⟨hk, hle, hmax⟩ := OrdMap.floor?_eq_some_iff.mp hf
  have hstart := le_roundUp (n := start) ha
  constructor
  · rintro ⟨hdvd, hsp, ⟨l, next, hl, hfit⟩, hlim⟩
    have hq := roundUp_le ha hdvd hsp
    rcases Nat.lt_or_ge k l with hkl | hlk
    · -- In a later area, and so after the start.
      have hql : roundUp start alignment < l := by
        by_contra hlq
        have : l ≤ k := hmax _ hl (by omega)
        omega
      refine .inr (.inr ⟨hdvd, hlim.resolve_right ?_, (l, next), OrdMap.mem_tailFrom.mpr ⟨hl, hkl⟩, hfit⟩)
      have := hfit.2.1
      omega
    · have hkey : l = k := by
        by_contra hne
        have := h.disjoint l next k vma hl hk (by omega)
        have := hfit.2.2
        omega
      subst hkey
      obtain rfl := OrdMap.mem_unique hk hl
      rcases Nat.eq_or_lt_of_le hq with heq | hlt
      · exact .inl ⟨heq.symm, hfit⟩
      · exact .inr (.inl ⟨hdvd, hlim.resolve_right hlt.ne', hlt, hfit⟩)
  · rintro (⟨rfl, hfit⟩ | ⟨hdvd, hlt, hqp, hfit⟩ | ⟨hdvd, hlt, f, hmem, hfit⟩)
    · exact ⟨dvd_roundUp _ _, hstart, ⟨k, vma, hk, hfit⟩, .inr rfl⟩
    · exact ⟨hdvd, by omega, ⟨k, vma, hk, hfit⟩, .inl hlt⟩
    · obtain ⟨hfm, hkf⟩ := OrdMap.mem_tailFrom.mp hmem
      have hqf : roundUp start alignment < f.1 := by
        by_contra hfq
        have := hmax f hfm (by omega)
        omega
      have := hfit.2.1
      exact ⟨hdvd, by omega, ⟨f.1, f.2, hfm, hfit⟩, .inl hlt⟩

theorem searchFree_eq (size : ℕ) (h : s.vma_map.UserAreas) (hb : s.vma_map.InBounds (s.searchStart addr))
    (ha : alignment % 2^32 ≠ 0) (hq : q = roundUp (s.searchStart addr) (alignment % 2^32)) :
    ∃ k vma, s.vma_map.floor? q = some (k, vma) ∧ q < 2^64 ∧ s.searchFree addr size alignment =
        .ok (if vma.type = .free ∧ vma.Contains q size then some q
          else searchFreeFrom size (alignment % 2^32) s.searchLimit (s.vma_map.tailFrom (k + 1))) := by
  obtain ⟨⟨first, hfirst, hle⟩, ⟨l, next⟩, hl, hlt⟩ := hb
  have hpos : 0 < alignment % 2^32 := Nat.pos_of_ne_zero ha
  have hend := h.end_lt l next hl
  have hlow : s.searchStart addr < 2^63 := Nat.lt_trans hlt hend
  have halign := alignUp_eq_roundUp hpos (by omega) hlow
  have hstart := le_roundUp (n := s.searchStart addr) hpos
  have hqlt := roundUp_lt_word hpos (by omega) hlow
  obtain ⟨⟨k0, vma0⟩, hf0⟩ : ∃ e, s.vma_map.floor? (s.searchStart addr) = some e := by
    rw [← Option.ne_none_iff_exists']
    intro hnone
    have := OrdMap.floor?_eq_none_iff.mp hnone first hfirst
    omega
  obtain ⟨⟨k, vma⟩, hf⟩ : ∃ e, s.vma_map.floor? q = some e := by
    rw [← Option.ne_none_iff_exists']
    intro hnone
    have := OrdMap.floor?_eq_none_iff.mp hnone first hfirst
    omega
  refine ⟨k, vma, hf, by omega, ?_⟩
  unfold searchFree
  simp only
  rw [show max addr s.impl.system_managed_base = s.searchStart addr from rfl,
    h.isValidMapping_eq hf0 hl hlt, halign, ← hq, findVMA, hf]
  simp only [bind, Except.bind, if_true, if_neg ha, deref, pure, Except.pure]
  split_ifs <;> rfl

theorem searchFree_spec (h : s.vma_map.UserAreas) (hb : s.vma_map.InBounds (s.searchStart addr))
    (ha : alignment % 2^32 ≠ 0) (hsize : 0 < size) (hsize' : size < 2^64)
    (hq : q = roundUp (s.searchStart addr) (alignment % 2^32)) :
    (s.WrapsAt q size → s.searchFree addr size alignment = .ok (some q)) ∧
      (¬ s.WrapsAt q size → ∃ r, s.searchFree addr size alignment = .ok r ∧
        (∀ p, r = some p → IsLeast (s.places (s.searchStart addr) size (alignment % 2^32)) p) ∧
          (r = none → s.places (s.searchStart addr) size (alignment % 2^32) = ∅)) := by
  have hpos : 0 < alignment % 2^32 := Nat.pos_of_ne_zero ha
  obtain ⟨k, vma, hf, hqlt, heq⟩ := searchFree_eq size h hb ha hq
  have hf' := hf
  rw [hq] at hf'
  obtain ⟨hk, hle, -⟩ := OrdMap.floor?_eq_some_iff.mp hf
  have hcontains : vma.Contains q size ↔ q + size ≤ k + vma.size ∨
      2^64 ≤ q + size ∧ q + size ≤ 2^64 + (k + vma.size) := by
    unfold VirtualMemoryArea.Contains add64
    rw [h.keyed k vma hk]
    omega
  rw [heq]
  constructor
  · rintro ⟨k', vma', hw, hfree, hlo, hhi⟩
    rw [hf] at hw
    obtain ⟨rfl, rfl⟩ := Prod.mk.inj (Option.some.inj hw)
    rw [if_pos ⟨hfree, hcontains.mpr (.inr ⟨hlo, hhi⟩)⟩]
  · intro hno
    have hlist := searchFreeFrom_spec size s.searchLimit (h.areaList (k + 1)) hpos (by omega)
    refine ⟨_, rfl, ?_⟩
    split_ifs with hc
    · have hfit : vma.FitsAt k q size := by
        refine ⟨hc.1, hle, (hcontains.mp hc.2).resolve_right fun hw => ?_⟩
        exact hno ⟨k, vma, hf, hc.1, hw⟩
      refine ⟨fun p hp => ?_, nofun⟩
      obtain rfl := Option.some.inj hp
      refine ⟨(mem_places_iff h hpos hsize hf').mpr (.inl ⟨hq, hfit⟩), fun p hp => ?_⟩
      rw [hq]
      exact roundUp_le hpos hp.1 hp.2.1
    · -- Nothing fits in the first area, so the places are those that the loop looks at.
      have hnot : ∀ p, q ≤ p → ¬ vma.FitsAt k p size := fun p hqp hfit => hc
        ⟨hfit.1, hcontains.mpr (.inl (by have := hfit.2.2; omega))⟩
      have hplaces : s.places (s.searchStart addr) size (alignment % 2^32) =
          fitsIn (s.vma_map.tailFrom (k + 1)) size (alignment % 2^32) s.searchLimit := by
        ext p
        rw [mem_places_iff h hpos hsize hf', ← hq]
        constructor
        · rintro (⟨rfl, hfit⟩ | ⟨-, -, hqp, hfit⟩ | hp)
          · exact absurd hfit (hnot p le_rfl)
          · exact absurd hfit (hnot p hqp.le)
          · exact hp
        · exact fun hp => .inr (.inr hp)
      rw [hplaces]
      exact hlist

theorem searchFree_of_not_inBounds (h : s.vma_map.UserAreas) (hb : ¬ s.vma_map.InBounds (s.searchStart addr)) :
    s.searchFree addr size alignment = .ok none := by
  have hout : (∀ e ∈ s.vma_map, s.searchStart addr < e.1) ∨ ∀ e ∈ s.vma_map, e.1 + e.2.size ≤ s.searchStart addr := by
    by_contra hno
    simp only [not_or, not_forall, not_lt, not_le] at hno
    obtain ⟨⟨e, he, hle⟩, f, hf, hlt⟩ := hno
    exact hb ⟨⟨e, he, hle⟩, f, hf, hlt⟩
  unfold searchFree
  simp only
  rw [show max addr s.impl.system_managed_base = s.searchStart addr from rfl, h.isValidMapping_eq_false hout]
  rfl

/-! ## When the search is right -/

/-- No aligned range fits at or above the aligned start and below the limit. -/
def MemoryManager.NoPlace (s : MemoryManager) (virtual_addr size alignment : ℕ) : Prop :=
  ∀ p, alignment ∣ p → roundUp (s.searchStart virtual_addr) alignment ≤ p → p < s.searchLimit →
    ¬ s.vma_map.Fits p size

/-- What `SearchFree` is for: it returns an aligned address at which one free area holds the range, or nothing
when there is none. -/
def MemoryManager.SearchCorrect (s : MemoryManager) (virtual_addr size alignment : ℕ) : Prop :=
  ∃ r, s.searchFree virtual_addr size alignment = .ok r ∧
    (∀ p, r = some p → alignment ∣ p ∧ s.vma_map.Fits p size) ∧
    (r = none → s.NoPlace virtual_addr size alignment)

/-- The arguments that `SearchFree` gets right. -/
structure MemoryManager.SearchAccepts (s : MemoryManager) (virtual_addr size alignment : ℕ) :
    Prop where
  outside : ¬ s.vma_map.InBounds (s.searchStart virtual_addr) →
    s.NoPlace virtual_addr size alignment
  nonzero : s.vma_map.InBounds (s.searchStart virtual_addr) → alignment % 2^32 ≠ 0
  no_wrap : s.vma_map.InBounds (s.searchStart virtual_addr) →
    ¬ s.WrapsAt (roundUp (s.searchStart virtual_addr) (alignment % 2^32)) size
  aligned : s.vma_map.InBounds (s.searchStart virtual_addr) →
    ∀ p, IsLeast (s.places (s.searchStart virtual_addr) size (alignment % 2^32)) p → alignment ∣ p
  complete : s.vma_map.InBounds (s.searchStart virtual_addr) →
    s.places (s.searchStart virtual_addr) size (alignment % 2^32) = ∅ →
      s.NoPlace virtual_addr size alignment

theorem searchFree_undefined (h : s.vma_map.UserAreas)
    (hb : s.vma_map.InBounds (s.searchStart addr)) (ha : alignment % 2^32 = 0) :
    s.searchFree addr size alignment = .error .undefined := by
  obtain ⟨⟨first, hfirst, hle⟩, ⟨l, next⟩, hl, hlt⟩ := hb
  obtain ⟨⟨k, vma⟩, hf⟩ : ∃ e, s.vma_map.floor? (s.searchStart addr) = some e := by
    rw [← Option.ne_none_iff_exists']
    intro hnone
    have := OrdMap.floor?_eq_none_iff.mp hnone first hfirst
    omega
  unfold searchFree
  simp only
  rw [show max addr s.impl.system_managed_base = s.searchStart addr from rfl, h.isValidMapping_eq hf hl hlt]
  simp only [bind, Except.bind, if_true, if_pos ha]

/-- `SearchFree` gets exactly the arguments right that `SearchAccepts` describes. -/
theorem searchFree_iff (h : s.vma_map.UserAreas) (virtual_addr size alignment : UInt64) (hsize : 0 < size.toNat) :
    s.SearchCorrect virtual_addr.toNat size.toNat alignment.toNat ↔
      s.SearchAccepts virtual_addr.toNat size.toNat alignment.toNat := by
  have hsize' := size.toNat_lt
  generalize virtual_addr.toNat = addr
  generalize alignment.toNat = alignment
  generalize size.toNat = size at *
  by_cases hb : s.vma_map.InBounds (s.searchStart addr)
  · by_cases ha : alignment % 2^32 = 0
    · refine iff_of_false ?_ fun hacc => hacc.nonzero hb ha
      rintro ⟨r, hr, -⟩
      rw [searchFree_undefined h hb ha] at hr
      cases hr
    · obtain ⟨hwrap, hplace⟩ := searchFree_spec h hb ha hsize hsize' rfl
      by_cases hw : s.WrapsAt (roundUp (s.searchStart addr) (alignment % 2^32)) size
      · -- The range found goes past the end of the area.
        refine iff_of_false ?_ fun hacc => hacc.no_wrap hb hw
        rintro ⟨r, hr, hsome, -⟩
        rw [hwrap hw, Except.ok.injEq] at hr
        obtain ⟨-, k, vma, hk, -, -, hend⟩ := hsome _ hr.symm
        obtain ⟨-, -, -, -, hlo, -⟩ := hw
        have := h.end_lt k vma hk
        omega
      · obtain ⟨r, hr, hsome, hnone⟩ := hplace hw
        constructor
        · rintro ⟨r', hr', hsome', hnone'⟩
          rw [hr, Except.ok.injEq] at hr'
          subst hr'
          refine ⟨fun hn => absurd hb hn, fun _ => ha, fun _ => hw, fun _ p hp => ?_, fun _ hp => ?_⟩
          · cases r with
            | none =>
              have := hnone rfl ▸ hp.1
              exact absurd this (Set.notMem_empty p)
            | some q =>
              rw [(hp.unique (hsome q rfl))]
              exact (hsome' q rfl).1
          · cases r with
            | none => exact hnone' rfl
            | some q =>
              have := hp ▸ (hsome q rfl).1
              exact absurd this (Set.notMem_empty q)
        · intro hacc
          exact ⟨r, hr, fun p hp => ⟨hacc.aligned hb p (hsome p hp), (hsome p hp).1.2.2.1⟩,
            fun hn => hacc.complete hb (hnone hn)⟩
  · constructor
    · rintro ⟨r, hr, -, hnone⟩
      rw [searchFree_of_not_inBounds h hb, Except.ok.injEq] at hr
      exact ⟨fun _ => hnone hr.symm, fun hin => absurd hin hb, fun hin => absurd hin hb,
        fun hin => absurd hin hb, fun hin => absurd hin hb⟩
    · intro hacc
      exact ⟨none, searchFree_of_not_inBounds h hb, nofun, fun _ => hacc.outside hb⟩

end

theorem searchFree_iff_sample : (MemoryManager.new .sample).SearchCorrect 0x100000000 0x4000 0x4000 ↔
      (MemoryManager.new .sample).SearchAccepts 0x100000000 0x4000 0x4000 :=
  searchFree_iff ((wf_new .sample).userAreas (by decide)) 0x100000000 0x4000 0x4000 (by decide)

/-- An alignment of `2^32` is divided by as zero, and one of `2^32 + 0x4000` is taken for `0x4000`. -/
theorem searchFree_cuts_alignment : ¬ (MemoryManager.new .sample).SearchCorrect 0x100000000 0x4000 0x100000000 ∧
      ¬ (MemoryManager.new .sample).SearchCorrect 0x100000000 0x4000 0x100004000 := by
  constructor
  · rintro ⟨r, hr, -⟩
    cases hr
  · rintro ⟨r, hr, hsome, -⟩
    have hfound : (MemoryManager.new .sample).searchFree 0x100000000 0x4000 0x100004000 =
        .ok (some 0x100000000) := by decide
    rw [hfound, Except.ok.injEq] at hr
    have := (hsome _ hr.symm).1
    omega

end ShadPS4.Memory
