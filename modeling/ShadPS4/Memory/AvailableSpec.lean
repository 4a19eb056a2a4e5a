import ShadPS4.Memory.SearchSpec

/-!
# The largest available range of direct memory

`DirectQueryAvailable` trims every free area to what lies in the search range and keeps the first of the largest.
-/

namespace ShadPS4.Memory

open MemoryManager

variable {total : ℕ}
variable {s : MemoryManager} {m : PhysMap} {k n p search_start search_end alignment : ℕ}
  {area : PhysicalMemoryArea}

/-- The alignment that a query asks for: one, if it asks for none. -/
def grain (alignment : ℕ) : ℕ := if 0 < alignment then alignment else 1

theorem grain_pos (alignment : ℕ) : 0 < grain alignment := by
  unfold grain
  split_ifs with h
  · exact h
  · exact Nat.one_pos

theorem align_eq_roundUp (ha : alignment < 2^64) (h : n < 2^63) :
    (if 0 < alignment then alignUp n alignment else n) = roundUp n (grain alignment) := by
  unfold grain
  split_ifs with hpos
  · exact alignUp_eq_roundUp hpos ha h
  · exact (roundUp_of_dvd Nat.one_pos (Nat.one_dvd n)).symm

/-- `[p, p + n)` is aligned and lies in the search range and in one free area. -/
def PhysMap.Available (m : PhysMap) (search_start search_end alignment p n : ℕ) : Prop :=
  grain alignment ∣ p ∧ search_start ≤ p ∧ p + n ≤ search_end ∧
    ∃ k area, (k, area) ∈ m ∧ area.dma_type = .free ∧ k ≤ p ∧ p + n ≤ k + area.size

/-- What a query is to report: nothing, where no range is available, or one of the longest. -/
def PhysMap.Longest (m : PhysMap) (search_start search_end alignment p n : ℕ) : Prop :=
  n = 0 ∧ (∀ p' n', 0 < n' → ¬ m.Available search_start search_end alignment p' n') ∨
    0 < n ∧ m.Available search_start search_end alignment p n ∧
      ∀ p' n', m.Available search_start search_end alignment p' n' → n' ≤ n

/-- The part of an area in the search range from its first aligned address on. -/
def availableSize (search_start search_end alignment k : ℕ) (area : PhysicalMemoryArea) : ℕ :=
  min (k + area.size) search_end - roundUp (max search_start k) (grain alignment)

/-- What `DirectQueryAvailable` leaves of an area. -/
def trimmedSize (search_start search_end alignment k : ℕ) (area : PhysicalMemoryArea) : ℕ :=
  if k < search_start then
    min (k + area.size) search_end - search_start - (roundUp k (grain alignment) - k)
  else min (k + area.size) search_end - roundUp k (grain alignment)

theorem trimmedSize_of_le (h : search_start ≤ k) : trimmedSize search_start search_end alignment k area =
      availableSize search_start search_end alignment k area := by
  unfold trimmedSize availableSize
  rw [if_neg (by omega), Nat.max_eq_right h]

theorem queryArea_eq (hbase : area.base = k) (hend : k + area.size < 2^63) (ha : alignment < 2^64) :
    queryArea search_start search_end alignment best area =
      if area.dma_type = .free ∧ best.2 < trimmedSize search_start search_end alignment k area then
        (roundUp (max search_start k) (grain alignment), trimmedSize search_start search_end alignment k area)
      else best := by
  have hround := le_roundUp (n := k) (grain_pos alignment)
  have halign := align_eq_roundUp (n := k) ha (by omega)
  have hlt : roundUp k (grain alignment) < 2^64 := by
    rw [← halign]
    split_ifs
    · exact alignUp_lt (by omega)
    · omega
  unfold queryArea PhysicalMemoryArea.getEnd trimmedSize
  by_cases hfree : area.dma_type = .free
  · simp only [hfree, ne_eq, not_true_eq_false, if_false, true_and, hbase, halign, sub64_of_le hround hlt]
    by_cases hbefore : k < search_start
    · simp only [hbefore, if_true, Nat.max_eq_left hbefore.le]
      generalize hsize : (if search_end < k + area.size then _ else _ : ℕ) = left
      have hleft : left = min (k + area.size) search_end - search_start - (roundUp k (grain alignment) - k) := by
        rw [← hsize]
        split_ifs <;> omega
      rw [hleft]
      -- Something is left only if the search range begins in the area.
      by_cases hmore : best.2 < min (k + area.size) search_end - search_start - (roundUp k (grain alignment) - k)
      · rw [if_pos hmore, if_pos hmore, align_eq_roundUp ha (by omega)]
      · rw [if_neg hmore, if_neg hmore]
    · simp only [hbefore, if_false, Nat.max_eq_right (Nat.not_lt.mp hbefore)]
      generalize hsize : (if search_end < k + area.size then _ else _ : ℕ) = left
      have hleft : left = min (k + area.size) search_end - roundUp k (grain alignment) := by
        rw [← hsize]
        split_ifs <;> omega
      rw [hleft]
  · simp [hfree]

theorem foldl_larger {α : Type} {P : α → Prop} [DecidablePred P] {place size : α → ℕ} {l : List α} {b x : ℕ × ℕ}
    (hx : l.foldl (fun best e => if P e ∧ best.2 < size e then (place e, size e) else best) b = x) :
    (x = b ∧ ∀ e ∈ l, P e → size e ≤ b.2) ∨
      ∃ e ∈ l, P e ∧ x = (place e, size e) ∧ b.2 < size e ∧ ∀ f ∈ l, P f → size f ≤ size e := by
  induction l generalizing b with
  | nil => exact .inl ⟨hx.symm, by simp⟩
  | cons e rest ih =>
    rw [List.foldl_cons] at hx
    split_ifs at hx with hlarger
    · obtain ⟨he, hlt⟩ := hlarger
      refine .inr ?_
      rcases ih hx with ⟨rfl, hall⟩ | ⟨f, hf, hpf, rfl, hltf, hall⟩
      · refine ⟨e, List.mem_cons_self, he, rfl, hlt, fun f hf hpf => ?_⟩
        rcases List.mem_cons.mp hf with rfl | hf
        · exact le_rfl
        · exact hall f hf hpf
      · refine ⟨f, List.mem_cons_of_mem e hf, hpf, rfl, hlt.trans hltf, fun g hg hpg => ?_⟩
        rcases List.mem_cons.mp hg with rfl | hg
        · exact hltf.le
        · exact hall g hg hpg
    · have hhead : P e → size e ≤ b.2 := fun he => Nat.not_lt.mp fun hlt => hlarger ⟨he, hlt⟩
      rcases ih hx with ⟨rfl, hall⟩ | ⟨f, hf, hpf, rfl, hltf, hall⟩
      · exact .inl ⟨rfl, fun f hf hpf => (List.mem_cons.mp hf).elim
          (fun heq => heq ▸ hhead (heq ▸ hpf)) fun hf => hall f hf hpf⟩
      · refine .inr ⟨f, List.mem_cons_of_mem e hf, hpf, rfl, hltf, fun g hg hpg => ?_⟩
        rcases List.mem_cons.mp hg with rfl | hg
        · exact (hhead hpg).trans hltf.le
        · exact hall g hg hpg

/-! ## When the result is the longest range -/

/-- The area found for the start of the search, if it is free, is trimmed to what is available of it, or a
later free area makes up for it: it has more available than is left, or as much at the same address, and no
less than is available of the first. -/
def PhysMap.TrimmedRight (m : PhysMap) (search_start search_end alignment : ℕ) : Prop :=
  ∀ k area, m.floor? search_start = some (k, area) → area.dma_type = .free →
    let room := min (k + area.size) search_end - search_start
    let lost := roundUp k (grain alignment) - k
    let needed := roundUp search_start (grain alignment) - search_start
    room - lost = room - needed ∨
      ∃ l next, (l, next) ∈ m ∧ k < l ∧ next.dma_type = .free ∧
        (room - lost < availableSize search_start search_end alignment l next ∨
          room - lost = availableSize search_start search_end alignment l next ∧
            roundUp l (grain alignment) = roundUp search_start (grain alignment)) ∧
        room - needed ≤ availableSize search_start search_end alignment l next

theorem available_of_le (hk : (k, area) ∈ m) (hfree : area.dma_type = .free) (hn : 0 < n)
    (hle : n ≤ availableSize search_start search_end alignment k area) :
    m.Available search_start search_end alignment (roundUp (max search_start k) (grain alignment)) n := by
  have hround := le_roundUp (n := max search_start k) (grain_pos alignment)
  unfold availableSize at hle
  exact ⟨dvd_roundUp _ _, by omega, by omega, k, area, hk, hfree, by omega, by omega⟩

theorem le_of_available (h : Tiles m 0 total) (hf : m.floor? search_start = some (k, area)) (hn : 0 < n)
    (ha : m.Available search_start search_end alignment p n) :
    ∃ l next, (l, next) ∈ m ∧ (l = k ∨ k < l) ∧ next.dma_type = .free ∧
      n ≤ availableSize search_start search_end alignment l next := by
  obtain ⟨hdvd, hsp, hpe, l, next, hl, hfree, hlp, hend⟩ := ha
  obtain ⟨hk, hle, hmax⟩ := OrdMap.floor?_eq_some_iff.mp hf
  have hround := roundUp_le (n := max search_start l) (grain_pos _) hdvd (by omega)
  refine ⟨l, next, hl, ?_, hfree, by unfold availableSize; omega⟩
  by_contra hno
  have := h.part.disjoint l next k area hl hk (by omega)
  simp only [physExtent_size] at this
  omega

theorem directQueryAvailable_eq (h : Tiles s.dmem_map 0 total) (hlt : total < 2^63)
    (ha : alignment < 2^64) (hf : s.dmem_map.floor? search_start = some (k, area)) :
    s.directQueryAvailable search_start search_end alignment = .ok ((s.dmem_map.tailFrom k).foldl (fun best e =>
        if e.2.dma_type = .free ∧ best.2 < trimmedSize search_start search_end alignment e.1 e.2 then
          (roundUp (max search_start e.1) (grain alignment), trimmedSize search_start search_end alignment e.1 e.2)
        else best) (0, 0)) := by
  unfold directQueryAvailable findDmemArea
  rw [hf]
  simp only [deref, bind, Except.bind, pure, Except.pure, Except.ok.injEq]
  refine List.foldl_ext _ _ _ fun best e he => ?_
  have hmem := (OrdMap.mem_tailFrom.mp he).1
  have hend := h.end_le (k := e.1) (a := e.2) hmem
  exact queryArea_eq (h.keyed e.1 e.2 hmem) (by omega) ha

theorem trimmedSize_of_floor (search_end alignment : ℕ) (area : PhysicalMemoryArea) (hk : k ≤ search_start) :
    trimmedSize search_start search_end alignment k area =
        min (k + area.size) search_end - search_start - (roundUp k (grain alignment) - k) ∧
      availableSize search_start search_end alignment k area = min (k + area.size) search_end - search_start -
          (roundUp search_start (grain alignment) - search_start) := by
  have hround := le_roundUp (n := search_start) (grain_pos alignment)
  unfold trimmedSize availableSize
  rw [Nat.max_eq_left hk]
  refine ⟨?_, by omega⟩
  split_ifs with hlt
  · rfl
  · obtain rfl : k = search_start := by omega
    omega

theorem available_at_iff (h : Tiles m 0 total)
    (hf : m.floor? search_start = some (k, area)) (hfree : area.dma_type = .free) (hr : 0 < r)
    (hmax : ∀ l next, (l, next) ∈ m → k < l → next.dma_type = .free →
      availableSize search_start search_end alignment l next ≤ r) :
    m.Available search_start search_end alignment (roundUp search_start (grain alignment)) r ↔
      r ≤ availableSize search_start search_end alignment k area ∨
        ∃ l next, (l, next) ∈ m ∧ k < l ∧ next.dma_type = .free ∧
          r = availableSize search_start search_end alignment l next ∧
            roundUp l (grain alignment) = roundUp search_start (grain alignment) := by
  obtain ⟨hk, hle, hfloor⟩ := OrdMap.floor?_eq_some_iff.mp hf
  have hlater : ∀ l next, (l, next) ∈ m → k < l → search_start < l := fun l next hl hkl => by
    by_contra hno
    have : l ≤ k := hfloor _ hl (by simp only; omega)
    omega
  constructor
  · rintro ⟨hdvd, hsp, hpe, l, next, hl, hnext, hlp, hend⟩
    rcases Nat.lt_trichotomy l k with hlk | rfl | hkl
    · have := h.part.disjoint l next k area hl hk hlk
      simp only [physExtent_size] at this
      omega
    · obtain rfl := OrdMap.mem_unique hl hk
      unfold availableSize
      rw [Nat.max_eq_left hle]
      exact .inl (by omega)
    · have hsl := hlater l next hl hkl
      have hround := roundUp_le (grain_pos _) hdvd hlp
      have hmono := roundUp_mono (grain_pos alignment) hsl.le
      have hsize := hmax l next hl hkl hnext
      refine .inr ⟨l, next, hl, hkl, hnext, ?_, by omega⟩
      unfold availableSize at hsize ⊢
      rw [Nat.max_eq_right hsl.le] at hsize ⊢
      omega
  · rintro (hle' | ⟨l, next, hl, hkl, hnext, hsize, heq⟩)
    · have := available_of_le hk hfree hr hle'
      rwa [Nat.max_eq_left hle] at this
    · have := available_of_le hl hnext hr hsize.le
      rwa [Nat.max_eq_right (hlater l next hl hkl).le, heq] at this

theorem longest_iff (h : Tiles m 0 total) (hf : m.floor? search_start = some (k, area)) :
    m.Longest search_start search_end alignment p n ↔ (0 < n → m.Available search_start search_end alignment p n) ∧
        (area.dma_type = .free → availableSize search_start search_end alignment k area ≤ n) ∧
        ∀ l next, (l, next) ∈ m → k < l → next.dma_type = .free →
          availableSize search_start search_end alignment l next ≤ n := by
  have hk := (OrdMap.floor?_eq_some_iff.mp hf).1
  -- What is available of an area bounds the length.
  have hbound : m.Longest search_start search_end alignment p n → ∀ l next, (l, next) ∈ m →
      next.dma_type = .free → availableSize search_start search_end alignment l next ≤ n := by
    intro hlong l next hl hnext
    rcases Nat.eq_zero_or_pos (availableSize search_start search_end alignment l next) with hz | hp
    · omega
    · have havail := available_of_le hl hnext hp le_rfl
      rcases hlong with ⟨-, hnone⟩ | ⟨-, -, hmax⟩
      · exact absurd havail (hnone _ _ hp)
      · exact hmax _ _ havail
  constructor
  · intro hlong
    refine ⟨fun hn => ?_, hbound hlong k area hk, fun l next hl _ hnext => hbound hlong l next hl hnext⟩
    rcases hlong with ⟨hzero, -⟩ | ⟨-, havail, -⟩
    · omega
    · exact havail
  · rintro ⟨havail, hfirst, hlater⟩
    have hmax : ∀ p' n', m.Available search_start search_end alignment p' n' → n' ≤ n := by
      intro p' n' ha
      rcases Nat.eq_zero_or_pos n' with hz | hp
      · omega
      · obtain ⟨l, next, hl, hor, hnext, hle⟩ := le_of_available h hf hp ha
        rcases hor with rfl | hkl
        · obtain rfl := OrdMap.mem_unique hl hk
          exact hle.trans (hfirst hnext)
        · exact hle.trans (hlater l next hl hkl hnext)
    rcases Nat.eq_zero_or_pos n with hz | hp
    · exact .inl ⟨hz, fun p' n' hp' ha => by have := hmax p' n' ha; omega⟩
    · exact .inr ⟨hp, havail hp, hmax⟩

/-- `DirectQueryAvailable` reports a longest available range exactly when it trims the area found for the start
of the search right, or a later area makes up for it. -/
theorem directQueryAvailable_iff (h : Tiles s.dmem_map 0 s.total_direct_size)
    (hpos : 0 < s.total_direct_size) (hlt : s.total_direct_size < 2^63) (search_start search_end alignment : UInt64) :
    (∃ p n, s.directQueryAvailable search_start.toNat search_end.toNat alignment.toNat = .ok (p, n) ∧
        s.dmem_map.Longest search_start.toNat search_end.toNat alignment.toNat p n) ↔
      s.dmem_map.TrimmedRight search_start.toNat search_end.toNat alignment.toNat := by
  have ha := alignment.toNat_lt
  generalize search_start.toNat = start
  generalize search_end.toNat = last
  generalize alignment.toNat = alignment at *
  -- The area found for the start of the search.
  obtain ⟨⟨k, area⟩, hf⟩ : ∃ e, s.dmem_map.floor? start = some e := by
    obtain ⟨l, next, hl, hzero, -⟩ := (h.part.cover 0).mp ⟨le_rfl, hpos⟩
    rw [← Option.ne_none_iff_exists']
    intro hnone
    have : start < l := OrdMap.floor?_eq_none_iff.mp hnone _ hl
    omega
  obtain ⟨hk, hle, hfloor⟩ := OrdMap.floor?_eq_some_iff.mp hf
  obtain ⟨hleft, havail⟩ := trimmedSize_of_floor last alignment area hle
  set r := trimmedSize start last alignment k area with hr
  set t := availableSize start last alignment k area with ht
  have hright : s.dmem_map.TrimmedRight start last alignment ↔ (area.dma_type = .free → r = t ∨
      ∃ l next, (l, next) ∈ s.dmem_map ∧ k < l ∧ next.dma_type = .free ∧
        (r < availableSize start last alignment l next ∨
          r = availableSize start last alignment l next ∧
            roundUp l (grain alignment) = roundUp start (grain alignment)) ∧
        t ≤ availableSize start last alignment l next) := by
    rw [hleft, havail]
    constructor
    · exact fun hright hfree => hright k area hf hfree
    · intro hright k' area' hf' hfree
      rw [hf] at hf'
      obtain ⟨rfl, rfl⟩ := Prod.mk.inj (Option.some.inj hf')
      exact hright hfree
  have htrim : ∀ e ∈ s.dmem_map.tailFrom (k + 1), trimmedSize start last alignment e.1 e.2 =
      availableSize start last alignment e.1 e.2 := by
    intro e he
    obtain ⟨hem, hke⟩ := OrdMap.mem_tailFrom.mp he
    apply trimmedSize_of_le
    by_contra hlt
    have : e.1 ≤ k := hfloor e hem (by omega)
    omega
  have hafter : ∀ l next, (l, next) ∈ s.dmem_map → k < l → (l, next) ∈ s.dmem_map.tailFrom (k + 1) :=
    fun l next hl hkl => OrdMap.mem_tailFrom.mpr ⟨hl, hkl⟩
  rw [directQueryAvailable_eq h hlt ha hf, OrdMap.tailFrom_eq_cons hk, List.foldl_cons,
    ← hr, Nat.max_eq_left hle, hright]
  generalize hx : List.foldl _ _ _ = x
  have hresult : (∃ p n, (Except.ok x : Except Fault (ℕ × ℕ)) = .ok (p, n) ∧
      s.dmem_map.Longest start last alignment p n) ↔
      s.dmem_map.Longest start last alignment x.1 x.2 := by
    obtain ⟨p, n⟩ := x
    simp only [Except.ok.injEq, Prod.mk.injEq]
    exact ⟨fun ⟨_, _, ⟨hp, hn⟩, hlong⟩ => hp ▸ hn ▸ hlong, fun hlong => ⟨p, n, ⟨rfl, rfl⟩, hlong⟩⟩
  rw [hresult, longest_iff h hf]
  rcases foldl_larger hx with ⟨rfl, hall⟩ | ⟨e, he, hfree, rfl, hlt, hall⟩
  · -- No later area is larger than what is left of the first.
    have hlater : ∀ l next, (l, next) ∈ s.dmem_map → k < l → next.dma_type = .free →
        availableSize start last alignment l next ≤ (if area.dma_type = .free ∧ 0 < r then
          (roundUp start (grain alignment), r) else (0, 0)).2 := fun l next hl hkl hnext => by
      have := hall _ (hafter l next hl hkl) hnext
      rwa [htrim _ (hafter l next hl hkl)] at this
    by_cases hfree : area.dma_type = .free
    · rcases Nat.eq_zero_or_pos r with hzero | hpos
      · rw [if_neg (by omega)] at hlater ⊢
        simp only [Nat.lt_irrefl, false_imp_iff, true_and, hfree, true_imp_iff]
        constructor
        · exact fun hcase => .inl (by omega)
        · rintro (heq | ⟨l, next, hl, hkl, hnext, -, hsize⟩)
          · exact ⟨by omega, hlater⟩
          · exact ⟨hsize.trans (hlater l next hl hkl hnext), hlater⟩
      · rw [if_pos ⟨hfree, hpos⟩] at hlater ⊢
        simp only [hpos, true_imp_iff, hfree]
        rw [available_at_iff h hf hfree hpos hlater]
        constructor
        · rintro ⟨hle' | ⟨l, next, hl, hkl, hnext, hsize, heq⟩, hfirst, -⟩
          · exact .inl (Nat.le_antisymm hle' hfirst)
          · exact .inr ⟨l, next, hl, hkl, hnext, .inr ⟨hsize, heq⟩, hsize ▸ hfirst⟩
        · rintro (heq | ⟨l, next, hl, hkl, hnext, hlt' | ⟨hsize, heq⟩, hfirst⟩)
          · exact ⟨.inl heq.le, heq.ge, hlater⟩
          · have := hlater l next hl hkl hnext
            omega
          · exact ⟨.inr ⟨l, next, hl, hkl, hnext, hsize, heq⟩, hsize ▸ hfirst, hlater⟩
    · have hnone : ¬ (area.dma_type = .free ∧ 0 < r) := fun hc => hfree hc.1
      rw [if_neg hnone] at hlater ⊢
      simp only [Nat.lt_irrefl, false_imp_iff, true_and, hfree, iff_true]
      exact hlater
  · -- A later area is larger, and what it has available is reported.
    obtain ⟨hem, hke⟩ := OrdMap.mem_tailFrom.mp he
    have hlater : ∀ l next, (l, next) ∈ s.dmem_map → k < l → next.dma_type = .free →
        availableSize start last alignment l next ≤ trimmedSize start last alignment e.1 e.2 :=
      fun l next hl hkl hnext => by
        have := hall _ (hafter l next hl hkl) hnext
        rwa [htrim _ (hafter l next hl hkl)] at this
    have hpos : 0 < trimmedSize start last alignment e.1 e.2 := by omega
    have havail : s.dmem_map.Available start last alignment _ _ :=
      available_of_le hem hfree hpos (htrim e he).le
    simp only [hpos, true_imp_iff]
    rw [and_iff_right havail, and_iff_left hlater]
    have hmore : area.dma_type = .free → r < trimmedSize start last alignment e.1 e.2 := by
      intro hfree'
      split_ifs at hlt with hc
      · exact hlt
      · have : ¬ 0 < r := fun hr => hc ⟨hfree', hr⟩
        omega
    constructor
    · intro hfirst hfree'
      refine .inr ⟨e.1, e.2, hem, hke, hfree, .inl ?_, ?_⟩
      · exact htrim e he ▸ hmore hfree'
      · exact htrim e he ▸ hfirst hfree'
    · intro hcond hfree'
      rcases hcond hfree' with heq | ⟨l, next, hl, hkl, hnext, -, hsize⟩
      · have := hmore hfree'
        omega
      · exact hsize.trans (hlater l next hl hkl hnext)

theorem directQueryAvailable_iff_sample :
    (∃ p n, (MemoryManager.new .sample).directQueryAvailable 0 0x100000000 0x10000 = .ok (p, n) ∧
        (MemoryManager.new .sample).dmem_map.Longest 0 0x100000000 0x10000 p n) ↔
      (MemoryManager.new .sample).dmem_map.TrimmedRight 0 0x100000000 0x10000 :=
  directQueryAvailable_iff (wf_new .sample).direct Config.sample.direct_pos
    (by have := Config.sample.sizes_lt; have := (wf_new .sample).direct_le; omega) 0 0x100000000 0x10000

/-- The guest asks for a 64 KB aligned range from `0x4000` on, while all is free: the size reported reaches
`0xc000` bytes past the end of the search. -/
theorem query_past_end :
    (MemoryManager.new .sample).sceKernelAvailableDirectMemorySize 0x4000 0x40000 0x10000 true true =
        .ok (.ok (0x10000, 0x3c000)) ∧
      ¬ (MemoryManager.new .sample).dmem_map.Longest 0x4000 0x40000 0x10000 0x10000 0x3c000 := by
  refine ⟨by decide +kernel, ?_⟩
  rintro (⟨hzero, -⟩ | ⟨-, ⟨-, -, hend, -⟩, -⟩)
  · omega
  · omega

end ShadPS4.Memory
