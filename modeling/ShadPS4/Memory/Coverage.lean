import ShadPS4.Memory.Queries
import ShadPS4.Memory.Reach

/-!
# Ranges that virtual areas cover

`IsValidMapping` and `ClampRangeSize` walk the virtual areas from the one found for an address.
-/

namespace ShadPS4.Memory

open List
open OrdMap (mem_tailFrom floor?_eq_some_iff mem_unique tailFrom_eq_cons prev?_eq_some_iff)
open MemoryManager

variable {c : ℕ}

def VMAMap.Holds (m : VMAMap) (v : ℕ) : Prop := ∃ k vma, (k, vma) ∈ m ∧ InRange k vma.size v

/-- The maps that the memory manager can hold: the areas tile some set of user addresses, which may have
gaps. -/
structure VMAMap.UserAreas (m : VMAMap) : Prop where
  pos : ∀ k vma, (k, vma) ∈ m → 0 < vma.size
  disjoint : ∀ k vma l next, (k, vma) ∈ m → (l, next) ∈ m → k < l → k + vma.size ≤ l
  keyed : ∀ k vma, (k, vma) ∈ m → vma.base = k
  end_lt : ∀ k vma, (k, vma) ∈ m → k + vma.size < 2^63
  nonempty : ∃ k vma, (k, vma) ∈ m

theorem WF.userAreas (h : WF cfg s) (hr : cfg.regions ≠ []) : s.vma_map.UserAreas where
  pos k vma hk := h.virt.part.pos k vma hk
  disjoint k vma l next hk hl hkl := h.virt.part.disjoint k vma l next hk hl hkl
  keyed k vma hk := h.virt.keyed k vma hk
  end_lt k vma hk := h.end_lt hk
  nonempty := by
    obtain ⟨r, hmem⟩ := exists_mem_of_ne_nil _ hr
    have hlt := (cfg.regions_lt r hmem).1
    obtain ⟨k, vma, hk, -⟩ := (h.virt.part.cover r.1).mp ⟨r, hmem, le_rfl, hlt⟩
    exact ⟨k, vma, hk⟩

theorem WF.holds_iff (h : WF cfg s) : s.vma_map.Holds v ↔ cfg.Usable v :=
  (h.virt.part.cover v).symm

/-! ## Lists of areas -/

structure AreaList (l : List (ℕ × VirtualMemoryArea)) : Prop where
  ordered : l.Pairwise fun e f => e.1 + e.2.size ≤ f.1
  area : ∀ e ∈ l, 0 < e.2.size ∧ e.2.base = e.1 ∧ e.1 + e.2.size < 2^63

def HeldIn (l : List (ℕ × VirtualMemoryArea)) (v : ℕ) : Prop := ∃ e ∈ l, InRange e.1 e.2.size v

section Lists

variable {l : List (ℕ × VirtualMemoryArea)} {e f : ℕ × VirtualMemoryArea} {addr size d v : ℕ}

theorem AreaList.tail (h : AreaList (e :: l)) : AreaList l :=
  ⟨(pairwise_cons.mp h.ordered).2, fun f hf => h.area f (mem_cons_of_mem e hf)⟩

theorem AreaList.head_le (h : AreaList (e :: l)) (hf : f ∈ l) : e.1 + e.2.size ≤ f.1 :=
  (pairwise_cons.mp h.ordered).1 f hf

theorem AreaList.held_end (h : AreaList (e :: f :: l)) :
    HeldIn (e :: f :: l) (e.1 + e.2.size) ↔ f.1 = e.1 + e.2.size := by
  have hle := h.head_le (f := f) mem_cons_self
  constructor
  · rintro ⟨g, hg, hlo, hhi⟩
    rcases mem_cons.mp hg with rfl | hg
    · omega
    · rcases mem_cons.mp hg with rfl | hg
      · omega
      · have := h.tail.head_le hg
        omega
  · intro heq
    have := (h.area f (by simp)).1
    exact ⟨f, by simp, by omega, by omega⟩

theorem not_held_end : ¬ HeldIn [e] (e.1 + e.2.size) := by
  rintro ⟨f, hf, hlo, hhi⟩
  obtain rfl := mem_singleton.mp hf
  omega

theorem validRange_zero : validRange l addr 0 = true := by
  cases l <;> rfl

theorem validRange_iff (h : AreaList (e :: l)) (hin : InRange e.1 e.2.size addr) :
    validRange (e :: l) addr size = true ↔ ∀ v, InRange addr size v → HeldIn (e :: l) v := by
  induction l generalizing e addr size with
  | nil =>
    obtain ⟨hpos, hbase, hlt⟩ := h.area e mem_cons_self
    obtain ⟨hlo, hhi⟩ := hin
    have hoff : sub64 addr e.2.base = addr - e.1 := by
      rw [hbase]
      exact sub64_of_le hlo (by omega)
    have hrem : sub64 e.2.size (addr - e.1) = e.1 + e.2.size - addr := by
      rw [sub64_of_le (by omega) (by omega)]
      omega
    have hrange : validRange [e] addr size = true ↔ size ≤ e.1 + e.2.size - addr := by
      simp only [validRange, hoff, hrem]
      split_ifs <;> simp <;> omega
    rw [hrange]
    constructor
    · rintro hsize v ⟨hv, hv'⟩
      exact ⟨e, mem_cons_self, by omega, by omega⟩
    · intro hall
      by_contra hsize
      exact not_held_end (hall (e.1 + e.2.size) ⟨by omega, by omega⟩)
  | cons f rest ih =>
    obtain ⟨hpos, hbase, hlt⟩ := h.area e mem_cons_self
    obtain ⟨hfpos, hfbase, hflt⟩ := h.area f (by simp)
    obtain ⟨hlo, hhi⟩ := hin
    have hoff : sub64 addr e.2.base = addr - e.1 := by
      rw [hbase]
      exact sub64_of_le hlo (by omega)
    have hrem : sub64 e.2.size (addr - e.1) = e.1 + e.2.size - addr := by
      rw [sub64_of_le (by omega) (by omega)]
      omega
    rw [validRange.eq_def]
    simp only [hoff, hrem, hfbase]
    rcases Nat.lt_or_ge (e.1 + e.2.size - addr) size with hsize | hsize
    · -- The range goes on after the area.
      have hadd : add64 addr (min (e.1 + e.2.size - addr) size) = e.1 + e.2.size := by
        rw [Nat.min_eq_left hsize.le, add64_of_lt (by omega)]
        omega
      rw [if_neg (by omega), hadd, Nat.min_eq_left hsize.le]
      by_cases hgap : f.1 = e.1 + e.2.size
      · rw [if_neg (by omega), ← hgap, ih h.tail ⟨le_rfl, by omega⟩]
        constructor
        · intro hall v hv
          rcases Nat.lt_or_ge v f.1 with hvf | hvf
          · exact ⟨e, mem_cons_self, by have := hv.1; omega, by omega⟩
          · obtain ⟨g, hg, hgv⟩ := hall v ⟨hvf, by have := hv.2; omega⟩
            exact ⟨g, mem_cons_of_mem e hg, hgv⟩
        · intro hall v hv
          obtain ⟨g, hg, hgv⟩ := hall v ⟨by have := hv.1; omega, by have := hv.2; omega⟩
          rcases mem_cons.mp hg with rfl | hg
          · have := hv.1
            have := hgv.2
            omega
          · exact ⟨g, hg, hgv⟩
      · rw [if_pos ⟨by omega, fun heq => hgap heq.symm⟩]
        simp only [Bool.false_eq_true, false_iff, not_forall]
        exact ⟨e.1 + e.2.size, ⟨by omega, by omega⟩, fun hheld => hgap (h.held_end.mp hheld)⟩
    · -- The range ends in the area.
      have hmin : size - min (e.1 + e.2.size - addr) size = 0 := by omega
      have hvalid : ∀ v, InRange addr size v → HeldIn (e :: f :: rest) v := fun v hv =>
        ⟨e, mem_cons_self, by have := hv.1; omega, by have := hv.2; omega⟩
      rw [hmin]
      simpa [validRange_zero] using hvalid

theorem validRange_gap (h : AreaList (e :: l)) (hl : l ≠ []) (haddr : addr = e.1 + e.2.size + d)
    (hnext : ∀ f ∈ l, addr < f.1) (hsize : 0 < size) :
    validRange (e :: l) addr size = true ↔ 0 < d ∧ size + d ≤ 2^64 := by
  obtain ⟨f, rest, rfl⟩ := exists_cons_of_ne_nil hl
  obtain ⟨hpos, hbase, hlt⟩ := h.area e mem_cons_self
  obtain ⟨-, hfbase, hflt⟩ := h.area f (by simp)
  have hf := hnext f mem_cons_self
  have hoff : sub64 addr e.2.base = e.2.size + d := by
    rw [hbase, sub64_of_le (by omega) (by omega)]
    omega
  have hrem : sub64 e.2.size (e.2.size + d) = if d = 0 then 0 else 2^64 - d := by
    unfold sub64
    split_ifs <;> omega
  rw [validRange.eq_def]
  simp only [hoff, hrem, hfbase, if_neg hsize.ne']
  by_cases hd : d = 0
  · -- No byte is accounted for, and the next area begins later.
    have hadd : add64 addr (min 0 size) = addr := by
      exact add64_zero (by omega)
    rw [if_pos hd, hadd, if_pos ⟨by omega, hf.ne⟩]
    simp [hd]
  · rw [if_neg hd]
    rcases Nat.lt_or_ge (2^64 - d) size with hlong | hshort
    · have hadd : add64 addr (min (2^64 - d) size) = e.1 + e.2.size := by
        rw [Nat.min_eq_left hlong.le, haddr, add64]
        omega
      rw [hadd, if_pos ⟨by omega, by omega⟩]
      simp only [Bool.false_eq_true, false_iff]
      omega
    · have hmin : size - min (2^64 - d) size = 0 := by omega
      rw [hmin]
      simp only [Nat.lt_irrefl, false_and, if_false, validRange_zero, true_iff]
      omega

theorem le_clampFrom (size : ℕ) (h : AreaList l) (hc : ∀ e ∈ l, c ≤ e.1) : c ≤ clampFrom size l c := by
  induction l generalizing c with
  | nil => exact le_rfl
  | cons e rest ih =>
    obtain ⟨hpos, -, hlt⟩ := h.area e mem_cons_self
    have hce := hc e mem_cons_self
    unfold clampFrom
    split_ifs
    · have hadd : add64 c e.2.size = c + e.2.size := add64_of_lt (by omega)
      rw [hadd]
      exact (Nat.le_add_right c _).trans (ih h.tail fun f hf => (Nat.add_le_add_right hce _).trans (h.head_le hf))
    · exact le_rfl

theorem clampFrom_zero (h : AreaList l) (hsize : 0 < size) :
    clampFrom size l 0 = 0 ↔ l.takeWhile (·.2.type.IsMapped) = [] := by
  cases l with
  | nil => simp [clampFrom]
  | cons e rest =>
    obtain ⟨hpos, -, hlt⟩ := h.area e mem_cons_self
    unfold clampFrom
    by_cases hmapped : e.2.type.IsMapped
    · have hadd : add64 0 e.2.size = e.2.size := by
        rw [add64_of_lt (by omega), Nat.zero_add]
      have hle := le_clampFrom (c := e.2.size) size h.tail fun f hf =>
        (Nat.le_add_left _ _).trans (h.head_le hf)
      rw [if_pos ⟨hmapped, hsize⟩, hadd, takeWhile_cons_of_pos (by simpa using hmapped)]
      simp only [reduceCtorEq, iff_false]
      omega
    · rw [if_neg fun hc => hmapped hc.1, takeWhile_cons_of_neg (by simpa using hmapped)]
      simp

theorem sum_cons_iff {run : List (ℕ × VirtualMemoryArea)} {P : ℕ × VirtualMemoryArea → Prop}
    (hpos : ∀ f ∈ run, 0 < f.2.size) : (∃ init last, e :: run = init ++ [last] ∧
        (init.map (·.2.size)).sum + last.2.size = d ∧ P last) ↔ run = [] ∧ e.2.size = d ∧ P e ∨
        ∃ init last, run = init ++ [last] ∧ e.2.size < d ∧
          (init.map (·.2.size)).sum + last.2.size = d - e.2.size ∧ P last := by
  constructor
  · rintro ⟨init, last, heq, hsum, hlast⟩
    cases init with
    | nil =>
      obtain ⟨rfl, rfl⟩ : e = last ∧ run = [] := by simpa using heq
      exact .inl ⟨rfl, by simpa using hsum, hlast⟩
    | cons f init =>
      obtain ⟨rfl, rfl⟩ : e = f ∧ run = init ++ [last] := by simpa using heq
      have := hpos last (by simp)
      simp only [map_cons, sum_cons] at hsum
      exact .inr ⟨init, last, rfl, by omega, by omega, hlast⟩
  · rintro (⟨rfl, hsize, hlast⟩ | ⟨init, last, rfl, hlt, hsum, hlast⟩)
    · exact ⟨[], e, rfl, by simpa using hsize, hlast⟩
    · refine ⟨e :: init, last, rfl, ?_, hlast⟩
      simp only [map_cons, sum_cons]
      omega

theorem clampFrom_wrapped (h : AreaList l) (hd : 0 < d) (hd' : d < 2^63) (hsize : 0 < size) :
    clampFrom size l (2^64 - d) = 0 ↔ ∃ init last, l.takeWhile (·.2.type.IsMapped) = init ++ [last] ∧
      (init.map (·.2.size)).sum + last.2.size = d ∧ 2^64 < size + last.2.size := by
  induction l generalizing d with
  | nil =>
    simp only [clampFrom, takeWhile_nil, nil_eq_append_iff, cons_ne_nil, and_false,
      false_and, exists_false, iff_false]
    omega
  | cons e rest ih =>
    obtain ⟨hpos, -, hlt⟩ := h.area e mem_cons_self
    unfold clampFrom
    by_cases hmapped : e.2.type.IsMapped
    · have hrun : ∀ f ∈ rest.takeWhile (·.2.type.IsMapped), 0 < f.2.size := fun f hf =>
        (h.tail.area f (( takeWhile_prefix _).subset hf)).1
      rw [takeWhile_cons_of_pos (by simpa using hmapped), sum_cons_iff hrun]
      by_cases hc : 2^64 - d < size
      · rw [if_pos ⟨hmapped, hc⟩]
        rcases Nat.lt_trichotomy e.2.size d with hlow | heq | hhigh
        · have hadd : add64 (2^64 - d) e.2.size = 2^64 - (d - e.2.size) := by
            rw [add64_of_lt (by omega)]
            omega
          rw [hadd, ih h.tail (by omega) (by omega), or_iff_right fun hcase => hlow.ne hcase.2.1]
          simp only [hlow, true_and]
        · have hadd : add64 (2^64 - d) e.2.size = 0 := by
            unfold add64
            omega
          rw [hadd, clampFrom_zero h.tail hsize]
          constructor
          · exact fun hnil => .inl ⟨hnil, heq, by omega⟩
          · rintro (⟨hnil, -⟩ | ⟨-, -, -, hlow, -⟩)
            · exact hnil
            · omega
        · have hadd : add64 (2^64 - d) e.2.size = e.2.size - d := by
            unfold add64
            omega
          have hle := le_clampFrom (c := e.2.size - d) size h.tail fun f hf => by
            have := h.head_le hf
            omega
          rw [hadd]
          refine iff_of_false (by omega) ?_
          rintro (⟨-, heq, -⟩ | ⟨-, -, -, hlow, -⟩) <;> omega
      · -- The sum is large enough at once.
        rw [if_neg fun hcase => hc hcase.2]
        refine iff_of_false (by omega) ?_
        rintro (⟨-, heq, hlast⟩ | ⟨init, last, -, -, hsum, hlast⟩) <;> omega
    · rw [if_neg fun hc => hmapped hc.1, takeWhile_cons_of_neg (by simpa using hmapped)]
      refine iff_of_false (by omega) ?_
      rintro ⟨init, last, hnil, -⟩
      simp at hnil

end Lists

/-! ## Validity of a range -/

/-- The address lies between two areas, `d` bytes after the end of the first of them. -/
def VMAMap.GapAt (m : VMAMap) (addr d : ℕ) : Prop :=
  ∃ k vma, m.floor? addr = some (k, vma) ∧ addr = k + vma.size + d ∧
    ∃ l next, (l, next) ∈ m ∧ addr < l

section Maps

variable {s : MemoryManager} {m : VMAMap} {k l addr size d v : ℕ} {vma next : VirtualMemoryArea}

namespace VMAMap.UserAreas

theorem areaList (h : m.UserAreas) (k : ℕ) : AreaList (m.tailFrom k) where
  ordered := OrdMap.tailFrom_sorted.imp_of_mem fun {e f} he hf hlt =>
    h.disjoint e.1 e.2 f.1 f.2 (mem_tailFrom.mp he).1 (mem_tailFrom.mp hf).1 hlt
  area e he := by
    have hmem := (mem_tailFrom.mp he).1
    exact ⟨h.pos e.1 e.2 hmem, h.keyed e.1 e.2 hmem, h.end_lt e.1 e.2 hmem⟩

theorem heldIn_iff (h : m.UserAreas) (hk : (k, vma) ∈ m) (hkv : k ≤ v) : HeldIn (m.tailFrom k) v ↔ m.Holds v := by
  constructor
  · rintro ⟨e, he, hv⟩
    exact ⟨e.1, e.2, (mem_tailFrom.mp he).1, hv⟩
  · rintro ⟨l, next, hl, hv⟩
    refine ⟨(l, next), mem_tailFrom.mpr ⟨hl, ?_⟩, hv⟩
    by_contra hlt
    have := h.disjoint l next k vma hl hk (by omega)
    have := hv.2
    omega

theorem inRange_of_floor (h : m.UserAreas) (hf : m.floor? addr = some (k, vma)) (hh : m.Holds addr) :
    InRange k vma.size addr := by
  obtain ⟨l, next, hl, hlo, hhi⟩ := hh
  obtain ⟨hk, hle, hmax⟩ := floor?_eq_some_iff.mp hf
  have hlk : l ≤ k := hmax _ hl hlo
  rcases Nat.eq_or_lt_of_le hlk with rfl | hlt
  · obtain rfl := mem_unique hk hl
    exact ⟨hlo, hhi⟩
  · have := h.disjoint l next k vma hl hk hlt
    omega

theorem holds_or_gapAt (h : m.UserAreas) (hf : m.floor? addr = some (k, vma))
    (hl : (l, next) ∈ m) (hlt : addr < l + next.size) :
    InRange k vma.size addr ∨ m.GapAt addr (addr - (k + vma.size)) ∧ k + vma.size ≤ addr := by
  obtain ⟨hk, hle, hmax⟩ := floor?_eq_some_iff.mp hf
  by_cases hin : addr < k + vma.size
  · exact .inl ⟨hle, hin⟩
  · have haddr : addr < l := by
      by_contra hla
      exact hin (h.inRange_of_floor hf ⟨l, next, hl, by omega, hlt⟩).2
    exact .inr ⟨⟨k, vma, hf, by omega, l, next, hl, haddr⟩, by omega⟩

theorem not_holds_of_gapAt (h : m.UserAreas) (hg : m.GapAt addr d) : ¬ m.Holds addr := by
  obtain ⟨k, vma, hf, haddr, -⟩ := hg
  intro hh
  have := (h.inRange_of_floor hf hh).2
  omega

theorem isValidMapping_eq (h : s.vma_map.UserAreas) (hf : s.vma_map.floor? addr = some (k, vma))
    (hl : (l, next) ∈ s.vma_map) (hlt : addr < l + next.size) : s.isValidMapping addr size =
      .ok (if size = 0 then true else validRange (s.vma_map.tailFrom k) addr size) := by
  obtain ⟨hk, hle, -⟩ := floor?_eq_some_iff.mp hf
  have hne : s.vma_map.entries ≠ [] := ne_nil_of_mem hk
  obtain ⟨⟨first_key, first⟩, hfirst⟩ : ∃ p, s.vma_map.first? = some p :=
    ⟨_, head?_eq_some_head hne⟩
  obtain ⟨⟨last_key, last⟩, hlast⟩ : ∃ p, s.vma_map.last? = some p :=
    ⟨_, getLast?_eq_some_getLast hne⟩
  have hfirst' : first_key ≤ k := (OrdMap.first?_eq_some_iff.mp hfirst).2 _ hk
  obtain ⟨hlastmem, hlastmax⟩ := OrdMap.last?_eq_some_iff.mp hlast
  have hend : addr < last_key + last.size := by
    rcases Nat.eq_or_lt_of_le (hlastmax _ hl) with heq | hlast'
    · obtain rfl : l = last_key := heq
      rwa [← mem_unique hl hlastmem]
    · have := h.disjoint l next last_key last hl hlastmem hlast'
      omega
  have hbounds : ¬ (addr < first_key ∨ last_key + last.size ≤ addr) := by omega
  unfold isValidMapping findVMA
  rw [hlast, hfirst, hf]
  dsimp only [deref, bind, Except.bind]
  split_ifs <;> rfl

theorem isValidMapping_eq_false (h : s.vma_map.UserAreas)
    (hout : (∀ e ∈ s.vma_map, addr < e.1) ∨ ∀ e ∈ s.vma_map, e.1 + e.2.size ≤ addr) :
    s.isValidMapping addr size = .ok false := by
  obtain ⟨k, vma, hk⟩ := h.nonempty
  have hne : s.vma_map.entries ≠ [] := ne_nil_of_mem hk
  obtain ⟨⟨first_key, first⟩, hfirst⟩ : ∃ p, s.vma_map.first? = some p :=
    ⟨_, head?_eq_some_head hne⟩
  obtain ⟨⟨last_key, last⟩, hlast⟩ : ∃ p, s.vma_map.last? = some p :=
    ⟨_, getLast?_eq_some_getLast hne⟩
  have hbounds : addr < first_key ∨ last_key + last.size ≤ addr :=
    hout.imp (fun hlow => hlow _ (OrdMap.first?_eq_some_iff.mp hfirst).1)
      (fun hhigh => hhigh _ (OrdMap.last?_eq_some_iff.mp hlast).1)
  unfold isValidMapping
  rw [hlast, hfirst]
  dsimp only [deref, bind, Except.bind]
  rw [if_pos hbounds]
  rfl

theorem bounds_cases (m : VMAMap) (addr : ℕ) :
    (((∀ e ∈ m, addr < e.1) ∨ ∀ e ∈ m, e.1 + e.2.size ≤ addr) ∧ ¬ m.Holds addr ∧ ∀ d, ¬ m.GapAt addr d) ∨
      ∃ k vma l next, m.floor? addr = some (k, vma) ∧ (l, next) ∈ m ∧ addr < l + next.size := by
  rcases hf : m.floor? addr with - | ⟨k, vma⟩
  · refine .inl ⟨.inl (OrdMap.floor?_eq_none_iff.mp hf), ?_, ?_⟩
    · rintro ⟨k, vma, hk, hlo, -⟩
      have : addr < k := OrdMap.floor?_eq_none_iff.mp hf _ hk
      omega
    · rintro d ⟨k, vma, hf', -⟩
      rw [hf] at hf'
      cases hf'
  · by_cases hout : ∀ e ∈ m, e.1 + e.2.size ≤ addr
    · refine .inl ⟨.inr hout, ?_, ?_⟩
      · rintro ⟨l, next, hl, -, hhi⟩
        have : l + next.size ≤ addr := hout _ hl
        omega
      · rintro d ⟨-, -, -, -, l, next, hl, hlt⟩
        have : l + next.size ≤ addr := hout _ hl
        omega
    · simp only [not_forall, not_le] at hout
      obtain ⟨⟨l, next⟩, hl, hlt⟩ := hout
      exact .inr ⟨k, vma, l, next, rfl, hl, hlt⟩

theorem gap_areas (hf : m.floor? addr = some (k, vma)) (hl : (l, next) ∈ m) (hlt : addr < l) :
    m.tailFrom (k + 1) ≠ [] ∧ ∀ f ∈ m.tailFrom (k + 1), addr < f.1 := by
  obtain ⟨-, hle, hmax⟩ := floor?_eq_some_iff.mp hf
  refine ⟨ne_nil_of_mem (mem_tailFrom.mpr ⟨hl, by simp only; omega⟩), fun f hmem => ?_⟩
  obtain ⟨hfm, hkf⟩ := mem_tailFrom.mp hmem
  by_contra hfa
  have := hmax f hfm (by omega)
  omega

theorem isValidMapping_iff (h : s.vma_map.UserAreas) (hpos : 0 < size) :
    (∃ valid, s.isValidMapping addr size = .ok valid ∧
        (valid = true ↔ ∀ v, InRange addr size v → s.vma_map.Holds v)) ↔
      ∀ d, s.vma_map.GapAt addr d → d = 0 ∨ 2^64 < size + d := by
  have hstart : (∀ v, InRange addr size v → s.vma_map.Holds v) → s.vma_map.Holds addr :=
    fun hall => hall addr ⟨le_rfl, by omega⟩
  rcases bounds_cases s.vma_map addr with ⟨hout, hnot, hgap⟩ | ⟨k, vma, l, next, hf, hl, hlt⟩
  · rw [h.isValidMapping_eq_false hout]
    refine iff_of_true ⟨false, rfl, ?_⟩ fun d hd => absurd hd (hgap d)
    simp only [Bool.false_eq_true, false_iff]
    exact fun hall => hnot (hstart hall)
  · have hk := (floor?_eq_some_iff.mp hf).1
    have hlist := h.areaList k
    rw [tailFrom_eq_cons hk] at hlist
    rw [h.isValidMapping_eq hf hl hlt, if_neg hpos.ne']
    simp only [Except.ok.injEq, exists_eq_left']
    rcases h.holds_or_gapAt hf hl hlt with hin | ⟨hgap, hge⟩
    · refine iff_of_true ?_ fun d hd => absurd ⟨k, vma, hk, hin⟩ (h.not_holds_of_gapAt hd)
      have hvalid : validRange _ addr size = true ↔ _ := validRange_iff hlist hin
      rw [← tailFrom_eq_cons hk] at hvalid
      rw [hvalid]
      have hkv : ∀ v, InRange addr size v → k ≤ v := fun v hv => hin.1.trans hv.1
      exact forall₂_congr fun v hv => h.heldIn_iff hk (hkv v hv)
    · have hnot := h.not_holds_of_gapAt hgap
      obtain ⟨hne, hnext⟩ : _ ∧ _ := by
        obtain ⟨-, -, hf', -, l', next', hl', hlt'⟩ := hgap
        exact gap_areas hf hl' hlt'
      have hvalid := validRange_gap (d := addr - (k + vma.size)) hlist hne (by simp only; omega)
        hnext hpos
      rw [tailFrom_eq_cons hk, hvalid, iff_false_right fun hall => hnot (hstart hall)]
      constructor
      · rintro hno d ⟨k', vma', hf', haddr, -⟩
        rw [hf] at hf'
        obtain ⟨rfl, rfl⟩ := Prod.mk.inj (Option.some.inj hf')
        omega
      · intro hall
        have := hall _ hgap
        omega

end VMAMap.UserAreas

/-! ## Clamping a range -/

/-- The areas cover `[addr, addr + n)` without a gap, and those after the first are mapped. -/
def VMAMap.Clampable (m : VMAMap) (addr n : ℕ) : Prop :=
  ∀ v, InRange addr n v →
    ∃ k vma, (k, vma) ∈ m ∧ InRange k vma.size v ∧ (k ≤ addr ∨ vma.type.IsMapped)

theorem VMAMap.Clampable.mono (h : m.Clampable addr n) (hn : n' ≤ n) : m.Clampable addr n' :=
  fun v hv => h v ⟨hv.1, by have := hv.2; omega⟩

/-- No mapped area lies behind a gap that ends the clampable part of the range before `size`. -/
def VMAMap.NoMappedBehindGap (m : VMAMap) (addr size : ℕ) : Prop :=
  ∀ k vma l prev, (k, vma) ∈ m → vma.type.IsMapped → m.prev? k = some (l, prev) →
    addr < l + prev.size → l + prev.size < k → m.Clampable addr (l + prev.size - addr) →
      size ≤ l + prev.size - addr

/-- The sizes that `ClampRangeSize` adds up from a gap on come to exactly the `d` bytes that its first
difference falls below zero by. -/
def VMAMap.SumCancels (m : VMAMap) (addr size d : ℕ) : Prop :=
  let run := (m.tailFrom addr).takeWhile (·.2.type.IsMapped)
  d = 0 ∧ run = [] ∨
    ∃ init last, run = init ++ [last] ∧ (init.map (·.2.size)).sum + last.2.size = d ∧
      2^64 < size + last.2.size

namespace VMAMap.UserAreas

theorem key_unique (h : m.UserAreas) (hk : (k, vma) ∈ m) (hl : (l, next) ∈ m)
    (hkv : InRange k vma.size v) (hlv : InRange l next.size v) : k = l := by
  obtain ⟨hk1, hk2⟩ := hkv
  obtain ⟨hl1, hl2⟩ := hlv
  rcases Nat.lt_trichotomy k l with hlt | heq | hlt
  · have := h.disjoint k vma l next hk hl hlt
    omega
  · exact heq
  · have := h.disjoint l next k vma hl hk hlt
    omega

theorem le_of_clampable (h : m.UserAreas) (hk : (k, vma) ∈ m) (hc : addr + c = k + vma.size) (hpos : 0 < c)
    (hstop : ∀ next, (k + vma.size, next) ∈ m → ¬ next.type.IsMapped) (hn : m.Clampable addr n) : n ≤ c := by
  by_contra hlt
  obtain ⟨l, next, hl, ⟨hlo, hhi⟩, hor⟩ := hn (k + vma.size) ⟨by omega, by omega⟩
  have hsize := h.pos k vma hk
  have hend : l = k + vma.size := by
    by_contra hne
    have heq := h.key_unique hk hl (v := k + vma.size - 1) ⟨by omega, by omega⟩
      ⟨by omega, by omega⟩
    subst heq
    obtain rfl := mem_unique hk hl
    omega
  subst hend
  exact hor.elim (fun hle => by omega) (hstop next hl)

theorem isGreatest_clamped (h : m.UserAreas) (hk : (k, vma) ∈ m)
    (hc : addr + c = k + vma.size) (hpos : 0 < c) (hcl : m.Clampable addr c)
    (hstop : c < size → ∀ next, (k + vma.size, next) ∈ m → ¬ next.type.IsMapped) :
    IsGreatest {n | n ≤ size ∧ m.Clampable addr n} (min c size) := by
  refine ⟨⟨Nat.min_le_right c size, hcl.mono (Nat.min_le_left c size)⟩, fun n hn => ?_⟩
  rcases Nat.lt_or_ge c size with hlt | hge
  · exact Nat.le_min.mpr ⟨h.le_of_clampable hk hc hpos (hstop hlt) hn.2, hn.1⟩
  · rw [Nat.min_eq_right hge]
    exact hn.1

theorem next_of_tailFrom (hk : (k, vma) ∈ m) (hl : m.tailFrom (k + 1) = e :: rest) :
    e ∈ m ∧ k < e.1 ∧ rest = m.tailFrom (e.1 + 1) ∧ m.prev? e.1 = some (k, vma) := by
  have hmem : e ∈ m.tailFrom (k + 1) := hl ▸ mem_cons_self
  obtain ⟨he, hke⟩ := mem_tailFrom.mp hmem
  have hsorted : (e :: rest).Pairwise fun p q => p.1 < q.1 := hl ▸ OrdMap.tailFrom_sorted
  have hleast : ∀ q ∈ m, k < q.1 → e.1 ≤ q.1 := fun q hq hkq => by
    have hq' : q ∈ e :: rest := hl ▸ mem_tailFrom.mpr ⟨hq, hkq⟩
    rcases mem_cons.mp hq' with rfl | hq'
    · exact le_rfl
    · exact ((pairwise_cons.mp hsorted).1 q hq').le
  have hsame : m.tailFrom (k + 1) = m.tailFrom e.1 :=
    filter_congr fun q hq => by
      simp only [decide_eq_decide]
      exact ⟨fun hkq => hleast q hq hkq, fun heq => by omega⟩
  refine ⟨he, hke, ?_, ?_⟩
  · rw [hsame, tailFrom_eq_cons (show (e.1, e.2) ∈ m from he), List.cons.injEq] at hl
    exact hl.2.symm
  · refine prev?_eq_some_iff.mpr ⟨hk, hke, fun q hq hqe => ?_⟩
    by_contra hlt
    have := hleast q hq (by omega)
    omega

theorem clamp_stopped (h : m.UserAreas) (hk : (k, vma) ∈ m) (hc : addr + c = k + vma.size)
    (hpos : 0 < c) (hcl : m.Clampable addr c)
    (hstop : c < size → ∀ next, (k + vma.size, next) ∈ m → ¬ next.type.IsMapped)
    (hgaps : c < size → ∀ l next, (l, next) ∈ m → m.prev? l = some (k, vma) → ¬ next.type.IsMapped) :
    IsGreatest {n | n ≤ size ∧ m.Clampable addr n} (min c size) ↔ m.NoMappedBehindGap addr size := by
  have hsize := h.pos k vma hk
  refine iff_of_true (h.isGreatest_clamped hk hc hpos hcl hstop) ?_
  intro k' next l prev hk' hmapped hprev haddr hgap hcl'
  obtain ⟨hl, hlk, hmax⟩ := prev?_eq_some_iff.mp hprev
  -- The gap is not before the end of the area, since all before it is held.
  have hle : c ≤ l + prev.size - addr := by
    by_contra hlt
    obtain ⟨j, a, hj, ⟨hlo, hhi⟩, -⟩ := hcl (l + prev.size) ⟨by omega, by omega⟩
    have hjl : j ≤ l := hmax _ hj (by simp only; omega)
    rcases Nat.eq_or_lt_of_le hjl with rfl | hjl
    · obtain rfl := mem_unique hl hj
      omega
    · have := h.disjoint j a l prev hj hl hjl
      omega
  by_contra hlt
  have hn := h.le_of_clampable hk hc hpos (hstop (by omega)) hcl'
  -- It is at the end of the area, where the walk would have gone on.
  have hlkey : k = l := h.key_unique hk hl (v := k + vma.size - 1) ⟨by omega, by omega⟩ (by
    have := h.pos l prev hl
    exact ⟨by omega, by omega⟩)
  subst hlkey
  obtain rfl := mem_unique hk hl
  exact hgaps (by omega) k' next hk' hprev hmapped

theorem clampFrom_iff {l : List (ℕ × VirtualMemoryArea)} (h : m.UserAreas)
    (hk : (k, vma) ∈ m) (hl : m.tailFrom (k + 1) = l) (hc : addr + c = k + vma.size)
    (hpos : 0 < c) (hcl : m.Clampable addr c) :
    IsGreatest {n | n ≤ size ∧ m.Clampable addr n} (min (clampFrom size l c) size) ↔
      m.NoMappedBehindGap addr size := by
  have hsize := h.pos k vma hk
  induction l generalizing k vma c with
  | nil =>
    have hlast : ∀ l next, (l, next) ∈ m → l ≤ k := fun l next hmem => by
      by_contra hlt
      have : (l, next) ∈ m.tailFrom (k + 1) := mem_tailFrom.mpr ⟨hmem, by simp only; omega⟩
      rw [hl] at this
      cases this
    apply h.clamp_stopped hk hc hpos hcl
    · intro _ next hnext
      have := hlast _ next hnext
      omega
    · intro _ l next hnext hprev
      have := hlast l next hnext
      have := (prev?_eq_some_iff.mp hprev).2.1
      omega
  | cons e rest ih =>
    obtain ⟨he, hke, hrest, hprev⟩ := next_of_tailFrom hk hl
    have hmax := (prev?_eq_some_iff.mp hprev).2.2
    have hdisj := h.disjoint k vma e.1 e.2 hk he hke
    have helt := h.end_lt e.1 e.2 he
    have hepos := h.pos e.1 e.2 he
    unfold clampFrom
    split_ifs with hcond
    · have hadd : add64 c e.2.size = c + e.2.size := add64_of_lt (by omega)
      rw [hadd]
      by_cases hgap : e.1 = k + vma.size
      · apply ih he hrest.symm (by omega) (by omega) ?_ hepos
        intro v hv
        rcases Nat.lt_or_ge v (addr + c) with hlt | hge
        · exact hcl v ⟨hv.1, hlt⟩
        · exact ⟨e.1, e.2, he, ⟨by omega, by have := hv.2; omega⟩, .inr hcond.1⟩
      · -- The sum goes past the end of the area, and nothing holds the byte there.
        have hle : c + e.2.size ≤ clampFrom size rest (c + e.2.size) := by
          rw [hrest]
          refine le_clampFrom _ (h.areaList _) fun f hf => ?_
          obtain ⟨hfm, hef⟩ := mem_tailFrom.mp hf
          have := h.disjoint e.1 e.2 f.1 f.2 he hfm hef
          omega
        refine iff_of_false (fun hgreat => ?_) fun hno => ?_
        · have := h.le_of_clampable hk hc hpos (fun next hnext => by
            have : k + vma.size ≤ k := hmax _ hnext (by simp only; omega)
            omega) hgreat.1.2
          omega
        · have := hno e.1 e.2 k vma he hcond.1 hprev (by omega) (by omega)
            (hcl.mono (by omega))
          omega
    · have hnext : ∀ l next, (l, next) ∈ m → k < l → l ≤ e.1 → l = e.1 := fun l next hmem hkl hle => by
        by_contra hne
        have : l ≤ k := hmax _ hmem (by simp only; omega)
        omega
      apply h.clamp_stopped hk hc hpos hcl
      · intro hlt next hmem hmapped
        have heq := hnext _ next hmem (by omega) hdisj
        obtain rfl := mem_unique (heq ▸ hmem) he
        exact hcond ⟨hmapped, hlt⟩
      · intro hlt l next hmem hprev' hmapped
        obtain ⟨-, hkl, hmax'⟩ := prev?_eq_some_iff.mp hprev'
        have hle : l ≤ e.1 := by
          by_contra hgt
          have := hmax' e he (by omega)
          omega
        obtain rfl := hnext l next hmem hkl hle
        obtain rfl := mem_unique hmem he
        exact hcond ⟨hmapped, hlt⟩

theorem clampRangeSize_eq (h : s.vma_map.UserAreas) (hf : s.vma_map.floor? addr = some (k, vma))
    (hl : (l, next) ∈ s.vma_map) (hlt : addr < l + next.size) (hsize : gb ≤ size) :
    s.clampRangeSize addr size = .ok (min (clampFrom size (s.vma_map.tailFrom (k + 1))
      (sub64 (k + vma.size) addr)) size) := by
  unfold clampRangeSize requireValid findVMA
  rw [if_neg (Nat.not_lt.mpr hsize), h.isValidMapping_eq hf hl hlt, hf,
    ← h.keyed k vma (floor?_eq_some_iff.mp hf).1]
  rfl

theorem clampRangeSize_iff (h : s.vma_map.UserAreas) (hsize : gb ≤ size) :
    (∃ n, s.clampRangeSize addr size = .ok n ∧ IsGreatest {n | n ≤ size ∧ s.vma_map.Clampable addr n} n) ↔
      s.vma_map.Holds addr ∧ s.vma_map.NoMappedBehindGap addr size ∨
        ∃ d, s.vma_map.GapAt addr d ∧ s.vma_map.SumCancels addr size d := by
  have hpos : 0 < size := Nat.lt_of_lt_of_le (by decide) hsize
  rcases bounds_cases s.vma_map addr with ⟨hout, hnot, hgap⟩ | ⟨k, vma, l, next, hf, hl, hlt⟩
  · have hfault : s.clampRangeSize addr size = .error (.assertion .invalidAddress) := by
      unfold clampRangeSize requireValid
      rw [if_neg (Nat.not_lt.mpr hsize), h.isValidMapping_eq_false hout]
      rfl
    refine iff_of_false ?_ ?_
    · rintro ⟨n, hn, -⟩
      rw [hfault] at hn
      cases hn
    · rintro (⟨hh, -⟩ | ⟨d, hd, -⟩)
      · exact hnot hh
      · exact hgap d hd
  · have hk := (floor?_eq_some_iff.mp hf).1
    have hend := h.end_lt k vma hk
    rw [h.clampRangeSize_eq hf hl hlt hsize]
    simp only [Except.ok.injEq, exists_eq_left']
    rcases h.holds_or_gapAt hf hl hlt with hin | ⟨hgap, hge⟩
    · have hheld : s.vma_map.Holds addr := ⟨k, vma, hk, hin⟩
      obtain ⟨hlo, hhi⟩ := hin
      have hnogap : ¬ ∃ d, s.vma_map.GapAt addr d ∧ s.vma_map.SumCancels addr size d :=
        fun ⟨d, hd, _⟩ => h.not_holds_of_gapAt hd hheld
      rw [sub64_of_le hhi.le (by omega), or_iff_left hnogap, and_iff_right hheld]
      apply h.clampFrom_iff hk rfl (by omega) (by omega)
      intro v hv
      exact ⟨k, vma, hk, ⟨by have := hv.1; omega, by have := hv.2; omega⟩, .inl hlo⟩
    · have hnot := h.not_holds_of_gapAt hgap
      -- The first byte is not held, and so the largest part is empty.
      have hgreatest : ∀ n, IsGreatest {n | n ≤ size ∧ s.vma_map.Clampable addr n} n ↔ n = 0 := by
        have hzero : ∀ n, s.vma_map.Clampable addr n → n = 0 := fun n hn => by
          by_contra hne
          obtain ⟨j, a, hj, hv, -⟩ := hn addr ⟨le_rfl, by omega⟩
          exact hnot ⟨j, a, hj, hv⟩
        intro n
        constructor
        · exact fun hn => hzero n hn.1.2
        · rintro rfl
          exact ⟨⟨Nat.zero_le _, fun v hv => by have := hv.1; have := hv.2; omega⟩,
            fun n hn => (hzero n hn.2).le⟩
      have hd : ∀ d, s.vma_map.GapAt addr d ↔ d = addr - (k + vma.size) := by
        intro d
        constructor
        · rintro ⟨k', vma', hf', haddr, -⟩
          rw [hf] at hf'
          obtain ⟨rfl, rfl⟩ := Prod.mk.inj (Option.some.inj hf')
          omega
        · rintro rfl
          exact hgap
      obtain ⟨-, hle, hmax⟩ := floor?_eq_some_iff.mp hf
      have hsize := h.pos k vma hk
      have htail : s.vma_map.tailFrom addr = s.vma_map.tailFrom (k + 1) :=
        filter_congr fun q hq => by
          simp only [decide_eq_decide]
          by_contra hqa
          have := hmax q hq (by omega)
          omega
      have haddr : addr < 2^63 := by
        obtain ⟨-, -, -, -, l', next', hl', hlt'⟩ := hgap
        have := h.end_lt l' next' hl'
        omega
      rw [hgreatest, or_iff_right fun hh => hnot hh.1]
      simp only [hd, exists_eq_left, VMAMap.SumCancels, htail]
      have hlist := h.areaList (k + 1)
      rw [Nat.min_eq_zero_iff, or_iff_left hpos.ne']
      by_cases hzero : addr - (k + vma.size) = 0
      · have hsub : sub64 (k + vma.size) addr = 0 := by
          unfold sub64
          omega
        rw [hsub, clampFrom_zero hlist hpos, and_iff_right hzero, or_iff_left]
        rintro ⟨init, last, hrun, hsum, -⟩
        have hmem : last ∈ s.vma_map.tailFrom (k + 1) :=
          ( takeWhile_prefix _).subset (hrun ▸ mem_append_right init mem_cons_self)
        have := (hlist.area last hmem).1
        omega
      · have hsub : sub64 (k + vma.size) addr = 2^64 - (addr - (k + vma.size)) := by
          unfold sub64
          omega
        rw [hsub, clampFrom_wrapped hlist (by omega) (by omega) hpos, or_iff_right fun hc => hzero hc.1]

end VMAMap.UserAreas

end Maps

/-- `IsValidMapping` and `ClampRangeSize` do what they are for exactly when the range does not begin in a gap,
the sum does not pass one, and where it does begin in a gap the differences do not wrap into range. -/
theorem isValidMapping_clampRangeSize_iff {s : MemoryManager} (h : s.vma_map.UserAreas)
    (addr size : UInt64) (hpos : 0 < size.toNat) : ((∃ valid, s.isValidMapping addr.toNat size.toNat = .ok valid ∧
        (valid = true ↔ ∀ v, InRange addr.toNat size.toNat v → s.vma_map.Holds v)) ↔
      ∀ d, s.vma_map.GapAt addr.toNat d → d = 0 ∨ 2^64 < size.toNat + d) ∧ (gb ≤ size.toNat →
      ((∃ n, s.clampRangeSize addr.toNat size.toNat = .ok n ∧
          IsGreatest {n | n ≤ size.toNat ∧ s.vma_map.Clampable addr.toNat n} n) ↔
        s.vma_map.Holds addr.toNat ∧ s.vma_map.NoMappedBehindGap addr.toNat size.toNat ∨
          ∃ d, s.vma_map.GapAt addr.toNat d ∧ s.vma_map.SumCancels addr.toNat size.toNat d)) :=
  ⟨h.isValidMapping_iff hpos, h.clampRangeSize_iff⟩

/-- A configuration with two usable regions, of 4 GB each and 4 GB apart. -/
def Config.fragmented : Config where
  regions := [(0x100000000, 0x200000000), (0x300000000, 0x400000000)]
  regions_lt := by decide
  regions_sorted := by decide
  system_managed_base := 0x100000000
  user_base := 0x100000000
  user_size := 0x300000000
  direct_pos := Config.sample.direct_pos
  flexible_pos := Config.sample.flexible_pos
  backing_lt := Config.sample.backing_lt

theorem isValidMapping_clampRangeSize_iff_fragmented :
    ((∃ valid, (MemoryManager.new .fragmented).isValidMapping 0x100000000 0x80000000 = .ok valid ∧
        (valid = true ↔ ∀ v, InRange 0x100000000 0x80000000 v → (MemoryManager.new .fragmented).vma_map.Holds v)) ↔
      ∀ d, (MemoryManager.new .fragmented).vma_map.GapAt 0x100000000 d → d = 0 ∨ 2^64 < 0x80000000 + d) ∧
    (gb ≤ 0x80000000 → ((∃ n, (MemoryManager.new .fragmented).clampRangeSize 0x100000000 0x80000000 = .ok n ∧
          IsGreatest {n | n ≤ 0x80000000 ∧
            (MemoryManager.new .fragmented).vma_map.Clampable 0x100000000 n} n) ↔
        (MemoryManager.new .fragmented).vma_map.Holds 0x100000000 ∧
            (MemoryManager.new .fragmented).vma_map.NoMappedBehindGap 0x100000000 0x80000000 ∨
          ∃ d, (MemoryManager.new .fragmented).vma_map.GapAt 0x100000000 d ∧
            (MemoryManager.new .fragmented).vma_map.SumCancels 0x100000000 0x80000000 d)) :=
  isValidMapping_clampRangeSize_iff ((wf_new .fragmented).userAreas (by decide)) 0x100000000 0x80000000
    (by decide)

/-- With memory mapped at the start of the second region, a range in the gap is valid, and a range that
crosses the gap is not clamped. -/
theorem gap_not_seen : ∃ s,
    replay .fragmented [.mapMemory 0x300000000 0x40000000 3 0x10 .stack "stack" false 0xffffffffffffffff 0]
      (.new .fragmented) = some s ∧ Reachable .fragmented s ∧
    s.isValidMapping 0x280000000 0x4000 = .ok true ∧ ¬ s.vma_map.Holds 0x280000000 ∧
    s.clampRangeSize 0x1c0000000 0x80000000 = .ok 0x80000000 ∧ ¬ s.vma_map.Clampable 0x1c0000000 0x80000000 := by
  obtain ⟨s, hs, hr, ht⟩ := exists_of_replay .fragmented
    [.mapMemory 0x300000000 0x40000000 3 0x10 .stack "stack" false 0xffffffffffffffff 0]
    (fun s => returns (s.isValidMapping 0x280000000 0x4000) (· = true) &&
      returns (s.clampRangeSize 0x1c0000000 0x80000000) (· = 0x80000000)) (by decide)
  obtain ⟨hvalid, hclamp⟩ := Bool.and_eq_true_iff.mp ht
  obtain ⟨valid, hvalid, heq⟩ := exists_of_returns hvalid
  obtain ⟨n, hclamp, heq'⟩ := exists_of_returns hclamp
  rw [decide_eq_true_eq] at heq heq'
  refine ⟨s, hs, hr, heq ▸ hvalid, ?_, heq' ▸ hclamp, fun hall => ?_⟩
  · rw [hr.wf.holds_iff]
    simp [Config.Usable, Config.fragmented]
  · obtain ⟨k, vma, hk, hv, -⟩ := hall 0x200000000 ⟨by decide, by decide⟩
    have hu : Config.fragmented.Usable 0x200000000 := hr.wf.holds_iff.mp ⟨k, vma, hk, hv⟩
    simp [Config.Usable, Config.fragmented] at hu

/-- In every reachable state `IsValidMapping` says of a range from a usable address whether all of it is usable. -/
theorem isValidMapping_reachable (h : Reachable cfg s) (hpos : 0 < size) (haddr : cfg.Usable addr) :
    ∃ valid, s.isValidMapping addr size = .ok valid ∧
      (valid = true ↔ ∀ v, InRange addr size v → cfg.Usable v) := by
  have hwf := h.wf
  have hholds (v : ℕ) : s.vma_map.Holds v ↔ cfg.Usable v := (hwf.virt.part.cover v).symm
  have hr : cfg.regions ≠ [] := by
    rintro hnil
    obtain ⟨r, hin, -⟩ := haddr
    rw [hnil] at hin
    cases hin
  have hspec : _ ↔ ∀ d, s.vma_map.GapAt addr d → d = 0 ∨ 2^64 < size + d := (hwf.userAreas hr).isValidMapping_iff hpos
  simp only [hholds] at hspec
  exact hspec.mpr fun d hd => absurd ((hholds addr).mpr haddr) ((hwf.userAreas hr).not_holds_of_gapAt hd)

theorem isValidMapping_reachable_sample : ∃ s, replay .sample sampleCalls (.new .sample) = some s ∧
    ∃ valid, s.isValidMapping 0x100000000 0x40000 = .ok valid ∧
      (valid = true ↔ ∀ v, InRange 0x100000000 0x40000 v → Config.sample.Usable v) := by
  obtain ⟨s, hs, hr, -⟩ := exists_of_replay .sample sampleCalls (fun _ => true) (by decide)
  exact ⟨s, hs, isValidMapping_reachable hr (by decide) ⟨_, List.mem_cons_self, by decide, by decide⟩⟩

end ShadPS4.Memory
