import ShadPS4.Memory.PhysSpec

/-!
# Virtual areas: what carving and merging keep

The counterpart of `PhysSpec.lean` for the map of virtual areas.
-/

namespace ShadPS4.Memory

open OrdMap (mem_insertAll get?_eq_some_iff mem_insert mem_unique mem_erase insertAll)
open Option (some.injEq)

/-- What a virtual area says of one of its bytes. -/
structure VByte where
  addr : ℕ
  type : VMAType
  prot : MemoryProt
  /-- The physical address behind the byte, if it has one. -/
  paddr : Option ℕ

def vmaExtent : Extent VirtualMemoryArea VByte where
  size vma := vma.size
  byte vma i :=
    ⟨vma.base + i, vma.type, vma.prot, (vma.phys_areas.byteAt physExtent i).map (·.addr)⟩

@[simp] theorem vmaExtent_size (vma : VirtualMemoryArea) : vmaExtent.size vma = vma.size := rfl

@[simp] theorem vmaExtent_byte (vma : VirtualMemoryArea) (i : ℕ) : vmaExtent.byte vma i =
      ⟨vma.base + i, vma.type, vma.prot, (vma.phys_areas.byteAt physExtent i).map (·.addr)⟩ := rfl

/-- The physical areas of a virtual area cover it by offset when its type has physical backing, and
there are none otherwise. -/
structure VirtualMemoryArea.Backed (vma : VirtualMemoryArea) : Prop where
  part : vma.type.HasPhysicalBacking →
    vma.phys_areas.Partition physExtent (Span 0 vma.size)
  empty : ¬ vma.type.HasPhysicalBacking → vma.phys_areas = .empty

/-- The map's areas cover the addresses in `R`, are keyed by their address, and are backed. -/
structure VTiles (m : VMAMap) (R : ℕ → Prop) : Prop where
  part : m.Partition vmaExtent R
  keyed : ∀ k vma, (k, vma) ∈ m → vma.base = k
  backed : ∀ k vma, (k, vma) ∈ m → vma.Backed

/-! ## Splitting physical areas between two virtual areas -/

variable {m m' : PhysMap} {n o i j k x : ℕ} {a r : PhysicalMemoryArea}

/-- The part of an entry that goes to the first virtual area. -/
def headPart (o : ℕ) (e : ℕ × PhysicalMemoryArea) : Option (ℕ × PhysicalMemoryArea) :=
  if e.1 + e.2.size ≤ o then some e
  else if e.1 < o then some (e.1, { e.2 with size := o - e.1 })
  else none

/-- The part of an entry that goes to the second virtual area, rebased. -/
def tailPart (o : ℕ) (e : ℕ × PhysicalMemoryArea) : Option (ℕ × PhysicalMemoryArea) :=
  if o ≤ e.1 then some (e.1 - o, e.2)
  else if o < e.1 + e.2.size then
    some (0, { e.2 with base := e.2.base + (o - e.1), size := e.2.size - (o - e.1) })
  else none

theorem splitPhysAreas_eq (es : List (ℕ × PhysicalMemoryArea)) (old new : PhysMap) : splitPhysAreas o es old new =
      (insertAll (es.filterMap (headPart o)) old, insertAll (es.filterMap (tailPart o)) new) := by
  induction es generalizing old new with
  | nil => rfl
  | cons e es ih =>
    obtain ⟨k, r⟩ := e
    rw [splitPhysAreas, ih]
    rcases Nat.lt_or_ge k o with hk | hk
    · rcases Nat.lt_or_ge o (k + r.size) with hr | hr
      · -- The entry straddles the cut.
        have h1 : ¬ k + r.size ≤ o := by omega
        have h2 : ¬ o ≤ k := by omega
        simp [headPart, tailPart, h1, h2, hk, hr, insertAll]
      · have h1 : ¬ o < k + r.size := by omega
        have h2 : ¬ o ≤ k := by omega
        simp [headPart, tailPart, h1, h2, hr, insertAll]
    · rcases Nat.lt_or_ge o (k + r.size) with hr | hr
      · have h1 : ¬ k + r.size ≤ o := by omega
        have h2 : ¬ k < o := by omega
        simp [headPart, tailPart, h1, h2, hk, insertAll]
      · have h1 : ¬ k < o := by omega
        simp [headPart, tailPart, h1, hk, hr, insertAll]

section

variable (h : m.Partition physExtent (Span 0 n))

include h

theorem mem_splitPhysAreas_fst : (k, a) ∈ (splitPhysAreas o m.entries .empty .empty).1 ↔
      ∃ r, (k, r) ∈ m ∧ k < o ∧ a = { r with size := min r.size (o - k) } := by
  have hkey : ∀ e f, headPart o e = some f → f.1 = e.1 := by
    intro e f he
    unfold headPart at he
    split_ifs at he <;> simp at he <;> rw [← he]
  have hdist : (m.entries.filterMap (headPart o)).Pairwise fun p q => p.1 ≠ q.1 := by
    rw [List.pairwise_filterMap]
    refine m.sorted.imp fun hlt p hp q hq => ?_
    rw [hkey _ _ hp, hkey _ _ hq]
    omega
  rw [splitPhysAreas_eq, mem_insertAll hdist, List.mem_filterMap]
  simp only [OrdMap.not_mem_empty, false_and, or_false]
  constructor
  · rintro ⟨⟨j, r⟩, hj, hp⟩
    have hpos := h.pos j r hj
    simp only [physExtent_size] at hpos
    unfold headPart at hp
    simp only at hp
    split_ifs at hp with h1 h2
    · simp only [some.injEq, Prod.mk.injEq] at hp
      obtain ⟨rfl, rfl⟩ := hp
      exact ⟨r, hj, by omega, by rw [Nat.min_eq_left (by omega)]⟩
    · simp only [some.injEq, Prod.mk.injEq] at hp
      obtain ⟨rfl, rfl⟩ := hp
      exact ⟨r, hj, h2, by rw [Nat.min_eq_right (by omega)]⟩
  · rintro ⟨r, hr, hk, rfl⟩
    refine ⟨(k, r), hr, ?_⟩
    unfold headPart
    simp only
    split_ifs with h1
    · rw [Nat.min_eq_left (by omega)]
    · rw [Nat.min_eq_right (by omega)]

theorem mem_splitPhysAreas_snd :
    (k, a) ∈ (splitPhysAreas o m.entries .empty .empty).2 ↔ ∃ j r, (j, r) ∈ m ∧ o < j + r.size ∧ k = j - o ∧
        a = { r with base := r.base + (o - j), size := r.size - (o - j) } := by
  have hkey : ∀ e f, tailPart o e = some f → f.1 = e.1 - o ∧ (e.1 < o → o < e.1 + e.2.size) := by
    intro e f he
    unfold tailPart at he
    split_ifs at he with h1 h2 <;> simp at he <;> rw [← he] <;> simp <;> omega
  have hdist : (m.entries.filterMap (tailPart o)).Pairwise fun p q => p.1 ≠ q.1 := by
    rw [List.pairwise_filterMap]
    refine List.Pairwise.imp_of_mem ?_ m.sorted
    intro e f he hf hlt p hp q hq
    have hd := h.disjoint e.1 e.2 f.1 f.2 he hf hlt
    simp only [physExtent_size] at hd
    have h1 := hkey _ _ hp
    have h2 := hkey _ _ hq
    omega
  rw [splitPhysAreas_eq, mem_insertAll hdist, List.mem_filterMap]
  simp only [OrdMap.not_mem_empty, false_and, or_false]
  constructor
  · rintro ⟨⟨j, r⟩, hj, hp⟩
    have hpos := h.pos j r hj
    simp only [physExtent_size] at hpos
    unfold tailPart at hp
    split_ifs at hp with h1 h2
    · simp only [some.injEq, Prod.mk.injEq] at hp
      obtain ⟨rfl, rfl⟩ := hp
      exact ⟨j, r, hj, by omega, rfl, by rw [Nat.sub_eq_zero_of_le h1]; simp⟩
    · simp only [some.injEq, Prod.mk.injEq] at hp
      obtain ⟨rfl, rfl⟩ := hp
      exact ⟨j, r, hj, h2, by omega, rfl⟩
  · rintro ⟨j, r, hr, hlt, rfl, rfl⟩
    refine ⟨(j, r), hr, ?_⟩
    unfold tailPart
    split_ifs with h1
    · rw [Nat.sub_eq_zero_of_le h1]
      simp
    · rw [Nat.sub_eq_zero_of_le (show j ≤ o by omega)]

theorem splitPhysAreas_fst_part (ho : o < n) :
    (splitPhysAreas o m.entries .empty .empty).1.Partition physExtent (Span 0 o) where
  pos := by
    intro k a ha
    obtain ⟨r, hr, hk, rfl⟩ := (mem_splitPhysAreas_fst h).mp ha
    have := h.pos k r hr
    simp only [physExtent_size] at this ⊢
    omega
  disjoint := by
    intro k a l b ha hb hlt
    obtain ⟨r, hr, -, rfl⟩ := (mem_splitPhysAreas_fst h).mp ha
    obtain ⟨r', hr', -, rfl⟩ := (mem_splitPhysAreas_fst h).mp hb
    have := h.disjoint k r l r' hr hr' hlt
    simp only [physExtent_size] at this ⊢
    omega
  cover := by
    intro x
    constructor
    · rintro ⟨-, hx⟩
      obtain ⟨k, r, hr, hk, hend⟩ := (h.cover x).mp ⟨Nat.zero_le x, by omega⟩
      simp only [physExtent_size] at hend
      refine ⟨k, _, (mem_splitPhysAreas_fst h).mpr ⟨r, hr, by omega, rfl⟩, hk, ?_⟩
      simp only [physExtent_size]
      omega
    · rintro ⟨k, a, ha, hk, hend⟩
      obtain ⟨r, hr, hko, rfl⟩ := (mem_splitPhysAreas_fst h).mp ha
      simp only [physExtent_size] at hend
      exact ⟨Nat.zero_le x, by omega⟩

theorem splitPhysAreas_fst_byteAt (ho : o < n)
    (hi : i < o) : (splitPhysAreas o m.entries .empty .empty).1.byteAt physExtent i = m.byteAt physExtent i := by
  obtain ⟨k, r, hr, hk, hend⟩ := (h.cover i).mp ⟨Nat.zero_le i, by omega⟩
  simp only [physExtent_size] at hend
  rw [h.byteAt_of_covers ⟨hr, hk, hend⟩]
  refine (splitPhysAreas_fst_part h ho).byteAt_of_covers (a := { r with size := min r.size (o - k) }) ⟨?_, hk, ?_⟩
  · exact (mem_splitPhysAreas_fst h).mpr ⟨r, hr, by omega, rfl⟩
  · simp only [physExtent_size]
    omega

theorem splitPhysAreas_snd_part :
    (splitPhysAreas o m.entries .empty .empty).2.Partition physExtent (Span 0 (n - o)) where
  pos := by
    intro k a ha
    obtain ⟨j, r, hr, hlt, rfl, rfl⟩ := (mem_splitPhysAreas_snd h).mp ha
    have := h.pos j r hr
    simp only [physExtent_size] at this ⊢
    omega
  disjoint := by
    intro k a l b ha hb hlt
    obtain ⟨j, r, hr, ho, rfl, rfl⟩ := (mem_splitPhysAreas_snd h).mp ha
    obtain ⟨j', r', hr', ho', rfl, rfl⟩ := (mem_splitPhysAreas_snd h).mp hb
    have := h.disjoint j r j' r' hr hr' (by omega)
    simp only [physExtent_size] at this ⊢
    omega
  cover := by
    intro x
    constructor
    · rintro ⟨-, hx⟩
      obtain ⟨j, r, hr, hj, hend⟩ := (h.cover (o + x)).mp ⟨Nat.zero_le _, by omega⟩
      simp only [physExtent_size] at hend
      refine ⟨j - o, _, (mem_splitPhysAreas_snd h).mpr ⟨j, r, hr, by omega, rfl, rfl⟩, by omega, ?_⟩
      simp only [physExtent_size]
      omega
    · rintro ⟨k, a, ha, hk, hend⟩
      obtain ⟨j, r, hr, ho, rfl, rfl⟩ := (mem_splitPhysAreas_snd h).mp ha
      simp only [physExtent_size] at hend
      obtain ⟨-, hlt⟩ := (h.cover (o + x)).mpr ⟨j, r, hr, by omega, by simp only [physExtent_size]; omega⟩
      exact ⟨Nat.zero_le x, by omega⟩

theorem splitPhysAreas_snd_byteAt (hi : i < n - o) :
    (splitPhysAreas o m.entries .empty .empty).2.byteAt physExtent i = m.byteAt physExtent (o + i) := by
  obtain ⟨j, r, hr, hj, hend⟩ := (h.cover (o + i)).mp ⟨Nat.zero_le _, by omega⟩
  simp only [physExtent_size] at hend
  rw [h.byteAt_of_covers ⟨hr, hj, hend⟩]
  rw [(splitPhysAreas_snd_part h).byteAt_of_covers (k := j - o)
    (a := { r with base := r.base + (o - j), size := r.size - (o - j) }) ⟨?_, by omega, ?_⟩]
  · simp only [physExtent_byte, some.injEq, PByte.mk.injEq, and_true]
    omega
  · exact (mem_splitPhysAreas_snd h).mpr ⟨j, r, hr, by omega, rfl, rfl⟩
  · simp only [physExtent_size]
    omega

end

/-! ## Appending the physical areas of a second virtual area -/

theorem appendAreas_eq (es : List (ℕ × PhysicalMemoryArea)) :
    appendAreas o es m = insertAll (es.map fun e => (o + e.1, e.2)) m := by
  induction es generalizing m with
  | nil => rfl
  | cons e es ih => rw [appendAreas, ih, List.map_cons, insertAll]

section

variable (h : m.Partition physExtent (Span 0 n))

include h

theorem mem_appendAreas : (k, a) ∈ appendAreas n m'.entries m ↔ (k, a) ∈ m ∨ ∃ j, (j, a) ∈ m' ∧ k = n + j := by
  have hdist : (m'.entries.map fun e => (n + e.1, e.2)).Pairwise fun p q => p.1 ≠ q.1 := by
    rw [List.pairwise_map]
    exact m'.sorted.imp fun hlt => by omega
  rw [appendAreas_eq, mem_insertAll hdist]
  simp only [List.mem_map, Prod.mk.injEq, Prod.exists]
  constructor
  · rintro (⟨j, b, hj, rfl, rfl⟩ | ⟨hk, -⟩)
    · exact .inr ⟨j, hj, rfl⟩
    · exact .inl hk
  · rintro (hk | ⟨j, hj, rfl⟩)
    · refine .inr ⟨hk, ?_⟩
      rintro q ⟨j, b, hj, rfl⟩
      have hpos := h.pos k a hk
      obtain ⟨-, hlt⟩ := (h.cover k).mpr ⟨k, a, hk, le_rfl, by omega⟩
      omega
    · exact .inl ⟨j, a, hj, rfl, rfl⟩

theorem appendAreas_part (h' : m'.Partition physExtent (Span 0 o)) :
    (appendAreas n m'.entries m).Partition physExtent (Span 0 (n + o)) where
  pos := by
    intro k a ha
    rcases (mem_appendAreas h).mp ha with ha | ⟨j, ha, -⟩
    · exact h.pos k a ha
    · exact h'.pos j a ha
  disjoint := by
    intro k a l b ha hb hlt
    have hle : ∀ k a, (k, a) ∈ m → k + physExtent.size a ≤ n := by
      intro k a ha
      have hpos := h.pos k a ha
      obtain ⟨-, hlt⟩ := (h.cover (k + physExtent.size a - 1)).mpr ⟨k, a, ha, by omega, by omega⟩
      omega
    rcases (mem_appendAreas h).mp ha with hka | ⟨j, hja, rfl⟩
    · rcases (mem_appendAreas h).mp hb with hlb | ⟨j', hjb, rfl⟩
      · exact h.disjoint k a l b hka hlb hlt
      · have := hle k a hka
        omega
    · rcases (mem_appendAreas h).mp hb with hlb | ⟨j', hjb, rfl⟩
      · have h1 := hle l b hlb
        omega
      · have := h'.disjoint j a j' b hja hjb (by omega)
        omega
  cover := by
    intro x
    constructor
    · rintro ⟨-, hx⟩
      rcases Nat.lt_or_ge x n with hxn | hxn
      · obtain ⟨k, a, ha, hk⟩ := (h.cover x).mp ⟨Nat.zero_le x, hxn⟩
        exact ⟨k, a, (mem_appendAreas h).mpr (.inl ha), hk⟩
      · obtain ⟨k, a, ha, hk, hend⟩ := (h'.cover (x - n)).mp ⟨Nat.zero_le _, by omega⟩
        exact ⟨n + k, a, (mem_appendAreas h).mpr (.inr ⟨k, ha, rfl⟩), by omega, by omega⟩
    · rintro ⟨k, a, ha, hk, hend⟩
      rcases (mem_appendAreas h).mp ha with hka | ⟨j, hja, rfl⟩
      · obtain ⟨-, hlt⟩ := (h.cover x).mpr ⟨k, a, hka, hk, hend⟩
        exact ⟨Nat.zero_le x, by omega⟩
      · obtain ⟨-, hlt⟩ := (h'.cover (x - n)).mpr ⟨j, a, hja, by omega, by omega⟩
        exact ⟨Nat.zero_le x, by omega⟩

theorem appendAreas_byteAt_fst (h' : m'.Partition physExtent (Span 0 o)) (hi : i < n) :
    (appendAreas n m'.entries m).byteAt physExtent i = m.byteAt physExtent i := by
  obtain ⟨k, a, ha, hk⟩ := (h.cover i).mp ⟨Nat.zero_le i, hi⟩
  rw [h.byteAt_of_covers ⟨ha, hk⟩]
  exact (appendAreas_part h h').byteAt_of_covers ⟨(mem_appendAreas h).mpr (.inl ha), hk⟩

theorem appendAreas_byteAt_snd (h' : m'.Partition physExtent (Span 0 o)) (hi : i < o) :
    (appendAreas n m'.entries m).byteAt physExtent (n + i) = m'.byteAt physExtent i := by
  obtain ⟨k, a, ha, hk, hend⟩ := (h'.cover i).mp ⟨Nat.zero_le i, hi⟩
  rw [h'.byteAt_of_covers ⟨ha, hk, hend⟩, (appendAreas_part h h').byteAt_of_covers
    ⟨(mem_appendAreas h).mpr (.inr ⟨k, ha, rfl⟩), by omega, by omega⟩,
    show n + i - (n + k) = i - k by omega]

end

/-! ## Splitting and carving virtual areas -/

section Virtual

variable {m m' : VMAMap} {R : ℕ → Prop} {l addr size : ℕ} {vma next : VirtualMemoryArea} {b : VByte}

theorem splitParts_fields (vma : VirtualMemoryArea) (o : ℕ) :
    (splitParts vma o).1.base = vma.base ∧ (splitParts vma o).1.size = o ∧
      (splitParts vma o).1.type = vma.type ∧ (splitParts vma o).2.base = vma.base + o ∧
      (splitParts vma o).2.size = vma.size - o ∧ (splitParts vma o).2.type = vma.type := by
  unfold splitParts
  split_ifs <;> simp

theorem splitParts_backed (h : vma.Backed) (ho : o < vma.size) :
    (splitParts vma o).1.Backed ∧ (splitParts vma o).2.Backed := by
  by_cases ht : vma.type.HasPhysicalBacking
  · have hpart := h.part ht
    simp only [splitParts, if_pos ht]
    exact ⟨⟨fun _ => splitPhysAreas_fst_part hpart ho, fun hn => absurd ht hn⟩,
      ⟨fun _ => splitPhysAreas_snd_part hpart, fun hn => absurd ht hn⟩⟩
  · simp only [splitParts, if_neg ht]
    exact ⟨⟨fun hp => absurd hp ht, fun _ => h.empty ht⟩, ⟨fun hp => absurd hp ht, fun _ => h.empty ht⟩⟩

theorem byteAt_empty (i : ℕ) : (OrdMap.empty : PhysMap).byteAt physExtent i = none := rfl

theorem splitParts_byte_fst (h : vma.Backed) (ho : o < vma.size) (hi : i < o) :
    vmaExtent.byte (splitParts vma o).1 i = vmaExtent.byte vma i := by
  by_cases ht : vma.type.HasPhysicalBacking
  · simp only [splitParts, if_pos ht, vmaExtent_byte, splitPhysAreas_fst_byteAt (h.part ht) ho hi]
  · simp only [splitParts, if_neg ht, vmaExtent_byte]

theorem splitParts_byte_snd (h : vma.Backed) (hi : i < vma.size - o) :
    vmaExtent.byte (splitParts vma o).2 i = vmaExtent.byte vma (o + i) := by
  by_cases ht : vma.type.HasPhysicalBacking
  · simp only [splitParts, if_pos ht, vmaExtent_byte, splitPhysAreas_snd_byteAt (h.part ht) hi, Nat.add_assoc]
  · simp only [splitParts, if_neg ht, vmaExtent_byte, h.empty ht, byteAt_empty, Nat.add_assoc]

theorem splitVMA_spec (h : VTiles m R) (hs : splitVMA m k o = .ok (m', l)) :
    ∃ vma, (k, vma) ∈ m ∧ 0 < o ∧ o < vma.size ∧ l = k + o ∧
      m' = (m.insert k (splitParts vma o).1).insert (k + o) (splitParts vma o).2 ∧ VTiles m' R ∧
      ∀ x, m'.byteAt vmaExtent x = m.byteAt vmaExtent x := by
  simp only [splitVMA, bind_eq_ok, deref_eq_ok, require_eq_ok, get?_eq_some_iff,
    pure_eq_ok, Prod.mk.injEq] at hs
  obtain ⟨vma, hk, -, ⟨ho', ho⟩, hm', hl⟩ := hs
  obtain rfl := h.keyed k vma hk
  have hbacked := h.backed _ vma hk
  obtain ⟨hb1, hs1, -, hb2, hs2, -⟩ := splitParts_fields vma o
  have hnew : ¬ (m.insert vma.base (splitParts vma o).1).HasKey (vma.base + o) := by
    rw [OrdMap.hasKey_insert]
    rintro (heq | hkey)
    · omega
    · exact h.part.not_hasKey_inside hk ho ho' hkey
  rw [hb2, OrdMap.emplace_of_not_hasKey hnew] at hm'
  subst hm'
  have hpart := h.part.split hk ho ho' (c := (splitParts vma o).1) (d := (splitParts vma o).2) hs1 hs2
  have hbytes : ∀ x, _ = m.byteAt vmaExtent x := fun x =>
    h.part.byteAt_split (x := x) hk ho ho' (c := (splitParts vma o).1)
      (d := (splitParts vma o).2) hs1 hs2 (fun i hi => splitParts_byte_fst hbacked ho' hi)
      (fun i hi => splitParts_byte_snd hbacked hi)
  refine ⟨vma, hk, ho, ho', by omega, rfl, ⟨hpart, ?_, ?_⟩, hbytes⟩
  · intro j v hj
    simp only [mem_insert, Prod.mk.injEq] at hj
    rcases hj with ⟨rfl, rfl⟩ | ⟨⟨rfl, rfl⟩ | ⟨hj, -⟩, -⟩
    · exact hb2
    · exact hb1
    · exact h.keyed j v hj
  · intro j v hj
    simp only [mem_insert, Prod.mk.injEq] at hj
    rcases hj with ⟨rfl, rfl⟩ | ⟨⟨rfl, rfl⟩ | ⟨hj, -⟩, -⟩
    · exact (splitParts_backed hbacked ho').2
    · exact (splitParts_backed hbacked ho').1
    · exact h.backed j v hj

/-- What carving `[addr, addr + size)` out of the map does: the range lies in one area and becomes an
area of its own, and every byte stays as it was. -/
structure VCarved (m m' : VMAMap) (R : ℕ → Prop) (addr size : ℕ) : Prop where
  tiles : VTiles m' R
  pos : 0 < size
  fits : ∃ k vma, (k, vma) ∈ m ∧ k ≤ addr ∧ addr + size ≤ k + vma.size
  entry : ∃ vma, (addr, vma) ∈ m' ∧ vma.base = addr ∧ vma.size = size
  bytes : ∀ x, m'.byteAt vmaExtent x = m.byteAt vmaExtent x

theorem carveVMA_spec (h : VTiles m R) (hsize : size < 2^64)
    (hc : carveVMA m addr size = .ok (m', k)) : k = addr ∧ VCarved m m' R addr size := by
  simp only [carveVMA, bind_eq_ok, deref_eq_ok, require_eq_ok, Prod.exists] at hc
  obtain ⟨j, vma, hf, -, hbase, hc⟩ := hc
  rw [OrdMap.floor?_eq_some_iff] at hf
  obtain ⟨hj, hja, -⟩ := hf
  have hvj := h.keyed j vma hj
  have hpos := h.part.pos j vma hj
  simp only [vmaExtent_size] at hpos
  by_cases hwhole : addr - vma.base = 0 ∧ size = vma.size
  · -- The whole area is asked for.
    rw [if_pos hwhole, pure_eq_ok, Prod.mk.injEq] at hc
    obtain ⟨rfl, rfl⟩ := hc
    obtain rfl : j = addr := by omega
    exact ⟨rfl, h, by omega, ⟨j, vma, hj, le_rfl, by omega⟩, ⟨vma, hj, hvj, hwhole.2.symm⟩,
      fun _ => rfl⟩
  · simp only [if_neg hwhole, bind_eq_ok, require_eq_ok] at hc
    obtain ⟨-, hfit, m1, hm1, hc⟩ := hc
    -- The first cut is at the end of the range, and the area found shrinks to end there.
    have hfirst : ∃ v1, (j, v1) ∈ m1 ∧ v1.base = j ∧ v1.size = add64 (addr - vma.base) size ∧
        VTiles m1 R ∧ ∀ x, m1.byteAt vmaExtent x = m.byteAt vmaExtent x := by
      rw [ite_not] at hm1
      split_ifs at hm1 with heq
      · rw [pure_eq_ok] at hm1
        subst hm1
        exact ⟨vma, hj, hvj, heq.symm, h, fun _ => rfl⟩
      · simp only [map_eq_ok, Prod.exists] at hm1
        obtain ⟨m2, l, hs, rfl⟩ := hm1
        obtain ⟨w, hw, ho, ho', -, rfl, ht, hbytes⟩ := splitVMA_spec h hs
        obtain rfl := mem_unique hj hw
        obtain ⟨hb1, hs1, -⟩ := splitParts_fields vma (add64 (addr - vma.base) size)
        refine ⟨_, ?_, by omega, hs1, ht, hbytes⟩
        simp only [mem_insert, Prod.mk.injEq, true_and, true_or]
        omega
    obtain ⟨v1, hj1, hbase1, hsize1, ht1, hbytes1⟩ := hfirst
    rw [ite_not] at hc
    split_ifs at hc with hstart
    · -- The range starts where the area does.
      simp only [pure_eq_ok, Prod.mk.injEq] at hc
      obtain ⟨rfl, rfl⟩ := hc
      have hpos1 := ht1.part.pos j v1 hj1
      simp only [vmaExtent_size] at hpos1
      have hadd : add64 (addr - vma.base) size = size := by
        rw [hstart, add64_of_lt (by omega), Nat.zero_add]
      obtain rfl : j = addr := by omega
      exact ⟨rfl, ht1, by omega, ⟨j, vma, hj, le_rfl, by omega⟩, ⟨v1, hj1, hbase1, by omega⟩,
        hbytes1⟩
    · -- The second cut is at the start of the range.
      obtain ⟨w, hw, hpos2, hlt, rfl, rfl, ht, hbytes⟩ := splitVMA_spec ht1 hc
      obtain rfl := mem_unique hj1 hw
      obtain ⟨-, -, -, hb2, hs2, -⟩ := splitParts_fields v1 (addr - vma.base)
      have hadd : add64 (addr - vma.base) size = addr - vma.base + size := by
        unfold add64 at hsize1 ⊢
        omega
      have haddr : j + (addr - vma.base) = addr := by omega
      rw [haddr] at ht hbytes ⊢
      refine ⟨rfl, ht, by omega, ⟨j, vma, hj, hja, by omega⟩,
        ⟨(splitParts v1 (addr - vma.base)).2, ?_, by omega, by omega⟩, ?_⟩
      · exact mem_insert.mpr (.inl rfl)
      · intro x
        rw [hbytes, hbytes1]

/-! ## Merging virtual areas -/

theorem canMergeWith_eq_ok (h : vma.canMergeWith next = .ok true) :
    vma.base + vma.size = next.base ∧ vma.type = next.type ∧ vma.prot = next.prot := by
  unfold VirtualMemoryArea.canMergeWith at h
  by_cases h1 : vma.disallow_merge = true ∨ next.disallow_merge = true
  · simp [if_pos h1, pure_eq_ok] at h
  · by_cases h2 : vma.base + vma.size = next.base
    · simp only [if_neg h1, h2, ne_eq, not_true_eq_false, if_false, bind_eq_ok, pure_eq_ok, decide_eq_true_eq] at h
      obtain ⟨-, -, -, hprot, htype, -⟩ := h
      exact ⟨h2, htype, hprot⟩
    · simp [if_pos h2, pure_eq_ok] at h

theorem mergedVMA_backed (h : vma.Backed) (h' : next.Backed) (ht : vma.type = next.type) :
    (mergedVMA vma next).Backed := by
  refine ⟨fun hp => ?_, fun hn => ?_⟩
  · exact appendAreas_part (h.part hp) (h'.part (ht ▸ hp))
  · have hnext : next.phys_areas = .empty := h'.empty (ht ▸ hn)
    simp only [mergedVMA, hnext]
    exact h.empty hn

theorem mergedVMA_byte_fst (h : vma.Backed) (h' : next.Backed) (ht : vma.type = next.type) (hi : i < vma.size) :
    vmaExtent.byte (mergedVMA vma next) i = vmaExtent.byte vma i := by
  simp only [vmaExtent_byte, mergedVMA, VByte.mk.injEq, true_and]
  by_cases hp : vma.type.HasPhysicalBacking
  · rw [appendAreas_byteAt_fst (h.part hp) (h'.part (ht ▸ hp)) hi]
  · rw [h'.empty (ht ▸ hp)]
    rfl

theorem mergedVMA_byte_snd (h : vma.Backed) (h' : next.Backed)
    (hb : vma.base + vma.size = next.base) (ht : vma.type = next.type)
    (hprot : vma.prot = next.prot) (hi : i < next.size) :
    vmaExtent.byte (mergedVMA vma next) (vma.size + i) = vmaExtent.byte next i := by
  simp only [vmaExtent_byte, mergedVMA, VByte.mk.injEq, ← Nat.add_assoc, hb, ht, hprot, true_and]
  by_cases hp : vma.type.HasPhysicalBacking
  · rw [appendAreas_byteAt_snd (h.part hp) (h'.part (ht ▸ hp)) hi]
  · rw [h'.empty (ht ▸ hp), h.empty hp]
    rfl

theorem VTiles.merge (h : VTiles m R) (hk : (k, vma) ∈ m) (hl : (l, next) ∈ m)
    (hcan : vma.canMergeWith next = .ok true) : VTiles ((m.insert k (mergedVMA vma next)).erase l) R ∧
      ∀ x, ((m.insert k (mergedVMA vma next)).erase l).byteAt vmaExtent x = m.byteAt vmaExtent x := by
  obtain ⟨hb, ht, hprot⟩ := canMergeWith_eq_ok hcan
  have hkb := h.keyed k vma hk
  have hkl : l = k + vmaExtent.size vma := by
    have := h.keyed l next hl
    simp only [vmaExtent_size]
    omega
  have hbk := h.backed k vma hk
  have hbl := h.backed l next hl
  refine ⟨⟨h.part.merge hk hl hkl rfl, ?_, ?_⟩, fun x => ?_⟩
  · intro j v hj
    simp only [mem_erase, mem_insert, Prod.mk.injEq] at hj
    rcases hj with ⟨⟨rfl, rfl⟩ | ⟨hj, -⟩, -⟩
    · exact hkb
    · exact h.keyed j v hj
  · intro j v hj
    simp only [mem_erase, mem_insert, Prod.mk.injEq] at hj
    rcases hj with ⟨⟨rfl, rfl⟩ | ⟨hj, -⟩, -⟩
    · exact mergedVMA_backed hbk hbl ht
    · exact h.backed j v hj
  · exact h.part.byteAt_merge hk hl hkl rfl (fun i hi => mergedVMA_byte_fst hbk hbl ht hi)
      (fun i hi => mergedVMA_byte_snd hbk hbl hb ht hprot hi)

theorem mergeNextVMA_spec (h : VTiles m R) (hk : (k, vma) ∈ m) (hm : mergeNextVMA m k = .ok m') :
    VTiles m' R ∧ (∀ x, m'.byteAt vmaExtent x = m.byteAt vmaExtent x) ∧ ∃ v, (k, v) ∈ m' ∧ vma.size ≤ v.size := by
  simp only [mergeNextVMA, get?_eq_some_iff.mpr hk, deref, bind_eq_ok, Except.ok.injEq, exists_eq_left'] at hm
  rcases hn : m.next? k with - | ⟨l, next⟩
  · simp only [hn, pure_eq_ok] at hm
    subst hm
    exact ⟨h, fun _ => rfl, vma, hk, le_rfl⟩
  · simp only [hn, bind_eq_ok] at hm
    obtain ⟨c, hcan, hm⟩ := hm
    cases c with
    | false =>
      simp only [Bool.false_eq_true, if_false, pure_eq_ok] at hm
      subst hm
      exact ⟨h, fun _ => rfl, vma, hk, le_rfl⟩
    | true =>
      simp only [if_true, pure_eq_ok] at hm
      subst hm
      rw [OrdMap.next?_eq_some_iff] at hn
      obtain ⟨ht, hbytes⟩ := h.merge hk hn.1 hcan
      refine ⟨ht, hbytes, mergedVMA vma next, ?_, by simp [mergedVMA]⟩
      simp only [mem_erase, mem_insert, true_or, true_and]
      omega

theorem mem_of_mergeAdjacentVMA (hm : mergeAdjacentVMA m k = .ok (m', l)) : ∃ v, (k, v) ∈ m := by
  simp only [mergeAdjacentVMA, mergeNextVMA, bind_eq_ok, deref_eq_ok] at hm
  obtain ⟨-, ⟨v, hv, -⟩, -⟩ := hm
  exact ⟨v, get?_eq_some_iff.mp hv⟩

theorem mergeAdjacentVMA_spec (h : VTiles m R) (hk : (k, vma) ∈ m) (hm : mergeAdjacentVMA m k = .ok (m', l)) :
    VTiles m' R ∧ (∀ x, m'.byteAt vmaExtent x = m.byteAt vmaExtent x) ∧
      ∃ v, (l, v) ∈ m' ∧ l ≤ k ∧ k + vma.size ≤ l + v.size := by
  simp only [mergeAdjacentVMA, bind_eq_ok] at hm
  obtain ⟨m1, hnext, hm⟩ := hm
  obtain ⟨ht1, hbytes1, v1, hk1, hle⟩ := mergeNextVMA_spec h hk hnext
  simp only [mergePrevVMA, get?_eq_some_iff.mpr hk1, deref, bind_eq_ok, Except.ok.injEq, exists_eq_left'] at hm
  rcases hp : m1.prev? k with - | ⟨j, prev⟩
  · simp only [hp, pure_eq_ok, Prod.mk.injEq] at hm
    obtain ⟨rfl, rfl⟩ := hm
    exact ⟨ht1, hbytes1, v1, hk1, le_rfl, by omega⟩
  · simp only [hp, bind_eq_ok] at hm
    obtain ⟨c, hcan, hm⟩ := hm
    cases c with
    | false =>
      obtain ⟨rfl, rfl⟩ := hm
      exact ⟨ht1, hbytes1, v1, hk1, le_rfl, by omega⟩
    | true =>
      simp only [if_true, pure_eq_ok, Prod.mk.injEq] at hm
      obtain ⟨rfl, rfl⟩ := hm
      rw [OrdMap.prev?_eq_some_iff] at hp
      obtain ⟨ht, hbytes⟩ := ht1.merge hp.1 hk1 hcan
      have hadj := (canMergeWith_eq_ok hcan).1
      have hjb := ht1.keyed j prev hp.1
      have hkb := ht1.keyed k v1 hk1
      refine ⟨ht, fun x => by rw [hbytes, hbytes1], mergedVMA prev v1, ?_, by omega, ?_⟩
      · simp only [mem_erase, mem_insert, true_or, true_and]
        omega
      · simp only [mergedVMA]
        omega

/-- What carving a range, replacing its area by `vma`, and merging it does: the bytes of the range
are those of `vma`, and the other bytes stay. -/
structure VReplaced (m m' : VMAMap) (R : ℕ → Prop) (addr size : ℕ) (vma : VirtualMemoryArea) :
    Prop where
  tiles : VTiles m' R
  pos : 0 < size
  fits : ∃ k vma, (k, vma) ∈ m ∧ k ≤ addr ∧ addr + size ≤ k + vma.size
  bytes : ∀ x, m'.byteAt vmaExtent x =
    if InRange addr size x then some (vmaExtent.byte vma (x - addr)) else m.byteAt vmaExtent x

theorem VTiles.replace (h : VTiles m R) (hk : (k, vma) ∈ m) (hb : next.base = vma.base)
    (hs : next.size = vma.size) (hn : next.Backed) : VTiles (m.insert k next) R := by
  have hkb := h.keyed k vma hk
  refine ⟨h.part.replace hk hs, fun j v hj => ?_, fun j v hj => ?_⟩
  · rw [mem_insert, Prod.mk.injEq] at hj
    rcases hj with ⟨rfl, rfl⟩ | ⟨hj, -⟩
    · omega
    · exact h.keyed j v hj
  · rw [mem_insert, Prod.mk.injEq] at hj
    rcases hj with ⟨-, rfl⟩ | ⟨hj, -⟩
    · exact hn
    · exact h.backed j v hj

theorem vreplaced_of_carve (h : VTiles m R) (hsize : size < 2^64)
    (hc : carveVMA m addr size = .ok (m', k)) (hg : m'.get? k = some vma)
    (hb : u.base = vma.base) (hs : u.size = vma.size) (hn : u.Backed) :
    addr = k ∧ vma.base = addr ∧ vma.size = size ∧ VReplaced m (m'.insert k u) R addr size u := by
  obtain ⟨rfl, hcarved⟩ := carveVMA_spec h hsize hc
  rw [get?_eq_some_iff] at hg
  obtain ⟨w, hw, hbase, hsz⟩ := hcarved.entry
  obtain rfl := mem_unique hg hw
  refine ⟨rfl, hbase, hsz, hcarved.tiles.replace hg hb hs hn, hcarved.pos, hcarved.fits, ?_⟩
  intro x
  rw [hcarved.tiles.part.byteAt_replace hg hs, hcarved.bytes, vmaExtent_size, hsz]
  by_cases hx : InRange k size x
  · rw [if_pos (c := k ≤ x ∧ x < k + size) hx, if_pos hx]
  · rw [if_neg (c := k ≤ x ∧ x < k + size) hx, if_neg hx]

theorem VReplaced.merge (h : VReplaced m m' R addr size vma) (hk : (k, next) ∈ m')
    (hm : mergeAdjacentVMA m' k = .ok (m2, l)) : VReplaced m m2 R addr size vma := by
  obtain ⟨ht, hbytes, -⟩ := mergeAdjacentVMA_spec h.tiles hk hm
  exact ⟨ht, h.pos, h.fits, fun x => by rw [hbytes, h.bytes]⟩

theorem VReplaced.mem (h : VReplaced m m' R addr size vma) (ht : VTiles m R) (hx : InRange addr size x) : R x := by
  obtain ⟨k, w, hk, hka, hend⟩ := h.fits
  unfold InRange at hx
  exact (ht.part.cover x).mpr ⟨k, w, hk, by omega, by simp only [vmaExtent_size]; omega⟩

end Virtual

end ShadPS4.Memory
