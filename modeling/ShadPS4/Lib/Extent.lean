import Mathlib.Data.Set.Card
import Mathlib.Order.Interval.Finset.Nat
import ShadPS4.Lib.OrdMap

/-!
# Interval maps

An ordered map whose entry `(k, a)` stands for the interval `[k, k + size a)`, and whose values say what each
address of their interval carries (`byte a i`, at offset `i`), as a memory manager's area maps do.
-/

namespace ShadPS4

/-- How a value of type `α` occupies addresses: how many, and what it says of each offset. -/
structure Extent (α β : Type) where
  size : α → ℕ
  byte : α → ℕ → β

namespace OrdMap

variable {α β : Type} {E : Extent α β} {m m' : OrdMap α} {R : ℕ → Prop} {k l x o : ℕ}
  {a b c d : α}

/-- The entry `(k, a)` of the map covers the address `x`. -/
def Covers (E : Extent α β) (m : OrdMap α) (x k : ℕ) (a : α) : Prop :=
  (k, a) ∈ m ∧ k ≤ x ∧ x < k + E.size a

/-- The entries' intervals are nonempty, pairwise disjoint, and cover exactly the addresses in
`R`. -/
structure Partition (E : Extent α β) (m : OrdMap α) (R : ℕ → Prop) : Prop where
  pos : ∀ k a, (k, a) ∈ m → 0 < E.size a
  disjoint : ∀ k a l b, (k, a) ∈ m → (l, b) ∈ m → k < l → k + E.size a ≤ l
  cover : ∀ x, R x ↔ ∃ k a, m.Covers E x k a

/-- What the map says of the address `x`. -/
def byteAt (E : Extent α β) (m : OrdMap α) (x : ℕ) : Option β :=
  match m.floor? x with
  | some (k, a) => if x < k + E.size a then some (E.byte a (x - k)) else none
  | none => none

/-! ## Reading -/

theorem Partition.covers_unique (h : m.Partition E R) (ha : m.Covers E x k a)
    (hb : m.Covers E x l b) : k = l ∧ a = b := by
  obtain ⟨hka, hk, hxa⟩ := ha
  obtain ⟨hlb, hl, hxb⟩ := hb
  have hkl : k = l := by
    rcases Nat.lt_trichotomy k l with hlt | heq | hlt
    · have := h.disjoint k a l b hka hlb hlt
      omega
    · exact heq
    · have := h.disjoint l b k a hlb hka hlt
      omega
  subst hkl
  exact ⟨rfl, mem_unique hka hlb⟩

theorem Partition.floor?_of_covers (h : m.Partition E R) (hc : m.Covers E x k a) : m.floor? x = some (k, a) := by
  obtain ⟨hka, hk, hx⟩ := hc
  rw [floor?_eq_some_iff]
  refine ⟨hka, hk, ?_⟩
  rintro ⟨l, b⟩ hlb hl
  by_contra hlt
  have := h.disjoint k a l b hka hlb (by simpa using hlt)
  omega

theorem covers_of_floor? (hf : m.floor? x = some (k, a)) (hx : x < k + E.size a) : m.Covers E x k a := by
  rw [floor?_eq_some_iff] at hf
  exact ⟨hf.1, hf.2.1, hx⟩

section

variable (h : m.Partition E R)

include h

theorem Partition.byteAt_of_covers (hc : m.Covers E x k a) : m.byteAt E x = some (E.byte a (x - k)) := by
  simp only [byteAt, h.floor?_of_covers hc]
  rw [if_pos hc.2.2]

theorem Partition.byteAt_eq_some_iff {v : β} :
    m.byteAt E x = some v ↔ ∃ k a, m.Covers E x k a ∧ v = E.byte a (x - k) := by
  constructor
  · intro hv
    unfold byteAt at hv
    split at hv
    · rename_i k a hf
      split_ifs at hv with hx
      exact ⟨k, a, covers_of_floor? hf hx, by simpa using hv.symm⟩
    · simp at hv
  · rintro ⟨k, a, hc, rfl⟩
    exact h.byteAt_of_covers hc

theorem Partition.byteAt_eq_none_iff : m.byteAt E x = none ↔ ¬ R x := by
  rw [h.cover]
  constructor
  · rintro hn ⟨k, a, hc⟩
    rw [h.byteAt_of_covers hc] at hn
    simp at hn
  · intro hn
    rcases hv : m.byteAt E x with - | v
    · rfl
    · obtain ⟨k, a, hc, -⟩ := h.byteAt_eq_some_iff.mp hv
      exact absurd ⟨k, a, hc⟩ hn

theorem Partition.byteAt_isSome_iff : (m.byteAt E x).isSome ↔ R x := by
  rw [Option.isSome_iff_ne_none, ne_eq, h.byteAt_eq_none_iff, not_not]

/-- Two partitions of the same addresses read the same byte where each entry of the one is matched
by an entry of the other. -/
theorem Partition.byteAt_congr (h' : m'.Partition E R) (hc : ∀ k a, m.Covers E x k a →
      ∃ k' a', m'.Covers E x k' a' ∧ E.byte a' (x - k') = E.byte a (x - k)) : m'.byteAt E x = m.byteAt E x := by
  by_cases hx : R x
  · obtain ⟨k, a, hka⟩ := (h.cover x).mp hx
    obtain ⟨k', a', hka', hb⟩ := hc k a hka
    rw [h.byteAt_of_covers hka, h'.byteAt_of_covers hka', hb]
  · rw [h.byteAt_eq_none_iff.mpr hx, h'.byteAt_eq_none_iff.mpr hx]

theorem Partition.not_hasKey_inside (hk : (k, a) ∈ m) (ho : 0 < o) (ho' : o < E.size a) : ¬ m.HasKey (k + o) := by
  rintro ⟨b, hb⟩
  have := h.disjoint k a (k + o) b hk hb (by omega)
  omega

theorem Partition.tailFrom_succ (hk : (k, a) ∈ m) : m.tailFrom (k + 1) = m.tailFrom (k + E.size a) := by
  have hpos := h.pos k a hk
  apply List.filter_congr
  rintro ⟨l, b⟩ hl
  have hafter : k < l → k + E.size a ≤ l := h.disjoint k a l b hk hl
  simp only [decide_eq_decide]
  omega

theorem Partition.hasKey_end (hk : (k, a) ∈ m) (hR : R (k + E.size a)) : m.HasKey (k + E.size a) := by
  obtain ⟨l, b, hl, h1, h2⟩ := (h.cover _).mp hR
  have hend : l = k + E.size a := by
    rcases Nat.lt_trichotomy k l with hkl | rfl | hlk
    · have := h.disjoint k a l b hk hl hkl
      omega
    · rw [mem_unique hl hk] at h2
      omega
    · have := h.disjoint l b k a hl hk hlk
      omega
  exact ⟨b, hend ▸ hl⟩

theorem Partition.split (hk : (k, a) ∈ m) (ho : 0 < o)
    (ho' : o < E.size a) (h1 : E.size c = o) (h2 : E.size d = E.size a - o) :
    ((m.insert k c).insert (k + o) d).Partition E R where
  pos := by
    intro l b hb
    simp only [mem_insert, Prod.mk.injEq] at hb
    rcases hb with ⟨-, rfl⟩ | ⟨⟨-, rfl⟩ | ⟨hb, -⟩, -⟩
    · omega
    · omega
    · exact h.pos l b hb
  disjoint := by
    intro l b l' b' hb hb' hlt
    simp only [mem_insert, Prod.mk.injEq] at hb hb'
    have hd := h.disjoint
    rcases hb with ⟨rfl, rfl⟩ | ⟨⟨rfl, rfl⟩ | ⟨hb, hne⟩, -⟩
    · rcases hb' with ⟨rfl, -⟩ | ⟨⟨rfl, -⟩ | ⟨hb', -⟩, -⟩
      · omega
      · omega
      · have := hd k a l' b' hk hb' (by omega)
        omega
    · rcases hb' with ⟨rfl, -⟩ | ⟨⟨rfl, -⟩ | ⟨hb', -⟩, -⟩
      · omega
      · omega
      · have := hd _ a l' b' hk hb' hlt
        omega
    · rcases hb' with ⟨rfl, -⟩ | ⟨⟨rfl, -⟩ | ⟨hb', -⟩, -⟩
      · rcases Nat.lt_or_ge l k with hlk | hlk
        · have := hd l b k a hb hk hlk
          omega
        · have := hd k a l b hk hb (by omega)
          omega
      · exact hd l b _ a hb hk hlt
      · exact hd l b l' b' hb hb' hlt
  cover := by
    intro x
    rw [h.cover]
    simp only [Covers, mem_insert, Prod.mk.injEq]
    constructor
    · rintro ⟨l, b, hb, hl, hx⟩
      by_cases hlk : l = k
      · subst hlk
        obtain rfl := mem_unique hb hk
        rcases Nat.lt_or_ge x (l + o) with hxo | hxo
        · exact ⟨l, c, .inr ⟨.inl ⟨rfl, rfl⟩, by omega⟩, hl, by omega⟩
        · exact ⟨l + o, d, .inl ⟨rfl, rfl⟩, hxo, by omega⟩
      · refine ⟨l, b, .inr ⟨.inr ⟨hb, hlk⟩, ?_⟩, hl, hx⟩
        intro hlo
        exact h.not_hasKey_inside hk ho ho' ⟨b, by rw [← hlo]; exact hb⟩
    · rintro ⟨l, b, ⟨rfl, rfl⟩ | ⟨⟨rfl, rfl⟩ | ⟨hb, -⟩, -⟩, hl, hx⟩
      · exact ⟨k, a, hk, by omega, by omega⟩
      · exact ⟨_, a, hk, hl, by omega⟩
      · exact ⟨l, b, hb, hl, hx⟩

theorem Partition.byteAt_split (hk : (k, a) ∈ m) (ho : 0 < o)
    (ho' : o < E.size a) (h1 : E.size c = o) (h2 : E.size d = E.size a - o)
    (hb1 : ∀ i < o, E.byte c i = E.byte a i) (hb2 : ∀ i < E.size a - o, E.byte d i = E.byte a (o + i)) :
    ((m.insert k c).insert (k + o) d).byteAt E x = m.byteAt E x := by
  refine h.byteAt_congr (h.split hk ho ho' h1 h2) ?_
  rintro l b ⟨hb, hl, hx⟩
  by_cases hlk : l = k
  · subst hlk
    obtain rfl := mem_unique hb hk
    rcases Nat.lt_or_ge x (l + o) with hxo | hxo
    · refine ⟨l, c, ⟨by simp [mem_insert]; omega, hl, by omega⟩, hb1 _ (by omega)⟩
    · refine ⟨l + o, d, ⟨by simp [mem_insert], hxo, by omega⟩, ?_⟩
      rw [hb2 _ (by omega)]
      congr 1
      omega
  · refine ⟨l, b, ⟨?_, hl, hx⟩, rfl⟩
    have hlo : l ≠ k + o := by
      rintro rfl
      exact h.not_hasKey_inside hk ho ho' ⟨b, hb⟩
    simp [mem_insert, hb, hlk, hlo]

theorem Partition.merge (hk : (k, a) ∈ m) (hl : (l, b) ∈ m)
    (hkl : l = k + E.size a) (hc : E.size c = E.size a + E.size b) : ((m.insert k c).erase l).Partition E R where
  pos := by
    intro j d hd
    simp only [mem_erase, mem_insert, Prod.mk.injEq] at hd
    have := h.pos k a hk
    rcases hd with ⟨⟨-, rfl⟩ | ⟨hd, -⟩, -⟩
    · omega
    · exact h.pos j d hd
  disjoint := by
    intro j d j' d' hd hd' hlt
    simp only [mem_erase, mem_insert, Prod.mk.injEq] at hd hd'
    have hdis := h.disjoint
    rcases hd with ⟨⟨rfl, rfl⟩ | ⟨hd, -⟩, -⟩
    · rcases hd' with ⟨⟨rfl, -⟩ | ⟨hd', -⟩, hne⟩
      · omega
      · have h1 := hdis j a j' d' hk hd' hlt
        have h2 := hdis l b j' d' hl hd' (by omega)
        omega
    · rcases hd' with ⟨⟨rfl, -⟩ | ⟨hd', -⟩, -⟩
      · exact hdis j d j' a hd hk hlt
      · exact hdis j d j' d' hd hd' hlt
  cover := by
    intro x
    rw [h.cover]
    simp only [Covers, mem_erase, mem_insert, Prod.mk.injEq]
    constructor
    · rintro ⟨j, d, hd, hj, hx⟩
      by_cases hjk : j = k
      · subst hjk
        obtain rfl := mem_unique hd hk
        exact ⟨j, c, ⟨.inl ⟨rfl, rfl⟩, by omega⟩, hj, by omega⟩
      · by_cases hjl : j = l
        · subst hjl
          obtain rfl := mem_unique hd hl
          exact ⟨k, c, ⟨.inl ⟨rfl, rfl⟩, by omega⟩, by omega, by omega⟩
        · exact ⟨j, d, ⟨.inr ⟨hd, hjk⟩, hjl⟩, hj, hx⟩
    · rintro ⟨j, d, ⟨⟨rfl, rfl⟩ | ⟨hd, -⟩, -⟩, hj, hx⟩
      · rcases Nat.lt_or_ge x l with hxl | hxl
        · exact ⟨j, a, hk, hj, by omega⟩
        · exact ⟨l, b, hl, hxl, by omega⟩
      · exact ⟨j, d, hd, hj, hx⟩

theorem Partition.byteAt_merge (hk : (k, a) ∈ m) (hl : (l, b) ∈ m)
    (hkl : l = k + E.size a) (hc : E.size c = E.size a + E.size b) (hb1 : ∀ i < E.size a, E.byte c i = E.byte a i)
    (hb2 : ∀ i < E.size b, E.byte c (E.size a + i) = E.byte b i) :
    ((m.insert k c).erase l).byteAt E x = m.byteAt E x := by
  refine h.byteAt_congr (h.merge hk hl hkl hc) ?_
  rintro j d ⟨hd, hj, hx⟩
  by_cases hjk : j = k
  · subst hjk
    obtain rfl := mem_unique hd hk
    refine ⟨j, c, ⟨by simp [mem_erase, mem_insert]; omega, hj, by omega⟩, hb1 _ (by omega)⟩
  · by_cases hjl : j = l
    · subst hjl
      obtain rfl := mem_unique hd hl
      refine ⟨k, c, ⟨by simp [mem_erase, mem_insert]; omega, by omega, by omega⟩, ?_⟩
      rw [← hb2 _ (by omega)]
      congr 1
      omega
    · exact ⟨j, d, ⟨by simp [mem_erase, mem_insert, hd, hjk, hjl], hj, hx⟩, rfl⟩

/-! ## Replacing a value -/

theorem Partition.replace (hk : (k, a) ∈ m) (hs : E.size b = E.size a) : (m.insert k b).Partition E R where
  pos := by
    intro j d hd
    simp only [mem_insert, Prod.mk.injEq] at hd
    have := h.pos k a hk
    rcases hd with ⟨-, rfl⟩ | ⟨hd, -⟩
    · omega
    · exact h.pos j d hd
  disjoint := by
    intro j d j' d' hd hd' hlt
    simp only [mem_insert, Prod.mk.injEq] at hd hd'
    rcases hd with ⟨rfl, rfl⟩ | ⟨hd, -⟩
    · rcases hd' with ⟨rfl, -⟩ | ⟨hd', -⟩
      · omega
      · rw [hs]
        exact h.disjoint j a j' d' hk hd' hlt
    · rcases hd' with ⟨rfl, -⟩ | ⟨hd', -⟩
      · exact h.disjoint j d j' a hd hk hlt
      · exact h.disjoint j d j' d' hd hd' hlt
  cover := by
    intro x
    rw [h.cover]
    simp only [Covers, mem_insert, Prod.mk.injEq]
    constructor
    · rintro ⟨j, d, hd, hj, hx⟩
      by_cases hjk : j = k
      · subst hjk
        obtain rfl := mem_unique hd hk
        exact ⟨j, b, .inl ⟨rfl, rfl⟩, hj, by omega⟩
      · exact ⟨j, d, .inr ⟨hd, hjk⟩, hj, hx⟩
    · rintro ⟨j, d, ⟨rfl, rfl⟩ | ⟨hd, -⟩, hj, hx⟩
      · exact ⟨j, a, hk, hj, by omega⟩
      · exact ⟨j, d, hd, hj, hx⟩

theorem Partition.byteAt_replace (hk : (k, a) ∈ m) (hs : E.size b = E.size a) :
    (m.insert k b).byteAt E x = if k ≤ x ∧ x < k + E.size a then some (E.byte b (x - k)) else m.byteAt E x := by
  have h' := h.replace hk hs
  split_ifs with hx
  · exact h'.byteAt_of_covers ⟨by simp [mem_insert], hx.1, by omega⟩
  · refine h.byteAt_congr h' ?_
    rintro j d ⟨hd, hj, hxd⟩
    have hjk : j ≠ k := by
      rintro rfl
      obtain rfl := mem_unique hd hk
      exact hx ⟨hj, hxd⟩
    exact ⟨j, d, ⟨by simp [mem_insert, hd, hjk], hj, hxd⟩, rfl⟩

theorem Partition.congr {Q : ℕ → Prop} (hRQ : ∀ x, R x ↔ Q x) : m.Partition E Q :=
  ⟨h.pos, h.disjoint, fun x => (hRQ x).symm.trans (h.cover x)⟩

end

theorem empty_partition : (empty : OrdMap α).Partition E fun _ => False :=
  ⟨by simp, by simp, fun x => by simp [Covers]⟩

theorem Partition.extend (h : m.Partition E R) (hpos : 0 < E.size a) (hnew : ∀ x, k ≤ x → x < k + E.size a → ¬ R x) :
    (m.insert k a).Partition E fun x => R x ∨ k ≤ x ∧ x < k + E.size a := by
  -- The entries of the map do not reach into the new one, and do not share its key.
  have hold : ∀ l b, (l, b) ∈ m → l + E.size b ≤ k ∨ k + E.size a ≤ l := by
    intro l b hb
    have hbpos := h.pos l b hb
    by_contra hcon
    exact hnew (max k l) (by omega) (by omega)
      ((h.cover _).mpr ⟨l, b, hb, by omega, by omega⟩)
  refine ⟨fun l b hb => ?_, fun l b l' b' hb hb' hlt => ?_, fun x => ?_⟩
  · rw [mem_insert, Prod.mk.injEq] at hb
    rcases hb with ⟨rfl, rfl⟩ | ⟨hb, -⟩
    · exact hpos
    · exact h.pos l b hb
  · rw [mem_insert, Prod.mk.injEq] at hb hb'
    rcases hb with ⟨rfl, rfl⟩ | ⟨hb, -⟩ <;> rcases hb' with ⟨rfl, rfl⟩ | ⟨hb', -⟩
    · omega
    · have := h.pos l' b' hb'
      rcases hold l' b' hb' with h1 | h1 <;> omega
    · have := h.pos l b hb
      rcases hold l b hb with h1 | h1 <;> omega
    · exact h.disjoint l b l' b' hb hb' hlt
  · rw [h.cover]
    constructor
    · rintro (⟨l, b, hb, hx⟩ | hx)
      · refine ⟨l, b, mem_insert.mpr (.inr ⟨hb, ?_⟩), hx⟩
        rcases hold l b hb with h1 | h1 <;> simp only <;> omega
      · exact ⟨k, a, mem_insert.mpr (.inl rfl), hx⟩
    · rintro ⟨l, b, hb, hx⟩
      rw [mem_insert, Prod.mk.injEq] at hb
      rcases hb with ⟨rfl, rfl⟩ | ⟨hb, -⟩
      · exact .inr hx
      · exact .inl ⟨l, b, hb, hx⟩

theorem Partition.mapVal {f : α → α} (h : m.Partition E R) (hs : ∀ a, E.size (f a) = E.size a) :
    (m.mapVal f).Partition E R := by
  refine ⟨fun k b hb => ?_, fun k b l c hb hc hlt => ?_, fun x => ?_⟩
  · obtain ⟨a, ha, rfl⟩ := mem_mapVal.mp hb
    rw [hs]
    exact h.pos k a ha
  · obtain ⟨a, ha, rfl⟩ := mem_mapVal.mp hb
    obtain ⟨d, hd, rfl⟩ := mem_mapVal.mp hc
    rw [hs]
    exact h.disjoint k a l d ha hd hlt
  · rw [h.cover]
    constructor
    · rintro ⟨k, a, ha, hkx, hxk⟩
      exact ⟨k, f a, mem_mapVal.mpr ⟨a, ha, rfl⟩, hkx, by rwa [hs]⟩
    · rintro ⟨k, b, hb, hkx, hxk⟩
      obtain ⟨a, ha, rfl⟩ := mem_mapVal.mp hb
      exact ⟨k, a, ha, hkx, by rwa [hs] at hxk⟩

theorem Partition.byteAt_mapVal {f : α → α} {g : β → β} (h : m.Partition E R)
    (hs : ∀ a, E.size (f a) = E.size a) (hb : ∀ a i, E.byte (f a) i = g (E.byte a i)) :
    (m.mapVal f).byteAt E x = (m.byteAt E x).map g := by
  by_cases hx : R x
  · obtain ⟨k, a, ha, hkx, hxk⟩ := (h.cover x).mp hx
    rw [h.byteAt_of_covers ⟨ha, hkx, hxk⟩, (h.mapVal hs).byteAt_of_covers
      ⟨mem_mapVal.mpr ⟨a, ha, rfl⟩, hkx, by rwa [hs]⟩, hb]
    rfl
  · rw [h.byteAt_eq_none_iff.mpr hx, (h.mapVal hs).byteAt_eq_none_iff.mpr hx]
    rfl

/-- The total size of the entries whose values satisfy a predicate. -/
def sizeSum (E : Extent α β) (m : OrdMap α) (p : α → Bool) : ℕ :=
  ((m.entries.filter fun e => p e.2).map fun e => E.size e.2).sum

theorem finite_intervals (es : List (ℕ × α)) : {x | ∃ e ∈ es, e.1 ≤ x ∧ x < e.1 + E.size e.2}.Finite := by
  induction es with
  | nil => simp
  | cons e es ih =>
    simp only [List.mem_cons, exists_eq_or_imp, Set.ofPred_or]
    exact (Set.finite_Ico _ _).union ih

theorem sum_size_eq_ncard {es : List (ℕ × α)} (hd : es.Pairwise fun e f => e.1 + E.size e.2 ≤ f.1) :
    (es.map fun e => E.size e.2).sum = {x | ∃ e ∈ es, e.1 ≤ x ∧ x < e.1 + E.size e.2}.ncard := by
  induction es with
  | nil => simp
  | cons e es ih =>
    rw [List.pairwise_cons] at hd
    have hhead : (Set.Ico e.1 (e.1 + E.size e.2)).ncard = E.size e.2 := by
      rw [← Finset.coe_Ico, Set.ncard_coe_finset, Nat.card_Ico]
      omega
    have hdisj : Disjoint (Set.Ico e.1 (e.1 + E.size e.2))
        {x | ∃ f ∈ es, f.1 ≤ x ∧ x < f.1 + E.size f.2} := by
      rw [Set.disjoint_left]
      rintro x hx ⟨f, hf, hfx, -⟩
      have := hd.1 f hf
      have := hx.2
      omega
    rw [List.map_cons, List.sum_cons, ih hd.2]
    simp only [List.mem_cons, exists_eq_or_imp, Set.ofPred_or]
    have hunion := Set.ncard_union_eq hdisj (Set.finite_Ico _ _) (finite_intervals es)
    rw [hhead] at hunion
    exact hunion.symm

/-- The total size of the entries whose values satisfy a predicate is the number of addresses that
they cover. -/
theorem Partition.sizeSum_eq_ncard (h : m.Partition E R) {p : α → Bool} :
    m.sizeSum E p = {x | ∃ k a, m.Covers E x k a ∧ p a = true}.ncard := by
  have hd : (m.entries.filter fun e => p e.2).Pairwise fun e f => e.1 + E.size e.2 ≤ f.1 := by
    refine List.Pairwise.imp_of_mem ?_ (m.sorted.filter _)
    intro e f he hf hlt
    exact h.disjoint e.1 e.2 f.1 f.2 (List.mem_of_mem_filter he) (List.mem_of_mem_filter hf) hlt
  rw [sizeSum, sum_size_eq_ncard hd]
  congr 1
  ext x
  simp only [List.mem_filter, Covers, Set.mem_ofPred_eq]
  constructor
  · rintro ⟨e, ⟨he, hp⟩, hx⟩
    exact ⟨e.1, e.2, ⟨he, hx⟩, hp⟩
  · rintro ⟨k, a, ⟨hka, hx⟩, hp⟩
    exact ⟨(k, a), ⟨hka, hp⟩, hx⟩
end OrdMap

end ShadPS4
