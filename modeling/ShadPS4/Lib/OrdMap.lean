import Mathlib.Data.List.Pairwise
import Mathlib.Tactic.Ring

/-!
# Ordered maps

`OrdMap α` is an ordered map from natural-number keys to `α`, as C++'s `std::map` is: a list of entries whose keys
strictly increase, with the proof of that order carried by the structure.
-/

namespace ShadPS4

open List

/-- An ordered map: entries in strictly increasing key order. -/
structure OrdMap (α : Type) where
  entries : List (ℕ × α)
  sorted : entries.Pairwise (fun p q => p.1 < q.1)
deriving DecidableEq

namespace OrdMap

variable {α : Type} {m : OrdMap α} {k l x : ℕ} {a b : α} {p : ℕ × α}

instance : Membership (ℕ × α) (OrdMap α) := ⟨fun m p => p ∈ m.entries⟩

theorem mem_def : p ∈ m ↔ p ∈ m.entries := Iff.rfl

instance [DecidableEq α] (p : ℕ × α) (m : OrdMap α) : Decidable (p ∈ m) :=
  inferInstanceAs (Decidable (p ∈ m.entries))

theorem mem_unique_of_sorted {l : List (ℕ × α)} (hl : l.Pairwise (fun p q => p.1 < q.1))
    (ha : (k, a) ∈ l) (hb : (k, b) ∈ l) : a = b := by
  induction l with
  | nil => simp at ha
  | cons q l ih =>
    rw [pairwise_cons] at hl
    rcases mem_cons.mp ha with rfl | ha'
    · rcases mem_cons.mp hb with hb' | hb'
      · simpa using hb'.symm
      · exact absurd (hl.1 _ hb') (by simp)
    · rcases mem_cons.mp hb with rfl | hb'
      · exact absurd (hl.1 _ ha') (by simp)
      · exact ih hl.2 ha' hb'

theorem mem_unique (ha : (k, a) ∈ m) (hb : (k, b) ∈ m) : a = b :=
  mem_unique_of_sorted m.sorted ha hb

/-- The map has an entry with key `k`. -/
def HasKey (m : OrdMap α) (k : ℕ) : Prop := ∃ a, (k, a) ∈ m

/-! ## Construction and update -/

def empty : OrdMap α := ⟨[], .nil⟩

instance : EmptyCollection (OrdMap α) := ⟨empty⟩
instance : Inhabited (OrdMap α) := ⟨empty⟩

@[simp] theorem not_mem_empty : p ∉ (empty : OrdMap α) := by simp [mem_def, empty]

/-- `m[k] = a`: the entry at `k` is added, or replaced. -/
def insert (m : OrdMap α) (k : ℕ) (a : α) : OrdMap α where
  entries := m.entries.filter (·.1 < k) ++ (k, a) :: m.entries.filter (k < ·.1)
  sorted := by
    have hs := m.sorted
    simp only [pairwise_append, pairwise_cons, mem_filter, decide_eq_true_eq, mem_cons]
    refine ⟨hs.filter _, ⟨fun p hp => hp.2, hs.filter _⟩, ?_⟩
    rintro p ⟨-, hp⟩ q (rfl | ⟨-, hq⟩)
    · exact hp
    · omega

@[simp] theorem mem_insert : p ∈ m.insert k a ↔ p = (k, a) ∨ p ∈ m ∧ p.1 ≠ k := by
  simp only [mem_def, insert, mem_append, mem_filter, mem_cons, decide_eq_true_eq]
  constructor
  · rintro (⟨h, hk⟩ | rfl | ⟨h, hk⟩)
    · exact .inr ⟨h, by omega⟩
    · exact .inl rfl
    · exact .inr ⟨h, by omega⟩
  · rintro (rfl | ⟨h, hk⟩)
    · exact .inr (.inl rfl)
    · rcases Nat.lt_or_gt_of_ne hk with hk | hk
      · exact .inl ⟨h, hk⟩
      · exact .inr (.inr ⟨h, hk⟩)

/-- Removal of the entry at `k`, if there is one. -/
def erase (m : OrdMap α) (k : ℕ) : OrdMap α :=
  ⟨m.entries.filter (·.1 ≠ k), m.sorted.filter _⟩

@[simp] theorem mem_erase : p ∈ m.erase k ↔ p ∈ m ∧ p.1 ≠ k := by
  simp [mem_def, erase]

@[simp] theorem hasKey_insert : (m.insert k a).HasKey l ↔ l = k ∨ m.HasKey l := by
  simp only [HasKey, mem_insert, Prod.mk.injEq]
  by_cases hl : l = k <;> simp [hl]

@[simp] theorem hasKey_erase : (m.erase k).HasKey l ↔ m.HasKey l ∧ l ≠ k := by
  simp [HasKey]

theorem ext_mem {m m' : OrdMap α} (h : ∀ p, p ∈ m ↔ p ∈ m') : m = m' := by
  have hperm : m.entries.Perm m'.entries := by
    have hn : ∀ m : OrdMap α, m.entries.Nodup := fun m => m.sorted.imp fun hlt heq => by
      rw [heq] at hlt
      exact absurd hlt (Nat.lt_irrefl _)
    exact (perm_ext_iff_of_nodup (hn m) (hn m')).mpr h
  have heq : m.entries = m'.entries :=
    hperm.eq_of_pairwise (fun p q _ _ hpq hqp => absurd (Nat.lt_trans hpq hqp) (Nat.lt_irrefl _))
      m.sorted m'.sorted
  obtain ⟨e, hs⟩ := m
  obtain ⟨e', hs'⟩ := m'
  obtain rfl : e = e' := heq
  rfl

theorem insert_of_mem (h : (k, a) ∈ m) : m.insert k a = m := by
  refine ext_mem fun p => ?_
  rw [mem_insert]
  constructor
  · rintro (rfl | ⟨hp, -⟩)
    · exact h
    · exact hp
  · intro hp
    by_cases hk : p.1 = k
    · subst hk
      exact .inl (Prod.ext rfl (mem_unique hp h))
    · exact .inr ⟨hp, hk⟩

theorem insert_insert : (m.insert k a).insert k b = m.insert k b := by
  refine ext_mem fun p => ?_
  simp only [mem_insert]
  constructor
  · rintro (hp | ⟨hp | hp, hne⟩)
    · exact .inl hp
    · exact absurd (by rw [hp]) hne
    · exact .inr ⟨hp.1, hne⟩
  · rintro (hp | ⟨hp, hne⟩)
    · exact .inl hp
    · exact .inr ⟨.inr ⟨hp, hne⟩, hne⟩

/-- The assignment of the entries of a list, in order. -/
def insertAll : List (ℕ × α) → OrdMap α → OrdMap α
  | [], m => m
  | p :: l, m => insertAll l (m.insert p.1 p.2)

theorem mem_insertAll {es : List (ℕ × α)} (hes : es.Pairwise fun p q => p.1 ≠ q.1) :
    p ∈ insertAll es m ↔ p ∈ es ∨ p ∈ m ∧ ∀ q ∈ es, q.1 ≠ p.1 := by
  induction es generalizing m with
  | nil => simp [insertAll]
  | cons q es ih =>
    rw [pairwise_cons] at hes
    rw [insertAll, ih hes.2, mem_insert]
    simp only [mem_cons, forall_eq_or_imp]
    constructor
    · rintro (hp | ⟨rfl | ⟨hp, hne⟩, hall⟩)
      · exact .inl (.inr hp)
      · exact .inl (.inl rfl)
      · exact .inr ⟨hp, fun h => hne h.symm, hall⟩
    · rintro ((rfl | hp) | ⟨hp, hne, hall⟩)
      · exact .inr ⟨.inl rfl, fun r hr h => hes.1 r hr h.symm⟩
      · exact .inl hp
      · exact .inr ⟨.inr ⟨hp, fun h => hne h.symm⟩, hall⟩

/-- The map with each value replaced by its image. -/
def mapVal (f : α → α) (m : OrdMap α) : OrdMap α where
  entries := m.entries.map fun p => (p.1, f p.2)
  sorted := by rw [pairwise_map]; exact m.sorted

@[simp] theorem mem_mapVal {f : α → α} : (k, b) ∈ m.mapVal f ↔ ∃ a, (k, a) ∈ m ∧ f a = b := by
  simp [mem_def, mapVal]

/-! ## Lookup -/

/-- The value at `k`: what the iterator `k` refers to. -/
def get? (m : OrdMap α) (k : ℕ) : Option α := (m.entries.find? (·.1 = k)).map (·.2)

theorem get?_eq_some_iff : m.get? k = some a ↔ (k, a) ∈ m := by
  constructor
  · intro h
    obtain ⟨p, hp, rfl⟩ := Option.map_eq_some_iff.mp h
    have hk : p.1 = k := by simpa using find?_some hp
    subst hk
    exact mem_of_find?_eq_some hp
  · intro h
    have hne : m.entries.find? (·.1 = k) ≠ none := by
      simp only [ne_eq, find?_eq_none, decide_eq_true_eq, not_forall, not_not]
      exact ⟨(k, a), h, rfl⟩
    obtain ⟨p, hp⟩ := Option.ne_none_iff_exists'.mp hne
    have hk : p.1 = k := by simpa using find?_some hp
    have hmem : (k, p.2) ∈ m := by rw [← hk]; exact mem_of_find?_eq_some hp
    simp [get?, hp, mem_unique hmem h]

theorem get?_eq_none_iff : m.get? k = none ↔ ∀ a, (k, a) ∉ m := by
  constructor
  · intro h a ha
    rw [← get?_eq_some_iff, h] at ha
    simp at ha
  · intro h
    rcases hg : m.get? k with - | a
    · rfl
    · exact absurd (get?_eq_some_iff.mp hg) (h a)

/-- `emplace`: the entry is added when its key is new, and nothing happens otherwise. -/
def emplace (m : OrdMap α) (k : ℕ) (a : α) : OrdMap α :=
  if (m.get? k).isSome then m else m.insert k a

theorem emplace_of_not_hasKey (h : ¬ m.HasKey k) : m.emplace k a = m.insert k a := by
  have hn : m.get? k = none := get?_eq_none_iff.mpr fun a ha => h ⟨a, ha⟩
  simp [emplace, hn]

theorem head?_eq_some_iff_of_sorted {l : List (ℕ × α)} (hl : l.Pairwise (fun p q => p.1 < q.1)) :
    l.head? = some p ↔ p ∈ l ∧ ∀ q ∈ l, p.1 ≤ q.1 := by
  cases l with
  | nil => simp
  | cons q l =>
    rw [pairwise_cons] at hl
    simp only [head?_cons, Option.some.injEq, mem_cons, forall_eq_or_imp]
    constructor
    · rintro rfl
      exact ⟨.inl rfl, le_rfl, fun r hr => Nat.le_of_lt (hl.1 r hr)⟩
    · rintro ⟨rfl | hp, hle, -⟩
      · rfl
      · have := hl.1 p hp
        omega

theorem getLast?_eq_some_iff_of_sorted {l : List (ℕ × α)} (hl : l.Pairwise (fun p q => p.1 < q.1)) :
    l.getLast? = some p ↔ p ∈ l ∧ ∀ q ∈ l, q.1 ≤ p.1 := by
  rcases eq_nil_or_concat l with rfl | ⟨l, q, rfl⟩
  · simp
  · rw [concat_eq_append] at hl ⊢
    simp only [pairwise_append, mem_singleton, forall_eq] at hl
    obtain ⟨-, -, hlt⟩ := hl
    simp only [getLast?_append, getLast?_singleton, Option.some_or, Option.some.injEq,
      mem_append, mem_singleton]
    constructor
    · rintro rfl
      refine ⟨.inr rfl, ?_⟩
      rintro r (hr | rfl)
      · exact Nat.le_of_lt (hlt r hr)
      · exact le_rfl
    · rintro ⟨hp | rfl, hle⟩
      · have h1 := hlt p hp
        have h2 := hle q (.inr rfl)
        omega
      · rfl

/-- `prev(upper_bound(x))`: the last entry whose key is at most `x`. -/
def floor? (m : OrdMap α) (x : ℕ) : Option (ℕ × α) := (m.entries.filter (·.1 ≤ x)).getLast?

theorem floor?_eq_some_iff : m.floor? x = some (k, a) ↔ (k, a) ∈ m ∧ k ≤ x ∧ ∀ q ∈ m, q.1 ≤ x → q.1 ≤ k := by
  rw [floor?, getLast?_eq_some_iff_of_sorted (m.sorted.filter _)]
  simp only [mem_filter, decide_eq_true_eq, and_imp, and_assoc]
  rfl

theorem floor?_eq_none_iff : m.floor? x = none ↔ ∀ q ∈ m, x < q.1 := by
  simp [floor?, mem_def]

/-- `next(k)`: the first entry whose key is above `k`. -/
def next? (m : OrdMap α) (k : ℕ) : Option (ℕ × α) := (m.entries.filter (k < ·.1)).head?

theorem next?_eq_some_iff : m.next? k = some (l, a) ↔ (l, a) ∈ m ∧ k < l ∧ ∀ q ∈ m, k < q.1 → l ≤ q.1 := by
  rw [next?, head?_eq_some_iff_of_sorted (m.sorted.filter _)]
  simp only [mem_filter, decide_eq_true_eq, and_imp, and_assoc]
  rfl

theorem next?_eq_none_iff : m.next? k = none ↔ ∀ q ∈ m, q.1 ≤ k := by
  simp [next?, mem_def]

/-- `prev(k)`: the last entry whose key is below `k`. -/
def prev? (m : OrdMap α) (k : ℕ) : Option (ℕ × α) := (m.entries.filter (·.1 < k)).getLast?

theorem prev?_eq_some_iff : m.prev? k = some (l, a) ↔ (l, a) ∈ m ∧ l < k ∧ ∀ q ∈ m, q.1 < k → q.1 ≤ l := by
  rw [prev?, getLast?_eq_some_iff_of_sorted (m.sorted.filter _)]
  simp only [mem_filter, decide_eq_true_eq, and_imp, and_assoc]
  rfl

theorem prev?_eq_none_iff : m.prev? k = none ↔ ∀ q ∈ m, k ≤ q.1 := by
  simp [prev?, mem_def]

/-- `begin()`. -/
def first? (m : OrdMap α) : Option (ℕ × α) := m.entries.head?

theorem first?_eq_some_iff : m.first? = some p ↔ p ∈ m ∧ ∀ q ∈ m, p.1 ≤ q.1 :=
  head?_eq_some_iff_of_sorted m.sorted

/-- `prev(end())`. -/
def last? (m : OrdMap α) : Option (ℕ × α) := m.entries.getLast?

theorem last?_eq_some_iff : m.last? = some p ↔ p ∈ m ∧ ∀ q ∈ m, q.1 ≤ p.1 :=
  getLast?_eq_some_iff_of_sorted m.sorted

/-- The entries from the iterator `k` to the end, in order. -/
def tailFrom (m : OrdMap α) (k : ℕ) : List (ℕ × α) := m.entries.filter (k ≤ ·.1)

@[simp] theorem mem_tailFrom : p ∈ m.tailFrom k ↔ p ∈ m ∧ k ≤ p.1 := by
  simp [tailFrom, mem_def]

theorem tailFrom_sorted : (m.tailFrom k).Pairwise (fun p q => p.1 < q.1) := m.sorted.filter _

theorem tailFrom_eq_cons (hk : (k, a) ∈ m) : m.tailFrom k = (k, a) :: m.tailFrom (k + 1) := by
  have hsorted : ((k, a) :: m.tailFrom (k + 1)).Pairwise (fun p q => p.1 < q.1) := by
    rw [pairwise_cons]
    exact ⟨fun p hp => (mem_tailFrom.mp hp).2, tailFrom_sorted⟩
  have heq : (⟨m.tailFrom k, tailFrom_sorted⟩ : OrdMap α) = ⟨_, hsorted⟩ := by
    refine ext_mem fun p => ?_
    simp only [mem_def, mem_cons, mem_tailFrom]
    constructor
    · rintro ⟨hp, hkp⟩
      rcases Nat.eq_or_lt_of_le hkp with rfl | hlt
      · exact .inl (Prod.ext rfl (mem_unique hp hk))
      · exact .inr ⟨hp, hlt⟩
    · rintro (rfl | ⟨hp, hkp⟩)
      · exact ⟨hk, le_rfl⟩
      · exact ⟨hp, by omega⟩
  exact congrArg entries heq

end OrdMap

end ShadPS4
