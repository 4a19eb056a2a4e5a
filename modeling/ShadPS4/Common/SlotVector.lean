import Mathlib.Data.Int.Bitwise
import Mathlib.Data.List.Nodup

/-!
# Slot vectors

A slot vector stores values under ids that stay valid until the value is erased. Free ids are kept in a list of
which the last one is used first; the list here has it first.
-/

namespace ShadPS4.Common

open Function

structure SlotVector (α : Type) where
  /-- `values`, where their bit in `stored_bitset` is set -/
  values : ℕ → Option α
  values_capacity : ℕ
  free_list : List ℕ

namespace SlotVector

variable {α : Type} {v : SlotVector α} {id : ℕ}

section

variable (v : SlotVector α)

def reserve (new_capacity : ℕ) : SlotVector α :=
  { v with
    values_capacity := new_capacity
    free_list := List.range' v.values_capacity (new_capacity - v.values_capacity) ++ v.free_list }

def new : SlotVector α := reserve ⟨fun _ => none, 0, []⟩ 2048

def freeValueIndex : ℕ × SlotVector α :=
  let v := if v.free_list.isEmpty then
    v.reserve (if v.values_capacity ≠ 0 then v.values_capacity * 2 else 1) else v
  (v.free_list.headD 0, { v with free_list := v.free_list.tail })

def insert (x : α) : ℕ × SlotVector α :=
  let (index, v) := v.freeValueIndex
  (index, { v with values := update v.values index (some x) })

def erase (id : ℕ) : SlotVector α :=
  { v with values := update v.values id none, free_list := id :: v.free_list }

/-- A stored value is written through a reference. -/
def set (id : ℕ) (x : α) : SlotVector α :=
  { v with values := update v.values id (some x) }

end

/-- The free list has the ids that store nothing, each once. -/
structure Wf (v : SlotVector α) : Prop where
  nodup : v.free_list.Nodup
  free : ∀ id, id ∈ v.free_list ↔ id < v.values_capacity ∧ v.values id = none
  stored : ∀ id x, v.values id = some x → id < v.values_capacity

theorem Wf.reserve (h : v.Wf) (hle : v.values_capacity ≤ new_capacity) : (v.reserve new_capacity).Wf := by
  refine ⟨?_, fun id => ?_, fun id x hx => Nat.lt_of_lt_of_le (h.stored id x hx) hle⟩
  · refine List.nodup_append.mpr ⟨List.nodup_range', h.nodup, fun a ha b hb => ?_⟩
    have := ((h.free b).mp hb).1
    rw [List.mem_range'_1] at ha
    omega
  · change id ∈ List.range' v.values_capacity (new_capacity - v.values_capacity) ++ v.free_list ↔
      id < new_capacity ∧ v.values id = none
    rw [List.mem_append, List.mem_range'_1, h.free]
    constructor
    · rintro (⟨h1, h2⟩ | ⟨h1, h2⟩)
      · refine ⟨by omega, ?_⟩
        by_contra hne
        obtain ⟨x, hx⟩ := Option.ne_none_iff_exists'.mp hne
        have := h.stored id x hx
        omega
      · exact ⟨by omega, h2⟩
    · rintro ⟨h1, h2⟩
      rcases Nat.lt_or_ge id v.values_capacity with hlt | hge
      · exact .inr ⟨hlt, h2⟩
      · exact .inl ⟨hge, by omega⟩

theorem wf_new : (new : SlotVector α).Wf :=
  Wf.reserve ⟨List.nodup_nil, by simp, by simp⟩ (Nat.zero_le _)

theorem Wf.insert (h : v.Wf) (x : α) : ∃ id v', v.insert x = (id, v') ∧ v'.Wf ∧
    v.values id = none ∧ v'.values = update v.values id (some x) := by
  obtain ⟨w, hw, hwf, hvalues, hne⟩ : ∃ w : SlotVector α, (if v.free_list.isEmpty then
      v.reserve (if v.values_capacity ≠ 0 then v.values_capacity * 2 else 1) else v) = w ∧
      w.Wf ∧ w.values = v.values ∧ w.free_list ≠ [] := by
    split_ifs with hempty hzero
    · refine ⟨_, rfl, h.reserve (by omega), rfl, ?_⟩
      simp [SlotVector.reserve]
      omega
    · refine ⟨_, rfl, h.reserve (by omega), rfl, ?_⟩
      simp [SlotVector.reserve]
      omega
    · exact ⟨v, rfl, h, rfl, by simpa using hempty⟩
  obtain ⟨id, rest, hlist⟩ := List.exists_cons_of_ne_nil hne
  have hfree := (hwf.free id).mp (hlist ▸ List.mem_cons_self ..)
  have hnodup := hwf.nodup
  rw [hlist, List.nodup_cons] at hnodup
  refine ⟨id, { w with
    values := update w.values id (some x), free_list := rest }, ?_, ?_, ?_, ?_⟩
  · unfold SlotVector.insert freeValueIndex
    rw [hw]
    dsimp only
    rw [hlist]
    rfl
  · refine ⟨hnodup.2, fun i => ?_, fun i y hy => ?_⟩
    · dsimp only
      have hi := hwf.free i
      rw [hlist, List.mem_cons] at hi
      rcases eq_or_ne i id with rfl | hid
      · simp [hnodup.1]
      · rw [update_of_ne hid, ← hi]
        simp [hid]
    · dsimp only at hy
      rcases eq_or_ne i id with rfl | hid
      · exact hfree.1
      · rw [update_of_ne hid] at hy
        exact hwf.stored i y hy
  · rw [← hvalues]
    exact hfree.2
  · rw [← hvalues]

theorem Wf.erase (h : v.Wf) (hx : v.values id = some x) : (v.erase id).Wf := by
  have hnot : id ∉ v.free_list := fun hmem => by
    rw [((h.free id).mp hmem).2] at hx
    exact absurd hx (by simp)
  refine ⟨List.nodup_cons.mpr ⟨hnot, h.nodup⟩, fun i => ?_, fun i y hy => ?_⟩
  · change i ∈ id :: v.free_list ↔ i < v.values_capacity ∧ update v.values id none i = none
    rw [List.mem_cons, h.free]
    rcases eq_or_ne i id with rfl | hid
    · simp [h.stored i x hx]
    · rw [update_of_ne hid]
      simp [hid]
  · change update v.values id none i = some y at hy
    rcases eq_or_ne i id with rfl | hid
    · rw [update_self] at hy
      exact absurd hy (by simp)
    · rw [update_of_ne hid] at hy
      exact h.stored i y hy

theorem Wf.set (h : v.Wf) (hx : v.values id = some x) (y : α) : (v.set id y).Wf := by
  refine ⟨h.nodup, fun i => ?_, fun i z hz => ?_⟩
  · change i ∈ v.free_list ↔ i < v.values_capacity ∧ update v.values id (some y) i = none
    rw [h.free]
    rcases eq_or_ne i id with rfl | hid
    · simp [hx]
    · rw [update_of_ne hid]
  · change update v.values id (some y) i = some z at hz
    rcases eq_or_ne i id with rfl | hid
    · exact h.stored i x hx
    · rw [update_of_ne hid] at hz
      exact h.stored i z hz

end SlotVector

end ShadPS4.Common
