import ShadPS4.Memory.Effects

/-!
# Assertions that a call cannot fail

A computation fails an assertion only where it makes it, so that most functions of the memory manager avoid most
assertions whatever the state is.
-/

namespace ShadPS4.Memory

open MemoryManager

variable {α β : Type} {a a' : Assertion} {x : Except Fault α} {f : α → Except Fault β}
  {s s' : MemoryManager}

/-- The computation does not fail the assertion. -/
def Avoids (a : Assertion) (x : Except Fault α) : Prop := x ≠ .error (.assertion a)

/-- Why the computation fails, if it does. -/
def fault? (x : Except Fault α) : Option Fault :=
  match x with
  | .ok _ => none
  | .error e => some e

theorem fault?_eq_some : fault? x = some e ↔ x = .error e := by
  cases x <;> simp [fault?]

namespace Avoids

theorem bind (hx : Avoids a x) (hf : ∀ v, x = .ok v → Avoids a (f v)) : Avoids a (x >>= f) := by
  intro h
  rcases bind_eq_error.mp h with h | ⟨v, hv, h⟩
  · exact hx h
  · exact hf v hv h

theorem pure : Avoids a (Pure.pure v : Except Fault α) := pure_ne_error

theorem deref : Avoids a (deref o) := by
  intro h
  obtain ⟨-, h⟩ := deref_eq_error.mp h
  contradiction

theorem require [Decidable c] (h : a ≠ a') : Avoids a (require a' c) := by
  intro he
  obtain ⟨-, he⟩ := require_eq_error.mp he
  exact h (Fault.assertion.inj he)

theorem map (hx : Avoids a x) : Avoids a (g <$> x) := by
  cases x with
  | ok v => exact fun h => nomatch h
  | error e =>
    intro h
    exact hx (by simpa [Functor.map, Except.map] using h)

end Avoids

def physCarving : List Assertion := [.carvePhysAddress, .carvePhysBase, .carvePhysFit, .splitPhys]

def virtCarving : List Assertion := [.carveVMABase, .carveVMAFit, .splitVMA]

section Areas

variable {k l n : ℕ} {m : PhysMap} {vm : VMAMap}

theorem splitPhys_avoids (ha : a ≠ .splitPhys) : Avoids a (splitPhys m k n) :=
  Avoids.deref.bind fun _ _ => (Avoids.require ha).bind fun _ _ => .pure

theorem carvePhysArea_avoids (ha : a ∉ physCarving) : Avoids a (carvePhysArea m l n) := by
  simp only [physCarving, List.mem_cons, List.not_mem_nil, or_false, not_or] at ha
  obtain ⟨haddr, hbase, hfit, hsplit⟩ := ha
  refine Avoids.deref.bind fun _ _ => (Avoids.require haddr).bind fun _ _ =>
    (Avoids.require hbase).bind fun _ _ => (Avoids.require hfit).bind fun _ _ => ?_
  refine Avoids.bind ?_ fun _ _ => ?_
  · split_ifs
    · exact (splitPhys_avoids hsplit).map
    · exact .pure
  · split_ifs
    · exact splitPhys_avoids hsplit
    · exact .pure

theorem mergeAdjacentPhys_avoids : Avoids a (mergeAdjacentPhys m k) := by
  refine Avoids.bind (Avoids.deref.bind fun _ _ => ?_) fun _ _ => Avoids.deref.bind fun _ _ => ?_
  · split
    · split_ifs <;> exact .pure
    · exact .pure
  · split
    · split_ifs <;> exact .pure
    · exact .pure

theorem splitVMA_avoids (ha : a ≠ .splitVMA) : Avoids a (splitVMA vm k n) :=
  Avoids.deref.bind fun _ _ => (Avoids.require ha).bind fun _ _ => .pure

theorem carveVMA_avoids (ha : a ∉ virtCarving) : Avoids a (carveVMA vm l n) := by
  simp only [virtCarving, List.mem_cons, List.not_mem_nil, or_false, not_or] at ha
  obtain ⟨hbase, hfit, hsplit⟩ := ha
  refine Avoids.deref.bind fun _ _ => (Avoids.require hbase).bind fun _ _ => ?_
  dsimp only
  split
  · exact .pure
  · refine (Avoids.require hfit).bind fun _ _ => Avoids.bind ?_ fun _ _ => ?_
    · split_ifs
      · exact (splitVMA_avoids hsplit).map
      · exact .pure
    · split_ifs
      · exact splitVMA_avoids hsplit
      · exact .pure

theorem canMergeWith_avoids {vma next : VirtualMemoryArea} : Avoids a (vma.canMergeWith next) := by
  unfold VirtualMemoryArea.canMergeWith
  split_ifs
  · exact .pure
  · exact .pure
  · exact Avoids.bind (Avoids.deref.bind fun _ _ => Avoids.deref.bind fun _ _ => .pure)
      fun _ _ => .pure
  · exact Avoids.pure.bind fun _ _ => .pure

theorem mergeAdjacentVMA_avoids : Avoids a (mergeAdjacentVMA vm k) := by
  refine Avoids.bind (Avoids.deref.bind fun _ _ => ?_) fun _ _ => Avoids.deref.bind fun _ _ => ?_
  · split
    · exact canMergeWith_avoids.bind fun _ _ => by split_ifs <;> exact .pure
    · exact .pure
  · split
    · exact canMergeWith_avoids.bind fun _ _ => by split_ifs <;> exact .pure
    · exact .pure

end Areas

section Searches

variable {va size : ℕ}

theorem findVMA_avoids : Avoids a (s.findVMA va) := .deref

theorem isValidMapping_avoids : Avoids a (s.isValidMapping va size) := by
  refine Avoids.deref.bind fun _ _ => Avoids.deref.bind fun _ _ => ?_
  dsimp only
  split_ifs
  · exact .pure
  · exact .pure
  · exact findVMA_avoids.bind fun _ _ => .pure

theorem requireValid_avoids (ha : a ≠ .invalidAddress) : Avoids a (s.requireValid va size) :=
  isValidMapping_avoids.bind fun _ _ => Avoids.require ha

theorem searchFree_avoids : Avoids a (s.searchFree va size alignment) := by
  refine isValidMapping_avoids.bind fun _ _ => ?_
  split_ifs
  · exact fun h => nomatch h
  · exact findVMA_avoids.bind fun _ _ => by dsimp only; split_ifs <;> exact .pure
  · exact .pure

theorem placeMapping_avoids : Avoids a (s.placeMapping va size flags alignment) := by
  unfold placeMapping
  split_ifs
  · refine isValidMapping_avoids.bind fun _ _ => ?_
    split_ifs
    · exact findVMA_avoids.bind fun _ _ => by dsimp only; split_ifs <;> exact .pure
    · exact .pure
  · exact .pure
  all_goals exact searchFree_avoids

theorem checkPhysical_avoids : Avoids a (s.checkPhysical size type validate phys_addr) := by
  unfold checkPhysical
  split_ifs
  · exact .pure
  · exact .pure
  · exact .pure
  · exact Avoids.deref.bind fun _ _ => .pure

end Searches

section Ranges

variable {va size n : ℕ} {vma : VirtualMemoryArea}

theorem forPhysAreas_avoids {f : MemoryManager → ℕ → ℕ → Except Fault MemoryManager}
    {l : List (ℕ × PhysicalMemoryArea)} (hf : ∀ s p n, Avoids a (f s p n)) (ha : a ≠ a') :
    Avoids a (forPhysAreas f a' va l size s) := by
  induction l generalizing size s with
  | nil => exact (Avoids.require ha).bind fun _ _ => .pure
  | cons e l ih =>
    unfold forPhysAreas
    split_ifs
    · exact .pure
    · exact (hf _ _ _).bind fun _ _ => ih

theorem unmapPhys_avoids (ha : a ∉ physCarving) : Avoids a (unmapPhys type s va size) := by
  unfold unmapPhys
  split_ifs
  · exact (carvePhysArea_avoids ha).bind fun _ _ => Avoids.deref.bind fun _ _ =>
      mergeAdjacentPhys_avoids.bind fun _ _ => .pure
  · exact (carvePhysArea_avoids ha).bind fun _ _ => Avoids.deref.bind fun _ _ =>
      mergeAdjacentPhys_avoids.bind fun _ _ => .pure
  · exact .pure

theorem unmapBytesFromEntry_avoids (hp : a ∉ physCarving) (hv : a ∉ virtCarving)
    (ha : a ≠ .unmapPhysical) : Avoids a (s.unmapBytesFromEntry va vma size) := by
  unfold unmapBytesFromEntry
  dsimp only
  split_ifs
  · exact .pure
  all_goals
    refine Avoids.bind ?_ fun _ _ => (carveVMA_avoids hv).bind fun _ _ =>
      Avoids.deref.bind fun _ _ => mergeAdjacentVMA_avoids.bind fun _ _ => .pure
    unfold unmapBacking
    split_ifs
    · exact Avoids.deref.bind fun _ _ => forPhysAreas_avoids (fun _ _ _ => unmapPhys_avoids hp) ha
    · exact .pure

theorem clearRange_avoids (hp : a ∉ physCarving) (hv : a ∉ virtCarving) (ha : a ≠ .unmapPhysical) :
    Avoids a (clearRange n s va size vma) := by
  induction n generalizing s va size vma with
  | zero =>
    unfold clearRange
    split_ifs
    · exact .pure
    · rintro ⟨⟩
  | succ n ih =>
    unfold clearRange
    split_ifs
    · exact .pure
    · exact (unmapBytesFromEntry_avoids hp hv ha).bind fun _ _ => findVMA_avoids.bind fun _ _ => ih

theorem createArea_avoids (hp : a ∉ physCarving) (hv : a ∉ virtCarving) (ha : a ≠ .unmapPhysical)
    (hf : a ≠ .vmaNotFree) : Avoids a (s.createArea va size prot flags type name) := by
  refine findVMA_avoids.bind fun _ _ => Avoids.bind ?_ fun _ _ => findVMA_avoids.bind fun _ _ =>
    (Avoids.require hf).bind fun _ _ => (carveVMA_avoids hv).bind fun _ _ =>
      Avoids.deref.bind fun _ _ => .pure
  split_ifs
  · exact clearRange_avoids hp hv ha
  · exact .pure

theorem mergeMapped_avoids : Avoids a (s.mergeMapped va type) := by
  unfold mergeMapped
  split_ifs
  · exact mergeAdjacentVMA_avoids.bind fun _ _ => .pure
  · exact .pure

end Ranges

end ShadPS4.Memory
