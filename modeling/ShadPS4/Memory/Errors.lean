import ShadPS4.Memory.Reach

/-!
# Errors, and what a decommitment accepts

A call that reports an error leaves the memory manager as it was: every operation makes its checks before its first
change. `PoolDecommit` does not report all that it should.
-/

namespace ShadPS4.Memory

open MemoryManager

variable {cfg : Config} {s s' : MemoryManager}

/-- The call returns `s'` with an error code, or with the `-1` of a failed search. -/
def Op.FailsWith (s s' : MemoryManager) : Op → Prop
  | allocate start last size alignment type =>
    s.allocate start.toNat last.toNat size.toNat alignment.toNat type = .ok (s', none)
  | free addr size is_checked =>
    ∃ r, s.free addr.toNat size.toNat is_checked = .ok (s', r) ∧ r ≠ .ok
  | poolExpand start last size alignment =>
    s.poolExpand start.toNat last.toNat size.toNat alignment.toNat = .ok (s', none)
  | poolCommit addr size prot mtype =>
    ∃ r, s.poolCommit addr.toNat size.toNat prot mtype = .ok (s', r) ∧ r ≠ .ok
  | poolDecommit addr size => ∃ r, s.poolDecommit addr.toNat size.toNat = .ok (s', r) ∧ r ≠ .ok
  | mapMemory addr size prot flags type name validate phys alignment =>
    ∃ r out, s.mapMemory addr.toNat size.toNat prot flags type name validate phys.toNat
      alignment.toNat = .ok (s', r, out) ∧ r ≠ .ok
  | unmapMemory addr size => ∃ r, s.unmapMemory addr.toNat size.toNat = .ok (s', r) ∧ r ≠ .ok
  | _ => False

theorem Op.FailsWith.unchanged {op : Op} (h : WF cfg s) (hf : op.FailsWith s s') : s' = s := by
  -- Each case is read off the call's specification: its other branch reports success.
  cases op with
  | allocate start last size alignment type =>
    obtain ⟨-, hs | ⟨addr, hr, -⟩⟩ := allocate_spec h size.toNat_lt alignment.toNat_lt hf
    · exact hs.1
    · contradiction
  | free addr size is_checked =>
    obtain ⟨r, hf, hr⟩ := hf
    obtain ⟨-, hs | hs⟩ := free_spec h size.toNat_lt hf
    · exact hs.1
    · exact absurd hs.1 hr
  | poolExpand start last size alignment =>
    obtain ⟨-, hs | ⟨addr, hr, -⟩⟩ := poolExpand_spec h size.toNat_lt alignment.toNat_lt hf
    · exact hs.1
    · contradiction
  | poolCommit addr size prot mtype =>
    obtain ⟨r, hf, hr⟩ := hf
    obtain ⟨-, hs | hs⟩ := poolCommit_spec h size.toNat_lt hf
    · exact hs.1
    · exact absurd hs.1 hr
  | poolDecommit addr size =>
    obtain ⟨r, hf, hr⟩ := hf
    obtain ⟨-, hs | hs⟩ := poolDecommit_spec h addr.toNat_lt size.toNat_lt hf
    · exact hs.1
    · exact absurd hs.1 hr
  | mapMemory addr size prot flags type name validate phys alignment =>
    obtain ⟨r, out, hf, hr⟩ := hf
    rcases mapMemory_cases hf with hs | hs
    · exact hs.1
    · exact absurd hs.1 hr
  | unmapMemory addr size =>
    obtain ⟨r, hf, hr⟩ := hf
    obtain ⟨-, hs | hs⟩ := unmapMemory_spec h addr.toNat_lt size.toNat_lt hf
    · exact hs.1
    · exact absurd hs.1 hr
  | _ => exact hf.elim

/-! ## The search of `PoolDecommit` -/

def VirtualMemoryArea.Foreign (vma : VirtualMemoryArea) : Prop :=
  vma.type ≠ .poolReserved ∧ vma.type ≠ .pooled

instance (vma : VirtualMemoryArea) : Decidable vma.Foreign := inferInstanceAs (Decidable (_ ∧ _))

/-- An area that is not pool memory intersects the range. -/
def MemoryManager.ForeignIn (s : MemoryManager) (va size : ℕ) : Prop :=
  ∃ e ∈ s.vma_map.entries, e.2.Foreign ∧ e.1 < va + size ∧ va < e.1 + e.2.size

instance (s : MemoryManager) (va size : ℕ) : Decidable (s.ForeignIn va size) :=
  inferInstanceAs (Decidable (∃ e ∈ s.vma_map.entries, _ ∧ _ ∧ _))

/-- An area that is not pool memory, from the one found for `va` on, ends in the range. -/
def MemoryManager.ForeignEnds (s : MemoryManager) (va size : ℕ) : Prop :=
  ∃ p ∈ s.vma_map.floor? va, ∃ e ∈ s.vma_map.tailFrom p.1,
    e.2.Foreign ∧ e.1 + e.2.size ≤ add64 va size

instance (s : MemoryManager) (va size : ℕ) : Decidable (s.ForeignEnds va size) :=
  inferInstanceAs (Decidable (∃ p ∈ s.vma_map.floor? va, ∃ e ∈ s.vma_map.tailFrom p.1, _ ∧ _))

theorem decommitValid_eq_false_iff
    (hl : l.Pairwise fun e f => e.2.base + e.2.size ≤ f.2.base + f.2.size) : decommitValid range_end l = false ↔
      ∃ e ∈ l, e.2.Foreign ∧ e.2.base + e.2.size ≤ range_end := by
  induction l with
  | nil => simp [decommitValid]
  | cons e rest ih =>
    obtain ⟨hhead, hrest⟩ := List.pairwise_cons.mp hl
    obtain ⟨k, vma⟩ := e
    simp only [decommitValid, List.mem_cons, exists_eq_or_imp]
    by_cases hend : vma.base + vma.size ≤ range_end
    · rw [if_pos hend]
      by_cases hforeign : vma.Foreign
      · -- The area itself is rejected.
        rw [if_pos (c := vma.type ≠ .poolReserved ∧ vma.type ≠ .pooled) hforeign]
        exact iff_of_true rfl (.inl ⟨hforeign, hend⟩)
      · unfold VirtualMemoryArea.Foreign at hforeign
        rw [if_neg hforeign, ih hrest]
        simp [VirtualMemoryArea.Foreign, hforeign]
    · -- The search stops, and the later areas end later still.
      rw [if_neg hend]
      refine iff_of_false (by decide) ?_
      rintro (⟨-, hle⟩ | ⟨f, hf, -, hle⟩)
      · exact hend hle
      · exact hend ((hhead f hf).trans hle)

theorem WF.not_decommitAccepts_iff (h : WF cfg s) : ¬ s.DecommitAccepts va size ↔ s.ForeignEnds va size := by
  have hsorted : ∀ k, (s.vma_map.tailFrom k).Pairwise fun e f =>
      e.2.base + e.2.size ≤ f.2.base + f.2.size := by
    intro k
    refine OrdMap.tailFrom_sorted.imp_of_mem fun {e f} he hf hlt => ?_
    have he := (OrdMap.mem_tailFrom.mp he).1
    have hf := (OrdMap.mem_tailFrom.mp hf).1
    have := h.virt.part.disjoint _ _ _ _ he hf hlt
    rw [h.virt.keyed _ _ he, h.virt.keyed _ _ hf]
    simp only [vmaExtent_size] at this
    omega
  have hiff : ∀ k, decommitValid (add64 va size) (s.vma_map.tailFrom k) = false ↔
      ∃ e ∈ s.vma_map.tailFrom k, e.2.Foreign ∧ e.1 + e.2.size ≤ add64 va size := by
    intro k
    rw [decommitValid_eq_false_iff (hsorted k)]
    refine exists_congr fun e => and_congr_right fun he => ?_
    rw [h.virt.keyed _ _ (OrdMap.mem_tailFrom.mp he).1]
  unfold DecommitAccepts ForeignEnds
  simp only [not_forall, Bool.not_eq_true, hiff, Prod.exists, Option.mem_def, exists_prop]

/-- A reservation for the pool with a direct mapping behind it. -/
def reservedThenDirect : List Op :=
  [.mapMemory 0x100000000 0x200000 0 0x10 .poolReserved "anon" false 0xffffffffffffffff 0x200000,
    .allocate 0 0x1f0000000 0x40000 0 0,
    .mapMemory 0x100200000 0x40000 3 0x10 .direct "anon" true 0 0]

end ShadPS4.Memory
