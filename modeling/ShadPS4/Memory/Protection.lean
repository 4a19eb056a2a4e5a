import ShadPS4.Memory.Reach

/-!
# Protection

What `Protect` leaves on a range that is mapped: the permission that the host last applied to each byte, and the
protection that is stored for it.
-/

namespace ShadPS4.Memory

open MemoryManager

variable {cfg : Config} {s s' : MemoryManager} {va size v : ℕ} {prot : MemoryProt}

/-- The valid protection bits: `CpuReadWrite | CpuExec | GpuReadWrite`. -/
def flagMask : MemoryProt :=
  MemoryProt.cpuReadWrite ||| MemoryProt.cpuExec ||| MemoryProt.gpuReadWrite

/-- The protection has valid bits only. -/
def ValidProt (prot : MemoryProt) : Prop := prot &&& ~~~flagMask = 0

instance (prot : MemoryProt) : Decidable (ValidProt prot) := inferInstanceAs (Decidable (_ = _))

theorem appendRead_and_not_flagMask (prot : MemoryProt) : appendRead prot &&& ~~~flagMask = prot &&& ~~~flagMask := by
  unfold appendRead
  split_ifs
  · have hbit : MemoryProt.cpuRead &&& ~~~flagMask = 0 := by decide
    rw [BitVec.and_or_distrib_right, hbit]
    exact BitVec.or_zero
  · rfl

theorem storedProt_and_not_flagMask (type : VMAType) (prot : MemoryProt) :
    storedProt type prot &&& ~~~flagMask = prot &&& ~~~flagMask := by
  unfold storedProt
  split_ifs
  · have hbit : ~~~MemoryProt.cpuExec &&& ~~~flagMask = ~~~flagMask := by decide
    rw [BitVec.and_assoc, hbit]
  · rfl

theorem validProt_storedProt_iff (type : VMAType) (prot : MemoryProt) :
    ValidProt (storedProt type (appendRead prot)) ↔ ValidProt prot := by
  unfold ValidProt
  rw [storedProt_and_not_flagMask, appendRead_and_not_flagMask]

def MemoryManager.MappedRange (s : MemoryManager) (va size : ℕ) : Prop :=
  ∀ v, InRange va size v → ∃ t : VMAType, s.HasType t v ∧ t.IsMapped

/-- What a protection should leave on a range: the permissions computed from it, and a stored protection
with valid bits only. -/
def MemoryManager.HasProt (s : MemoryManager) (va size : ℕ) (prot : MemoryProt) : Prop :=
  ∀ v, InRange va size v → hostPerm s.impl.calls v = protPermissions (appendRead prot) ∧
    ∀ b, s.vbyte v = some b → ValidProt b.prot

/-- Every byte of the range is stored with another protection than the one asked for, or has the
permissions already. -/
def MemoryManager.NeedsProt (s : MemoryManager) (va size : ℕ) (prot : MemoryProt) : Prop :=
  ∀ v b, InRange va size v → s.vbyte v = some b →
    ValidProt prot ∧
      (prot ≠ b.prot ∨ hostPerm s.impl.calls v = protPermissions (appendRead prot))

theorem Protected.hasProt_iff (h : Protected s s' (InRange va size) prot)
    (hm : s.MappedRange va size) : s'.HasProt va size prot ↔ s.NeedsProt va size prot := by
  -- At each byte: what it was, what is stored for it, and what the host permits.
  have hbyte : ∀ v, InRange va size v → ∃ b, s.vbyte v = some b ∧
      s'.vbyte v = some { b with prot := storedProt b.type (appendRead prot) } ∧
      hostPerm s'.impl.calls v = if prot ≠ b.prot then protPermissions (appendRead prot)
        else hostPerm s.impl.calls v := by
    intro v hv
    obtain ⟨t, ⟨b, hb, rfl⟩, hmap⟩ := hm v hv
    have hp : s.Protectable v := ⟨b, hb, hmap.1, hmap.2.2⟩
    exact ⟨b, hb, h.vinside v b hv hp hb, h.perm_inside v b hv hb hmap⟩
  constructor
  · intro hafter v b hv hb
    obtain ⟨b', hb', hvb, hperm⟩ := hbyte v hv
    rw [hb, Option.some.injEq] at hb'
    subst hb'
    obtain ⟨hhost, hvalid⟩ := hafter v hv
    refine ⟨(validProt_storedProt_iff _ _).mp (hvalid _ hvb), ?_⟩
    by_cases hne : prot = b.prot
    · -- The host was not called, so it permits what it did before.
      rw [if_neg (not_not.mpr hne)] at hperm
      exact .inr (hperm ▸ hhost)
    · exact .inl hne
  · intro hneeds v hv
    obtain ⟨b, hb, hvb, hperm⟩ := hbyte v hv
    obtain ⟨hvalid, hneed⟩ := hneeds v b hv hb
    refine ⟨?_, fun c hc => ?_⟩
    · rw [hperm]
      split_ifs with hne
      · rfl
      · exact hneed.resolve_left hne
    · rw [hvb, Option.some.injEq] at hc
      subst hc
      exact (validProt_storedProt_iff _ _).mpr hvalid

def MemoryManager.HoldsRange (s : MemoryManager) (type : VMAType) (va size : ℕ) : Prop :=
  ∃ e ∈ s.vma_map.entries, e.2.type = type ∧ e.1 ≤ va ∧ va + size ≤ e.1 + e.2.size

instance (s : MemoryManager) (type : VMAType) (va size : ℕ) : Decidable (s.HoldsRange type va size) :=
  inferInstanceAs (Decidable (∃ e ∈ s.vma_map.entries, _ ∧ _ ∧ _))

theorem WF.hasType_of_holdsRange (h : WF cfg s) (hr : s.HoldsRange t va size)
    (hv : InRange va size v) : s.HasType t v := by
  obtain ⟨e, he, ht, h1, h2⟩ := hr
  have hin : InRange e.1 e.2.size v := ⟨by have := hv.1; omega, by have := hv.2; omega⟩
  exact ⟨_, h.vbyte_of_mem he hin, ht⟩

def mappedDirect : List Op :=
  [.allocate 0 0x1f0000000 0x40000 0 0,
    .mapMemory 0x100000000 0x40000 3 0x10 .direct "anon" true 0 0]

end ShadPS4.Memory
