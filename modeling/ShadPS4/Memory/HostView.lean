import ShadPS4.Memory.Effects

/-!
# The host's mapping

The physical address that a virtual area records for a byte is the one that the host maps the byte to, as long as
every commitment is made at a multiple of 64 KB.
-/

namespace ShadPS4.Memory

open MemoryManager

variable {size va : ℕ}
variable {cfg : Config} {s s' : MemoryManager}

/-- Where an area records a physical address for a byte, the host maps the byte to it. -/
def MemoryManager.HostAgrees (s : MemoryManager) : Prop :=
  ∀ t v x, s.Maps t v x → hostPhys s.impl.calls v = some x

/-- A commitment that passes its checks is made at a multiple of 64 KB. -/
def CommitAligned (s : MemoryManager) : Op → Prop
  | .poolCommit va size _ _ => s.CommitFits va.toNat size.toNat → size.toNat < s.pool_budget →
    alignUp va.toNat kb64 = va.toNat
  | _ => True

namespace MemoryManager.HostAgrees

theorem congr (h : s.HostAgrees) (hm : ∀ t v x, s'.Maps t v x → s.Maps t v x)
    (hp : ∀ v, hostPhys s'.impl.calls v = hostPhys s.impl.calls v) : s'.HostAgrees := by
  intro t v x hv
  rw [hp]
  exact h t v x (hm t v x hv)

theorem unmapped (h : s.HostAgrees) (hu : Unmapped cfg s s' S) : s'.HostAgrees := by
  intro t v x hv
  obtain ⟨hv, hp⟩ := hu.maps_phys hv
  rw [hp]
  exact h t v x hv

theorem mapped (h : s.HostAgrees) (hm : MappedAs cfg s s' va size type prot p)
    (hb : Backed cfg s s' size type phys_addr p) : s'.HostAgrees := by
  intro t v x hv
  by_cases hin : InRange va size v
  · obtain ⟨-, hx⟩ := (hm.maps_inside hin).mp hv
    have hphys : type.HasPhysicalBacking := by
      rcases hb.paddr hin.sub_lt hx with rfl | ⟨rfl, -⟩
      · exact .inr (.inl rfl)
      · exact .inl rfl
    rw [hm.phys_inside v hphys hin, hx]
  · rw [hm.phys_outside v hin]
    exact h t v x ((hm.maps_outside hin).mp hv)

theorem committed (h : s.HostAgrees) (hc : Committed cfg s s' va size prot mtype p)
    (ha : alignUp va kb64 = va) : s'.HostAgrees := by
  intro t v x hv
  rw [hc.phys, ha]
  by_cases hin : InRange va size v
  · rw [if_pos hin]
    exact ((hc.maps_inside hin).mp hv).2
  · rw [if_neg hin]
    exact h t v x ((hc.maps_outside hin).mp hv)

theorem decommitted (h : s.HostAgrees)
    (hd : Decommitted cfg s s' (InRange va size)) : (s'.host (.unmap va size)).HostAgrees := by
  intro t v x hv
  obtain ⟨hv, hin⟩ := hd.maps_iff.mp hv
  have hp : hostPhys (s'.host (.unmap va size)).impl.calls v = hostPhys s'.impl.calls v := by
    simp [MemoryManager.host, hostPhys, hin]
  rw [hp, hd.frame]
  exact h t v x hv

theorem step (h : s.HostAgrees) (hg : CommitAligned s op) (he : op.Effect cfg s s') : s'.HostAgrees := by
  cases op with
  | allocate =>
    obtain ⟨addr, -, ht, -⟩ := he
    exact h.congr (fun t v x => (maps_congr ht.vma_map t v x).mp) fun v => by rw [ht.frame]
  | free =>
    obtain ⟨-, s1, -, hu, hs, -⟩ := he
    exact (h.unmapped hu).congr (fun t v x => by rw [hs]; exact id) fun v => by rw [hs]
  | poolExpand =>
    obtain ⟨addr, -, ht, -⟩ := he
    exact h.congr (fun t v x => (maps_congr ht.vma_map t v x).mp) fun v => by rw [ht.frame]
  | poolCommit =>
    obtain ⟨hf, p, hc⟩ := he
    exact h.committed hc (hg hf hc.lt_budget)
  | poolDecommit =>
    obtain ⟨-, s1, -, hd, rfl⟩ := he
    exact h.decommitted hd
  | mapMemory =>
    obtain ⟨-, va', -, s1, p, -, hu, hm, hb⟩ := he
    exact (h.unmapped hu).mapped hm hb
  | mapFile =>
    obtain ⟨va', prot, -, s1, p, -, hu, hm, hb⟩ := he
    exact (h.unmapped hu).mapped hm hb
  | unmapMemory => exact h.unmapped he
  | protect => exact h.congr (fun t v x => (he.sameCore.maps t v x).mp) he.phys
  | setDirectMemoryType => exact h.congr (fun t v x => (he.1.maps t v x).mp) he.1.phys
  | nameVirtualRange => exact h.congr (fun t v x => (he.1.maps t v x).mp) he.1.phys
  | setupMemoryRegions =>
    exact h.congr (fun t v x hv => by rw [he.frame] at hv; exact hv) fun v => by rw [he.frame]

end MemoryManager.HostAgrees

/-- In every state that calls lead to whose commitments are made at multiples of 64 KB, each byte of a
direct, flexible, or pooled area has a physical address in the area, which is the one that the host maps
it to. -/
theorem host_agrees_run (h : ReachableVia cfg CommitAligned s) :
    ∀ k vma, (k, vma) ∈ s.vma_map → vma.type.HasPhysicalBacking → ∀ v, InRange k vma.size v →
      ∃ x, vma.paddr (v - k) = some x ∧ hostPhys s.impl.calls v = some x := by
  have hagree : s.HostAgrees :=
    h.invariant (fun t v x hv => absurd hv new_not_maps)
      fun s op s' _ _ hs _ hg he => hs.step hg he
  intro k vma hk ht v hv
  obtain ⟨x, hx⟩ := h.wf.exists_maps_iff.mpr ⟨⟨_, h.wf.vbyte_of_mem hk hv, rfl⟩, ht⟩
  exact ⟨x, (h.wf.maps_of_mem hk hv).mp hx, hagree _ v x hx⟩

/-- Memory is reserved for the pool, the pool is expanded, and a part of it is committed. -/
def commitAt (va : UInt64) : List Op :=
  [.mapMemory 0x100000000 0x200000 0 0x10 .poolReserved "anon" false 0xffffffffffffffff 0x200000,
    .poolExpand 0 0x1f0000000 0x40000 0, .poolCommit va 0x20000 3 0]

theorem host_agrees_run_sample : ∃ s, replay .sample (commitAt 0x100010000) (.new .sample) = some s ∧
    ∀ k vma, (k, vma) ∈ s.vma_map → vma.type.HasPhysicalBacking → ∀ v, InRange k vma.size v →
      ∃ x, vma.paddr (v - k) = some x ∧ hostPhys s.impl.calls v = some x := by
  have hg : ∀ op ∈ commitAt 0x100010000, ∀ s, CommitAligned s op := by
    simp only [commitAt, List.forall_mem_cons]
    exact ⟨fun _ => trivial, fun _ => trivial, fun _ _ _ => by decide, by simp⟩
  obtain ⟨s, hs, hr, -⟩ := exists_of_replayVia .sample (commitAt 0x100010000) (fun _ => true) hg (by decide)
  exact ⟨s, hs, host_agrees_run hr⟩

/-- A commitment at a multiple of 16 KB that is not one of 64 KB: the area starts at the address given,
where the host maps nothing. -/
theorem commit_drifts : ∃ s, replay .sample (commitAt 0x100004000) (.new .sample) = some s ∧
    Reachable .sample s ∧ s.Maps .pooled 0x100004000 0 ∧
      hostPhys s.impl.calls 0x100004000 = none ∧ hostPhys s.impl.calls 0x100010000 = some 0 := by
  obtain ⟨s, hs, hr, ht⟩ := exists_of_replay .sample (commitAt 0x100004000)
    (fun s => decide (s.Maps .pooled 0x100004000 0 ∧ hostPhys s.impl.calls 0x100004000 = none ∧
      hostPhys s.impl.calls 0x100010000 = some 0)) (by decide)
  exact ⟨s, hs, hr, of_decide_eq_true ht⟩

end ShadPS4.Memory
