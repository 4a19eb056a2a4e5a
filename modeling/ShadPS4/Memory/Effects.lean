import ShadPS4.Memory.Reach

/-!
# Effects on mappings and on physical bytes

What the effect of each call says of the addresses that are mapped and of the use of each physical byte.
-/

namespace ShadPS4.Memory

open Option
open MemoryManager

variable {k phys_addr : ℕ} {S : ℕ → Prop} {mtype : ℤ}
variable {cfg : Config} {s s' s₁ : MemoryManager} {va size v x : ℕ} {t type : VMAType}
  {d : PhysicalMemoryType} {prot : MemoryProt} {p : ℕ → Option ℕ} {X : ℕ → Prop} {f : PByte → PByte}

/-! ## Bytes of a well-formed state -/

theorem InRange.sub_lt (h : InRange va size v) : v - va < size := by
  have := h.1
  have := h.2
  omega

instance (s : MemoryManager) (t : VMAType) (v : ℕ) : Decidable (s.HasType t v) :=
  decidable_of_iff ((s.vbyte v).any fun b => b.type = t) (by simp [HasType, any_eq_true])

instance (s : MemoryManager) (t : VMAType) (v x : ℕ) : Decidable (s.Maps t v x) :=
  decidable_of_iff ((s.vbyte v).any fun b => b.type = t ∧ b.paddr = some x)
    (by simp [Maps, any_eq_true])

theorem WF.dma_isSome (h : WF cfg s) : (s.dma x).isSome ↔ x < s.total_direct_size := by
  unfold dma dbyte
  rw [isSome_map, h.direct.part.byteAt_isSome_iff]
  simp [Span]

theorem WF.fma_isSome (h : WF cfg s) : (s.fma x).isSome ↔ cfg.InFlexible x := by
  unfold fma fbyte
  rw [isSome_map, h.flexible.part.byteAt_isSome_iff]
  rfl

theorem WF.backing_of_maps (h : WF cfg s) (hm : s.Maps t v x) : t.HasPhysicalBacking :=
  (h.exists_maps_iff.mp ⟨x, hm⟩).2

theorem WF.maps_of_mem (h : WF cfg s) (hk : (k, vma) ∈ s.vma_map)
    (hv : InRange k vma.size v) : s.Maps vma.type v x ↔ vma.paddr (v - k) = some x := by
  unfold Maps
  simp [h.vbyte_of_mem hk hv, VirtualMemoryArea.paddr]

theorem WF.maps_of_area (h : WF cfg s)
    (hk : (k, vma) ∈ s.vma_map) (ht : vma.type.HasPhysicalBacking) (hj : (j, a) ∈ vma.phys_areas)
    (hx : InRange a.base a.size x) : s.Maps vma.type (k + j + (x - a.base)) x := by
  have hend := (h.phys_end_le hk ht hj).2
  have hlt := hx.sub_lt
  rw [h.maps_of_mem hk ⟨by omega, by omega⟩, VirtualMemoryArea.paddr,
    ((h.virt.backed k vma hk).part ht).byteAt_of_covers
      (⟨hj, by omega, by rw [physExtent_size]; omega⟩ : vma.phys_areas.Covers physExtent _ j a)]
  have := hx.1
  simp only [physExtent_byte, map_some, Option.some.injEq]
  omega

theorem WF.dma_of_mem (h : WF cfg s) (hk : (k, a) ∈ s.dmem_map)
    (hx : InRange k a.size x) : s.dma x = some a.dma_type := by
  unfold dma dbyte
  rw [h.direct.part.byteAt_of_covers ⟨hk, hx⟩]
  rfl

theorem new_not_maps : ¬ (MemoryManager.new cfg).Maps t v x := by
  intro h
  have hb := (wf_new cfg).backing_of_maps h
  obtain rfl := new_hasType h.hasType
  simp [VMAType.HasPhysicalBacking] at hb

theorem WF.finite_type (h : WF cfg s) (t : VMAType) : {v | s.HasType t v}.Finite := by
  have := Unmapped.finite_hasType h (fun _ => True) t
  simpa using this

theorem WF.finite_dma (h : WF cfg s) (d : PhysicalMemoryType) : {x | s.dma x = some d}.Finite :=
  (Set.finite_Iio s.total_direct_size).subset fun _ hx =>
    h.dma_isSome.mp (isSome_iff_exists.mpr ⟨d, hx⟩)

theorem WF.ncard_dma_le (h : WF cfg s) (d : PhysicalMemoryType) :
    {x | s.dma x = some d}.ncard ≤ s.total_direct_size := by
  have hsub : {x | s.dma x = some d} ⊆ {x | InRange 0 s.total_direct_size x} := fun x hx =>
    ⟨Nat.zero_le x, by
      rw [Nat.zero_add]
      exact h.dma_isSome.mp (isSome_iff_exists.mpr ⟨d, hx⟩)⟩
  calc {x | s.dma x = some d}.ncard
      ≤ {x | InRange 0 s.total_direct_size x}.ncard :=
        Set.ncard_le_ncard hsub ((Set.finite_Iio _).subset fun _ hx => hx.2)
    _ = s.total_direct_size := ncard_inRange _ _

theorem WF.ncard_mapped (h : WF cfg s) (ht : t.HasPhysicalBacking)
    (hinj : ∀ v v' x, s.Maps t v x → s.Maps t v' x → v = v') :
    {x | ∃ v, S v ∧ s.Maps t v x}.ncard = {v | S v ∧ s.HasType t v}.ncard := by
  have hmap : ∀ v, S v ∧ s.HasType t v → ∃ x, s.Maps t v x := fun v hv =>
    h.exists_maps_iff.mpr ⟨hv.2, ht⟩
  refine (Set.ncard_congr (fun v hv => (hmap v hv).choose) (fun v hv => ?_)
    (fun v v' hv hv' heq => ?_) fun x hx => ?_).symm
  · exact ⟨v, hv.1, (hmap v hv).choose_spec⟩
  · have hx := (hmap v hv).choose_spec
    have hx' := (hmap v' hv').choose_spec
    rw [← heq] at hx'
    exact hinj v v' _ hx hx'
  · obtain ⟨v, hS, hv⟩ := hx
    exact ⟨v, ⟨hS, hv.hasType⟩, ((hmap v ⟨hS, hv.hasType⟩).choose_spec.unique hv).2⟩

theorem dma_inside (h : WF cfg s) (hr : RetypedOn s.dmem_map s'.dmem_map 0 s.total_direct_size X f)
    (hf : ∀ b, (f b).dma_type = d) (hx : X x) : s'.dma x = some d := by
  obtain ⟨b, hb⟩ := isSome_iff_exists.mp (h.direct.part.byteAt_isSome_iff.mpr (hr.span x hx))
  unfold dma dbyte
  rw [hr.inside x hx, hb, map_some, map_some, hf]

theorem dma_outside (hr : RetypedOn s.dmem_map s'.dmem_map 0 hi X f) (hx : ¬ X x) : s'.dma x = s.dma x := by
  unfold dma dbyte
  rw [hr.outside x hx]

theorem fma_inside (h : WF cfg s) (hr : RetypedOn s.fmem_map s'.fmem_map cfg.direct_size
    (cfg.direct_size + cfg.flexible_size) X f) (hf : ∀ b, (f b).dma_type = d) (hx : X x) : s'.fma x = some d := by
  obtain ⟨b, hb⟩ := isSome_iff_exists.mp (h.flexible.part.byteAt_isSome_iff.mpr (hr.span x hx))
  unfold fma fbyte
  rw [hr.inside x hx, hb, map_some, map_some, hf]

theorem fma_outside (hr : RetypedOn s.fmem_map s'.fmem_map lo hi X f) (hx : ¬ X x) : s'.fma x = s.fma x := by
  unfold fma fbyte
  rw [hr.outside x hx]

theorem dma_congr (h : s'.dmem_map = s.dmem_map) (x : ℕ) : s'.dma x = s.dma x := by
  unfold dma dbyte
  rw [h]

theorem fma_congr (h : s'.fmem_map = s.fmem_map) (x : ℕ) : s'.fma x = s.fma x := by
  unfold fma fbyte
  rw [h]

theorem hasType_congr (h : s'.vma_map = s.vma_map) (t : VMAType) (v : ℕ) : s'.HasType t v ↔ s.HasType t v := by
  unfold HasType vbyte
  rw [h]

theorem maps_congr (h : s'.vma_map = s.vma_map) (t : VMAType) (v x : ℕ) : s'.Maps t v x ↔ s.Maps t v x := by
  unfold Maps vbyte
  rw [h]

theorem inUse_of_retyped (h : WF cfg s) (hr : RetypedOn s.dmem_map s'.dmem_map 0 s.total_direct_size X f)
    (hf : ∀ b, (f b).dma_type = d) (hd : d ≠ .free) (hx : X x ∨ s.InUse x) : s'.InUse x := by
  by_cases hX : X x
  · exact ⟨d, dma_inside h hr hf hX, hd⟩
  · obtain ⟨t, ht, hne⟩ := hx.resolve_left hX
    exact ⟨t, (dma_outside hr hX).trans ht, hne⟩

namespace Taken

variable {addr : ℕ} {memory_type : ℤ}

theorem dma_inside (h : WF cfg s) (ht : Taken s s' addr size d memory_type)
    (hx : InRange addr size x) : s'.dma x = some d := by
  obtain ⟨b, hb⟩ := isSome_iff_exists.mp (h.direct.part.byteAt_isSome_iff.mpr (ht.dmem.span h.direct hx))
  unfold dma dbyte
  rw [ht.dmem.bytes, if_pos hx, hb]
  rfl

theorem dma_outside (ht : Taken s s' addr size d memory_type) (hx : ¬ InRange addr size x) : s'.dma x = s.dma x := by
  unfold dma dbyte
  rw [ht.dmem.bytes, if_neg hx]

theorem vma_map (ht : Taken s s' addr size d memory_type) : s'.vma_map = s.vma_map := by
  rw [ht.frame]

end Taken

/-! ## Unmapping and mapping -/

theorem Unmapped.maps_imp (hwf : WF cfg s') (h : Unmapped cfg s s' S)
    (hm : s'.Maps t v x) : s.Maps t v x ∧ (t ≠ .pooled → ¬ S v) := by
  have hb := hwf.backing_of_maps hm
  by_cases ht : t = .pooled
  · subst ht
    exact ⟨h.maps_pooled_iff.mp hm, fun hn => absurd rfl hn⟩
  · have hfree : t ≠ .free := by
      rintro rfl
      simp [VMAType.HasPhysicalBacking] at hb
    obtain ⟨hm, hS⟩ := (h.maps_iff hfree ht).mp hm
    exact ⟨hm, fun _ => hS⟩

theorem Unmapped.maps_phys (h : Unmapped cfg s s' S) (hm : s'.Maps t v x) :
    s.Maps t v x ∧ hostPhys s'.impl.calls v = hostPhys s.impl.calls v := by
  obtain ⟨b, hb, ht, hx⟩ := hm
  by_cases hv : S v ∧ s.Unmappable v
  · rw [h.vinside v hv.1 hv.2, Option.some.injEq] at hb
    subst hb
    contradiction
  · rw [h.voutside v hv] at hb
    exact ⟨⟨b, hb, ht, hx⟩, h.phys_outside v hv⟩

section

variable (h : MappedAs cfg s s' va size type prot p)

include h

theorem MappedAs.maps_inside (hv : InRange va size v) : s'.Maps t v x ↔ t = type ∧ p (v - va) = some x := by
  unfold Maps
  simp [h.vbyte v, hv, eq_comm]

theorem MappedAs.hasType_inside (hv : InRange va size v) : s'.HasType t v ↔ t = type := by
  unfold HasType
  simp [h.vbyte v, hv, eq_comm]

theorem MappedAs.maps_outside (hv : ¬ InRange va size v) : s'.Maps t v x ↔ s.Maps t v x := by
  unfold Maps
  simp [h.vbyte v, hv]

theorem MappedAs.hasType_outside (hv : ¬ InRange va size v) : s'.HasType t v ↔ s.HasType t v := by
  unfold HasType
  simp [h.vbyte v, hv]

end

theorem MappedAs.not_maps (hwf : WF cfg s) (h : MappedAs cfg s s' va size type prot p)
    (hm : s.Maps t v x) : ¬ InRange va size v := by
  intro hv
  obtain rfl := hm.hasType.unique (h.free v hv)
  have := hwf.backing_of_maps hm
  simp [VMAType.HasPhysicalBacking] at this

theorem MappedAs.maps_iff (hwf : WF cfg s) (h : MappedAs cfg s s' va size type prot p) :
    s'.Maps t v x ↔ InRange va size v ∧ t = type ∧ p (v - va) = some x ∨ s.Maps t v x := by
  by_cases hv : InRange va size v
  · rw [h.maps_inside hv]
    have := fun hm => h.not_maps hwf hm hv (x := x) (t := t)
    tauto
  · rw [h.maps_outside hv]
    tauto

theorem Backed.paddr (h : Backed cfg s s' size type phys_addr p) (hi : i < size)
    (hx : p i = some x) : type = .flexible ∨ type = .direct ∧ x = phys_addr + i := by
  cases type with
  | flexible => exact .inl rfl
  | direct =>
    have := h.paddr i hi
    rw [hx, Option.some.injEq] at this
    exact .inr ⟨rfl, this⟩
  | _ =>
    have := h.paddr i
    rw [hx] at this
    contradiction

theorem Backed.dmem_eq (h : Backed cfg s s' size type phys_addr p)
    (ht : type ≠ .direct) : s'.dmem_map = s.dmem_map := by
  cases type with
  | direct => contradiction
  | _ => exact h.dmem

theorem Backed.fmem_eq (h : Backed cfg s s' size type phys_addr p) (ht : type ≠ .flexible) :
    s'.fmem_map = s.fmem_map ∧ s'.flexible_usage = s.flexible_usage := by
  cases type with
  | flexible => contradiction
  | _ => exact ⟨h.fmem, h.usage⟩

theorem direct_range_of_check (h : WF cfg s)
    (hc : s.checkPhysical size .direct validate phys_addr = .ok none) (hu : Unmapped cfg s s₁ S)
    (hb : DirectBacked s₁ s' size phys_addr p) (hx : InRange phys_addr size x) :
    (s.dma x = some .allocated ∨ s.dma x = some .mapped) ∧ (validate = true → s.dma x = some .allocated) := by
  have hspan : ∀ x, InRange phys_addr size x → x < s.total_direct_size := fun x hx =>
    hu.total_direct ▸ (hb.dmem.span x hx).2
  have hlt := hspan x hx
  have hle := h.direct_le
  have hcfg := cfg.sizes_lt
  have hne : phys_addr ≠ minusOne := by
    rintro rfl
    have := hx.1
    unfold minusOne at this
    omega
  exact checkPhysical_spec h hne hspan hc hx

theorem Unmapped.dma_taken (h : WF cfg s) (hu : Unmapped cfg s s' S)
    (hx : s.dma x = some .allocated ∨ s.dma x = some .mapped) :
    s'.dma x = some .allocated ∨ s'.dma x = some .mapped := by
  by_cases hX : ∃ v, S v ∧ s.Maps .direct v x
  · exact .inl (dma_inside h hu.direct (fun _ => rfl) hX)
  · rwa [dma_outside hu.direct hX]

theorem Committed.maps_inside (h : Committed cfg s s' va size prot mtype p)
    (hv : InRange va size v) : s'.Maps t v x ↔ t = .pooled ∧ p (v - va) = some x := by
  unfold Maps
  simp [h.vbyte v, hv, eq_comm]

theorem Committed.maps_outside (h : Committed cfg s s' va size prot mtype p)
    (hv : ¬ InRange va size v) : s'.Maps t v x ↔ s.Maps t v x := by
  unfold Maps
  simp [h.vbyte v, hv]

theorem Committed.hasType_iff (h : Committed cfg s s' va size prot mtype p) :
    s'.HasType t v ↔ InRange va size v ∧ t = .pooled ∨ ¬ InRange va size v ∧ s.HasType t v := by
  unfold HasType
  by_cases hv : InRange va size v <;> simp [h.vbyte v, hv, eq_comm]

variable {guard : MemoryManager → Op → Prop}

theorem ReachableVia.invariant_exec {P : MemoryManager → Prop} (h : ReachableVia cfg guard s) (h0 : P (.new cfg))
    (hstep : ∀ s op s', WF cfg s → WF cfg s' → P s → op.Admitted cfg s → guard s op →
      op.exec cfg s = .ok s' → op.Effect cfg s s' → P s') : P s := by
  have hwf : WF cfg s ∧ P s := by
    refine Run.invariant (P := fun s => WF cfg s ∧ P s) h (fun s hs => hs ▸ ⟨wf_new cfg, h0⟩) ?_
    intro s op s' hP hg he
    obtain ⟨hwf, rfl | heff⟩ := Op.exec_spec hP.1 hg.1 he
    · exact hP
    · exact ⟨hwf, hstep s op s' hP.1 hwf hP.2 hg.1 hg.2 he heff⟩
  exact hwf.2

theorem reachableVia_of_replay (h : ReachableVia cfg guard s)
    (hg : ∀ op ∈ ops, ∀ s, guard s op) (hr : replay cfg ops s = some s') : ReachableVia cfg guard s' := by
  induction ops generalizing s with
  | nil =>
    rw [replay, Option.some.injEq] at hr
    exact hr ▸ h
  | cons op ops ih =>
    obtain ⟨hop, hops⟩ := List.forall_mem_cons.mp hg
    simp only [replay] at hr
    split_ifs at hr with ha
    split at hr
    · rename_i s₁ he
      exact ih (.step h ⟨ha, hop s⟩ he) hops hr
    · contradiction

theorem exists_of_replayVia (cfg : Config) (ops : List Op) (t : MemoryManager → Bool)
    (hg : ∀ op ∈ ops, ∀ s, guard s op) (h : (replay cfg ops (.new cfg)).any t = true) :
    ∃ s, replay cfg ops (.new cfg) = some s ∧ ReachableVia cfg guard s ∧ t s = true := by
  obtain ⟨s, hs, -, ht⟩ := exists_of_replay cfg ops t h
  exact ⟨s, hs, reachableVia_of_replay (.start rfl) hg hs, ht⟩

end ShadPS4.Memory
