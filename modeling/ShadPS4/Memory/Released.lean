import ShadPS4.Memory.HostView

/-!
# Released memory that is still mapped

`Free` unmaps the direct mappings that meet its range, and releases the bytes in use from its address on, as many
as its size.
-/

namespace ShadPS4.Memory

open MemoryManager

variable {cfg : Config} {s s' : MemoryManager} {v x : ℕ}

/-- `Free` passes its bounds check, and meets no free area if it is checked. -/
def MemoryManager.FreeAccepts (s : MemoryManager) (phys_addr size : ℕ) (is_checked : Bool) : Prop :=
  s.FreeInBounds phys_addr size is_checked ∧ ∀ k area, s.dmem_map.floor? phys_addr = some (k, area) →
    freeList is_checked phys_addr size (s.dmem_map.tailFrom k) ≠ none

theorem free_of_not_accepts
    (hm : s.free p n is_checked = .ok (s', r)) (ha : ¬ s.FreeAccepts p n is_checked) : s' = s := by
  unfold MemoryManager.free at hm
  by_cases hb : s.FreeInBounds p n is_checked
  swap
  · rw [if_pos hb, pure_eq_ok, Prod.mk.injEq] at hm
    exact hm.1.symm
  · rw [if_neg (not_not.mpr hb)] at hm
    simp only [findDmemArea, bind_eq_ok, deref_eq_ok, Prod.exists] at hm
    obtain ⟨k, area, hf, hm⟩ := hm
    split at hm
    · rw [pure_eq_ok, Prod.mk.injEq] at hm
      exact hm.1.symm
    · rename_i hl
      refine absurd ⟨hb, fun k' area' hf' => ?_⟩ ha
      rw [hf, Option.some.injEq, Prod.mk.injEq] at hf'
      rw [← hf'.1, hl]
      exact Option.some_ne_none _

/-- The bytes that an accepted release frees are not pooled, and lose all their direct mappings. -/
def ReleasesUnmapped (s : MemoryManager) : Op → Prop
  | .free phys_addr size is_checked => s.FreeAccepts phys_addr.toNat size.toNat is_checked →
    ∀ x, s.Released phys_addr.toNat size.toNat x → (∀ v, ¬ s.Maps .pooled v x) ∧
      ∀ v, s.Maps .direct v x → s.Removed phys_addr.toNat size.toNat v
  | _ => True

/-! ## The invariant -/

/-- What direct and pooled areas map is direct memory in use. -/
def MemoryManager.BackedInUse (s : MemoryManager) : Prop :=
  ∀ t v x, t = .direct ∨ t = .pooled → s.Maps t v x → s.InUse x

namespace MemoryManager.BackedInUse

theorem mono (h : s.BackedInUse) (hm : ∀ t v x, s'.Maps t v x → s.Maps t v x)
    (hu : ∀ x, s.InUse x → s'.InUse x) : s'.BackedInUse :=
  fun t v x ht hv => hu x (h t v x ht (hm t v x hv))

theorem unmapped (hwf : WF cfg s) (h : s.BackedInUse) (hu : Unmapped cfg s s' S) : s'.BackedInUse :=
  h.mono (fun _ _ _ hv => (hu.maps_phys hv).1) fun _ hx =>
    inUse_of_retyped hwf hu.direct (fun _ => rfl) (by decide) (.inr hx)

theorem taken (hwf : WF cfg s)
    (h : s.BackedInUse) (ht : Taken s s' addr size d memory_type) (hd : d ≠ .free) : s'.BackedInUse := by
  refine h.mono (fun t v x => (maps_congr ht.vma_map t v x).mp) fun x hx => ?_
  by_cases hin : InRange addr size x
  · exact ⟨d, ht.dma_inside hwf hin, hd⟩
  · unfold InUse
    rw [ht.dma_outside hin]
    exact hx

theorem mapped (hwf : WF cfg s) (h : s.BackedInUse) (hm : MappedAs cfg s s' va size type prot p)
    (hb : Backed cfg s s' size type phys_addr p) : s'.BackedInUse := by
  intro t v x ht hv
  by_cases htype : type = .direct
  · subst htype
    refine inUse_of_retyped hwf hb.dmem (fun _ => rfl) (d := .mapped) (by decide) ?_
    rcases (hm.maps_iff hwf).mp hv with ⟨hin, -, hx⟩ | hv
    · rw [(show DirectBacked s s' size phys_addr p from hb).paddr _ hin.sub_lt, Option.some.injEq] at hx
      have hlt := hin.sub_lt
      exact .inl ⟨by omega, by omega⟩
    · exact .inr (h t v x ht hv)
  · have huse : s.InUse x := by
      rcases (hm.maps_iff hwf).mp hv with ⟨hin, rfl, hx⟩ | hv
      · rcases hb.paddr hin.sub_lt hx with rfl | ⟨rfl, -⟩
        · simp at ht
        · contradiction
      · exact h t v x ht hv
    unfold InUse
    rw [dma_congr (hb.dmem_eq htype)]
    exact huse

theorem committed
    (hwf : WF cfg s) (h : s.BackedInUse) (hc : Committed cfg s s' va size prot mtype p) : s'.BackedInUse := by
  intro t v x ht hv
  refine inUse_of_retyped hwf hc.dmem (fun _ => rfl) (d := .committed) (by decide) ?_
  by_cases hin : InRange va size v
  · obtain ⟨-, hx⟩ := (hc.maps_inside hin).mp hv
    exact .inl ⟨v - va, hin.sub_lt, hx⟩
  · exact .inr (h t v x ht ((hc.maps_outside hin).mp hv))

theorem decommitted (hwf : WF cfg s) (h : s.BackedInUse) (hd : Decommitted cfg s s' S) : s'.BackedInUse :=
  h.mono (fun _ _ _ hv => (hd.maps_iff.mp hv).1) fun _ hx =>
    inUse_of_retyped hwf hd.dmem (fun _ => rfl) (by decide) (.inr hx)

theorem freed (h : s.BackedInUse) (hwf : WF cfg s) (hf : Freed cfg s s' p n)
    (hg : ∀ x, s.Released p n x → (∀ v, ¬ s.Maps .pooled v x) ∧
      ∀ v, s.Maps .direct v x → s.Removed p n v) : s'.BackedInUse := by
  obtain ⟨s1, hwf1, hu, hs, hr⟩ := hf
  intro t v x ht hv
  have hv1 : s1.Maps t v x := by
    rw [hs] at hv
    exact hv
  obtain ⟨hv0, hS⟩ := hu.maps_imp hwf1 hv1
  -- A byte that is still mapped is not one of those released.
  have hx : ¬ s.Released p n x := by
    intro hx
    obtain ⟨hpooled, hdirect⟩ := hg x hx
    rcases ht with rfl | rfl
    · exact hS (by decide) (hdirect v hv0)
    · exact hpooled v hv0
  obtain ⟨d, hd, hne⟩ := h.unmapped hwf hu t v x ht hv1
  exact ⟨d, (dma_outside hr hx).trans hd, hne⟩

theorem step (hwf : WF cfg s) (h : s.BackedInUse) (hg : ReleasesUnmapped s op)
    (hex : op.exec cfg s = .ok s') (he : op.Effect cfg s s') : s'.BackedInUse := by
  cases op with
  | allocate =>
    obtain ⟨addr, -, ht, -⟩ := he
    exact h.taken hwf ht (by decide)
  | free addr size is_checked =>
    simp only [Op.exec, map_eq_ok, Prod.exists] at hex
    obtain ⟨s1, r, hex, rfl⟩ := hex
    by_cases ha : s.FreeAccepts addr.toNat size.toNat is_checked
    · exact h.freed hwf he.2 (hg ha)
    · exact free_of_not_accepts hex ha ▸ h
  | poolExpand =>
    obtain ⟨addr, -, ht, -⟩ := he
    exact h.taken hwf ht (by decide)
  | poolCommit =>
    obtain ⟨-, p, hc⟩ := he
    exact h.committed hwf hc
  | poolDecommit =>
    obtain ⟨-, s1, -, hd, rfl⟩ := he
    exact (h.decommitted hwf hd).mono (fun _ _ _ hv => hv) fun _ hx => hx
  | mapMemory =>
    obtain ⟨-, va', -, s1, p, hwf1, hu, hm, hb⟩ := he
    exact (h.unmapped hwf hu).mapped hwf1 hm hb
  | mapFile =>
    obtain ⟨va', prot, -, s1, p, hwf1, hu, hm, hb⟩ := he
    exact (h.unmapped hwf hu).mapped hwf1 hm hb
  | unmapMemory => exact h.unmapped hwf he
  | protect =>
    refine h.mono (fun t v x => (he.sameCore.maps t v x).mp) fun x hx => ?_
    unfold InUse
    rwa [he.sameCore.dma]
  | setDirectMemoryType =>
    refine h.mono (fun t v x => (he.1.maps t v x).mp) fun x hx => ?_
    unfold InUse
    rwa [he.1.dma]
  | nameVirtualRange =>
    refine h.mono (fun t v x => (he.1.maps t v x).mp) fun x hx => ?_
    unfold InUse
    rwa [he.1.dma]
  | setupMemoryRegions =>
    -- All of direct memory is free, so that nothing is mapped.
    intro t v x ht hv
    rw [he.frame] at hv
    obtain ⟨d, hd, hne⟩ := h t v x ht hv
    exact absurd (he.free x d hd) hne

end MemoryManager.BackedInUse

theorem ReachableVia.backedInUse (h : ReachableVia cfg ReleasesUnmapped s) : s.BackedInUse :=
  h.invariant_exec (fun _ _ _ _ hv => absurd hv new_not_maps)
    fun _ _ _ hwf _ hs _ hg hex he => hs.step hwf hg hex he

/-- In every state that calls lead to whose releases are of bytes that they unmap, no physical area of a direct or
pooled area meets a free area of direct memory. -/
theorem released_run (h : ReachableVia cfg ReleasesUnmapped s) :
    (∀ k vma j a l d, (k, vma) ∈ s.vma_map → vma.type = .direct ∨ vma.type = .pooled →
      (j, a) ∈ vma.phys_areas → (l, d) ∈ s.dmem_map → d.dma_type = .free →
        ∀ x, InRange a.base a.size x → ¬ InRange l d.size x) ∧
    (∀ (start last size alignment : UInt64) memory_type s' addr, start.toNat < 2^63 →
      s.allocate start.toNat last.toNat size.toNat alignment.toNat memory_type = .ok (s', some addr) →
        ∀ v x, InRange addr size.toNat x → ¬ s.Maps .direct v x ∧ ¬ s.Maps .pooled v x) ∧
    ∀ (start last size alignment : UInt64) s' addr, NoWrap start.toNat alignment.toNat kb64 →
      s.poolExpand start.toNat last.toNat size.toNat alignment.toNat = .ok (s', some addr) →
        ∀ v x, InRange addr size.toNat x → ¬ s.Maps .direct v x ∧ ¬ s.Maps .pooled v x := by
  have hwf := h.wf
  have hbacked := h.backedInUse
  -- A free byte is not mapped.
  have hfree : ∀ v x, s.dma x = some .free → ¬ s.Maps .direct v x ∧ ¬ s.Maps .pooled v x := by
    intro v x hx
    have hn : ∀ t, t = .direct ∨ t = .pooled → ¬ s.Maps t v x := by
      intro t ht hv
      obtain ⟨d, hd, hne⟩ := hbacked t v x ht hv
      rw [hx, Option.some.injEq] at hd
      exact hne hd.symm
    exact ⟨hn .direct (.inl rfl), hn .pooled (.inr rfl)⟩
  refine ⟨fun k vma j a l d hk ht hj hl hd x hx hx' => ?_,
    fun start last size alignment type s' addr hstart hm v x hx => ?_,
    fun start last size alignment s' addr hwrap hm v x hx => ?_⟩
  · have hback : vma.type.HasPhysicalBacking := ht.imp_right .inr
    have hmap := hwf.maps_of_area hk hback hj hx
    obtain ⟨d', hd', hne⟩ := hbacked _ _ x ht hmap
    rw [hwf.dma_of_mem hl hx', hd, Option.some.injEq] at hd'
    exact hne hd'.symm
  · obtain ⟨-, hs | ⟨addr', hr, -, -, hf⟩⟩ :=
      allocate_spec hwf size.toNat_lt alignment.toNat_lt hm
    · exact absurd hs.2 (by simp)
    · obtain rfl := Option.some.inj hr
      have hpos := alignment_pos_lt (d := kb16) (by decide) alignment.toNat_lt
      exact hfree v x (hf (le_alignUp hstart hpos.1 hpos.2) x hx)
  · obtain ⟨-, hs | ⟨addr', hr, -, -, hf⟩⟩ :=
      poolExpand_spec hwf size.toNat_lt alignment.toNat_lt hm
    · exact absurd hs.2 (by simp)
    · obtain rfl := Option.some.inj hr
      exact hfree v x (hf hwrap x hx)

/-- Direct memory is allocated, mapped, and handed out to the pool beside it. -/
def mappedBesidePool : List Op :=
  [.allocate 0 0x1f0000000 0x40000 0 0,
    .mapMemory 0x100000000 0x40000 3 0x10 .direct "anon" true 0 0,
    .poolExpand 0 0x1f0000000 0x40000 0]

theorem released_run_sample : ∃ s s' addr, replay .sample mappedBesidePool (.new .sample) = some s ∧
    s.allocate 0 0x1f0000000 0x20000 0 0 = .ok (s', some addr) ∧
      ∀ v x, InRange addr 0x20000 x → ¬ s.Maps .direct v x ∧ ¬ s.Maps .pooled v x := by
  have hg : ∀ op ∈ mappedBesidePool, ∀ s, ReleasesUnmapped s op := by
    simp [mappedBesidePool, ReleasesUnmapped]
  obtain ⟨s, hs, hr, ht⟩ := exists_of_replayVia .sample mappedBesidePool
    (fun s => returns (s.allocate 0 0x1f0000000 0x20000 0 0) fun p => p.2.isSome) hg
    (by decide)
  obtain ⟨⟨s', r⟩, hm, hsome⟩ := exists_of_returns ht
  obtain ⟨addr, rfl⟩ := Option.isSome_iff_exists.mp hsome
  exact ⟨s, s', addr, hs, hm, (released_run hr).2.1 0 0x1f0000000 0x20000 0 0 s' addr (by decide) hm⟩

/-- A checked release of committed memory leaves the pooled mapping of what is now free. -/
theorem release_keeps_pooled : ∃ s,
    replay .sample (commitAt 0x100010000 ++ [.free 0 0x20000 true]) (.new .sample) = some s ∧
      Reachable .sample s ∧ s.Maps .pooled 0x100010000 0 ∧ s.dma 0 = some .free := by
  obtain ⟨s, hs, hr, ht⟩ := exists_of_replay .sample (commitAt 0x100010000 ++ [.free 0 0x20000 true])
    (fun s => decide (s.Maps .pooled 0x100010000 0 ∧ s.dma 0 = some .free)) (by decide)
  exact ⟨s, hs, hr, of_decide_eq_true ht⟩

end ShadPS4.Memory
