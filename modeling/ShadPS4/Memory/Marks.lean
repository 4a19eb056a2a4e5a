import ShadPS4.Memory.Released

/-!
# The mark of mapped direct memory

A byte of direct memory is marked as mapped exactly when some direct area maps it, as long as no call unmaps one of
several mappings of a byte.
-/

namespace ShadPS4.Memory

open MemoryManager
open Option (some.injEq)

variable {S : ℕ → Prop} {va' : ℕ} {r : Orbis}
variable {cfg : Config} {s s' : MemoryManager} {va size v x : ℕ}

/-- The byte is marked as mapped exactly when a direct area maps it. -/
def MemoryManager.MarkedAt (s : MemoryManager) (x : ℕ) : Prop :=
  s.dma x = some .mapped ↔ ∃ v, s.Maps .direct v x

/-- What the virtual bytes `S` map directly is mapped from nowhere else, or is one of `Y`. -/
def MemoryManager.AloneIn (s : MemoryManager) (S Y : ℕ → Prop) : Prop :=
  ∀ v x, S v → s.Maps .direct v x → Y x ∨ ∀ v', s.Maps .direct v' x → S v'

/-- What the virtual bytes `S` map directly is also mapped from elsewhere. -/
def MemoryManager.SharedIn (s : MemoryManager) (S : ℕ → Prop) : Prop :=
  ∀ v x, S v → s.Maps .direct v x → ∃ v', ¬ S v' ∧ s.Maps .direct v' x

/-- The call leaves no mapping of a byte that it unmaps, apart from a direct mapping that marks the byte
again; a search for free memory starts where its alignment does not wrap; and the pool is not committed
or decommitted over the last mapping of a byte, nor decommitted while its memory is mapped directly. -/
def MarksKept (cfg : Config) (s : MemoryManager) : Op → Prop
  | .allocate start _ _ alignment _ => NoWrap start.toNat alignment.toNat kb16
  | .poolExpand start _ _ alignment => NoWrap start.toNat alignment.toNat kb64
  | .free phys_addr size is_checked => s.FreeAccepts phys_addr.toNat size.toNat is_checked →
    s.AloneIn (s.Removed phys_addr.toNat size.toNat) (fun _ => False) ∧
      ∀ x, s.Released phys_addr.toNat size.toNat x → ∀ v, s.Maps .direct v x →
        s.Removed phys_addr.toNat size.toNat v
  | .poolCommit va size _ _ => s.CommitFits va.toNat size.toNat → size.toNat < s.pool_budget →
    s.SharedIn (InRange va.toNat size.toNat)
  | .poolDecommit va size => s.DecommitAccepts va.toNat size.toNat →
    s.SharedIn (InRange va.toNat size.toNat) ∧
      ∀ v x, InRange va.toNat size.toNat v → s.Maps .pooled v x → ∀ v', ¬ s.Maps .direct v' x
  | .mapMemory va size _ flags type _ validate phys_addr _ =>
    anySet (flags &&& MemoryMapFlags.fixed) = true →
      s.checkPhysical size.toNat type validate phys_addr.toNat = .ok none →
        s.AloneIn (InRange va.toNat size.toNat) fun x =>
          type = .direct ∧ InRange phys_addr.toNat size.toNat x
  | .mapFile va size _ flags _ _ _ => anySet (flags &&& MemoryMapFlags.fixed) = true →
    s.AloneIn (InRange va.toNat size.toNat) fun _ => False
  | .unmapMemory va size =>
    s.isValidMapping (alignDown va.toNat kb16) (alignUp size.toNat kb16) = .ok true →
      s.AloneIn (Contig cfg (alignDown va.toNat kb16) (alignUp size.toNat kb16)) fun _ => False
  | _ => True

/-! ## Placement -/

section Placement

variable {prot : MemoryProt} {flags : MemoryMapFlags} {type : VMAType} {name : String}

theorem free_of_createArea (h : WF cfg s) (hsize : size < 2^64)
    (hn : ¬ anySet (flags &&& MemoryMapFlags.fixed) = true)
    (hc : s.createArea va size prot flags type name = .ok (s', k)) (hv : InRange va size v) : s.HasType .free v := by
  simp only [createArea, findVMA, bind_eq_ok, deref_eq_ok, Prod.exists, require_eq_ok, if_neg hn, pure_eq_ok] at hc
  obtain ⟨-, -, -, s1, rfl, j, vma, hf, -, hfree, m, l, hcarve, -⟩ := hc
  obtain ⟨-, hj, hle, hend⟩ := h.fits_of_carve hsize hf hcarve
  have := hv.1
  have := hv.2
  exact ⟨_, h.vbyte_of_mem hj ⟨by omega, by omega⟩, hfree⟩

theorem aloneIn_of_free (h : ∀ v, S v → s.HasType .free v) : s.AloneIn S Y :=
  fun v _ hv hm => absurd (hm.hasType.unique (h v hv)) (by decide)

theorem mapMemory_free (h : WF cfg s) (hsize : size < 2^64) (hn : ¬ anySet (flags &&& MemoryMapFlags.fixed) = true)
    (hm : s.mapMemory va size prot flags type name validate phys_addr alignment = .ok (s', r, out))
    (hp : s.placeMapping va size flags alignment = .ok (some va')) :
    s' = s ∨ ∀ v, InRange va' size v → s.HasType .free v := by
  rcases mapMemory_cases hm with ⟨hs, -⟩ | ⟨-, -, w, k, hw, -, hat⟩
  · exact .inl hs
  · rw [hp, Except.ok.injEq, some.injEq] at hw
    subst hw
    simp only [mapAt, bind_eq_ok, Prod.exists] at hat
    obtain ⟨s1, l, hc, -⟩ := hat
    exact .inr fun v hv => free_of_createArea h hsize hn hc hv

theorem mapFile_free (h : WF cfg s) (hsize : size < 2^64) (hn : ¬ anySet (flags &&& MemoryMapFlags.fixed) = true)
    (hm : s.mapFile va size prot flags fd file offset = .ok (s', r, out))
    (hp : s.placeMapping va size flags kb16 = .ok (some va')) :
    s' = s ∨ ∀ v, InRange va' size v → s.HasType .free v := by
  unfold mapFile at hm
  by_cases hfile : file = .invalid
  · rw [if_pos hfile, pure_eq_ok, Prod.mk.injEq] at hm
    exact .inl hm.1.symm
  · simp only [if_neg hfile, bind_eq_ok, hp, Except.ok.injEq] at hm
    obtain ⟨-, -, place, rfl, hm⟩ := hm
    simp only [bind_eq_ok, Prod.exists] at hm
    obtain ⟨s1, l, hc, -⟩ := hm
    exact .inr fun v hv => free_of_createArea h hsize hn hc hv

theorem placeMapping_fixed (hf : anySet (flags &&& MemoryMapFlags.fixed) = true)
    (hp : s.placeMapping va size flags alignment = .ok (some va')) : va' = va := by
  unfold placeMapping at hp
  split_ifs at hp with hno
  · simp only [bind_eq_ok] at hp
    obtain ⟨valid, -, hp⟩ := hp
    split_ifs at hp
    · simp only [bind_eq_ok, Prod.exists] at hp
      obtain ⟨k, vma, -, hp⟩ := hp
      split_ifs at hp
      · cases pure_eq_ok.mp hp
      · exact (Option.some.inj (pure_eq_ok.mp hp)).symm
    · cases pure_eq_ok.mp hp
  · exact (Option.some.inj (pure_eq_ok.mp hp)).symm

theorem unmapMemory_of_not_valid (hm : s.unmapMemory va size = .ok (s', r))
    (hn : s.isValidMapping (alignDown va kb16) (alignUp size kb16) ≠ .ok true) : s' = s := by
  unfold unmapMemory at hm
  split_ifs at hm
  · exact (Prod.mk.inj (pure_eq_ok.mp hm)).1.symm
  · simp only [bind_eq_ok] at hm
    obtain ⟨valid, hv, hm⟩ := hm
    split_ifs at hm with ht
    · exact absurd (ht ▸ hv) hn
    · exact (Prod.mk.inj (pure_eq_ok.mp hm)).1.symm

end Placement

/-! ## Calls -/

namespace MemoryManager.MarkedAt

theorem not_maps (h : s.MarkedAt x) (hd : s.dma x = some d) (hne : d ≠ .mapped) : ¬ ∃ v, s.Maps .direct v x := by
  intro hm
  have hmapped := h.mpr hm
  rw [hd, some.injEq] at hmapped
  exact hne hmapped

theorem congr (h : s.MarkedAt x) (hd : s'.dma x = s.dma x)
    (hm : (∃ v, s'.Maps .direct v x) ↔ ∃ v, s.Maps .direct v x) : s'.MarkedAt x := by
  unfold MarkedAt
  rw [hd, hm]
  exact h

theorem unmapped (hwf : WF cfg s) (h : s.MarkedAt x) (hu : Unmapped cfg s s' S)
    (ha : s.AloneIn S Y) (hx : ¬ Y x) : s'.MarkedAt x := by
  have hmaps : ∀ v, s'.Maps .direct v x ↔ s.Maps .direct v x ∧ ¬ S v := fun v =>
    hu.maps_iff (by decide) (by decide)
  by_cases hX : ∃ v, S v ∧ s.Maps .direct v x
  · have hd : s'.dma x = some .allocated := dma_inside hwf hu.direct (fun _ => rfl) hX
    obtain ⟨v, hv, hm⟩ := hX
    have hall := (ha v x hv hm).resolve_left hx
    refine iff_of_false (by simp [hd]) ?_
    rintro ⟨v', hm'⟩
    obtain ⟨hm', hv'⟩ := (hmaps v').mp hm'
    exact hv' (hall v' hm')
  · refine h.congr (dma_outside hu.direct hX) (exists_congr fun v => ?_)
    rw [hmaps]
    exact and_iff_left_of_imp fun hm hv => hX ⟨v, hv, hm⟩

theorem taken (hwf : WF cfg s) (h : s.MarkedAt x) (ht : Taken s s' addr size d memory_type) (hd : d ≠ .mapped)
    (hfree : ∀ x, InRange addr size x → s.dma x = some .free) : s'.MarkedAt x := by
  by_cases hin : InRange addr size x
  · have hnone := h.not_maps (hfree x hin) (by decide)
    unfold MarkedAt
    simp only [maps_congr ht.vma_map, hnone, iff_false, ht.dma_inside hwf hin, some.injEq]
    exact hd
  · exact h.congr (ht.dma_outside hin) (by simp only [maps_congr ht.vma_map])

theorem mapped
    (hwf : WF cfg s) (hm : MappedAs cfg s s' va size type prot p) (hb : Backed cfg s s' size type phys_addr p)
    (h : ¬ (type = .direct ∧ InRange phys_addr size x) → s.MarkedAt x) : s'.MarkedAt x := by
  by_cases htype : type = .direct
  swap
  · refine (h fun hn => htype hn.1).congr (dma_congr (hb.dmem_eq htype) x) (exists_congr fun v => ?_)
    rw [hm.maps_iff hwf]
    exact or_iff_right fun hn => htype hn.2.1.symm
  subst htype
  have hb : DirectBacked s s' size phys_addr p := hb
  by_cases hin : InRange phys_addr size x
  · have hlt := hin.sub_lt
    have hle := hin.1
    refine iff_of_true (dma_inside hwf hb.dmem (fun _ => rfl) hin)
      ⟨va + (x - phys_addr), (hm.maps_iff hwf).mpr (.inl ⟨⟨by omega, by omega⟩, rfl, ?_⟩)⟩
    rw [Nat.add_sub_cancel_left, hb.paddr _ hlt, some.injEq]
    omega
  · refine (h fun hn => hin hn.2).congr (dma_outside hb.dmem hin) (exists_congr fun v => ?_)
    rw [hm.maps_iff hwf]
    refine or_iff_right fun ⟨hv, _, hx⟩ => hin ?_
    rw [hb.paddr _ hv.sub_lt, some.injEq] at hx
    have hlt := hv.sub_lt
    exact ⟨by omega, by omega⟩

theorem overwritten (h : s.MarkedAt x) (hd : s'.dma x = s.dma x)
    (hmaps : ∀ v, s'.Maps .direct v x ↔ s.Maps .direct v x ∧ ¬ S v) (hs : s.SharedIn S) : s'.MarkedAt x := by
  refine h.congr hd ⟨fun ⟨v, hv⟩ => ⟨v, ((hmaps v).mp hv).1⟩, fun ⟨v, hv⟩ => ?_⟩
  by_cases hS : S v
  · obtain ⟨v', hv', hm⟩ := hs v x hS hv
    exact ⟨v', (hmaps v').mpr ⟨hm, hv'⟩⟩
  · exact ⟨v, (hmaps v).mpr ⟨hv, hS⟩⟩

theorem committed (hwf : WF cfg s) (h : s.MarkedAt x) (hc : Committed cfg s s' va size prot mtype p)
    (hs : s.SharedIn (InRange va size)) : s'.MarkedAt x := by
  have hmaps : ∀ v, s'.Maps .direct v x ↔ s.Maps .direct v x ∧ ¬ InRange va size v := by
    intro v
    by_cases hv : InRange va size v
    · simp [hc.maps_inside hv, hv]
    · simp [hc.maps_outside hv, hv]
  by_cases hX : ∃ i < size, p i = some x
  · -- What is taken from the pool was not mapped.
    obtain ⟨i, hi, hx⟩ := hX
    obtain ⟨y, hy, hpool⟩ := hc.pooled i hi
    rw [hx, some.injEq] at hy
    subst hy
    have hnone := h.not_maps hpool (by decide)
    have hd : s'.dma x = some .committed := dma_inside hwf hc.dmem (fun _ => rfl) ⟨i, hi, hx⟩
    exact iff_of_false (by simp [hd]) fun ⟨v, hv⟩ => hnone ⟨v, ((hmaps v).mp hv).1⟩
  · exact h.overwritten (dma_outside hc.dmem hX) hmaps hs

theorem decommitted (hwf : WF cfg s) (h : s.MarkedAt x) (hd : Decommitted cfg s s' S) (hs : s.SharedIn S)
    (hp : ∀ v x, S v → s.Maps .pooled v x → ∀ v', ¬ s.Maps .direct v' x) : s'.MarkedAt x := by
  by_cases hX : ∃ v, S v ∧ s.Maps .pooled v x
  · have hdma : s'.dma x = some .pooled := dma_inside hwf hd.dmem (fun _ => rfl) hX
    obtain ⟨v, hv, hm⟩ := hX
    exact iff_of_false (by simp [hdma]) fun ⟨v', hv'⟩ => hp v x hv hm v' (hd.maps_iff.mp hv').1
  · exact h.overwritten (dma_outside hd.dmem hX) (fun v => hd.maps_iff) hs

theorem freed (hwf : WF cfg s) (h : s.MarkedAt x) (hf : Freed cfg s s' p n)
    (ha : s.AloneIn (s.Removed p n) fun _ => False)
    (hg : ∀ x, s.Released p n x → ∀ v, s.Maps .direct v x → s.Removed p n v) : s'.MarkedAt x := by
  obtain ⟨s1, hwf1, hu, hs, hr⟩ := hf
  have h1 := h.unmapped hwf hu ha id
  have hmaps : ∀ v, s'.Maps .direct v x ↔ s1.Maps .direct v x := fun v =>
    maps_congr (by rw [hs]) _ v x
  by_cases hx : s.Released p n x
  · have hd : s'.dma x = some .free := dma_inside hwf1 (hu.total_direct ▸ hr) (fun _ => rfl) hx
    refine iff_of_false (by simp [hd]) ?_
    rintro ⟨v, hv⟩
    obtain ⟨hv, hn⟩ := hu.maps_imp hwf1 ((hmaps v).mp hv)
    exact hn (by decide) (hg x hx v hv)
  · exact h1.congr (dma_outside hr hx) (by simp only [hmaps])

end MemoryManager.MarkedAt

/-! ## Runs -/

theorem markedAt_step (hwf : WF cfg s) (h : ∀ x, s.MarkedAt x) (hg : MarksKept cfg s op)
    (hex : op.exec cfg s = .ok s') (he : op.Effect cfg s s') : ∀ x, s'.MarkedAt x := by
  intro x
  cases op with
  | allocate =>
    obtain ⟨addr, -, ht, hf⟩ := he
    exact (h x).taken hwf ht (by decide) (hf hg)
  | free addr size is_checked =>
    simp only [Op.exec, map_eq_ok, Prod.exists] at hex
    obtain ⟨s1, r, hex, rfl⟩ := hex
    by_cases ha : s.FreeAccepts addr.toNat size.toNat is_checked
    · exact (h x).freed hwf he.2 (hg ha).1 (hg ha).2
    · exact free_of_not_accepts hex ha ▸ h x
  | poolExpand =>
    obtain ⟨addr, -, ht, hf⟩ := he
    exact (h x).taken hwf ht (by decide) (hf hg)
  | poolCommit =>
    obtain ⟨hf, p, hc⟩ := he
    exact (h x).committed hwf hc (hg hf hc.lt_budget)
  | poolDecommit =>
    obtain ⟨ha, s1, -, hd, rfl⟩ := he
    exact ((h x).decommitted hwf hd (hg ha).1 (hg ha).2).congr rfl Iff.rfl
  | mapMemory va size prot flags type name validate phys alignment =>
    obtain ⟨hcheck, va', hplace, s1, p, hwf1, hu, hm, hb⟩ := he
    simp only [Op.exec, map_eq_ok, Prod.exists] at hex
    obtain ⟨s2, r, out, hex, rfl⟩ := hex
    by_cases hfixed : anySet (flags &&& MemoryMapFlags.fixed) = true
    · obtain rfl := placeMapping_fixed hfixed hplace
      exact .mapped hwf1 hm hb fun hx => (h x).unmapped hwf hu (hg hfixed hcheck) hx
    · rcases mapMemory_free hwf size.toNat_lt hfixed hex hplace with rfl | hfree
      · exact h x
      · exact .mapped hwf1 hm hb fun _ =>
          (h x).unmapped hwf hu (aloneIn_of_free (Y := fun _ => False) hfree) id
  | mapFile va size prot flags fd file offset =>
    obtain ⟨va', prot', hplace, s1, p, hwf1, hu, hm, hb⟩ := he
    simp only [Op.exec, map_eq_ok, Prod.exists] at hex
    obtain ⟨s2, r, out, hex, rfl⟩ := hex
    by_cases hfixed : anySet (flags &&& MemoryMapFlags.fixed) = true
    · obtain rfl := placeMapping_fixed hfixed hplace
      exact .mapped hwf1 hm hb fun _ => (h x).unmapped hwf hu (hg hfixed) id
    · rcases mapFile_free hwf size.toNat_lt hfixed hex hplace with rfl | hfree
      · exact h x
      · exact .mapped hwf1 hm hb fun _ =>
          (h x).unmapped hwf hu (aloneIn_of_free (Y := fun _ => False) hfree) id
  | unmapMemory va size =>
    simp only [Op.exec, map_eq_ok, Prod.exists] at hex
    obtain ⟨s1, r, hex, rfl⟩ := hex
    by_cases hv : s.isValidMapping (alignDown va.toNat kb16) (alignUp size.toNat kb16) = .ok true
    · exact (h x).unmapped hwf he (hg hv) id
    · exact unmapMemory_of_not_valid hex hv ▸ h x
  | protect =>
    have hc := he.sameCore
    exact (h x).congr (hc.dma x) (by simp only [hc.maps])
  | setDirectMemoryType => exact (h x).congr (he.1.dma x) (by simp only [he.1.maps])
  | nameVirtualRange => exact (h x).congr (he.1.dma x) (by simp only [he.1.maps])
  | setupMemoryRegions =>
    -- All of direct memory is free, so that nothing is mapped directly.
    have hnone : ¬ ∃ v, s.Maps .direct v x := fun hm =>
      absurd (he.free x _ ((h x).mpr hm)) (by decide)
    have hvma : s'.vma_map = s.vma_map := by rw [he.frame]
    refine iff_of_false (fun hd => absurd (he.free' x _ hd) (by decide)) ?_
    simpa only [maps_congr hvma] using hnone

theorem ReachableVia.markedAt (h : ReachableVia cfg (MarksKept cfg) s) (x : ℕ) : s.MarkedAt x := by
  have hall : ∀ x, s.MarkedAt x := by
    refine h.invariant_exec (P := fun s => ∀ x, s.MarkedAt x) (fun x => ?_) ?_
    · exact iff_of_false (fun hd => absurd (new_dma.1 hd) (by decide)) fun ⟨v, hv⟩ => new_not_maps hv
    · exact fun s op s' hwf _ hs _ hg hex he => markedAt_step hwf hs hg hex he
  exact hall x

/-- In every state that such calls lead to, a byte of direct memory is marked as mapped exactly when some
direct area maps it, and a validated direct mapping succeeds only if none maps a byte of its range. -/
theorem marked_run (h : ReachableVia cfg (MarksKept cfg) s) :
    (∀ x, s.dma x = some .mapped ↔ ∃ v, s.Maps .direct v x) ∧
    ∀ (va size phys_addr alignment : UInt64) prot flags name s' out,
      s.mapMemory va.toNat size.toNat prot flags .direct name true phys_addr.toNat
        alignment.toNat = .ok (s', .ok, out) →
      ∀ v x, InRange phys_addr.toNat size.toNat x → ¬ s.Maps .direct v x := by
  have hwf := h.wf
  refine ⟨h.markedAt, fun va size phys alignment prot flags name s' out hm v x hx hv => ?_⟩
  rcases mapMemory_spec hwf va.toNat_lt size.toNat_lt (by decide) hm with
    ⟨-, hne⟩ | ⟨-, hcheck, va', -, -, -, s₁, p, -, hu, -, hb⟩
  · exact hne rfl
  · have hd := (direct_range_of_check hwf hcheck hu hb hx).2 rfl
    exact (h.markedAt x).not_maps hd (by decide) ⟨v, hv⟩

def mappedTwice : List Op :=
  [.allocate 0 0x1f0000000 0x80000 0 0,
    .mapMemory 0x100000000 0x40000 3 0 .direct "anon" false 0 0,
    .mapMemory 0x100100000 0x40000 3 0 .direct "anon" false 0 0]

theorem marked_run_sample : ∃ s s' out, replay .sample mappedTwice (.new .sample) = some s ∧
    s.dma 0 = some .mapped ∧ (∀ x, s.dma x = some .mapped ↔ ∃ v, s.Maps .direct v x) ∧
      s.mapMemory 0x100200000 0x40000 3 0x10 .direct "anon" true 0x40000 0 = .ok (s', .ok, out) ∧
      ∀ v x, InRange 0x40000 0x40000 x → ¬ s.Maps .direct v x := by
  have hfixed : ¬ anySet ((0 : MemoryMapFlags) &&& MemoryMapFlags.fixed) = true := by decide
  have hwrap : NoWrap 0 0 kb16 := Nat.zero_le _
  have hg : ∀ op ∈ mappedTwice, ∀ s, MarksKept .sample s op := by
    simp only [mappedTwice, List.forall_mem_cons]
    exact ⟨fun _ => hwrap, fun _ hf => absurd hf hfixed, fun _ hf => absurd hf hfixed, by simp⟩
  obtain ⟨s, hs, hr, ht⟩ := exists_of_replayVia .sample mappedTwice (fun s => decide (s.dma 0 = some .mapped) &&
      returns (s.mapMemory 0x100200000 0x40000 3 0x10 .direct "anon" true 0x40000 0) fun p =>
        p.2.1 = .ok) hg (by decide)
  rw [Bool.and_eq_true, decide_eq_true_eq] at ht
  obtain ⟨⟨s', r, out⟩, hm, hok⟩ := exists_of_returns ht.2
  obtain rfl : r = .ok := of_decide_eq_true hok
  obtain ⟨hmarks, hvalid⟩ := marked_run hr
  exact ⟨s, s', out, hs, ht.1, hmarks, hm, hvalid 0x100200000 0x40000 0x40000 0 3 0x10 "anon" s' out hm⟩

/-- Unmapping one of two mappings clears the mark, and a validated mapping of memory that is still mapped
succeeds. -/
theorem unmap_clears_mark : ∃ s s' out,
    replay .sample (mappedTwice ++ [.unmapMemory 0x100100000 0x40000]) (.new .sample) = some s ∧
      Reachable .sample s ∧ s.Maps .direct 0x100000000 0 ∧ s.dma 0 = some .allocated ∧
      s.mapMemory 0x100200000 0x40000 3 0x10 .direct "anon" true 0 0 = .ok (s', .ok, out) := by
  obtain ⟨s, hs, hr, ht⟩ := exists_of_replay .sample (mappedTwice ++ [.unmapMemory 0x100100000 0x40000])
    (fun s => decide (s.Maps .direct 0x100000000 0 ∧ s.dma 0 = some .allocated) &&
      returns (s.mapMemory 0x100200000 0x40000 3 0x10 .direct "anon" true 0 0) fun p =>
        p.2.1 = .ok) (by decide)
  rw [Bool.and_eq_true, decide_eq_true_eq] at ht
  obtain ⟨⟨hmaps, hdma⟩, hret⟩ := ht
  obtain ⟨⟨s', r, out⟩, hm, hok⟩ := exists_of_returns hret
  obtain rfl : r = .ok := of_decide_eq_true hok
  exact ⟨s, s', out, hs, hr, hmaps, hdma, hm⟩

end ShadPS4.Memory
