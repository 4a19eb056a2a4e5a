import ShadPS4.Memory.Faults
import ShadPS4.Memory.Released

/-!
# The pool's budget

The budget is the size of the pooled areas of direct memory, as long as no release frees pooled memory or memory
that stays mapped, and no search for free memory starts where its alignment wraps.
-/

namespace ShadPS4.Memory

open MemoryManager

variable {prot : MemoryProt} {mtype : ℤ} {p : ℕ → Option ℕ} {addr : ℕ}
variable {cfg : Config} {s s' : MemoryManager} {va size v x : ℕ}

theorem Committed.ncard_taken (hc : Committed cfg s s' va size prot mtype p) :
    {x | ∃ i < size, p i = some x}.ncard = size := by
  have hsome : ∀ i, InRange 0 size i → ∃ x, p i = some x := by
    intro i hi
    obtain ⟨x, hx, -⟩ := hc.pooled i (by simpa using hi.2)
    exact ⟨x, hx⟩
  calc {x | ∃ i < size, p i = some x}.ncard = {i | InRange 0 size i}.ncard := by
        refine (Set.ncard_congr (fun i hi => (hsome i hi).choose) (fun i hi => ?_)
          (fun i j hi hj heq => ?_) fun x hx => ?_).symm
        · exact ⟨i, by simpa using hi.2, (hsome i hi).choose_spec⟩
        · have hx := (hsome i hi).choose_spec
          rw [heq] at hx
          exact hc.inj i (by simpa using hi.2) j (by simpa using hj.2)
            (hx.trans (hsome j hj).choose_spec.symm)
        · obtain ⟨i, hi, hx⟩ := hx
          have hi' : InRange 0 size i := ⟨Nat.zero_le i, by omega⟩
          exact ⟨i, hi', Option.some.inj ((hsome i hi').choose_spec.symm.trans hx)⟩
    _ = size := ncard_inRange 0 size

/-! ## The invariant -/

/-- The pool is accounted for: what is mapped is marked so, and the budget is what is pooled. -/
structure PoolExact (s : MemoryManager) : Prop where
  direct : ∀ v x, s.Maps .direct v x → s.dma x = some .allocated ∨ s.dma x = some .mapped
  pooled : ∀ v x, s.Maps .pooled v x → s.dma x = some .committed
  inj : ∀ v v' x, s.Maps .pooled v x → s.Maps .pooled v' x → v = v'
  budget : s.pool_budget = {x | s.dma x = some .pooled}.ncard

/-- The bytes that an accepted release frees are not pooled, and lose their mappings; a search for free
memory starts where its alignment does not wrap. -/
def PoolKept (s : MemoryManager) : Op → Prop
  | .allocate start _ _ alignment _ => NoWrap start.toNat alignment.toNat kb16
  | .poolExpand start _ _ alignment => NoWrap start.toNat alignment.toNat kb64
  | .free phys_addr size is_checked => ReleasesUnmapped s (.free phys_addr size is_checked) ∧
    (s.FreeAccepts phys_addr.toNat size.toNat is_checked →
      ∀ x, s.Released phys_addr.toNat size.toNat x → s.dma x ≠ some .pooled)
  | _ => True

namespace PoolExact

theorem congr (h : PoolExact s) (hm : ∀ t v x, t = .direct ∨ t = .pooled → s'.Maps t v x → s.Maps t v x)
    (hd : ∀ x, s'.dma x = s.dma x) (hb : s'.pool_budget = s.pool_budget) : PoolExact s' where
  direct v x hv := hd x ▸ h.direct v x (hm _ v x (.inl rfl) hv)
  pooled v x hv := hd x ▸ h.pooled v x (hm _ v x (.inr rfl) hv)
  inj v v' x hv hv' := h.inj v v' x (hm _ v x (.inr rfl) hv) (hm _ v' x (.inr rfl) hv')
  budget := by simp only [hb, hd, h.budget]

theorem unmapped (hwf : WF cfg s) (h : PoolExact s) (hu : Unmapped cfg s s' S) : PoolExact s' := by
  have hinside : ∀ x, (∃ v, S v ∧ s.Maps .direct v x) → s'.dma x = some .allocated := fun x hx =>
    dma_inside hwf hu.direct (fun _ => rfl) hx
  have hnot : ∀ x, s.dma x = some .pooled ∨ s.dma x = some .committed → ¬ ∃ v, S v ∧ s.Maps .direct v x := by
    rintro x hx ⟨v, -, hv⟩
    rcases h.direct v x hv with hd | hd <;> rw [hd] at hx <;> simp at hx
  refine ⟨fun v x hv => ?_, fun v x hv => ?_, fun v v' x hv hv' => ?_, ?_⟩
  · by_cases hX : ∃ v, S v ∧ s.Maps .direct v x
    · exact .inl (hinside x hX)
    · rw [dma_outside hu.direct hX]
      exact h.direct v x (hu.maps_phys hv).1
  · have hc := h.pooled v x (hu.maps_phys hv).1
    rw [dma_outside hu.direct (hnot x (.inr hc)), hc]
  · exact h.inj v v' x (hu.maps_phys hv).1 (hu.maps_phys hv').1
  · rw [hu.budget, h.budget]
    congr 1
    ext x
    by_cases hX : ∃ v, S v ∧ s.Maps .direct v x
    · have hn : s.dma x ≠ some .pooled := fun hp => hnot x (.inl hp) hX
      simp [hinside x hX, hn]
    · simp [dma_outside hu.direct hX]

theorem taken (h : PoolExact s)
    (ht : Taken s s' addr size d memory_type) (hfree : ∀ x, InRange addr size x → s.dma x = some .free)
    (hb : s'.pool_budget = {x | s'.dma x = some .pooled}.ncard) : PoolExact s' := by
  have hmaps := maps_congr ht.vma_map
  have hsame : ∀ x, s.dma x ≠ some .free → s'.dma x = s.dma x := fun x hx =>
    ht.dma_outside fun hin => hx (hfree x hin)
  refine ⟨fun v x hv => ?_, fun v x hv => ?_, fun v v' x hv hv' => ?_, hb⟩
  · have hd := h.direct v x ((hmaps _ v x).mp hv)
    rwa [hsame x (by rcases hd with hd | hd <;> simp [hd])]
  · have hp := h.pooled v x ((hmaps _ v x).mp hv)
    rwa [hsame x (by simp [hp])]
  · exact h.inj v v' x ((hmaps _ v x).mp hv) ((hmaps _ v' x).mp hv')

theorem allocated (hwf : WF cfg s) (h : PoolExact s)
    (ht : Taken s s' addr size .allocated memory_type) (hfree : ∀ x, InRange addr size x → s.dma x = some .free)
    (hb : s'.pool_budget = s.pool_budget) : PoolExact s' := by
  refine h.taken ht hfree ?_
  rw [hb, h.budget]
  congr 1
  ext x
  by_cases hin : InRange addr size x
  · simp [ht.dma_inside hwf hin, hfree x hin]
  · simp [ht.dma_outside hin]

theorem expanded (hwf : WF cfg s) (hwf' : WF cfg s') (h : PoolExact s) (ht : Taken s s' addr size .pooled 3)
    (hfree : ∀ x, InRange addr size x → s.dma x = some .free)
    (hb : s'.pool_budget = add64 s.pool_budget size) : PoolExact s' := by
  refine h.taken ht hfree ?_
  have hset : {x | s'.dma x = some .pooled} =
      {x | s.dma x = some .pooled} ∪ {x | InRange addr size x} := by
    ext x
    by_cases hin : InRange addr size x
    · simp [ht.dma_inside hwf hin, hin]
    · simp [ht.dma_outside hin, hin]
  have hdisj : Disjoint {x | s.dma x = some .pooled} {x | InRange addr size x} :=
    Set.disjoint_left.mpr fun x hx hin => by
      rw [Set.mem_ofPred_eq, hfree x hin] at hx
      exact absurd hx (by decide)
  have hcard := Set.ncard_union_eq hdisj (hwf.finite_dma .pooled)
    ((Set.finite_Iio (addr + size)).subset fun _ hx => hx.2)
  -- The pool is part of direct memory, so that the sum is a word.
  have hle := hwf'.ncard_dma_le .pooled
  have hdir := hwf'.direct_le
  have hcfg := cfg.sizes_lt
  rw [hset, hcard, ncard_inRange] at hle
  rw [hset, hcard, ncard_inRange, hb, h.budget, add64_of_lt (by omega)]

theorem mapped (hwf : WF cfg s) (h : PoolExact s) (hm : MappedAs cfg s s' va size type prot p)
    (hb : Backed cfg s s' size type phys_addr p) (hphys : type = .direct → ∀ x, InRange phys_addr size x →
      s.dma x = some .allocated ∨ s.dma x = some .mapped) : PoolExact s' := by
  by_cases htype : type = .direct
  swap
  · -- Nothing is mapped from direct memory.
    refine h.congr (fun t v x ht hv => ?_) (dma_congr (hb.dmem_eq htype)) hm.budget
    rcases (hm.maps_iff hwf).mp hv with ⟨hin, rfl, hx⟩ | hv
    · rcases hb.paddr hin.sub_lt hx with rfl | ⟨rfl, -⟩
      · simp at ht
      · contradiction
    · exact hv
  subst htype
  have hb : DirectBacked s s' size phys_addr p := hb
  have hinside : ∀ x, InRange phys_addr size x → s'.dma x = some .mapped := fun x hx =>
    dma_inside hwf hb.dmem (fun _ => rfl) hx
  -- What is pooled or committed is not in the range.
  have hnot : ∀ x, s.dma x = some .pooled ∨ s.dma x = some .committed → ¬ InRange phys_addr size x := by
    intro x hx hin
    rcases hphys rfl x hin with hd | hd <;> rw [hd] at hx <;> simp at hx
  have hold : ∀ v x, s'.Maps .pooled v x → s.Maps .pooled v x := fun v x hv =>
    ((hm.maps_iff hwf).mp hv).resolve_left fun hn => absurd hn.2.1 (by decide)
  refine ⟨fun v x hv => ?_, fun v x hv => ?_, fun v v' x hv hv' => ?_, ?_⟩
  · by_cases hin : InRange phys_addr size x
    · exact .inr (hinside x hin)
    · rw [dma_outside hb.dmem hin]
      rcases (hm.maps_iff hwf).mp hv with ⟨hv, -, hx⟩ | hv
      · rw [hb.paddr _ hv.sub_lt, Option.some.injEq] at hx
        have hlt := hv.sub_lt
        exact absurd ⟨by omega, by omega⟩ hin
      · exact h.direct v x hv
  · have hc := h.pooled v x (hold v x hv)
    rw [dma_outside hb.dmem (hnot x (.inr hc)), hc]
  · exact h.inj v v' x (hold v x hv) (hold v' x hv')
  · rw [hm.budget, h.budget]
    congr 1
    ext x
    by_cases hin : InRange phys_addr size x
    · have hn : s.dma x ≠ some .pooled := fun hp => hnot x (.inl hp) hin
      simp [hinside x hin, hn]
    · simp [dma_outside hb.dmem hin]

theorem committed (hwf : WF cfg s)
    (h : PoolExact s) (hc : Committed cfg s s' va size prot mtype p) : PoolExact s' := by
  have hinside : ∀ x, (∃ i < size, p i = some x) → s'.dma x = some .committed := fun x hx =>
    dma_inside hwf hc.dmem (fun _ => rfl) hx
  have hpool : ∀ x, (∃ i < size, p i = some x) → s.dma x = some .pooled := by
    rintro x ⟨i, hi, hx⟩
    obtain ⟨y, hy, hyp⟩ := hc.pooled i hi
    rw [hx, Option.some.injEq] at hy
    exact hy ▸ hyp
  -- A mapping after the commitment is one of its own or an old one.
  have hcases : ∀ v x, s'.Maps .pooled v x → InRange va size v ∧ p (v - va) = some x ∨ s.Maps .pooled v x := by
    intro v x hv
    by_cases hin : InRange va size v
    · exact .inl ⟨hin, ((hc.maps_inside hin).mp hv).2⟩
    · exact .inr ((hc.maps_outside hin).mp hv)
  have hnew : ∀ v v' x, InRange va size v → p (v - va) = some x → ¬ s.Maps .pooled v' x := by
    intro v v' x hin hx hv
    have hp := hpool x ⟨v - va, hin.sub_lt, hx⟩
    rw [h.pooled v' x hv] at hp
    exact absurd hp (by decide)
  refine ⟨fun v x hv => ?_, fun v x hv => ?_, fun v v' x hv hv' => ?_, ?_⟩
  · have hv : s.Maps .direct v x := by
      by_cases hin : InRange va size v
      · exact absurd ((hc.maps_inside hin).mp hv).1 (by decide)
      · exact (hc.maps_outside hin).mp hv
    have hd := h.direct v x hv
    rwa [dma_outside hc.dmem fun hX => by rw [hpool x hX] at hd; simp at hd]
  · rcases hcases v x hv with ⟨hin, hx⟩ | hv
    · exact hinside x ⟨v - va, hin.sub_lt, hx⟩
    · have hcom := h.pooled v x hv
      rw [dma_outside hc.dmem fun hX => by rw [hpool x hX] at hcom; simp at hcom, hcom]
  · rcases hcases v x hv with ⟨hin, hx⟩ | hold <;> rcases hcases v' x hv' with ⟨hin', hx'⟩ | hold'
    · have := hc.inj _ hin.sub_lt _ hin'.sub_lt (hx.trans hx'.symm)
      have := hin.1
      have := hin'.1
      omega
    · exact absurd hold' (hnew v v' x hin hx)
    · exact absurd hold (hnew v' v x hin' hx')
    · exact h.inj v v' x hold hold'
  · have hset : {x | s'.dma x = some .pooled} =
        {x | s.dma x = some .pooled} \ {x | ∃ i < size, p i = some x} := by
      ext x
      by_cases hX : ∃ i < size, p i = some x
      · simp only [Set.mem_ofPred_eq, hinside x hX, Set.mem_sdiff, hX, not_true_eq_false, and_false, iff_false]
        decide
      · simp only [Set.mem_ofPred_eq, dma_outside hc.dmem hX, Set.mem_sdiff, hX, not_false_eq_true, and_true]
    have hsub : {x | ∃ i < size, p i = some x} ⊆ {x | s.dma x = some .pooled} := hpool
    rw [hset, Set.ncard_sdiff hsub ((hwf.finite_dma .pooled).subset hsub), hc.ncard_taken, hc.budget, h.budget]

theorem decommitted (hwf : WF cfg s) (hwf' : WF cfg s') (h : PoolExact s)
    (hd : Decommitted cfg s s' S) : PoolExact s' := by
  have hinside : ∀ x, (∃ v, S v ∧ s.Maps .pooled v x) → s'.dma x = some .pooled := fun x hx =>
    dma_inside hwf hd.dmem (fun _ => rfl) hx
  have hcom : ∀ x, (∃ v, S v ∧ s.Maps .pooled v x) → s.dma x = some .committed :=
    fun x ⟨v, _, hv⟩ => h.pooled v x hv
  refine ⟨fun v x hv => ?_, fun v x hv => ?_, fun v v' x hv hv' => ?_, ?_⟩
  · have hdir := h.direct v x (hd.maps_iff.mp hv).1
    rwa [dma_outside hd.dmem fun hX => by rw [hcom x hX] at hdir; simp at hdir]
  · obtain ⟨hv, hS⟩ := hd.maps_iff.mp hv
    rw [dma_outside hd.dmem fun ⟨v', hS', hv'⟩ => hS (h.inj v v' x hv hv' ▸ hS')]
    exact h.pooled v x hv
  · exact h.inj v v' x (hd.maps_iff.mp hv).1 (hd.maps_iff.mp hv').1
  · have hset : {x | s'.dma x = some .pooled} =
        {x | s.dma x = some .pooled} ∪ {x | ∃ v, S v ∧ s.Maps .pooled v x} := by
      ext x
      by_cases hX : ∃ v, S v ∧ s.Maps .pooled v x
      · simp only [Set.mem_ofPred_eq, hinside x hX, Set.mem_union, hX, or_true]
      · simp only [Set.mem_ofPred_eq, dma_outside hd.dmem hX, Set.mem_union, hX, or_false]
    have hdisj : Disjoint {x | s.dma x = some .pooled} {x | ∃ v, S v ∧ s.Maps .pooled v x} :=
      Set.disjoint_left.mpr fun x hx hX => by
        rw [Set.mem_ofPred_eq, hcom x hX] at hx
        exact absurd hx (by decide)
    have hcard := Set.ncard_union_eq hdisj (hwf.finite_dma .pooled) ((hwf.finite_dma .committed).subset hcom)
    have hle := hwf'.ncard_dma_le .pooled
    have hdir := hwf'.direct_le
    have hcfg := cfg.sizes_lt
    rw [hset, hcard, hwf.ncard_mapped (.inr (.inr rfl)) h.inj] at hle
    rw [hset, hcard, hd.budget, h.budget, hwf.ncard_mapped (.inr (.inr rfl)) h.inj, add64_of_lt (by omega)]

theorem freed {p n : ℕ} (hwf : WF cfg s) (h : PoolExact s) (hf : Freed cfg s s' p n)
    (hg : ∀ x, s.Released p n x → (∀ v, ¬ s.Maps .pooled v x) ∧ ∀ v, s.Maps .direct v x → s.Removed p n v)
    (hpool : ∀ x, s.Released p n x → s.dma x ≠ some .pooled) : PoolExact s' := by
  obtain ⟨s1, hwf1, hu, hs, hr⟩ := hf
  have h1 := h.unmapped hwf hu
  have hmaps : ∀ t v x, s'.Maps t v x ↔ s1.Maps t v x := maps_congr (by rw [hs])
  -- A byte that is still mapped is not released, and keeps its use.
  have hsame : ∀ t v x, t = .direct ∨ t = .pooled → s1.Maps t v x → s'.dma x = s1.dma x := by
    intro t v x ht hv
    obtain ⟨hv0, hS⟩ := hu.maps_imp hwf1 hv
    refine dma_outside hr fun hx => ?_
    rcases ht with rfl | rfl
    · exact hS (by decide) ((hg x hx).2 v hv0)
    · exact (hg x hx).1 v hv0
  refine ⟨fun v x hv => ?_, fun v x hv => ?_, fun v v' x hv hv' => ?_, ?_⟩
  · rw [hmaps] at hv
    rw [hsame _ v x (.inl rfl) hv]
    exact h1.direct v x hv
  · rw [hmaps] at hv
    rw [hsame _ v x (.inr rfl) hv]
    exact h1.pooled v x hv
  · rw [hmaps] at hv hv'
    exact h1.inj v v' x hv hv'
  · have hb : s'.pool_budget = s1.pool_budget := by rw [hs]
    rw [hb, h1.budget]
    congr 1
    ext x
    by_cases hx : s.Released p n x
    · have hfree : s'.dma x = some .free := dma_inside hwf1 (hu.total_direct ▸ hr) (fun _ => rfl) hx
      -- Unmapping made no byte pooled.
      have hn : s1.dma x ≠ some .pooled := by
        by_cases hX : ∃ v, s.Removed p n v ∧ s.Maps .direct v x
        · rw [dma_inside hwf hu.direct (d := .allocated) (fun _ => rfl) hX]
          decide
        · rw [dma_outside hu.direct hX]
          exact hpool x hx
      simp [hfree, hn]
    · simp [dma_outside hr hx]

theorem step (hwf : WF cfg s) (hwf' : WF cfg s') (h : PoolExact s) (hg : PoolKept s op)
    (hex : op.exec cfg s = .ok s') (he : op.Effect cfg s s') : PoolExact s' := by
  cases op with
  | allocate =>
    obtain ⟨addr, hb, ht, hf⟩ := he
    exact h.allocated hwf ht (hf hg) hb
  | free addr size is_checked =>
    simp only [Op.exec, map_eq_ok, Prod.exists] at hex
    obtain ⟨s1, r, hex, rfl⟩ := hex
    by_cases ha : s.FreeAccepts addr.toNat size.toNat is_checked
    · exact h.freed hwf he.2 (hg.1 ha) (hg.2 ha)
    · exact free_of_not_accepts hex ha ▸ h
  | poolExpand =>
    obtain ⟨addr, hb, ht, hf⟩ := he
    exact h.expanded hwf hwf' ht (hf hg) hb
  | poolCommit =>
    obtain ⟨-, p, hc⟩ := he
    exact h.committed hwf hc
  | poolDecommit =>
    obtain ⟨-, s1, hwf1, hd, rfl⟩ := he
    have h1 := h.decommitted hwf hwf1 hd
    exact ⟨h1.direct, h1.pooled, h1.inj, h1.budget⟩
  | mapMemory va size prot flags type name validate phys alignment =>
    obtain ⟨hcheck, va', -, s1, p, hwf1, hu, hm, hb⟩ := he
    refine (h.unmapped hwf hu).mapped hwf1 hm hb fun htype x hx => ?_
    subst htype
    exact hu.dma_taken hwf (direct_range_of_check hwf hcheck hu hb hx).1
  | mapFile =>
    obtain ⟨va', prot, -, s1, p, hwf1, hu, hm, hb⟩ := he
    exact (h.unmapped hwf hu).mapped hwf1 hm hb fun htype => absurd htype (by decide)
  | unmapMemory => exact h.unmapped hwf he
  | protect =>
    have hc := he.sameCore
    exact h.congr (fun t v x _ => (hc.maps t v x).mp) hc.dma hc.budget
  | setDirectMemoryType => exact h.congr (fun t v x _ => (he.1.maps t v x).mp) he.1.dma he.1.budget
  | nameVirtualRange => exact h.congr (fun t v x _ => (he.1.maps t v x).mp) he.1.dma he.1.budget
  | setupMemoryRegions =>
    -- All of direct memory is free, so that nothing is mapped, and nothing is pooled.
    have hvma : s'.vma_map = s.vma_map := by rw [he.frame]
    have hnot : ∀ x d, d ≠ .free → s.dma x ≠ some d := fun x d hd hx => hd (he.free x d hx)
    refine ⟨fun v x hv => ?_, fun v x hv => ?_, fun v v' x hv _ => ?_, ?_⟩
    · rcases h.direct v x ((maps_congr hvma _ v x).mp hv) with hd | hd
      · exact absurd hd (hnot x _ (by decide))
      · exact absurd hd (hnot x _ (by decide))
    · exact absurd (h.pooled v x ((maps_congr hvma _ v x).mp hv)) (hnot x _ (by decide))
    · exact absurd (h.pooled v x ((maps_congr hvma _ v x).mp hv)) (hnot x _ (by decide))
    · have hb : s'.pool_budget = s.pool_budget := by rw [he.frame]
      rw [hb, h.budget]
      congr 1
      ext x
      exact iff_of_false (hnot x _ (by decide)) fun hx => absurd (he.free' x _ hx) (by decide)

theorem start (cfg : Config) : PoolExact (.new cfg) where
  direct v x hv := absurd hv new_not_maps
  pooled v x hv := absurd hv new_not_maps
  inj v v' x hv _ := absurd hv new_not_maps
  budget := by
    have hnone : {x | (MemoryManager.new cfg).dma x = some .pooled} = ∅ :=
      Set.eq_empty_of_forall_notMem fun x hx => absurd (new_dma.1 hx) (by decide)
    rw [hnone, Set.ncard_empty]
    rfl

end PoolExact

theorem ReachableVia.poolExact (h : ReachableVia cfg PoolKept s) : PoolExact s :=
  h.invariant_exec (.start cfg) fun _ _ _ hwf hwf' hs _ hg hex he => hs.step hwf hwf' hg hex he

/-! ## Commitments -/

def MemoryManager.pooledSize (s : MemoryManager) : ℕ :=
  s.dmem_map.sizeSum physExtent fun a => a.dma_type = .pooled

theorem WF.pooledSize_eq (h : WF cfg s) : s.pooledSize = {x | s.dma x = some .pooled}.ncard := by
  rw [pooledSize, h.direct.part.sizeSum_eq_ncard]
  congr 1
  ext x
  simp only [Set.mem_ofPred_eq, decide_eq_true_eq, dma, dbyte, Option.map_eq_some_iff,
    h.direct.part.byteAt_eq_some_iff]
  constructor
  · rintro ⟨k, a, hc, ha⟩
    exact ⟨_, ⟨k, a, hc, rfl⟩, ha⟩
  · rintro ⟨_, ⟨k, a, hc, rfl⟩, ha⟩
    exact ⟨k, a, hc, ha⟩

/-- The range is not empty, and lies in one area that is reserved for the pool. -/
def MemoryManager.InsideReserved (s : MemoryManager) (va size : ℕ) : Prop :=
  0 < size ∧ ∃ e ∈ s.vma_map.entries, e.2.type = .poolReserved ∧ e.1 ≤ va ∧
    va + size ≤ e.1 + e.2.size

instance (s : MemoryManager) (va size : ℕ) : Decidable (s.InsideReserved va size) :=
  inferInstanceAs (Decidable (_ ∧ ∃ e ∈ s.vma_map.entries, _ ∧ _ ∧ _))

theorem WF.isValidMapping_of_mem (h : WF cfg s)
    (hk : (k, vma) ∈ s.vma_map) (hkv : k ≤ va) (hpos : 0 < size) (hend : va + size ≤ k + vma.size) :
    s.isValidMapping va size = .ok true := by
  have hlt := h.end_lt hk
  have hbase := h.virt.keyed k vma hk
  have hfloor : s.vma_map.floor? va = some (k, vma) :=
    h.virt.part.floor?_of_covers ⟨hk, hkv, by simp only [vmaExtent_size]; omega⟩
  have hhead : (s.vma_map.tailFrom k).head? = some (k, vma) :=
    (OrdMap.head?_eq_some_iff_of_sorted OrdMap.tailFrom_sorted).mpr
      ⟨OrdMap.mem_tailFrom.mpr ⟨hk, le_rfl⟩, fun q hq => (OrdMap.mem_tailFrom.mp hq).2⟩
  obtain ⟨rest, hrest⟩ := List.head?_eq_some_iff.mp hhead
  have hne : s.vma_map.entries ≠ [] := List.ne_nil_of_mem hk
  obtain ⟨first, hfirst⟩ : ∃ p, s.vma_map.first? = some p := ⟨_, List.head?_eq_some_head hne⟩
  obtain ⟨⟨l, last⟩, hlast⟩ : ∃ p, s.vma_map.last? = some p := ⟨_, List.getLast?_eq_some_getLast hne⟩
  have hfirst' := (OrdMap.first?_eq_some_iff.mp hfirst).2 _ hk
  obtain ⟨hlm, hlast'⟩ := OrdMap.last?_eq_some_iff.mp hlast
  have hin : ¬ (va < first.1 ∨ l + last.size ≤ va) := by
    rintro (hn | hn)
    · omega
    · rcases Nat.eq_or_lt_of_le (hlast' _ hk) with rfl | hlt'
      · rw [← OrdMap.mem_unique hk hlm] at hn
        omega
      · have := h.virt.part.disjoint _ _ _ _ hk hlm hlt'
        simp only [vmaExtent_size] at this
        omega
  -- The one area covers the range, so that the walk stops at the next.
  have hvalid : validRange (s.vma_map.tailFrom k) va size = true := by
    have hmin : min (sub64 vma.size (sub64 va vma.base)) size = size := by
      rw [hbase, sub64_of_le hkv (by omega), sub64_of_le (by omega) (by omega)]
      omega
    rw [hrest, validRange, if_neg (by omega)]
    simp only [hmin, Nat.sub_self]
    cases rest with
    | nil => rfl
    | cons e rest => simp [validRange]
  unfold isValidMapping findVMA
  rw [hlast, hfirst, hfloor]
  simp only [deref, bind_eq_ok]
  refine ⟨_, rfl, _, rfl, ?_⟩
  rw [if_neg hin, if_neg (by omega)]
  exact bind_eq_ok.mpr ⟨_, rfl, by rw [hvalid, pure_eq_ok]⟩

theorem WF.poolCommit_enomem_iff (h : WF cfg s) (hsize : size < 2^64) (hin : s.InsideReserved va size) :
    (∃ s', s.poolCommit va size prot mtype = .ok (s', .enomem)) ↔ s.CommitFits va size ∧ s.pool_budget ≤ size := by
  constructor
  · rintro ⟨s', hm⟩
    obtain ⟨-, ⟨-, ⟨hr, -⟩ | ⟨-, hf, hb⟩⟩ | ⟨hr, -⟩⟩ := poolCommit_spec h hsize hm
    · contradiction
    · exact ⟨hf, hb⟩
    · contradiction
  · rintro ⟨⟨k, vma, hfloor, ht, hcon⟩, hb⟩
    obtain ⟨hpos, ⟨l, w⟩, hl, -, hlv, hend⟩ := hin
    refine ⟨s, ?_⟩
    simp only [poolCommit, requireValid, findVMA, bind_eq_ok, deref_eq_ok, require_eq_ok]
    refine ⟨(), ⟨true, h.isValidMapping_of_mem hl hlv hpos hend, rfl⟩, _, hfloor, ?_⟩
    rw [if_neg (not_not.mpr ht), if_neg (not_not.mpr hcon), if_pos hb]
    rfl

theorem PoolExact.poolCommit_avoids (hwf : WF cfg s) (h : PoolExact s) (hsize : size < 2^64) :
    Avoids .commitPooled (s.poolCommit va size prot mtype) := by
  refine (requireValid_avoids (by decide)).bind fun _ _ => findVMA_avoids.bind fun ⟨k, vma⟩ _ => ?_
  dsimp only
  split
  · exact .pure
  split
  · exact .pure
  split
  · exact .pure
  refine (carveVMA_avoids (by decide)).bind fun _ _ => Avoids.deref.bind fun _ _ => ?_
  have hle := hwf.direct_le
  have hcfg := cfg.sizes_lt
  obtain ⟨b, hback, hrem⟩ : ∃ b, backRange .pooled
      (fun area => { area with dma_type := .committed, memory_type := mtype }) false
      (alignUp va kb64) size s.dmem_map s.impl.calls = .ok b ∧ b.remaining_size = 0 := by
    refine backRange_ok (retypes_committed mtype) hwf.direct (by omega) hsize ?_
    have hbudget := h.budget
    simp only [dma, dbyte, Option.map_eq_some_iff] at hbudget
    omega
  rw [hback]
  refine Avoids.pure.bind fun b' hb' => ?_
  obtain rfl := pure_eq_ok.mp hb'
  intro hfail
  rcases bind_eq_error.mp hfail with hfail | ⟨u, -, hfail⟩
  · exact (require_eq_error.mp hfail).1 hrem
  · exact mergeAdjacentVMA_avoids.bind (fun _ _ => .pure) hfail

/-- In every state that such calls lead to, the budget is the size of the pooled areas. -/
theorem pooled_run (h : ReachableVia cfg PoolKept s) : s.pool_budget = s.pooledSize ∧
    ∀ (va size : UInt64) prot mtype, (s.InsideReserved va.toNat size.toNat →
        (((∃ s', s.poolCommit va.toNat size.toNat prot mtype = .ok (s', .enomem)) ↔ s.pooledSize < size.toNat) ↔
          (s.CommitFits va.toNat size.toNat → size.toNat ≠ s.pooledSize) ∧
          (¬ s.CommitFits va.toNat size.toNat → size.toNat ≤ s.pooledSize))) ∧
      s.poolCommit va.toNat size.toNat prot mtype ≠ .error (.assertion .commitPooled) := by
  have hwf := h.wf
  have hexact := h.poolExact
  have hbudget : s.pool_budget = s.pooledSize := by rw [hwf.pooledSize_eq, hexact.budget]
  refine ⟨hbudget, fun va size prot mtype =>
    ⟨fun hin => ?_, hexact.poolCommit_avoids hwf size.toNat_lt⟩⟩
  rw [hwf.poolCommit_enomem_iff size.toNat_lt hin, hbudget]
  by_cases hfits : s.CommitFits va.toNat size.toNat
  · simp only [hfits, true_and, not_true_eq_false, true_implies, false_implies, and_true]
    omega
  · simp only [hfits, false_and, not_false_eq_true, true_implies, false_implies, true_and, false_iff]
    omega

def expandPool : List Op :=
  [.mapMemory 0x100000000 0x200000 0 0x10 .poolReserved "anon" false 0xffffffffffffffff 0x200000,
    .poolExpand 0 0x1f0000000 0x40000 0]

theorem pooled_run_sample : ∃ s,
    replay .sample (expandPool ++ [.poolDecommit 0x100000000 0x10000]) (.new .sample) = some s ∧
      s.pool_budget = s.pooledSize ∧ s.pooledSize = 0x40000 ∧
      ((∃ s', s.poolCommit 0x100000000 0x20000 3 0 = .ok (s', .enomem)) ↔ s.pooledSize < 0x20000) := by
  have hg : ∀ op ∈ expandPool ++ [.poolDecommit 0x100000000 0x10000], ∀ s, PoolKept s op := by
    have hwrap : NoWrap 0 0 kb64 := Nat.zero_le _
    simp only [expandPool, List.cons_append, List.nil_append, List.forall_mem_cons]
    exact ⟨fun _ => trivial, fun _ => hwrap, fun _ => trivial, by simp⟩
  obtain ⟨s, hs, hr, ht⟩ := exists_of_replayVia .sample (expandPool ++ [.poolDecommit 0x100000000 0x10000])
    (fun s => decide (s.InsideReserved 0x100000000 0x20000 ∧ s.pooledSize = 0x40000)) hg
    (by decide)
  obtain ⟨hin, hsize⟩ := of_decide_eq_true ht
  obtain ⟨hb, hcommit⟩ := pooled_run hr
  refine ⟨s, hs, hb, hsize, ((hcommit 0x100000000 0x20000 3 0).1 hin).mpr ?_⟩
  rw [hsize]
  exact ⟨fun _ => by decide, fun _ => by decide⟩

/-- A commitment of the whole pool is refused. -/
theorem whole_pool_refused : ∃ s s', replay .sample expandPool (.new .sample) = some s ∧
    Reachable .sample s ∧ s.InsideReserved 0x100000000 0x40000 ∧ s.pooledSize = 0x40000 ∧
      s.poolCommit 0x100000000 0x40000 3 0 = .ok (s', .enomem) := by
  obtain ⟨s, hs, hr, ht⟩ := exists_of_replay .sample expandPool
    (fun s => decide (s.InsideReserved 0x100000000 0x40000 ∧ s.pooledSize = 0x40000) &&
      returns (s.poolCommit 0x100000000 0x40000 3 0) fun p => p.2 = .enomem) (by decide)
  rw [Bool.and_eq_true, decide_eq_true_eq] at ht
  obtain ⟨⟨hin, hsize⟩, hret⟩ := ht
  obtain ⟨⟨s', r⟩, hm, hno⟩ := exists_of_returns hret
  obtain rfl : r = .enomem := of_decide_eq_true hno
  exact ⟨s, s', hs, hr, hin, hsize, hm⟩

end ShadPS4.Memory
