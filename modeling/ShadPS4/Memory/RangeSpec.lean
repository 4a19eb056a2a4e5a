import ShadPS4.Memory.UnmapSpec

/-!
# Protection, memory types, and names, byte by byte

What `Protect`, `SetDirectMemoryType`, and `NameVirtualRange` do to the bytes of a state.
-/

namespace ShadPS4.Memory

open MemoryManager
open OrdMap (get?_eq_some_iff floor?_eq_some_iff)
open Except (ok)

variable {addr fuel n : ℕ} {r : Orbis} {name : String} {memory_type : ℤ}
variable {cfg : Config} {s s' s₁ s₂ : MemoryManager} {va size v x : ℕ} {prot : MemoryProt}

/-- Two states with the same virtual bytes up to their protection, the same uses of physical memory, the
same counters, and the same host mappings. -/
structure SameCore (s s' : MemoryManager) : Prop where
  hasType : ∀ t v, s'.HasType t v ↔ s.HasType t v
  maps : ∀ t v x, s'.Maps t v x ↔ s.Maps t v x
  dma : ∀ x, s'.dma x = s.dma x
  fmem : s'.fmem_map = s.fmem_map
  usage : s'.flexible_usage = s.flexible_usage
  budget : s'.pool_budget = s.pool_budget
  total_direct : s'.total_direct_size = s.total_direct_size
  total_flexible : s'.total_flexible_size = s.total_flexible_size
  phys : ∀ v, hostPhys s'.impl.calls v = hostPhys s.impl.calls v

theorem vbyte_of_carve (h : VTiles m R) (hsize : size < 2^64) (hc : carveVMA m va size = .ok (m', k))
    (hg : m'.get? k = some w) (hv : InRange va size v) : m.byteAt vmaExtent v = some (vmaExtent.byte w (v - va)) := by
  obtain ⟨rfl, hcarved⟩ := carveVMA_spec h hsize hc
  rw [get?_eq_some_iff] at hg
  obtain ⟨u, hu, -, hs⟩ := hcarved.entry
  obtain rfl := OrdMap.mem_unique hg hu
  rw [← hcarved.bytes, hcarved.tiles.part.byteAt_of_covers ⟨hg, hv.1, by rw [vmaExtent_size, hs]; exact hv.2⟩]

/-! ## Protection -/

/-- `Protect` changes the protection of the byte: it is not free, and not reserved for the pool. -/
def MemoryManager.Protectable (s : MemoryManager) (v : ℕ) : Prop :=
  ∃ b, s.vbyte v = some b ∧ b.type ≠ .free ∧ b.type ≠ .poolReserved

/-- What `Protect` does to the virtual bytes `S`. -/
structure Protected (s s' : MemoryManager) (S : ℕ → Prop) (prot : MemoryProt) : Prop where
  vinside : ∀ v b, S v → s.Protectable v → s.vbyte v = some b →
    s'.vbyte v = some { b with prot := storedProt b.type (appendRead prot) }
  voutside : ∀ v, ¬ (S v ∧ s.Protectable v) → s'.vbyte v = s.vbyte v
  perm_inside : ∀ v b, S v → s.vbyte v = some b → b.type.IsMapped →
    hostPerm s'.impl.calls v = if prot ≠ b.prot then protPermissions (appendRead prot)
      else hostPerm s.impl.calls v
  perm_outside : ∀ v, ¬ S v → hostPerm s'.impl.calls v = hostPerm s.impl.calls v
  phys : ∀ v, hostPhys s'.impl.calls v = hostPhys s.impl.calls v
  frame : s' = { s with
    vma_map := s'.vma_map, impl := { s.impl with calls := s'.impl.calls } }

namespace Protected

variable {S T : ℕ → Prop}

theorem refl (hS : ∀ v, S v → ¬ s.Protectable v) : Protected s s S prot := by
  refine ⟨fun v b hv hp => absurd hp (hS v hv), fun v _ => rfl, fun v b hv hb hm => ?_,
    fun v _ => rfl, fun v => rfl, rfl⟩
  exact absurd ⟨b, hb, hm.1, hm.2.2⟩ (hS v hv)

theorem core (h : Protected s s' S prot) (v : ℕ) :
    (s'.vbyte v).map (fun b => (b.type, b.paddr)) = (s.vbyte v).map fun b => (b.type, b.paddr) := by
  by_cases hv : S v ∧ s.Protectable v
  · obtain ⟨b, hb, hne⟩ := hv.2
    rw [h.vinside v b hv.1 hv.2 hb, hb]
    rfl
  · rw [h.voutside v hv]

theorem hasType_iff_of_core
    (h : (s'.vbyte v).map (fun b => (b.type, b.paddr)) = (s.vbyte v).map fun b => (b.type, b.paddr))
    (t : VMAType) (x : ℕ) : (s'.HasType t v ↔ s.HasType t v) ∧ (s'.Maps t v x ↔ s.Maps t v x) := by
  unfold HasType Maps
  rcases hb : s.vbyte v with - | b <;> rcases hb' : s'.vbyte v with - | b' <;> rw [hb, hb'] at h
  · simp
  · simp at h
  · simp at h
  · simp only [Option.map_some, Option.some.injEq, Prod.mk.injEq] at h
    simp [h.1, h.2]

theorem protectable_iff (h : Protected s s' S prot) (hv : ¬ S v) : s'.Protectable v ↔ s.Protectable v := by
  unfold Protectable
  rw [h.voutside v fun hs => hv hs.1]

theorem trans (h : Protected s s₁ S prot) (h' : Protected s₁ s₂ T prot) (hST : ∀ v, S v → ¬ T v) :
    Protected s s₂ (fun v => S v ∨ T v) prot := by
  refine ⟨fun v b hv hp hb => ?_, fun v hv => ?_, fun v b hv hb hm => ?_, fun v hv => ?_,
    fun v => (h'.phys v).trans (h.phys v), by rw [h'.frame, h.frame]⟩
  · by_cases hS : S v
    · rw [h'.voutside v fun ht => hST v hS ht.1, h.vinside v b hS hp hb]
    · refine h'.vinside v b (hv.resolve_left hS) ((h.protectable_iff hS).mpr hp) ?_
      rw [h.voutside v fun hs => hS hs.1, hb]
  · have hS : s₁.vbyte v = s.vbyte v := h.voutside v fun hs => hv ⟨.inl hs.1, hs.2⟩
    rw [h'.voutside v fun ht => hv ⟨.inr ht.1, ?_⟩, hS]
    obtain ⟨b, hb, hne⟩ := ht.2
    exact ⟨b, hS ▸ hb, hne⟩
  · by_cases hS : S v
    · rw [h'.perm_outside v (hST v hS), h.perm_inside v b hS hb hm]
    · rw [h'.perm_inside v b (hv.resolve_left hS) (by rw [h.voutside v fun hs => hS hs.1, hb]) hm,
        h.perm_outside v hS]
  · rw [h'.perm_outside v fun ht => hv (.inr ht), h.perm_outside v fun hs => hv (.inl hs)]

theorem congr (h : Protected s s' S prot) (hST : ∀ v, S v ↔ T v) : Protected s s' T prot := by
  have : S = T := funext fun v => propext (hST v)
  exact this ▸ h

end Protected

theorem protectBytes_spec (h : WF cfg s)
    (hf : s.vma_map.floor? va = some (k, vma)) (hva : va < 2^64) (hsize : size < 2^64)
    (hp : s.protectBytes va vma size prot = .ok (s', n)) : n = min (sub64 vma.size (va - k)) size ∧ WF cfg s' ∧
      (InRange k vma.size va ∧ Protected s s' (InRange va n) prot ∨
        k + vma.size ≤ va ∧ ¬ cfg.Usable va ∧ s' = s) := by
  obtain ⟨hk, hcases⟩ := h.floor_cases hf
  have hbase := h.virt.keyed k vma hk
  have hvend := h.end_lt hk
  have hstart : sub64 va vma.base = va - k := by
    rw [hbase]
    exact sub64_of_le (floor?_eq_some_iff.mp hf).2.1 hva
  unfold protectBytes at hp
  simp only [hstart] at hp
  by_cases hskip : vma.type = .free ∨ vma.type = .poolReserved
  · -- Free memory, and memory reserved for the pool, is left alone.
    rw [if_pos hskip, pure_eq_ok, Prod.mk.injEq] at hp
    obtain ⟨rfl, rfl⟩ := hp
    refine ⟨rfl, h, hcases.imp (fun hin => ⟨hin, .refl ?_⟩) fun hout => ⟨hout.1, hout.2, rfl⟩⟩
    rintro v hv ⟨b, hb, hnf, hnp⟩
    obtain ⟨h1, h2⟩ := hin
    rw [sub64_of_le (by omega) (by omega)] at hv
    obtain ⟨h3, h4⟩ := hv
    have hbyte := h.vbyte_of_mem hk (v := v) ⟨by omega, by omega⟩
    rw [hb, Option.some.injEq] at hbyte
    subst hbyte
    exact hskip.elim hnf hnp
  · simp only [if_neg hskip, bind_eq_ok, deref_eq_ok, Prod.exists] at hp
    obtain ⟨m₁, j, hc, w, hg, m2, l, hm, hp⟩ := hp
    obtain ⟨hpos, -, hkva, hend⟩ := h.fits_of_carve (by omega) hf hc
    have hin : InRange k vma.size va := ⟨hkva, by omega⟩
    -- The fields of the new state.
    have hfields : n = min (sub64 vma.size (va - k)) size ∧
        s' = { s with vma_map := m2, impl := { s.impl with calls := s'.impl.calls } } ∧
        s'.impl.calls = if vma.type ≠ .reserved ∧ prot ≠ vma.prot then
          .protect va n (protPermissions (appendRead prot)) :: s.impl.calls else s.impl.calls := by
      by_cases hres : vma.type = .reserved
      · rw [if_pos hres, pure_eq_ok, Prod.mk.injEq] at hp
        obtain ⟨rfl, rfl⟩ := hp
        exact ⟨rfl, rfl, (if_neg fun hn => hn.1 hres).symm⟩
      · rw [if_neg hres] at hp
        by_cases hprot : prot = vma.prot
        · rw [if_neg (not_not.mpr hprot), pure_eq_ok, Prod.mk.injEq] at hp
          obtain ⟨rfl, rfl⟩ := hp
          exact ⟨rfl, rfl, (if_neg fun hn => hn.2 hprot).symm⟩
        · rw [if_pos hprot, pure_eq_ok, Prod.mk.injEq] at hp
          obtain ⟨rfl, rfl⟩ := hp
          exact ⟨rfl, rfl, (if_pos ⟨hres, hprot⟩).symm⟩
    obtain ⟨hn, hs', hcalls⟩ := hfields
    rw [← hn] at hc hpos hend
    have hvma : s'.vma_map = m2 := by rw [hs']
    have hold : ∀ v, InRange va n v → s.vbyte v = some (vmaExtent.byte w (v - va)) :=
      fun v hv => vbyte_of_carve h.virt (by omega) hc hg hv
    obtain ⟨-, hcarved⟩ := carveVMA_spec h.virt (by omega) hc
    have hwb : w.Backed := hcarved.tiles.backed j w (get?_eq_some_iff.mp hg)
    obtain ⟨rfl, hwbase, hws, hrep⟩ := vreplaced_of_carve
      (u := { w with prot := storedProt vma.type (appendRead prot) }) h.virt (by omega) hc hg rfl rfl
      ⟨hwb.part, hwb.empty⟩
    have hrep2 := hrep.merge (OrdMap.mem_insert.mpr (.inl rfl)) hm
    have hinv : ∀ v, InRange va n v → InRange k vma.size v := fun v ⟨h1, h2⟩ =>
      ⟨by omega, by omega⟩
    have hbyte : ∀ v, s'.vbyte v = if InRange va n v then (s.vbyte v).map fun b =>
        { b with prot := storedProt b.type (appendRead prot) } else s.vbyte v := by
      intro v
      rw [vbyte, hvma, hrep2.bytes]
      by_cases hv : InRange va n v
      · have hw := hold v hv
        have htype : w.type = vma.type := by
          rw [h.vbyte_of_mem hk (hinv v hv), Option.some.injEq] at hw
          exact (congrArg VByte.type hw).symm
        rw [if_pos hv, if_pos hv, hw]
        simp [htype]
      · rw [if_neg hv, if_neg hv]
        rfl
    refine ⟨hn, ⟨hvma ▸ hrep2.tiles, ?_, ?_, ?_, ?_, ?_, ?_⟩,
      .inl ⟨hin, fun v b hv hpr hb => ?_, fun v hv => ?_, fun v b hv hb hmap => ?_, fun v hv => ?_,
        fun v => ?_, ?_⟩⟩
    · rw [hs']
      exact h.direct
    · rw [hs']
      exact h.flexible
    · rw [hs']
      exact h.direct_le
    · intro v b x hb hx
      rw [hbyte] at hb
      split_ifs at hb with hv
      · obtain ⟨c, hc, rfl⟩ := Option.map_eq_some_iff.mp hb
        exact h.paddr_lt v c x hc hx
      · exact h.paddr_lt v b x hb hx
    · rw [hs']
      exact h.usage_lt
    · rw [hs']
      exact h.budget_lt
    · rw [hbyte, if_pos hv, hb]
      rfl
    · rw [hbyte, if_neg fun hr => hv ⟨hr, ?_⟩]
      obtain ⟨hnf, hnp⟩ := not_or.mp hskip
      exact ⟨_, h.vbyte_of_mem hk (hinv v hr), hnf, hnp⟩
    · rw [h.vbyte_of_mem hk (hinv v hv), Option.some.injEq] at hb
      subst hb
      rw [hcalls, vmaExtent_byte]
      by_cases hprot : prot = vma.prot
      · rw [if_neg fun hn => hn.2 hprot, if_neg (not_not.mpr hprot)]
      · rw [if_pos ⟨hmap.2.1, hprot⟩, if_pos hprot, hostPerm, if_pos hv]
    · rw [hcalls]
      split_ifs
      · rw [hostPerm, if_neg hv]
      · rfl
    · rw [hcalls]
      split_ifs
      · rw [hostPhys]
      · rfl
    · rw [hvma]
      exact hs'

theorem protectLoop_spec (h : WF cfg s) (hsize : size < 2^64)
    (hl : protectLoop addr size prot fuel s done = .ok (s', r)) :
    WF cfg s' ∧ Protected s s' (Contig cfg (add64 addr done) (size - done)) prot := by
  induction fuel generalizing s done with
  | zero =>
    simp only [protectLoop] at hl
    split_ifs at hl with hz
    obtain ⟨rfl, -⟩ := hl
    exact ⟨h, .refl fun v hv => absurd hv.1.2 (by have := hv.1.1; omega)⟩
  | succ fuel ih =>
    simp only [protectLoop] at hl
    split_ifs at hl with hz
    swap
    · rw [pure_eq_ok, Prod.mk.injEq] at hl
      obtain ⟨rfl, -⟩ := hl
      exact ⟨h, .refl fun v hv => absurd hv.1.2 (by have := hv.1.1; omega)⟩
    simp only [findVMA, bind_eq_ok, deref_eq_ok, Prod.exists] at hl
    obtain ⟨k, vma, hf, s₁, n, hp, hl⟩ := hl
    have hva : add64 addr done < 2^64 := add64_lt _ _
    obtain ⟨hkva, -⟩ := (floor?_eq_some_iff.mp hf).2
    have hkey := h.virt.keyed k vma (floor?_eq_some_iff.mp hf).1
    -- The area found is never after the address.
    have hskip : ∀ x : ℕ, (if add64 addr done < vma.base then x else done) = done := fun x =>
      if_neg (by omega)
    simp only [hskip, sub64_of_le (Nat.le_of_lt hz) hsize] at hp hl
    obtain ⟨hn, hwf1, hcases⟩ := protectBytes_spec h hf hva (by omega) hp
    have hdone : add64 done n = done + n := add64_of_lt (by omega)
    rcases hcases with ⟨⟨h1, h2⟩, hprot⟩ | ⟨hgap, hnu, rfl⟩
    · have hk := (floor?_eq_some_iff.mp hf).1
      have hvend := h.end_lt hk
      rw [sub64_of_le (by omega) (by omega)] at hn
      rw [if_neg (by omega), hdone] at hl
      have hnext : add64 addr (done + n) = add64 addr done + n := by
        rw [← add64_add64]
        exact add64_of_lt (by omega)
      obtain ⟨hwf, hrest⟩ := ih hwf1 hl
      rw [hnext] at hrest
      refine ⟨hwf, (hprot.trans hrest fun v hv hc => ?_).congr fun v => ?_⟩
      · have := hv.2
        have := hc.1.1
        omega
      · rw [contig_append fun v hv => h.usable_of_mem hk ⟨by have := hv.1; omega, by have := hv.2; omega⟩,
          show n + (size - (done + n)) = size - done by omega]
    · have hnone : ∀ v, ¬ Contig cfg (add64 addr done) (size - done) v := not_contig hnu
      by_cases hbig : 2^63 ≤ n
      · rw [if_pos hbig, pure_eq_ok, Prod.mk.injEq] at hl
        obtain ⟨rfl, -⟩ := hl
        exact ⟨h, .refl fun v hv => absurd hv (hnone v)⟩
      · rw [if_neg hbig, hdone] at hl
        obtain ⟨hwf, hrest⟩ := ih h hl
        refine ⟨hwf, hrest.congr fun v => iff_of_false ?_ (hnone v)⟩
        rcases Nat.lt_or_ge n (size - done) with hlt | hge
        · -- The count wraps around to the end of the area found, which is not usable either.
          obtain ⟨hend, hf'⟩ := h.gap_step hf hgap hva hn hlt
          refine not_contig ?_ v
          rw [← add64_add64, hend]
          rcases (h.floor_cases hf').2 with hin | hout
          · exact absurd hin.2 (lt_irrefl _)
          · exact hout.2
        · intro hc
          have := hc.1.1
          have := hc.1.2
          omega

theorem protect_spec (h : WF cfg s) (hva : va < 2^64) (hsize : size < 2^64)
    (hp : s.protect va size prot = .ok (s', r)) : WF cfg s' ∧ Protected s s' (Contig cfg va size) prot := by
  unfold MemoryManager.protect at hp
  split_ifs at hp with hz
  · rw [pure_eq_ok, Prod.mk.injEq] at hp
    obtain ⟨rfl, -⟩ := hp
    exact ⟨h, .refl fun v hv => absurd hv.1.2 (by have := hv.1.1; omega)⟩
  · simp only [bind_eq_ok] at hp
    obtain ⟨-, -, hp⟩ := hp
    have hspec := protectLoop_spec h hsize hp
    rwa [add64_zero hva, Nat.sub_zero] at hspec

theorem Protected.sameCore (h : Protected s s' S prot) : SameCore s s' :=
  ⟨fun t v => (Protected.hasType_iff_of_core (h.core v) t 0).1,
    fun t v x => (Protected.hasType_iff_of_core (h.core v) t x).2, fun x => by rw [h.frame]; rfl,
    by rw [h.frame], by rw [h.frame], by rw [h.frame], by rw [h.frame], by rw [h.frame], h.phys⟩

/-! ## Names and memory types -/

/-- The virtual areas are cut in another way, and hold the same bytes. -/
structure Recut (m m' : VMAMap) (R : ℕ → Prop) : Prop where
  tiles : VTiles m' R
  bytes : ∀ x, m'.byteAt vmaExtent x = m.byteAt vmaExtent x

section Recut

variable {m m₁ m' : VMAMap} {R : ℕ → Prop} {k l : ℕ} {vma u : VirtualMemoryArea}

theorem Recut.trans (h : Recut m m₁ R) (h' : Recut m₁ m' R) : Recut m m' R :=
  ⟨h'.tiles, fun x => (h'.bytes x).trans (h.bytes x)⟩

theorem Recut.write (h : VTiles m R) (hk : (k, vma) ∈ m) (hb : u.base = vma.base)
    (hs : u.size = vma.size) (hu : u.Backed)
    (hbytes : ∀ i, vmaExtent.byte u i = vmaExtent.byte vma i) : Recut m (m.insert k u) R := by
  refine ⟨h.replace hk hb hs hu, fun x => ?_⟩
  rw [h.part.byteAt_replace hk hs]
  split_ifs with hx
  · rw [h.part.byteAt_of_covers ⟨hk, hx⟩, hbytes]
  · rfl

theorem mergeAdvance_spec (h : VTiles m R) (hm : mergeAdvance m k addr = .ok (m', o)) : Recut m m' R := by
  simp only [mergeAdvance, bind_eq_ok, deref_eq_ok, Prod.exists] at hm
  obtain ⟨m₁, l, hmerge, v, hg, hm⟩ := hm
  have hm' : m' = m₁ := by
    split_ifs at hm <;> rw [pure_eq_ok, Prod.mk.injEq] at hm <;> exact hm.1.symm
  subst hm'
  obtain ⟨a, hk⟩ := mem_of_mergeAdjacentVMA hmerge
  obtain ⟨ht, hbytes, -⟩ := mergeAdjacentVMA_spec h hk hmerge
  exact ⟨ht, hbytes⟩

theorem nameBytes_spec (h : VTiles m R) (hn : n < 2^64)
    (hk : (k, vma) ∈ m) (hm : nameBytes m k vma addr n name = .ok (m', l)) : Recut m m' R := by
  unfold nameBytes at hm
  by_cases hfree : vma.type = .free
  · rw [if_pos hfree, pure_eq_ok, Prod.mk.injEq] at hm
    exact hm.1 ▸ ⟨h, fun x => rfl⟩
  · rw [if_neg hfree] at hm
    split_ifs at hm
    · simp only [bind_eq_ok, deref_eq_ok, pure_eq_ok, Prod.exists, Prod.mk.injEq] at hm
      obtain ⟨m₁, j, hc, w, hg, rfl, -⟩ := hm
      obtain ⟨-, hcarved⟩ := carveVMA_spec h hn hc
      have hw := get?_eq_some_iff.mp hg
      exact (Recut.mk hcarved.tiles hcarved.bytes).trans (Recut.write hcarved.tiles hw rfl rfl
        ⟨(hcarved.tiles.backed _ _ hw).part, (hcarved.tiles.backed _ _ hw).empty⟩ fun i => rfl)
    · rw [pure_eq_ok, Prod.mk.injEq] at hm
      exact hm.1 ▸ Recut.write h hk rfl rfl ⟨(h.backed _ _ hk).part, (h.backed _ _ hk).empty⟩
        fun i => rfl

end Recut

theorem nameLoop_spec (h : VTiles s.vma_map R) (hrem : rem < 2^64) (hl : nameLoop name fuel s it va rem = .ok s') :
    s' = { s with vma_map := s'.vma_map } ∧ Recut s.vma_map s'.vma_map R := by
  induction fuel generalizing s it va rem with
  | zero =>
    rcases it with - | it <;> simp only [nameLoop] at hl
    · rw [ok.injEq] at hl
      exact hl ▸ ⟨rfl, h, fun x => rfl⟩
    · split_ifs at hl
      rw [ok.injEq] at hl
      exact hl ▸ ⟨rfl, h, fun x => rfl⟩
  | succ fuel ih =>
    rcases it with - | it <;> simp only [nameLoop] at hl
    · rw [ok.injEq] at hl
      exact hl ▸ ⟨rfl, h, fun x => rfl⟩
    · split_ifs at hl
      · rw [pure_eq_ok] at hl
        exact hl ▸ ⟨rfl, h, fun x => rfl⟩
      · simp only [bind_eq_ok, deref_eq_ok, Prod.exists] at hl
        obtain ⟨vma, hg, m₁, j, hn, m2, o, hm, hl⟩ := hl
        have h1 := nameBytes_spec h (by omega) (get?_eq_some_iff.mp hg) hn
        have h2 := mergeAdvance_spec h1.tiles hm
        obtain ⟨hs', h3⟩ := ih h2.tiles (by omega) hl
        exact ⟨hs', (h1.trans h2).trans h3⟩

theorem WF.of_recut (h : WF cfg s) (hr : Recut s.vma_map m cfg.Usable) (hd : Tiles dmem 0 s.total_direct_size) :
    WF cfg { s with vma_map := m, dmem_map := dmem } :=
  ⟨hr.tiles, hd, h.flexible, h.direct_le, fun v b x hb hx => h.paddr_lt v b x
    ((hr.bytes v).symm.trans hb) hx, h.usage_lt, h.budget_lt⟩

theorem nameVirtualRange_spec (h : WF cfg s) (hsize : size < 2^64)
    (hn : s.nameVirtualRange va size name = .ok s') : WF cfg s' ∧ s' = { s with vma_map := s'.vma_map } ∧
      Recut s.vma_map s'.vma_map cfg.Usable := by
  simp only [nameVirtualRange, bind_eq_ok, Prod.exists] at hn
  obtain ⟨-, -, it, vma, -, hl⟩ := hn
  obtain ⟨hs', hr⟩ := nameLoop_spec h.virt (alignUp_lt hsize) hl
  refine ⟨?_, hs', hr⟩
  rw [hs']
  exact h.of_recut hr h.direct

theorem sameCore_of_recut (hr : Recut s.vma_map m R)
    (hd : ∀ x, (dmem.byteAt physExtent x).map (·.dma_type) = (s.dmem_map.byteAt physExtent x).map (·.dma_type)) :
    SameCore s { s with vma_map := m, dmem_map := dmem } := by
  have hv : ∀ v, MemoryManager.vbyte { s with vma_map := m, dmem_map := dmem } v = s.vbyte v :=
    hr.bytes
  refine ⟨fun t v => ?_, fun t v x => ?_, hd, rfl, rfl, rfl, rfl, rfl, fun v => rfl⟩
  · unfold HasType
    rw [hv]
  · unfold Maps
    rw [hv]

/-- Direct memory whose bytes keep their uses; new cuts are at the ends of the ranges given. -/
structure Reused (m m' : PhysMap) (lo hi : ℕ) (Cut : ℕ → Prop) : Prop where
  tiles : Tiles m' lo hi
  dma : ∀ x, (m'.byteAt physExtent x).map (·.dma_type) = (m.byteAt physExtent x).map (·.dma_type)
  keys : ∀ y, m'.HasKey y → m.HasKey y ∨ Cut y

theorem Reused.trans (h : Reused m m₁ lo hi C)
    (h' : Reused m₁ m' lo hi D) : Reused m m' lo hi fun y => C y ∨ D y := by
  refine ⟨h'.tiles, fun x => (h'.dma x).trans (h.dma x), fun y hy => ?_⟩
  rcases h'.keys y hy with hy | hy
  · exact (h.keys y hy).imp_right .inl
  · exact .inr (.inr hy)

theorem retypeAreas_spec
    (h : Tiles m lo hi) (hl : ∀ e ∈ l, e.2.size < 2^64) (hr : retypeAreas memory_type l m = .ok m') :
    Reused m m' lo hi fun y => ∃ e ∈ l, y = e.2.base ∨ y = e.2.base + e.2.size := by
  induction l generalizing m with
  | nil =>
    rw [retypeAreas, pure_eq_ok] at hr
    exact hr ▸ ⟨h, fun x => rfl, fun y hy => .inl hy⟩
  | cons e rest ih =>
    obtain ⟨j, area⟩ := e
    simp only [retypeAreas, bind_eq_ok, deref_eq_ok, Prod.exists] at hr
    obtain ⟨m₁, k, hc, a, hg, hr⟩ := hr
    obtain ⟨rfl, -, -, hret⟩ := retyped_of_carve (d := { a with memory_type })
      (f := fun b => { b with memory_type }) h (hl _ List.mem_cons_self) hc hg rfl rfl fun _ => rfl
    have h1 : Reused m (m₁.insert area.base { a with memory_type }) lo hi fun y =>
        y = area.base ∨ y = area.base + area.size := by
      refine ⟨hret.tiles, fun x => ?_, hret.keys⟩
      rw [hret.bytes]
      split_ifs
      · rw [Option.map_map]
        rfl
      · rfl
    have h2 := h1.trans (ih hret.tiles (fun e he => hl e (List.mem_cons_of_mem _ he)) hr)
    exact ⟨h2.tiles, h2.dma, fun y hy => (h2.keys y hy).imp_right (by simp)⟩

theorem VirtualMemoryArea.Backed.retype (memory_type : ℤ) (h : vma.Backed) : VirtualMemoryArea.Backed { vma with
        phys_areas := vma.phys_areas.mapVal fun area => { area with memory_type } } ∧
      ∀ i, vmaExtent.byte { vma with
        phys_areas := vma.phys_areas.mapVal fun area => { area with memory_type } } i =
          vmaExtent.byte vma i := by
  by_cases ht : vma.type.HasPhysicalBacking
  · have hpart := h.part ht
    refine ⟨⟨fun _ => hpart.mapVal (f := fun area => { area with memory_type }) fun a => rfl,
      fun hn => absurd ht hn⟩, fun i => ?_⟩
    simp only [vmaExtent_byte]
    rw [hpart.byteAt_mapVal (f := fun area => { area with memory_type })
      (g := fun b => { b with memory_type }) (fun a => rfl) (fun a i => rfl), Option.map_map]
    rfl
  · have hempty : vma.phys_areas.mapVal (fun area => { area with memory_type }) = .empty := by
      rw [h.empty ht]
      rfl
    rw [hempty]
    exact ⟨backed_of_empty ht rfl, fun i => by simp only [vmaExtent_byte, h.empty ht]⟩

theorem VirtualMemoryArea.Backed.size_le {vma : VirtualMemoryArea} (h : vma.Backed)
    {e : ℕ × PhysicalMemoryArea} (he : e ∈ vma.phys_areas.entries) : e.1 + e.2.size ≤ vma.size := by
  by_cases ht : vma.type.HasPhysicalBacking
  · have hpart := h.part ht
    have hpos := hpart.pos e.1 e.2 he
    have := ((hpart.cover (e.1 + e.2.size - 1)).mpr ⟨e.1, e.2, he, by simp only [physExtent_size] at hpos; omega,
        by simp only [physExtent_size] at hpos ⊢; omega⟩).2
    omega
  · rw [h.empty ht] at he
    simp [OrdMap.empty] at he

theorem retypeBytes_spec {k j : ℕ} {vma : VirtualMemoryArea}
    {R : ℕ → Prop} (h : VTiles s.vma_map R) (hd : Tiles s.dmem_map 0 s.total_direct_size)
    (hn : n < 2^64) (hr : s.retypeBytes k vma addr n memory_type = .ok (s', j)) :
    s' = { s with vma_map := s'.vma_map, dmem_map := s'.dmem_map } ∧
      Recut s.vma_map s'.vma_map R ∧
      Reused s.dmem_map s'.dmem_map 0 s.total_direct_size fun _ => True := by
  unfold retypeBytes at hr
  split_ifs at hr with ht
  · simp only [bind_eq_ok, deref_eq_ok, pure_eq_ok, Prod.exists, Prod.mk.injEq] at hr
    obtain ⟨m₁, l, hc, w, hg, dmem, hret, rfl, -⟩ := hr
    obtain ⟨rfl, hcarved⟩ := carveVMA_spec h hn hc
    have hw := get?_eq_some_iff.mp hg
    have hback := hcarved.tiles.backed _ _ hw
    obtain ⟨u, hu, -, hsize⟩ := hcarved.entry
    obtain rfl := OrdMap.mem_unique hw hu
    obtain ⟨hb, hbytes⟩ := hback.retype memory_type
    have hreused := retypeAreas_spec hd (fun e he => by have := hback.size_le he; omega) hret
    exact ⟨rfl, (Recut.mk hcarved.tiles hcarved.bytes).trans (Recut.write hcarved.tiles hw rfl rfl hb hbytes),
      hreused.tiles, hreused.dma, fun y hy => .inr trivial⟩
  · rw [pure_eq_ok, Prod.mk.injEq] at hr
    obtain ⟨rfl, -⟩ := hr
    exact ⟨rfl, ⟨h, fun x => rfl⟩, hd, fun x => rfl, fun y hy => .inl hy⟩

theorem setTypeLoop_spec (h : VTiles s.vma_map R) (hd : Tiles s.dmem_map 0 s.total_direct_size) (hrem : rem < 2^64)
    (hl : setTypeLoop memory_type fuel s it va rem = .ok s') :
    s' = { s with vma_map := s'.vma_map, dmem_map := s'.dmem_map } ∧
      Recut s.vma_map s'.vma_map R ∧
      Reused s.dmem_map s'.dmem_map 0 s.total_direct_size fun _ => True := by
  have hrefl : s = s' → s' = { s with vma_map := s'.vma_map, dmem_map := s'.dmem_map } ∧
      Recut s.vma_map s'.vma_map R ∧
      Reused s.dmem_map s'.dmem_map 0 s.total_direct_size fun _ => True := by
    rintro rfl
    exact ⟨rfl, ⟨h, fun x => rfl⟩, hd, fun x => rfl, fun y hy => .inl hy⟩
  induction fuel generalizing s it va rem with
  | zero =>
    rcases it with - | it <;> simp only [setTypeLoop] at hl
    · rw [ok.injEq] at hl
      exact hrefl hl
    · split_ifs at hl
      rw [ok.injEq] at hl
      exact hrefl hl
  | succ fuel ih =>
    rcases it with - | it <;> simp only [setTypeLoop] at hl
    · rw [ok.injEq] at hl
      exact hrefl hl
    · split_ifs at hl
      · rw [pure_eq_ok] at hl
        exact hrefl hl
      · simp only [bind_eq_ok, deref_eq_ok, Prod.exists] at hl
        obtain ⟨vma, hg, s₁, j, hr, m2, o, hm, hl⟩ := hl
        obtain ⟨hs1, hcut1, hd1⟩ := retypeBytes_spec h hd (by omega) hr
        have hcut2 := mergeAdvance_spec hcut1.tiles hm
        have htd : s₁.total_direct_size = s.total_direct_size := by rw [hs1]
        obtain ⟨hs', hcut3, hd3⟩ := ih hcut2.tiles (htd ▸ hd1.tiles) (by omega) hl
          (by
            rintro rfl
            exact ⟨rfl, ⟨hcut2.tiles, fun x => rfl⟩, htd ▸ hd1.tiles, fun x => rfl,
              fun y hy => .inl hy⟩)
        simp only [htd] at hd3
        refine ⟨by rw [hs', hs1], (hcut1.trans hcut2).trans hcut3, ?_⟩
        have hd := hd1.trans hd3
        exact ⟨hd.tiles, hd.dma, fun y hy => .inr trivial⟩

theorem setDirectMemoryType_spec (h : WF cfg s) (hsize : size < 2^64)
    (hm : s.setDirectMemoryType va size memory_type = .ok (s', r)) :
    WF cfg s' ∧ SameCore s s' ∧ ∀ v, s'.vbyte v = s.vbyte v := by
  simp only [setDirectMemoryType, bind_eq_ok, pure_eq_ok, Prod.exists, Prod.mk.injEq] at hm
  obtain ⟨-, -, it, vma, -, s₁, hl, rfl, -⟩ := hm
  obtain ⟨hs', hcut, hd⟩ := setTypeLoop_spec h.virt h.direct hsize hl
  have hwf := h.of_recut hcut hd.tiles
  have hcore := sameCore_of_recut hcut hd.dma
  rw [← hs'] at hwf hcore
  exact ⟨hwf, hcore, hcut.bytes⟩

end ShadPS4.Memory
