import ShadPS4.Memory.Coverage

/-!
# Ranges that are rounded to pages

`UnmapMemory` and `NameVirtualRange` round the start of a range down and its length up, each for itself, so that
the pages they reach can end before the range does.
-/

namespace ShadPS4.Memory

open MemoryManager
open Except (ok)
open OrdMap (get?_eq_some_iff mem_unique)

/-! ## Labels -/

/-- What an area says of each of its addresses: its type and its name. -/
def labelExtent : Extent VirtualMemoryArea (VMAType × String) where
  size vma := vma.size
  byte vma _ := (vma.type, vma.name)

/-- The type and the name of the area of an address. -/
def MemoryManager.label (s : MemoryManager) (v : ℕ) : Option (VMAType × String) :=
  s.vma_map.byteAt labelExtent v

section

variable {m m' m₁ : VMAMap} {R : ℕ → Prop} {k l o x addr size : ℕ} {vma next : VirtualMemoryArea}

/-- The two maps give each address the same label. -/
def SameLabels (m m' : VMAMap) : Prop := ∀ x, m'.byteAt labelExtent x = m.byteAt labelExtent x

theorem SameLabels.trans (h : SameLabels m m₁) (h' : SameLabels m₁ m') : SameLabels m m' :=
  fun x => (h' x).trans (h x)

theorem VTiles.labels (h : VTiles m R) : m.Partition labelExtent R :=
  ⟨h.part.pos, h.part.disjoint, h.part.cover⟩

theorem splitVMA_labels (h : VTiles m R) (hs : splitVMA m k o = .ok (m', l)) : SameLabels m m' := by
  obtain ⟨vma, hk, ho, ho', -, rfl, -⟩ := splitVMA_spec h hs
  obtain ⟨-, hs1, -, -, hs2, -⟩ := splitParts_fields vma o
  have hlabels : ∀ i, labelExtent.byte (splitParts vma o).1 i = (vma.type, vma.name) ∧
      labelExtent.byte (splitParts vma o).2 i = (vma.type, vma.name) := by
    intro i
    unfold splitParts
    split_ifs <;> exact ⟨rfl, rfl⟩
  exact fun x => h.labels.byteAt_split hk ho ho' hs1 hs2 (fun i _ => (hlabels i).1)
    fun i _ => (hlabels i).2

theorem carveVMA_labels (h : VTiles m R) (hc : carveVMA m addr size = .ok (m', k)) : SameLabels m m' := by
  simp only [carveVMA, bind_eq_ok, deref_eq_ok, require_eq_ok, Prod.exists] at hc
  obtain ⟨j, vma, -, -, -, hc⟩ := hc
  by_cases hwhole : addr - vma.base = 0 ∧ size = vma.size
  · rw [if_pos hwhole, pure_eq_ok, Prod.mk.injEq] at hc
    exact hc.1 ▸ fun _ => rfl
  · simp only [if_neg hwhole, bind_eq_ok, require_eq_ok] at hc
    obtain ⟨-, -, m₁, hfirst, hsecond⟩ := hc
    -- The first cut is at the end of the range, the second one at its start.
    have h1 : VTiles m₁ R ∧ SameLabels m m₁ := by
      split_ifs at hfirst
      · obtain ⟨⟨m₁, l⟩, hs, rfl⟩ := map_eq_ok.mp hfirst
        obtain ⟨-, -, -, -, -, -, ht, -⟩ := splitVMA_spec h hs
        exact ⟨ht, splitVMA_labels h hs⟩
      · rw [pure_eq_ok] at hfirst
        exact hfirst ▸ ⟨h, fun _ => rfl⟩
    split_ifs at hsecond
    · exact h1.2.trans (splitVMA_labels h1.1 hsecond)
    · rw [pure_eq_ok, Prod.mk.injEq] at hsecond
      exact hsecond.1 ▸ h1.2

theorem name_eq_of_canMergeWith (h : vma.canMergeWith next = .ok true) : vma.name = next.name := by
  unfold VirtualMemoryArea.canMergeWith at h
  split_ifs at h
  · rw [pure_eq_ok] at h
    cases h
  · rw [pure_eq_ok] at h
    cases h
  all_goals
    simp only [bind_eq_ok, pure_eq_ok, decide_eq_true_eq] at h
    obtain ⟨-, -, -, -, -, hname⟩ := h
    exact hname

theorem merge_labels (h : VTiles m R) (hk : (k, vma) ∈ m) (hl : (l, next) ∈ m)
    (hcan : vma.canMergeWith next = .ok true) : SameLabels m ((m.insert k (mergedVMA vma next)).erase l) := by
  obtain ⟨hadj, htype, -⟩ := canMergeWith_eq_ok hcan
  have hkl : l = k + labelExtent.size vma := by
    have := h.keyed k vma hk
    have := h.keyed l next hl
    simp only [labelExtent]
    omega
  refine fun x => h.labels.byteAt_merge hk hl hkl rfl (fun _ _ => rfl) fun _ _ => ?_
  simp only [labelExtent, mergedVMA, htype, name_eq_of_canMergeWith hcan]

theorem mergeAdjacentVMA_labels (h : VTiles m R) (hm : mergeAdjacentVMA m k = .ok (m', l)) : SameLabels m m' := by
  obtain ⟨vma, hk⟩ := mem_of_mergeAdjacentVMA hm
  simp only [mergeAdjacentVMA, bind_eq_ok] at hm
  obtain ⟨m₁, hnext, hprev⟩ := hm
  obtain ⟨ht1, -, v1, hk1, -⟩ := mergeNextVMA_spec h hk hnext
  have h1 : SameLabels m m₁ := by
    simp only [mergeNextVMA, get?_eq_some_iff.mpr hk, deref, bind_eq_ok, ok.injEq,
      exists_eq_left'] at hnext
    split at hnext
    · rename_i j next hn
      simp only [bind_eq_ok] at hnext
      obtain ⟨c, hcan, hnext⟩ := hnext
      split_ifs at hnext with hc
      · rw [pure_eq_ok] at hnext
        subst hc
        exact hnext ▸ merge_labels h hk (OrdMap.next?_eq_some_iff.mp hn).1 hcan
      · rw [pure_eq_ok] at hnext
        exact hnext ▸ fun _ => rfl
    · rw [pure_eq_ok] at hnext
      exact hnext ▸ fun _ => rfl
  simp only [mergePrevVMA, get?_eq_some_iff.mpr hk1, deref, bind_eq_ok, ok.injEq,
    exists_eq_left'] at hprev
  split at hprev
  · rename_i j prev hp
    simp only [bind_eq_ok] at hprev
    obtain ⟨c, hcan, hprev⟩ := hprev
    split_ifs at hprev with hc
    · rw [pure_eq_ok, Prod.mk.injEq] at hprev
      subst hc
      exact h1.trans (hprev.1 ▸ merge_labels ht1 (OrdMap.prev?_eq_some_iff.mp hp).1 hk1 hcan)
    · rw [pure_eq_ok, Prod.mk.injEq] at hprev
      exact hprev.1 ▸ h1
  · rw [pure_eq_ok, Prod.mk.injEq] at hprev
    exact hprev.1 ▸ h1

/-! ## Naming a range -/

/-- The label of an address that a name is given to. Free memory has none. -/
def rename (name : String) (label : VMAType × String) : VMAType × String :=
  if label.1 = .free then label else (label.1, name)

/-- The addresses of a range take a name. -/
def Renamed (m m' : VMAMap) (addr size : ℕ) (name : String) : Prop :=
  ∀ x, m'.byteAt labelExtent x =
    if InRange addr size x then (m.byteAt labelExtent x).map (rename name)
    else m.byteAt labelExtent x

theorem Renamed.trans {n rem : ℕ} {name : String} (h : Renamed m m₁ addr n name)
    (h' : Renamed m₁ m' (addr + n) rem name) : Renamed m m' addr (n + rem) name := by
  intro x
  rw [h' x, h x]
  by_cases h1 : InRange addr n x
  · have h2 : ¬ InRange (addr + n) rem x := fun h2 => by
      have := h1.2
      have := h2.1
      omega
    have h3 : InRange addr (n + rem) x := ⟨h1.1, by have := h1.2; omega⟩
    rw [if_pos h1, if_neg h2, if_pos h3]
  · have h3 : InRange (addr + n) rem x ↔ InRange addr (n + rem) x := by
      unfold InRange at *
      omega
    simp only [if_neg h1, h3]

theorem renamed_write {name : String} (h : VTiles m R) (hk : (k, vma) ∈ m)
    (hused : vma.type ≠ .free) : Renamed m (m.insert k { vma with name }) k vma.size name := by
  intro x
  rw [h.labels.byteAt_replace (b := { vma with name }) hk rfl]
  have hiff : k ≤ x ∧ x < k + labelExtent.size vma ↔ InRange k vma.size x := Iff.rfl
  simp only [hiff]
  by_cases hx : InRange k vma.size x
  · rw [if_pos hx, if_pos hx, h.labels.byteAt_of_covers ⟨hk, hx.1, hx.2⟩]
    simp only [Option.map_some, rename, labelExtent, if_neg hused]
  · rw [if_neg hx, if_neg hx]

theorem nameBytes_labels {n : ℕ} {name : String} (h : VTiles m R) (hn : n < 2^64)
    (hk : (k, vma) ∈ m) (hka : k ≤ addr) (hin : addr + n ≤ k + vma.size)
    (hm : nameBytes m k vma addr n name = .ok (m', l)) :
    Renamed m m' addr n name ∧ ∃ v, (l, v) ∈ m' ∧ addr + n ≤ l + v.size ∧ l ≤ addr ∧ l + v.size ≤ k + vma.size := by
  unfold nameBytes at hm
  by_cases hfree : vma.type = .free
  · rw [if_pos hfree, pure_eq_ok, Prod.mk.injEq] at hm
    obtain ⟨rfl, rfl⟩ := hm
    refine ⟨fun x => ?_, vma, hk, hin, hka, le_rfl⟩
    split_ifs with hx
    · have hcovers : m.Covers labelExtent x k vma := by
        have := hx.1
        have := hx.2
        exact ⟨hk, by omega, by simp only [labelExtent]; omega⟩
      rw [h.labels.byteAt_of_covers hcovers]
      simp [rename, labelExtent, hfree]
    · rfl
  · rw [if_neg hfree] at hm
    split_ifs at hm with hpart
    · simp only [bind_eq_ok, deref_eq_ok, pure_eq_ok, Prod.exists, Prod.mk.injEq] at hm
      obtain ⟨m₁, j, hc, w, hg, rfl, rfl⟩ := hm
      have hlabels := carveVMA_labels h hc
      obtain ⟨rfl, hcarved⟩ := carveVMA_spec h hn hc
      obtain ⟨u, hu, -, hsize⟩ := hcarved.entry
      obtain rfl := mem_unique (get?_eq_some_iff.mp hg) hu
      -- The area carved out has the type of the one that it comes from.
      have hused : w.type ≠ .free := by
        have hpos := hcarved.pos
        have h1 := hcarved.tiles.labels.byteAt_of_covers
          (⟨hu, le_rfl, by simp only [labelExtent]; omega⟩ : m₁.Covers labelExtent j j w)
        have h2 := h.labels.byteAt_of_covers
          (⟨hk, hka, by simp only [labelExtent]; omega⟩ : m.Covers labelExtent j k vma)
        rw [hlabels j, h2, Option.some.injEq] at h1
        exact (Prod.mk.inj h1).1 ▸ hfree
      refine ⟨fun x => ?_, _, OrdMap.mem_insert.mpr (.inl rfl), ?_, le_rfl, ?_⟩
      · rw [renamed_write hcarved.tiles hu hused x, hsize, hlabels x]
      · simp only
        omega
      · simp only
        omega
    · rw [pure_eq_ok, Prod.mk.injEq] at hm
      obtain ⟨rfl, rfl⟩ := hm
      obtain ⟨rfl, rfl⟩ : addr = k ∧ n = vma.size := by omega
      exact ⟨renamed_write h hk hfree, _, OrdMap.mem_insert.mpr (.inl rfl), le_rfl, le_rfl, le_rfl⟩

theorem mergeAdvance_sameLabels {addr : ℕ} {o : Option ℕ} (h : VTiles m R)
    (hm : mergeAdvance m k addr = .ok (m', o)) : SameLabels m m' := by
  simp only [mergeAdvance, bind_eq_ok, Prod.exists] at hm
  obtain ⟨m₁, l, hmerge, v, -, hm⟩ := hm
  have hm' : m' = m₁ := by
    split_ifs at hm <;> rw [pure_eq_ok, Prod.mk.injEq] at hm <;> exact hm.1.symm
  exact hm' ▸ mergeAdjacentVMA_labels h hmerge

theorem mergeAdvance_next {addr : ℕ} {o : Option ℕ} (h : VTiles m R) (hk : (k, vma) ∈ m)
    (hka : k ≤ addr) (hle : addr ≤ k + vma.size) (hR : R addr) (hm : mergeAdvance m k addr = .ok (m', o)) :
    ∃ l next, o = some l ∧ (l, next) ∈ m' ∧ InRange l next.size addr := by
  simp only [mergeAdvance, bind_eq_ok, deref_eq_ok, Prod.exists] at hm
  obtain ⟨m₁, l, hmerge, v, hg, hm⟩ := hm
  obtain ⟨ht, -, w, hw, hlk, hend⟩ := mergeAdjacentVMA_spec h hk hmerge
  obtain rfl := mem_unique (get?_eq_some_iff.mp hg) hw
  rw [ht.keyed l v hw] at hm
  split_ifs at hm with hpast <;> rw [pure_eq_ok, Prod.mk.injEq] at hm <;> obtain ⟨rfl, rfl⟩ := hm
  · -- The area ends at the address, which the next one contains.
    obtain ⟨j, next, hj, hja, hjend⟩ := (ht.part.cover addr).mp hR
    rw [vmaExtent_size] at hjend
    have hlj : l < j := by
      by_contra hle'
      rcases Nat.eq_or_lt_of_le (Nat.le_of_not_lt hle') with rfl | hlt
      · rw [mem_unique hj hw] at hjend
        omega
      · have hdisj := ht.part.disjoint j next l v hj hw hlt
        rw [vmaExtent_size] at hdisj
        omega
    have hnext : m₁.next? l = some (j, next) := by
      rw [OrdMap.next?_eq_some_iff]
      refine ⟨hj, hlj, fun q hq hlq => ?_⟩
      have h1 := ht.part.disjoint l v q.1 q.2 hw hq hlq
      rw [vmaExtent_size] at h1
      omega
    exact ⟨j, next, by rw [hnext]; rfl, hj, hja, hjend⟩
  · exact ⟨l, v, rfl, hw, by omega, by omega⟩

end

variable {cfg : Config} {s s' : MemoryManager} {name : String} {R : ℕ → Prop}
  {addr size k v : ℕ} {vma : VirtualMemoryArea}

theorem nameLoop_labels {fuel rem : ℕ} (h : VTiles s.vma_map R) (hlt : ∀ v, R v → v + 1 < 2^63)
    (hR : ∀ v, InRange addr rem v → R v) (hk : (k, vma) ∈ s.vma_map)
    (hin : InRange k vma.size addr) (hl : nameLoop name fuel s (some k) addr rem = .ok s') :
    Renamed s.vma_map s'.vma_map addr rem name := by
  induction fuel generalizing s addr rem k vma with
  | zero =>
    simp only [nameLoop] at hl
    split_ifs at hl with hz
    rw [ok.injEq] at hl
    subst hl hz
    exact fun x => by simp [InRange]
  | succ fuel ih =>
    simp only [nameLoop] at hl
    split_ifs at hl with hz
    · rw [pure_eq_ok] at hl
      subst hl hz
      exact fun x => by simp [InRange]
    · simp only [bind_eq_ok, deref_eq_ok, Prod.exists] at hl
      obtain ⟨w, hg, m₁, j, hn, m2, o, hm, hl⟩ := hl
      obtain rfl := mem_unique (get?_eq_some_iff.mp hg) hk
      obtain ⟨hka, hend⟩ := hin
      have hbound : k + w.size < 2^63 := by
        have := hlt (k + w.size - 1) ((h.part.cover _).mpr ⟨k, w, hk, by omega, by
          rw [vmaExtent_size]
          omega⟩)
        omega
      -- The turn takes what the area holds of the range.
      rw [h.keyed k w hk, sub64_of_le hka (by omega), sub64_of_le (by omega) (by omega)] at hn hm hl
      set n := min rem (w.size - (addr - k)) with hn'
      rw [add64_of_lt (by omega)] at hm hl
      obtain ⟨hren, u, hj, hju, hja, hjk⟩ := nameBytes_labels h (by omega) hk hka (by omega) hn
      have hcut := nameBytes_spec h (by omega : n < 2^64) hk hn
      have hsame := mergeAdvance_sameLabels hcut.tiles hm
      have hcut2 := mergeAdvance_spec hcut.tiles hm
      have hren2 : Renamed s.vma_map m2 addr n name := fun x => (hsame x).trans (hren x)
      rcases Nat.eq_zero_or_pos (rem - n) with hzero | hpos
      · have hs' : s' = { s with vma_map := m2 } := by
          rw [hzero] at hl
          rcases o with - | o
          · cases fuel <;> simpa [nameLoop] using hl.symm
          · cases fuel <;> simpa [nameLoop, pure, Except.pure] using hl.symm
        have hall : n = rem := by omega
        rw [hs']
        exact hall ▸ hren2
      · obtain ⟨l, next, rfl, hl', hin'⟩ := mergeAdvance_next hcut.tiles hj (by omega) hju
          (hR _ ⟨by omega, by omega⟩) hm
        have hrest := ih (s := { s with vma_map := m2 }) hcut2.tiles
          (fun v hv => hR v ⟨by have := hv.1; omega, by have := hv.2; omega⟩) hl' hin' hl
        have := hren2.trans hrest
        rwa [Nat.add_sub_cancel' (by omega)] at this

theorem nameLoop_gap {fuel rem d : ℕ} (h : VTiles s.vma_map R) (hR : ¬ R addr) (hd : 0 < d)
    (hrem : rem + d ≤ 2^64) (hlt : addr < 2^63) (hk : (k, vma) ∈ s.vma_map)
    (haddr : addr = k + vma.size + d) (hl : nameLoop name fuel s (some k) addr rem = .ok s')
    (hv : addr ≤ v) : s'.label v = s.label v := by
  cases fuel with
  | zero =>
    simp only [nameLoop] at hl
    split_ifs at hl
    rw [ok.injEq] at hl
    rw [hl]
  | succ fuel =>
    simp only [nameLoop] at hl
    split_ifs at hl with hz
    · rw [pure_eq_ok] at hl
      rw [hl]
    · simp only [bind_eq_ok, deref_eq_ok, Prod.exists] at hl
      obtain ⟨w, hg, m₁, j, hn, m2, o, hm, hl⟩ := hl
      obtain rfl := mem_unique (get?_eq_some_iff.mp hg) hk
      -- The size of the area less the offset in it wraps, so that the turn takes all of the range.
      have hall : min rem (sub64 w.size (sub64 addr w.base)) = rem := by
        have hoffset : sub64 addr k = addr - k := sub64_of_le (by omega) (by omega)
        rw [h.keyed k w hk, hoffset]
        unfold sub64
        omega
      rw [hall] at hn hm hl
      have hcut := nameBytes_spec h (by omega : rem < 2^64) hk hn
      have hsame := mergeAdvance_sameLabels hcut.tiles hm
      have hs' : s' = { s with vma_map := m2 } := by
        rcases o with - | o
        · cases fuel <;> simpa [nameLoop] using hl.symm
        · cases fuel <;> simpa [nameLoop, pure, Except.pure] using hl.symm
      have hlabel : m₁.byteAt labelExtent v = s.label v := by
        unfold nameBytes at hn
        by_cases hfree : w.type = .free
        · rw [if_pos hfree, pure_eq_ok, Prod.mk.injEq] at hn
          rw [← hn.1]
          rfl
        · rw [if_neg hfree] at hn
          split_ifs at hn
          · -- Nothing can be carved out of a gap.
            simp only [bind_eq_ok, Prod.exists] at hn
            obtain ⟨m3, i, hc, -⟩ := hn
            obtain ⟨-, hcarved⟩ := carveVMA_spec h (by omega : rem < 2^64) hc
            obtain ⟨l, u, hl', hla, hend⟩ := hcarved.fits
            exact absurd ((h.part.cover addr).mpr ⟨l, u, hl', hla, by rw [vmaExtent_size]; omega⟩) hR
          · rw [pure_eq_ok, Prod.mk.injEq] at hn
            rw [← hn.1, renamed_write h hk hfree v, if_neg fun hin => by have := hin.2; omega]
            rfl
      rw [hs']
      exact (hsame v).trans hlabel

theorem nameVirtualRange_labels (h : WF cfg s)
    (hn : s.nameVirtualRange addr size name = .ok s') (hv : alignDown addr kb16 ≤ v) :
    (Contig cfg (alignDown addr kb16) (alignUp size kb16) v → s'.label v = (s.label v).map (rename name)) ∧
      (¬ Contig cfg (alignDown addr kb16) (alignUp size kb16) v → s'.label v = s.label v) := by
  simp only [nameVirtualRange, requireValid, findVMA, bind_eq_ok, deref_eq_ok, require_eq_ok, Prod.exists] at hn
  obtain ⟨-, ⟨valid, hvalid, -, rfl⟩, k, vma, hf, hl⟩ := hn
  generalize alignDown addr kb16 = start at *
  generalize alignUp size kb16 = n at *
  have hk := (OrdMap.floor?_eq_some_iff.mp hf).1
  have hareas : s.vma_map.UserAreas := by
    refine h.userAreas fun hnil => ?_
    have hpos := h.virt.part.pos k vma hk
    obtain ⟨r, hr, -⟩ := (h.virt.part.cover k).mpr ⟨k, vma, hk, le_rfl, by omega⟩
    rw [hnil] at hr
    cases hr
  rcases Nat.eq_zero_or_pos n with rfl | hpos
  · -- The length wraps to zero.
    have hs' : s' = s := by simpa [nameLoop] using hl.symm
    refine ⟨fun hc => absurd hc.1 ?_, fun _ => by rw [hs']⟩
    unfold InRange
    omega
  have hiff : (∃ valid, s.isValidMapping start n = .ok valid ∧ _) ↔ _ :=
    hareas.isValidMapping_iff hpos
  by_cases hheld : s.vma_map.Holds start
  · have hin := hareas.inRange_of_floor hf hheld
    obtain ⟨b, hb, hall⟩ := hiff.mpr fun d hd => absurd hheld (hareas.not_holds_of_gapAt hd)
    rw [hvalid, ok.injEq] at hb
    have husable : ∀ v, InRange start n v → cfg.Usable v := fun v hv =>
      h.holds_iff.mp (hall.mp hb.symm v hv)
    have hren := nameLoop_labels h.virt (fun v hv => hv.lt) husable hk hin hl v
    rw [contig_iff_of_usable husable]
    exact ⟨fun hc => hren.trans (if_pos hc), fun hc => hren.trans (if_neg hc)⟩
  · have husable : ¬ cfg.Usable start := mt h.holds_iff.mpr hheld
    refine ⟨fun hc => absurd hc (not_contig husable v), fun _ => ?_⟩
    obtain ⟨d, hgap, hd⟩ : ∃ d, s.vma_map.GapAt start d ∧ ¬ (d = 0 ∨ 2^64 < n + d) := by
      by_contra hno
      simp only [not_exists, not_and, not_not] at hno
      obtain ⟨b, hb, hall⟩ := hiff.mpr hno
      rw [hvalid, ok.injEq] at hb
      exact hheld (hall.mp hb.symm start ⟨le_rfl, by omega⟩)
    obtain ⟨k', vma', hf', hstart, l, next, hlm, hlt⟩ := hgap
    rw [hf, Option.some.injEq, Prod.mk.injEq] at hf'
    obtain ⟨rfl, rfl⟩ := hf'
    have hend := hareas.end_lt l next hlm
    exact nameLoop_gap h.virt husable (by omega) (by omega) (by omega) hk hstart hl hv

/-! ## What the calls are for -/

/-- What was mapped or reserved in the range, but for the pool, is free. -/
def Unmaps (s s' : MemoryManager) (addr len : ℕ) : Prop :=
  ∀ v, InRange addr len v → ∀ t, s.HasType t v → t ≠ .pooled → s'.HasType .free v

/-- What is not free in the range carries the name. -/
def Names (s' : MemoryManager) (addr len : ℕ) (name : String) : Prop :=
  ∀ v, InRange addr len v → ∀ t n, s'.label v = some (t, n) → t ≠ .free → n = name

/-- The pages that the two calls reach: from the rounded start on, as far as they are usable, and no further
than the rounded length. -/
def InPages (cfg : Config) (addr len v : ℕ) : Prop :=
  Contig cfg (alignDown addr kb16) (alignUp len kb16) v

theorem unmaps_iff {len : ℕ} (h : WF cfg s) (haddr : addr < 2^64) (hlen : len < 2^64)
    (hpos : 0 < len) (hu : s.unmapMemory addr len = .ok (s', .ok)) :
    Unmaps s s' addr len ↔ ∀ v, InRange addr len v → s.Unmappable v → InPages cfg addr len v := by
  obtain ⟨-, ⟨-, hnot⟩ | ⟨-, hun⟩⟩ := unmapMemory_spec h haddr hlen hu
  · exact absurd hnot (by simp only [ne_eq, not_true_eq_false, or_false]; omega)
  constructor
  · rintro hunmaps v hv ⟨b, hb, hfree, hpooled⟩
    by_contra hout
    -- The byte stays as it was.
    have hsame := hun.voutside v fun hc => hout hc.1
    obtain ⟨b', hb', hfree'⟩ := hunmaps v hv b.type ⟨b, hb, rfl⟩ hpooled
    rw [hsame, hb, Option.some.injEq] at hb'
    exact hfree (hb' ▸ hfree')
  · rintro hpages v hv t ⟨b, hb, rfl⟩ hpooled
    by_cases hfree : b.type = .free
    · have hsame := hun.voutside v fun ⟨_, b', hb', hne, _⟩ => by
        rw [hb, Option.some.injEq] at hb'
        exact hne (hb' ▸ hfree)
      exact ⟨b, hsame.trans hb, hfree⟩
    · have hunmappable : s.Unmappable v := ⟨b, hb, hfree, hpooled⟩
      exact ⟨_, hun.vinside v (hpages v hv hunmappable) hunmappable, rfl⟩

theorem names_iff {len : ℕ} (h : WF cfg s) (hn : s.nameVirtualRange addr len name = .ok s') :
    Names s' addr len name ↔ ∀ v, InRange addr len v → ∀ t n, s.label v = some (t, n) →
      t ≠ .free → InPages cfg addr len v ∨ n = name := by
  have hdown : alignDown addr kb16 ≤ addr := Nat.sub_le _ _
  have hlabels := fun v (hv : InRange addr len v) =>
    nameVirtualRange_labels h hn (hdown.trans hv.1)
  constructor
  · intro hnames v hv t n hlabel hfree
    by_cases hin : InPages cfg addr len v
    · exact .inl hin
    · rw [← (hlabels v hv).2 hin] at hlabel
      exact .inr (hnames v hv t n hlabel hfree)
  · intro hpages v hv t n hlabel hfree
    by_cases hin : InPages cfg addr len v
    · rw [(hlabels v hv).1 hin, Option.map_eq_some_iff] at hlabel
      obtain ⟨⟨t', n'⟩, -, hren⟩ := hlabel
      unfold rename at hren
      split_ifs at hren with hfree'
      · rw [Prod.mk.injEq] at hren
        exact absurd (hren.1 ▸ hfree') hfree
      · exact (Prod.mk.inj hren).2.symm
    · rw [(hlabels v hv).2 hin] at hlabel
      exact (hpages v hv t n hlabel hfree).resolve_left hin

/-- In every reachable state, a call of `UnmapMemory` that succeeds unmaps its range, and a call of
`NameVirtualRange` that returns names it, exactly if the pages that are reached contain what they should. -/
theorem unmaps_names_iff (h : Reachable cfg s) (addr len : UInt64) (hpos : 0 < len.toNat) :
    (∀ s', s.unmapMemory addr.toNat len.toNat = .ok (s', .ok) →
      (Unmaps s s' addr.toNat len.toNat ↔ ∀ v, InRange addr.toNat len.toNat v →
        s.Unmappable v → InPages cfg addr.toNat len.toNat v)) ∧
    (∀ name s', s.nameVirtualRange addr.toNat len.toNat name = .ok s' →
      (Names s' addr.toNat len.toNat name ↔ ∀ v, InRange addr.toNat len.toNat v →
        ∀ t n, s.label v = some (t, n) → t ≠ .free → InPages cfg addr.toNat len.toNat v ∨ n = name)) :=
  ⟨fun _ hu => unmaps_iff h.wf addr.toNat_lt len.toNat_lt hpos hu, fun _ _ hn => names_iff h.wf hn⟩

/-- The guest has mapped two pages as a stack. -/
def twoPages : List Op :=
  [.mapMemory 0x100000000 0x8000 3 0x10 .stack "stack" false 0xffffffffffffffff 0]

theorem unmaps_names_iff_page : ∃ s s₁ s₂, replay .sample twoPages (.new .sample) = some s ∧
    s.unmapMemory 0x100000000 0x4000 = .ok (s₁, .ok) ∧ s.nameVirtualRange 0x100000000 0x4000 "first" = .ok s₂ ∧
    (Unmaps s s₁ 0x100000000 0x4000 ↔ ∀ v, InRange 0x100000000 0x4000 v →
      s.Unmappable v → InPages .sample 0x100000000 0x4000 v) ∧
    (Names s₂ 0x100000000 0x4000 "first" ↔ ∀ v, InRange 0x100000000 0x4000 v →
      ∀ t n, s.label v = some (t, n) → t ≠ .free → InPages .sample 0x100000000 0x4000 v ∨ n = "first") := by
  obtain ⟨s, hs, hr, ht⟩ := exists_of_replay .sample twoPages (fun s =>
    returns (s.unmapMemory 0x100000000 0x4000) (·.2 = .ok) &&
      returns (s.nameVirtualRange 0x100000000 0x4000 "first") fun _ => true) (by decide)
  rw [Bool.and_eq_true] at ht
  obtain ⟨⟨s₁, r⟩, hu, hr₁⟩ := exists_of_returns ht.1
  obtain ⟨s₂, hn, -⟩ := exists_of_returns ht.2
  obtain rfl : r = .ok := by simpa using hr₁
  have hboth := unmaps_names_iff hr 0x100000000 0x4000 (by decide)
  exact ⟨s, s₁, s₂, hs, hu, hn, hboth.1 s₁ hu, hboth.2 "first" s₂ hn⟩

/-- A range of a page's length that begins in the middle of the first page: the second page is neither unmapped
nor named. -/
theorem last_page_missed : ∃ s s₁ s₂, replay .sample twoPages (.new .sample) = some s ∧ Reachable .sample s ∧
    s.sceKernelMunmap 0x100002000 0x4000 = .ok (s₁, .ok) ∧ ¬ Unmaps s s₁ 0x100002000 0x4000 ∧
    s.nameVirtualRange 0x100002000 0x4000 "first" = .ok s₂ ∧ ¬ Names s₂ 0x100002000 0x4000 "first" := by
  obtain ⟨s, hs, hr, ht⟩ := exists_of_replay .sample twoPages (fun s =>
    (s.vbyte 0x100005000).map (·.type) = some .stack &&
      returns (s.sceKernelMunmap 0x100002000 0x4000) (fun x => x.2 = .ok ∧
        (x.1.vbyte 0x100005000).map (·.type) = some .stack) &&
      returns (s.nameVirtualRange 0x100002000 0x4000 "first") fun s' =>
        s'.label 0x100005000 = some (.stack, "stack")) (by decide)
  simp only [Bool.and_eq_true, decide_eq_true_eq] at ht
  obtain ⟨⟨hstack, hu⟩, hn⟩ := ht
  obtain ⟨⟨s₁, r⟩, hu, hu'⟩ := exists_of_returns hu
  obtain ⟨s₂, hn, hn'⟩ := exists_of_returns hn
  simp only [decide_eq_true_eq] at hu' hn'
  obtain ⟨rfl, hstays⟩ := hu'
  have hin : InRange 0x100002000 0x4000 0x100005000 := by decide
  refine ⟨s, s₁, s₂, hs, hr, hu, fun hunmaps => ?_, hn, fun hnames => ?_⟩
  · obtain ⟨b, hb, hbt⟩ := Option.map_eq_some_iff.mp hstack
    obtain ⟨b', hb', hfree⟩ := hunmaps _ hin .stack ⟨b, hb, hbt⟩ (by decide)
    rw [hb'] at hstays
    simp [hfree] at hstays
  · exact absurd (hnames _ hin .stack "stack" hn' (by decide)) (by decide)

end ShadPS4.Memory
