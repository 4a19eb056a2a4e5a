import ShadPS4.Memory.Coverage

/-!
# Writes to the backing memory

`TryWriteBacking` copies a buffer to the physical memory behind a virtual range, one physical area after the other.
-/

namespace ShadPS4.Memory

open MemoryManager
open OrdMap (mem_tailFrom tailFrom_eq_cons)

variable {len : ℕ}
variable {cfg : Config} {s : MemoryManager} {backing : BackingBytes} {addr k l n o v x : ℕ}
  {data : List UInt8} {vma : VirtualMemoryArea} {area : PhysicalMemoryArea} {R : ℕ → Prop}

section

variable (s : MemoryManager)

/-- The physical address behind an address. -/
def MemoryManager.phys (v : ℕ) : Option ℕ := (s.vbyte v).bind (·.paddr)

/-- The address lies in an area with physical backing. -/
def MemoryManager.HasBacking (v : ℕ) : Prop :=
  ∃ t, s.HasType t v ∧ t.HasPhysicalBacking

/-- The address where the physical area behind an address begins. -/
def MemoryManager.areaStart (v : ℕ) : ℕ :=
  match s.vma_map.floor? v with
  | some (k, vma) => k + ((vma.phys_areas.floor? (v - k)).map (·.1)).getD 0
  | none => v

/-- The distance of an address of a range from `addr` on to the start of its fragment. -/
def MemoryManager.inFragment (addr v : ℕ) : ℕ := v - max addr (s.areaStart v)

end

theorem phys_of_mem (h : VTiles s.vma_map R) (hk : (k, vma) ∈ s.vma_map)
    (hb : vma.type.HasPhysicalBacking) (hj : (j, area) ∈ vma.phys_areas) (hjq : j ≤ q) (hq : q < j + area.size) :
    s.phys (k + q) = some (area.base + (q - j)) ∧ s.areaStart (k + q) = k + j := by
  have hpart := (h.backed k vma hk).part hb
  have hcovers : vma.phys_areas.Covers physExtent q j area := ⟨hj, hjq, hq⟩
  have hspan : q < vma.size := ((hpart.cover q).mpr ⟨j, area, hcovers⟩).2
  have hvcovers : s.vma_map.Covers vmaExtent (k + q) k vma :=
    ⟨hk, by omega, by rw [vmaExtent_size]; omega⟩
  constructor
  · rw [MemoryManager.phys, vbyte, h.part.byteAt_of_covers hvcovers]
    simp [hpart.byteAt_of_covers hcovers]
  · rw [areaStart, h.part.floor?_of_covers hvcovers]
    simp only [Nat.add_sub_cancel_left, hpart.floor?_of_covers hcovers, Option.map_some, Option.getD_some]

theorem hasBacking_iff_of_mem (h : VTiles s.vma_map R) (hk : (k, vma) ∈ s.vma_map)
    (hv : InRange k vma.size v) : s.HasBacking v ↔ vma.type.HasPhysicalBacking := by
  have hbyte : s.vbyte v = some (vmaExtent.byte vma (v - k)) :=
    h.part.byteAt_of_covers ⟨hk, hv.1, hv.2⟩
  constructor
  · rintro ⟨t, ⟨b, hb, rfl⟩, hback⟩
    rw [hbyte, Option.some.injEq] at hb
    rw [← hb] at hback
    exact hback
  · exact fun hback => ⟨vma.type, ⟨_, hbyte, rfl⟩, hback⟩

theorem covered_of_hasBacking (h : VTiles s.vma_map R) (hv : s.HasBacking v) : R v := by
  obtain ⟨t, ⟨b, hb, -⟩, -⟩ := hv
  obtain ⟨k, vma, hcovers, -⟩ := h.part.byteAt_eq_some_iff.mp hb
  exact (h.part.cover v).mpr ⟨k, vma, hcovers⟩

theorem WF.phys_of_hasBacking (h : WF cfg s) (hv : s.HasBacking v) : ∃ x, s.phys v = some x := by
  obtain ⟨t, ht, hback⟩ := hv
  obtain ⟨x, b, hb, -, hx⟩ := h.exists_maps_iff.mpr ⟨ht, hback⟩
  exact ⟨x, by rw [MemoryManager.phys, hb]; exact hx⟩

/-- The first `n` bytes of the range are written, each with the byte of the buffer at its distance from the
start of its fragment. -/
def MemoryManager.writeBytes (s : MemoryManager) (backing : BackingBytes) (addr : ℕ)
    (data : List UInt8) : ℕ → BackingBytes
  | 0 => backing
  | n + 1 => fun x =>
    if s.phys (addr + n) = some x then (data[s.inFragment addr (addr + n)]?).getD 0
    else s.writeBytes backing addr data n x

theorem writeBytes_succ (n x : ℕ) : s.writeBytes backing addr data (n + 1) x =
    if s.phys (addr + n) = some x then (data[s.inFragment addr (addr + n)]?).getD 0
    else s.writeBytes backing addr data n x := rfl

theorem memcpy_writeBytes (hphys : ∀ i < c, s.phys (addr + (o + i)) = some (p + i))
    (hfrag : ∀ i < c, s.inFragment addr (addr + (o + i)) = i) :
    memcpy (s.writeBytes backing addr data o) p data c = s.writeBytes backing addr data (o + c) := by
  induction c with
  | zero =>
    funext x
    exact if_neg fun hx => by have := hx.1; have := hx.2; omega
  | succ c ih =>
    have hlast := hphys c (Nat.lt_succ_self c)
    have ih := ih (fun i hi => hphys i (by omega)) fun i hi => hfrag i (by omega)
    funext x
    rw [← Nat.add_assoc, writeBytes_succ, hlast, hfrag c (Nat.lt_succ_self c), ← ih]
    unfold memcpy
    by_cases hx : p + c = x
    · have hin : InRange p (c + 1) x := ⟨by omega, by omega⟩
      rw [if_pos hin, if_pos (by rw [hx]), ← hx, Nat.add_sub_cancel_left]
    · have hiff : InRange p (c + 1) x ↔ InRange p c x := by
        unfold InRange
        omega
      rw [if_neg (show ¬ some (p + c) = some x by simpa using hx)]
      simp only [hiff]

theorem writeBytes_cases (s : MemoryManager) (backing : BackingBytes) (addr : ℕ) (data : List UInt8) (n x : ℕ) :
    (∃ j < n, s.phys (addr + j) = some x ∧ (∀ i, j < i → i < n → s.phys (addr + i) ≠ some x) ∧
        s.writeBytes backing addr data n x = (data[s.inFragment addr (addr + j)]?).getD 0) ∨
      (∀ j < n, s.phys (addr + j) ≠ some x) ∧ s.writeBytes backing addr data n x = backing x := by
  induction n with
  | zero => exact .inr ⟨by omega, rfl⟩
  | succ n ih =>
    rw [writeBytes_succ]
    by_cases hx : s.phys (addr + n) = some x
    · exact .inl ⟨n, by omega, hx, by omega, if_pos hx⟩
    · rw [if_neg hx]
      rcases ih with ⟨j, hj, hphys, hlast, hw⟩ | ⟨hnone, hw⟩
      · refine .inl ⟨j, by omega, hphys, fun i hji hi => ?_, hw⟩
        rcases Nat.lt_succ_iff_lt_or_eq.mp hi with hlt | rfl
        · exact hlast i hji hlt
        · exact hx
      · refine .inr ⟨fun j hj => ?_, hw⟩
        rcases Nat.lt_succ_iff_lt_or_eq.mp hj with hlt | rfl
        · exact hnone j hlt
        · exact hx

/-! ## The loops -/

theorem writeAreas_zero : writeAreas data start_in_vma areas backing 0 = (backing, 0) := by
  cases areas with
  | nil => rfl
  | cons e rest => rw [writeAreas, if_pos rfl]

theorem writeAreas_spec (backing : BackingBytes) (addr : ℕ) (data : List UInt8)
    (h : VTiles s.vma_map R) (hk : (k, vma) ∈ s.vma_map) (hb : vma.type.HasPhysicalBacking)
    (hlt : k + vma.size < 2^64) (hstart : k + start_in_vma = max addr k)
    (hareas : areas = vma.phys_areas.tailFrom j) (hj : (j, area) ∈ vma.phys_areas)
    (hin : start_in_vma < j + area.size) (ho : addr + o = k + max start_in_vma j) (hlen : o ≤ len) :
    writeAreas data start_in_vma areas (s.writeBytes backing addr data o) (len - o) =
      (s.writeBytes backing addr data (min len (k + vma.size - addr)), len - min len (k + vma.size - addr)) := by
  have hpart := (h.backed k vma hk).part hb
  induction areas generalizing j area o with
  | nil =>
    have hmem := mem_tailFrom.mpr ⟨hj, le_rfl⟩
    rw [← hareas] at hmem
    cases hmem
  | cons e rest ih =>
    rw [tailFrom_eq_cons hj, hpart.tailFrom_succ hj, List.cons.injEq] at hareas
    obtain ⟨rfl, hrest⟩ := hareas
    rw [physExtent_size] at hrest
    have hend : j + area.size ≤ vma.size := (h.backed k vma hk).size_le (e := (j, area)) hj
    rcases Nat.eq_zero_or_pos (len - o) with hzero | hleft
    · have hall : min len (k + vma.size - addr) = o := by omega
      rw [hzero, writeAreas_zero, hall, hzero]
    rw [writeAreas, if_neg (by omega)]
    simp only
    set q := max start_in_vma j with hq
    rw [sub64_of_le (by omega) (by omega)]
    set c := min (len - o) (area.size - (q - j)) with hc
    -- The copy writes a fragment.
    have hwrite : memcpy (s.writeBytes backing addr data o) (area.base + (q - j)) data c =
        s.writeBytes backing addr data (o + c) := by
      have hmem := fun i (hi : i < c) =>
        phys_of_mem (q := q + i) h hk hb hj (by omega) (by omega)
      have haddr : ∀ i, addr + (o + i) = k + (q + i) := fun i => by omega
      apply memcpy_writeBytes
      · intro i hi
        rw [haddr, (hmem i hi).1]
        congr 1
        omega
      · intro i hi
        rw [haddr, MemoryManager.inFragment, (hmem i hi).2]
        omega
    rw [hwrite]
    rcases Nat.lt_or_ge (j + area.size) vma.size with hmore | hlast
    · obtain ⟨next, hnext⟩ := hpart.hasKey_end hj ⟨Nat.zero_le _, hmore⟩
      rcases Nat.lt_or_ge (len - o) (area.size - (q - j)) with hfew | hmany
      · -- The range ends in this area.
        have hall : min len (k + vma.size - addr) = o + c := by omega
        have hnone : len - o - c = 0 := by omega
        rw [hnone, writeAreas_zero, hall]
        congr 1
        omega
      · rw [show len - o - c = len - (o + c) by omega]
        exact ih hrest hnext (by omega) (by omega) (by omega)
    · have hnil : rest = [] := by
        rw [hrest]
        apply List.filter_eq_nil_iff.mpr
        rintro ⟨i, a⟩ hi
        have hia := hpart.pos i a hi
        have hle : i + a.size ≤ vma.size := (h.backed k vma hk).size_le (e := (i, a)) hi
        simp only [physExtent_size, decide_eq_true_eq, Nat.not_le] at hia ⊢
        omega
      have hall : min len (k + vma.size - addr) = o + c := by omega
      rw [hnil, writeAreas, hall]
      congr 1
      omega

theorem writeVMAs_spec (backing : BackingBytes) (data : List UInt8)
    (h : VTiles s.vma_map R) (hlt : addr + len < 2^63) (hareas : areas = s.vma_map.tailFrom k) (hk : (k, vma) ∈ s.vma_map)
    (hin : max addr k < k + vma.size) (hreach : k < addr + len) (hpos : 0 < len)
    (hback : ∀ v, max addr k ≤ v → v < addr + len → s.HasBacking v)
    (hafter : ∃ e ∈ s.vma_map, addr + len ≤ e.1) (hend : ∀ v, R v → v + 1 < 2^63) :
    ∃ vmas_to_write, vmasToWrite addr len areas = .ok vmas_to_write ∧ vmas_to_write ≠ [] ∧
      writeVMAs addr data vmas_to_write (s.writeBytes backing addr data (max addr k - addr))
          (len - (max addr k - addr)) = .ok (s.writeBytes backing addr data len) := by
  induction areas generalizing k vma with
  | nil =>
    have hmem := mem_tailFrom.mpr ⟨hk, le_rfl⟩
    rw [← hareas] at hmem
    cases hmem
  | cons e rest ih =>
    rw [tailFrom_eq_cons hk, h.part.tailFrom_succ hk, List.cons.injEq] at hareas
    obtain ⟨rfl, hrest⟩ := hareas
    rw [vmaExtent_size] at hrest
    have hbase := h.keyed k vma hk
    have htype : vma.type.HasPhysicalBacking :=
      (hasBacking_iff_of_mem h hk ⟨by omega, hin⟩).mp (hback _ le_rfl (by omega))
    have hsize : k + vma.size < 2^63 := by
      have := hend (k + vma.size - 1) ((h.part.cover _).mpr ⟨k, vma, hk, by omega, by rw [vmaExtent_size]; omega⟩)
      omega
    -- What is written to this area.
    set start_in_vma := max addr k - k with hstart
    obtain ⟨j, area, hcovers⟩ := (((h.backed k vma hk).part htype).cover start_in_vma).mp ⟨Nat.zero_le _, by omega⟩
    have hfloor := ((h.backed k vma hk).part htype).floor?_of_covers hcovers
    obtain ⟨hj, hja, hjend⟩ := hcovers
    have hhere := writeAreas_spec backing addr data (o := max addr k - addr) h hk htype (by omega) (by omega) rfl hj hjend (by omega)
      (show max addr k - addr ≤ len by omega)
    have hturn : ∀ vmas, writeVMAs addr data (vma :: vmas)
        (s.writeBytes backing addr data (max addr k - addr)) (len - (max addr k - addr)) =
        writeVMAs addr data vmas
          (s.writeBytes backing addr data (min len (k + vma.size - addr)))
          (len - min len (k + vma.size - addr)) := by
      intro vmas
      simp only [writeVMAs, hbase, ← hstart, hfloor, deref, bind, Except.bind, hhere]
    have hoverlaps : addr < vma.base + vma.size ∧ vma.base < add64 addr len := by
      rw [hbase, add64_of_lt (by omega)]
      omega
    rw [vmasToWrite, if_pos hoverlaps, if_pos htype]
    rcases Nat.lt_or_ge (k + vma.size) (addr + len) with hmore | hlast
    · -- The range goes on in the next area.
      have hmax : max addr (k + vma.size) = k + vma.size := by omega
      obtain ⟨next, hnext⟩ := h.part.hasKey_end hk (covered_of_hasBacking h (hback (k + vma.size) (by omega) hmore))
      have hnpos := h.part.pos _ next hnext
      rw [vmaExtent_size] at hnpos
      obtain ⟨ws, hws, -, hwrites⟩ := ih hrest hnext (by omega) hmore
        fun v hv => hback v (by omega)
      refine ⟨vma :: ws, by rw [hws]; rfl, List.cons_ne_nil _ _, ?_⟩
      rw [hturn, Nat.min_eq_right (by omega)]
      rwa [hmax] at hwrites
    · -- The area after the range ends the walk.
      obtain ⟨f, hf, hafter⟩ := hafter
      have hkf : k + vma.size ≤ f.1 := h.part.disjoint k vma f.1 f.2 hk hf (by omega)
      have hnil : vmasToWrite addr len rest = .ok [] := by
        have hmem := mem_tailFrom.mpr ⟨hf, hkf⟩
        rw [← hrest] at hmem
        cases rest with
        | nil => cases hmem
        | cons g rest =>
          have hg : g ∈ s.vma_map.tailFrom (k + vma.size) := hrest ▸ List.mem_cons_self
          obtain ⟨hgm, hkg⟩ := mem_tailFrom.mp hg
          have hgbase : g.2.base = g.1 := h.keyed g.1 g.2 hgm
          rw [vmasToWrite, if_neg, pure_eq_ok]
          rw [hgbase, add64_of_lt (by omega)]
          omega
      refine ⟨[vma], by rw [hnil]; rfl, List.cons_ne_nil _ _, ?_⟩
      rw [hturn, Nat.min_eq_left (by omega)]
      rfl

theorem vmasToWrite_undefined
    (h : VTiles s.vma_map R) (hlt : addr + len < 2^63) (hareas : areas = s.vma_map.tailFrom k)
    (hk : (k, vma) ∈ s.vma_map) (hin : max addr k < k + vma.size) (hreach : k < addr + len)
    (hpos : 0 < len) (hback : ∀ v, max addr k ≤ v → v < addr + len → s.HasBacking v)
    (hafter : ¬ ∃ e ∈ s.vma_map, addr + len ≤ e.1) : vmasToWrite addr len areas = .error .undefined := by
  induction areas generalizing k vma with
  | nil => rfl
  | cons e rest ih =>
    rw [tailFrom_eq_cons hk, h.part.tailFrom_succ hk, List.cons.injEq] at hareas
    obtain ⟨rfl, hrest⟩ := hareas
    rw [vmaExtent_size] at hrest
    have hbase := h.keyed k vma hk
    have htype : vma.type.HasPhysicalBacking :=
      (hasBacking_iff_of_mem h hk ⟨by omega, hin⟩).mp (hback _ le_rfl (by omega))
    have hoverlaps : addr < vma.base + vma.size ∧ vma.base < add64 addr len := by
      rw [hbase, add64_of_lt (by omega)]
      omega
    rw [vmasToWrite, if_pos hoverlaps, if_pos htype]
    suffices hundefined : vmasToWrite addr len rest = .error .undefined by
      rw [hundefined]
      rfl
    rcases Nat.lt_or_ge (k + vma.size) (addr + len) with hmore | hlast
    · obtain ⟨next, hnext⟩ := h.part.hasKey_end hk (covered_of_hasBacking h (hback (k + vma.size) (by omega) hmore))
      have hnpos := h.part.pos _ next hnext
      rw [vmaExtent_size] at hnpos
      exact ih hrest hnext (by omega) hmore fun v hv => hback v (by omega)
    · have hnil : rest = [] := by
        rw [List.eq_nil_iff_forall_not_mem, hrest]
        intro f hf
        obtain ⟨hfm, hkf⟩ := mem_tailFrom.mp hf
        exact hafter ⟨f, hfm, by omega⟩
      rw [hnil]
      rfl

/-! ## The call -/

/-- A write is what it is for: where all of the range has physical backing, the bytes behind it become those of
the buffer and the others stay; elsewhere nothing is written. -/
def MemoryManager.Writes (s : MemoryManager) (backing : BackingBytes) (addr : ℕ) (data : List UInt8) : Prop :=
  ((∀ v, InRange addr data.length v → s.HasBacking v) →
    ∃ written, s.tryWriteBacking backing addr data data.length = .ok (written, true) ∧
      (∀ i < data.length, ∃ x, s.phys (addr + i) = some x ∧ data[i]? = some (written x)) ∧
      ∀ x, (∀ i < data.length, s.phys (addr + i) ≠ some x) → written x = backing x) ∧
  (¬ (∀ v, InRange addr data.length v → s.HasBacking v) →
    s.tryWriteBacking backing addr data data.length = .ok (backing, false))

/-- Every byte of the buffer is the one at the distance to the start of its fragment; where several bytes of the
range have one physical address, the last one counts. -/
def MemoryManager.Repeats (s : MemoryManager) (addr : ℕ) (data : List UInt8) : Prop :=
  ∀ i j, i < data.length → j < data.length → s.phys (addr + i) = s.phys (addr + j) →
    (∀ k, j < k → k < data.length → s.phys (addr + k) ≠ s.phys (addr + j)) →
      data[i]? = data[s.inFragment addr (addr + j)]?

theorem WF.valid_of_hasBacking (h : WF cfg s) (hpos : 0 < len) (hback : ∀ v, InRange addr len v → s.HasBacking v) :
    s.isValidMapping addr len = .ok true ∧ addr + len < 2^63 := by
  have husable := fun v hv => covered_of_hasBacking h.virt (hback v hv)
  have hareas : s.vma_map.UserAreas := by
    refine h.userAreas fun hnil => ?_
    obtain ⟨r, hr, -⟩ := husable addr ⟨le_rfl, by omega⟩
    rw [hnil] at hr
    cases hr
  have hheld : ∀ v, InRange addr len v → s.vma_map.Holds v := fun v hv =>
    h.holds_iff.mpr (husable v hv)
  obtain ⟨valid, hvalid, hiff⟩ := (hareas.isValidMapping_iff hpos).mpr fun d hd =>
    absurd (hheld addr ⟨le_rfl, by omega⟩) (hareas.not_holds_of_gapAt hd)
  rw [hiff.mpr hheld] at hvalid
  have := (husable (addr + len - 1) ⟨by omega, by omega⟩).lt
  exact ⟨hvalid, by omega⟩

theorem tryWriteBacking_eq (hvalid : s.isValidMapping addr len = .ok true)
    (hf : s.vma_map.floor? addr = some (k, vma)) : s.tryWriteBacking backing addr data len = (do
      let vmas_to_write ← vmasToWrite addr len (s.vma_map.tailFrom k)
      if vmas_to_write = [] then return (backing, false)
      else
        let backing ← writeVMAs addr data vmas_to_write backing len
        return (backing, true)) := by
  simp only [tryWriteBacking, requireValid, hvalid, require, findVMA, hf, deref, bind, Except.bind,
    if_true, pure, Except.pure]

theorem exists_floor_of_valid (hpos : 0 < len) (hvalid : s.isValidMapping addr len = .ok true) :
    ∃ k vma, s.vma_map.floor? addr = some (k, vma) := by
  simp only [isValidMapping, findVMA, bind_eq_ok, deref_eq_ok, Prod.exists] at hvalid
  obtain ⟨last_key, last, -, first_key, first, -, hvalid⟩ := hvalid
  split_ifs at hvalid with hout hzero
  · rw [pure_eq_ok] at hvalid
    cases hvalid
  · omega
  · simp only [bind_eq_ok, deref_eq_ok, Prod.exists] at hvalid
    obtain ⟨k, vma, hf, -⟩ := hvalid
    exact ⟨k, vma, hf⟩

theorem tryWriteBacking_unbacked (h : WF cfg s) (hpos : 0 < len)
    (hvalid : s.isValidMapping addr len = .ok true) (hno : ¬ s.HasBacking addr) :
    s.tryWriteBacking backing addr data len = .ok (backing, false) := by
  obtain ⟨k, vma, hf⟩ := exists_floor_of_valid hpos hvalid
  obtain ⟨hk, hka, -⟩ := OrdMap.floor?_eq_some_iff.mp hf
  have hnil : vmasToWrite addr len (s.vma_map.tailFrom k) = .ok [] := by
    rw [tailFrom_eq_cons hk, vmasToWrite]
    split_ifs with hoverlaps hback
    · rw [h.virt.keyed k vma hk] at hoverlaps
      exact absurd ((hasBacking_iff_of_mem h.virt hk ⟨hka, hoverlaps.1⟩).mpr hback) hno
    · rfl
    · rfl
  rw [tryWriteBacking_eq hvalid hf, hnil]
  rfl

theorem tryWriteBacking_backed (h : WF cfg s) (hpos : 0 < len) (hlt : addr + len < 2^64)
    (hvalid : s.isValidMapping addr len = .ok true) (hstart : s.HasBacking addr) :
    s.tryWriteBacking backing addr data len ≠ .ok (backing, false) := by
  obtain ⟨k, vma, hf⟩ := exists_floor_of_valid hpos hvalid
  obtain ⟨j, next, hcovers⟩ := (h.virt.part.cover addr).mp (covered_of_hasBacking h.virt hstart)
  have hf' := h.virt.part.floor?_of_covers hcovers
  rw [hf, Option.some.injEq, Prod.mk.injEq] at hf'
  obtain ⟨rfl, rfl⟩ := hf'
  obtain ⟨hk, hka, hend⟩ := hcovers
  rw [vmaExtent_size] at hend
  have hback := (hasBacking_iff_of_mem h.virt hk ⟨hka, hend⟩).mp hstart
  have hoverlaps : addr < vma.base + vma.size ∧ vma.base < add64 addr len := by
    rw [h.virt.keyed k vma hk, add64_of_lt hlt]
    omega
  rw [tryWriteBacking_eq hvalid hf, tailFrom_eq_cons hk, vmasToWrite, if_pos hoverlaps, if_pos hback]
  intro hcall
  simp only [bind_eq_ok, pure_eq_ok] at hcall
  obtain ⟨-, ⟨rest, -, rfl⟩, hcall⟩ := hcall
  rw [if_neg (List.cons_ne_nil _ _)] at hcall
  simp only [bind_eq_ok, pure_eq_ok, Prod.mk.injEq] at hcall
  obtain ⟨_, -, -, hfalse⟩ := hcall
  cases hfalse

theorem tryWriteBacking_spec (backing : BackingBytes) (h : WF cfg s) (hpos : 0 < data.length)
    (hback : ∀ v, InRange addr data.length v → s.HasBacking v) : ((∃ e ∈ s.vma_map, addr + data.length ≤ e.1) →
        s.tryWriteBacking backing addr data data.length = .ok (s.writeBytes backing addr data data.length, true)) ∧
      ((¬ ∃ e ∈ s.vma_map, addr + data.length ≤ e.1) →
        s.tryWriteBacking backing addr data data.length = .error .undefined) := by
  obtain ⟨hvalid, hlt⟩ := h.valid_of_hasBacking hpos hback
  have hstart := hback addr ⟨le_rfl, by omega⟩
  obtain ⟨k, vma, hcovers⟩ := (h.virt.part.cover addr).mp (covered_of_hasBacking h.virt hstart)
  have hf := h.virt.part.floor?_of_covers hcovers
  obtain ⟨hk, hka, hend⟩ := hcovers
  rw [vmaExtent_size] at hend
  have hback' : ∀ v, max addr k ≤ v → v < addr + data.length → s.HasBacking v :=
    fun v hv hv' => hback v ⟨by omega, hv'⟩
  rw [tryWriteBacking_eq hvalid hf]
  constructor
  · intro hafter
    obtain ⟨ws, hws, hne, hwrites⟩ := writeVMAs_spec backing data h.virt hlt rfl hk
      (by omega) (by omega) hpos hback' hafter fun v hv => hv.lt
    rw [Nat.max_eq_left hka, Nat.sub_self, Nat.sub_zero] at hwrites
    simp only [hws, if_neg hne, bind, Except.bind, pure, Except.pure]
    rw [show backing = s.writeBytes backing addr data 0 from rfl, hwrites]
    rfl
  · intro hafter
    rw [vmasToWrite_undefined h.virt hlt rfl hk (by omega) (by omega) hpos hback' hafter]
    rfl

theorem WF.lt_of_valid (h : WF cfg s) (hpos : 0 < len)
    (hvalid : s.isValidMapping addr len = .ok true) (hstart : s.HasBacking addr) : addr + len < 2^63 := by
  have husable := covered_of_hasBacking h.virt hstart
  have hareas : s.vma_map.UserAreas := by
    refine h.userAreas fun hnil => ?_
    obtain ⟨r, hr, -⟩ := husable
    rw [hnil] at hr
    cases hr
  obtain ⟨valid, hvalid', hiff⟩ := (hareas.isValidMapping_iff hpos).mpr fun d hd =>
    absurd (h.holds_iff.mpr husable) (hareas.not_holds_of_gapAt hd)
  rw [hvalid, Except.ok.injEq] at hvalid'
  have := (h.holds_iff.mp (hiff.mp hvalid'.symm (addr + len - 1) ⟨by omega, by omega⟩)).lt
  omega

theorem WF.writeBytes_iff (backing : BackingBytes) (h : WF cfg s)
    (hback : ∀ v, InRange addr data.length v → s.HasBacking v) : (∀ i < data.length, ∃ x, s.phys (addr + i) = some x ∧
        data[i]? = some (s.writeBytes backing addr data data.length x)) ↔ s.Repeats addr data := by
  have hphys := fun i (hi : i < data.length) =>
    h.phys_of_hasBacking (hback (addr + i) ⟨by omega, by omega⟩)
  have hget : ∀ j < data.length, data[s.inFragment addr (addr + j)]? =
      some ((data[s.inFragment addr (addr + j)]?).getD 0) := by
    intro j hj
    have hlt : s.inFragment addr (addr + j) < data.length := by
      unfold inFragment
      omega
    rw [List.getElem?_eq_getElem hlt]
    rfl
  constructor
  · intro hall i j hi hj hij hlast
    obtain ⟨x, hx, hbyte⟩ := hall i hi
    rw [hx] at hij
    rw [hbyte, hget j hj]
    rcases writeBytes_cases s backing addr data data.length x with ⟨j', hj', hx', hlast', hw⟩ | ⟨hnone, -⟩
    · -- There is one last byte with the physical address.
      have hjj : j = j' := by
        rcases Nat.lt_trichotomy j j' with hlt | heq | hlt
        · exact absurd (hx'.trans hij) (hlast j' hlt hj')
        · exact heq
        · exact absurd hij.symm (hlast' j hlt hj)
      rw [hw, hjj]
    · exact absurd hx (hnone i hi)
  · intro hrepeats i hi
    obtain ⟨x, hx⟩ := hphys i hi
    refine ⟨x, hx, ?_⟩
    rcases writeBytes_cases s backing addr data data.length x with ⟨j, hj, hx', hlast, hw⟩ | ⟨hnone, -⟩
    · rw [hrepeats i j hi hj (hx.trans hx'.symm) fun k hjk hk => by
        rw [hx']
        exact hlast k hjk hk, hget j hj, hw]
    · exact absurd hx (hnone i hi)

/-- In every reachable state, `TryWriteBacking` does what it is for exactly if the range is valid and does not
begin in memory with physical backing, or all of it has physical backing, there is an area after it, and the
buffer repeats at every fragment. -/
theorem tryWriteBacking_iff (h : Reachable cfg s) (backing : BackingBytes) (addr : UInt64)
    (data : List UInt8) (hpos : 0 < data.length) : s.Writes backing addr.toNat data ↔
      s.isValidMapping addr.toNat data.length = .ok true ∧ ¬ s.HasBacking addr.toNat ∨
        (∀ v, InRange addr.toNat data.length v → s.HasBacking v) ∧
          (∃ e ∈ s.vma_map, addr.toNat + data.length ≤ e.1) ∧ s.Repeats addr.toNat data := by
  have hwf := h.wf
  generalize addr.toNat = addr
  by_cases hback : ∀ v, InRange addr data.length v → s.HasBacking v
  · have hstart := hback addr ⟨le_rfl, by omega⟩
    obtain ⟨hafter, hundefined⟩ := tryWriteBacking_spec backing hwf hpos hback
    have hright : s.isValidMapping addr data.length = .ok true ∧ ¬ s.HasBacking addr ∨
        (∀ v, InRange addr data.length v → s.HasBacking v) ∧
          (∃ e ∈ s.vma_map, addr + data.length ≤ e.1) ∧ s.Repeats addr data ↔
        (∃ e ∈ s.vma_map, addr + data.length ≤ e.1) ∧ s.Repeats addr data :=
      ⟨fun hc => hc.elim (fun hc => absurd hstart hc.2) (·.2), fun hc => .inr ⟨hback, hc⟩⟩
    rw [hright]
    by_cases hlater : ∃ e ∈ s.vma_map, addr + data.length ≤ e.1
    · constructor
      · intro hwrites
        obtain ⟨written, hw, hall, -⟩ := hwrites.1 hback
        rw [hafter hlater, Except.ok.injEq, Prod.mk.injEq] at hw
        exact ⟨hlater, (hwf.writeBytes_iff backing hback).mp (hw.1 ▸ hall)⟩
      · rintro ⟨-, hrepeats⟩
        refine ⟨fun _ => ⟨_, hafter hlater, (hwf.writeBytes_iff backing hback).mpr hrepeats,
          fun x hx => ?_⟩, fun hno => absurd hback hno⟩
        rcases writeBytes_cases s backing addr data data.length x with ⟨j, hj, hj', -⟩ | ⟨-, hw⟩
        · exact absurd hj' (hx j hj)
        · exact hw
    · refine iff_of_false (fun hwrites => ?_) fun hc => hlater hc.1
      obtain ⟨written, hw, -⟩ := hwrites.1 hback
      rw [hundefined hlater] at hw
      cases hw
  · simp only [MemoryManager.Writes, hback, false_imp_iff, not_false_eq_true, true_imp_iff, true_and, false_and,
      or_false]
    constructor
    · intro hcall
      have hvalid : s.isValidMapping addr data.length = .ok true := by
        simp only [tryWriteBacking, requireValid, bind_eq_ok, require_eq_ok] at hcall
        obtain ⟨-, ⟨valid, hvalid, rfl⟩, -⟩ := hcall
        exact hvalid
      refine ⟨hvalid, fun hstart => ?_⟩
      have hlt := hwf.lt_of_valid hpos hvalid hstart
      exact tryWriteBacking_backed hwf hpos (by omega) hvalid hstart hcall
    · rintro ⟨hvalid, hstart⟩
      exact tryWriteBacking_unbacked hwf hpos hvalid hstart

/-- The guest has mapped two pages of direct memory, of which the second one is not physically the next. -/
def twoFragments : List Op :=
  [.allocate 0 0x100000000 0x10000 0 0,
    .mapMemory 0x100000000 0x4000 3 0x10 .direct "a" false 0 0,
    .mapMemory 0x100004000 0x4000 3 0x10 .direct "b" false 0x8000 0]

theorem tryWriteBacking_iff_first : ∃ s, replay .sample twoFragments (.new .sample) = some s ∧
    (s.Writes (fun _ => 0) 0x100000000 [1, 2] ↔
      s.isValidMapping 0x100000000 2 = .ok true ∧ ¬ s.HasBacking 0x100000000 ∨
        (∀ v, InRange 0x100000000 2 v → s.HasBacking v) ∧
          (∃ e ∈ s.vma_map, 0x100000000 + 2 ≤ e.1) ∧ s.Repeats 0x100000000 [1, 2]) := by
  obtain ⟨s, hs, hr, -⟩ := exists_of_replay .sample twoFragments (fun _ => true) (by decide)
  exact ⟨s, hs, tryWriteBacking_iff hr (fun _ => 0) 0x100000000 [1, 2] (by decide)⟩

/-- A write of two bytes across the pages puts the first byte behind both addresses. -/
theorem first_byte_twice : ∃ s, replay .sample twoFragments (.new .sample) = some s ∧
    Reachable .sample s ∧ (∀ v, InRange 0x100003fff 2 v → s.HasBacking v) ∧ s.phys 0x100004000 = some 0x8000 ∧
    (∃ written, s.tryWriteBacking (fun _ => 0) 0x100003fff [1, 2] 2 = .ok (written, true) ∧ written 0x8000 = 1) ∧
    ¬ s.Writes (fun _ => 0) 0x100003fff [1, 2] := by
  obtain ⟨s, hs, hr, ht⟩ := exists_of_replay .sample twoFragments (fun s =>
    (s.vbyte 0x100003fff).map (·.type) = some .direct &&
      (s.vbyte 0x100004000).map (·.type) = some .direct && s.phys 0x100004000 = some 0x8000 &&
      returns (s.tryWriteBacking (fun _ => 0) 0x100003fff [1, 2] 2) fun x =>
        x.2 = true ∧ x.1 0x8000 = 1) (by decide)
  simp only [Bool.and_eq_true, decide_eq_true_eq] at ht
  obtain ⟨⟨⟨hfirst, hsecond⟩, hphys⟩, hw⟩ := ht
  obtain ⟨⟨written, r⟩, hw, hw'⟩ := exists_of_returns hw
  simp only [decide_eq_true_eq] at hw'
  obtain ⟨rfl, hone⟩ := hw'
  have hback : ∀ v, InRange 0x100003fff 2 v → s.HasBacking v := by
    rintro v ⟨hlo, hhi⟩
    obtain rfl | rfl : v = 0x100003fff ∨ v = 0x100004000 := by omega
    · exact ⟨.direct, Option.map_eq_some_iff.mp hfirst, .inl rfl⟩
    · exact ⟨.direct, Option.map_eq_some_iff.mp hsecond, .inl rfl⟩
  refine ⟨s, hs, hr, hback, hphys, ⟨written, hw, hone⟩, fun hwrites => ?_⟩
  obtain ⟨written', hw', hall, -⟩ := hwrites.1 hback
  obtain ⟨x, hx, hbyte⟩ := hall 1 (by decide)
  rw [show [(1 : UInt8), 2].length = 2 from rfl, hw, Except.ok.injEq, Prod.mk.injEq] at hw'
  rw [show 0x100003fff + 1 = 0x100004000 from rfl, hphys, Option.some.injEq] at hx
  rw [← hw'.1, ← hx, hone] at hbyte
  exact absurd hbyte (by decide)

end ShadPS4.Memory
