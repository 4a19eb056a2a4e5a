import ShadPS4.Lib.Transition
import ShadPS4.VideoCore.PageManagerSpec

/-!
# The protection of a region

A region manager keeps, beside the flags of its pages, which of them it has asked the page manager to watch: a page
whose bit in `writeable` or in `readable` is clear has a watcher.
-/

namespace ShadPS4.VideoCore

open ShadPS4.Common PageManager

/-- An operation of a region manager that can change a protection. -/
inductive RegionOp
  | changeRegionState (type : TrackType) (enable : Bool) (dirty_addr size : ℕ)
  | forEachModifiedRange (type : TrackType) (clear : Bool) (query_cpu_range size : ℕ)

/-- The region manager after an operation, and what the operation calls. -/
def RegionOp.run (mode : GpuReadbacksMode) (m : RegionManager) : RegionOp → RegionManager × List Notice
  | .changeRegionState type enable dirty_addr size =>
    m.changeRegionState mode type enable dirty_addr size
  | .forEachModifiedRange type clear query_cpu_range size =>
    m.forEachModifiedRange mode type clear query_cpu_range size

/-- The calls of the page manager among those of an operation. -/
def PageManager.notify (pages : PageManager) : List Notice → Except PageFault PageManager
  | [] => .ok pages
  | .watchers track is_read cpu_addr mask :: rest => do
    let pages ← pages.updatePageWatchersForRegion track is_read cpu_addr mask
    pages.notify rest
  | _ :: rest => pages.notify rest

/-- A region manager and the page manager. -/
structure WatchedRegion where
  region : RegionManager
  pages : PageManager := {}

/-- An operation with the calls of the page manager. -/
def RegionOp.exec (mode : GpuReadbacksMode) (s : WatchedRegion) (op : RegionOp) : Except PageFault WatchedRegion := do
  let (region, notices) := op.run mode s.region
  let pages ← s.pages.notify notices
  return { region, pages }

def PageState.count (s : PageState) (is_read : Bool) : ℕ :=
  if is_read then s.num_read_watchers.toNat else s.num_write_watchers.toNat

/-- What was asked for: a page whose bit is clear is watched. -/
def RegionManager.applied (m : RegionManager) (is_read : Bool) : RegionBits :=
  if is_read then m.readable else m.writeable

def RegionManager.wanted (m : RegionManager) (is_read : Bool) : RegionBits :=
  if is_read then m.gpu.not else m.cpu

/-- A page of the region has one watcher where its bit is clear, and none where it is set. -/
def PageManager.Counts (pages : PageManager) (cpu_addr : ℕ) (is_read : Bool) (bits : RegionBits) : Prop :=
  ∀ i < 1024, (pages.cached_pages (cpu_addr / 4096 + i)).count is_read =
    if bits.bit i then 0 else 1

/-- The page manager and the region manager agree. -/
structure WatchedRegion.Consistent (s : WatchedRegion) : Prop where
  writeable : s.region.writeable = s.region.cpu
  write : s.pages.Counts s.region.cpu_addr false s.region.cpu
  read : s.pages.Counts s.region.cpu_addr true s.region.readable

/-- A call of the page manager is for pages that all change in its direction. -/
def Notice.Directed (m m' : RegionManager) : Notice → Prop
  | .watchers track is_read cpu_addr mask => cpu_addr = m.cpu_addr ∧ ∀ i < 1024, mask.bit i = true →
    (m.applied is_read).bit i = track ∧ (m'.applied is_read).bit i = !track
  | _ => True

/-- In the mode `Relaxed`, a walk that clears flags of the device and has a page to walk over leaves
no page of the region that the device has modified. -/
def RegionOp.Covers (mode : GpuReadbacksMode) (m : RegionManager) : RegionOp → Prop
  | .forEachModifiedRange .gpu true query_cpu_range size => mode = .relaxed →
    (pageRange (query_cpu_range - m.cpu_addr) size).1 < 1024 →
    (pageRange (query_cpu_range - m.cpu_addr) size).1 <
      (pageRange (query_cpu_range - m.cpu_addr) size).2 →
    ∀ i < 1024, m.gpu.bit i = true → (pageRange (query_cpu_range - m.cpu_addr) size).1 ≤ i ∧
      i < (pageRange (query_cpu_range - m.cpu_addr) size).2 ∧
      (pageRange (query_cpu_range - m.cpu_addr) size).2 ≤ 1024
  | _ => True

/-! ## The counters -/

theorem PageState.count_bump {s : PageState} {track is_read : Bool} (h : s.Fits track is_read) :
    (s.bump track is_read).count is_read = if track then s.count is_read + 1 else s.count is_read - 1 := by
  unfold PageState.count
  cases is_read <;> cases track <;> unfold PageState.Fits at h <;> dsimp only at h
  · exact toNat_pred h
  · exact toNat_succ h
  · exact toNat_pred h
  · exact toNat_succ h

theorem PageState.count_bump_not (s : PageState) (track is_read : Bool) :
    (s.bump track is_read).count (!is_read) = s.count (!is_read) := by
  cases is_read <;> cases track <;> rfl

theorem PageState.fits_of_count {s : PageState} {track is_read : Bool}
    (h : s.count is_read = if track then 0 else 1) : s.Fits track is_read := by
  unfold PageState.count at h
  unfold PageState.Fits
  cases is_read <;> cases track <;> simp_all

variable {m : RegionManager} {pages : PageManager} {track is_read : Bool} {mode : GpuReadbacksMode}

theorem updateProtection_fst (m : RegionManager) (track is_read : Bool) : (m.updateProtection track is_read).1 =
      if is_read then { m with readable := m.gpu.not } else { m with writeable := m.cpu } := by
  unfold RegionManager.updateProtection
  cases is_read with
  | true =>
    simp only [if_true]
    split_ifs with hnone
    · rw [BitArray.xor_none_iff.mp hnone]
    · rfl
  | false =>
    simp only [Bool.false_eq_true, if_false]
    split_ifs with hnone
    · obtain ⟨cpu_addr, cpu, gpu, writeable, readable⟩ := m
      obtain rfl : cpu = writeable := BitArray.xor_none_iff.mp hnone
      rfl
    · rfl

theorem updateProtection_snd (m : RegionManager) (track is_read : Bool) : (m.updateProtection track is_read).2 =
      if ((m.wanted is_read).xor (m.applied is_read)).none then []
      else [.watchers track is_read m.cpu_addr ((m.wanted is_read).xor (m.applied is_read))] := by
  unfold RegionManager.updateProtection RegionManager.wanted RegionManager.applied
  cases is_read <;> dsimp only <;> split_ifs <;> rfl

theorem notify_spec (halign : m.cpu_addr % 4194304 = 0) (hend : m.cpu_addr + 4194304 ≤ 2^40)
    (hagrees : pages.Agrees) (hcounts : pages.Counts m.cpu_addr is_read (m.applied is_read))
    (hdir : ∀ i < 1024, (m.wanted is_read).bit i ≠ (m.applied is_read).bit i → (m.applied is_read).bit i = track) :
    Sat (pages.notify (m.updateProtection track is_read).2)
      (fun pages' => pages'.Agrees ∧ pages'.Counts m.cpu_addr is_read (m.wanted is_read) ∧
        ∀ bits, pages.Counts m.cpu_addr (!is_read) bits → pages'.Counts m.cpu_addr (!is_read) bits)
      (· ≠ .notEnoughWatchers) := by
  have hbit : ∀ i < 1024, ((m.wanted is_read).xor (m.applied is_read)).bit i = true ↔
      (m.wanted is_read).bit i ≠ (m.applied is_read).bit i := by
    intro i hi
    rw [BitArray.bit_xor _ _ hi]
    simp
  rw [updateProtection_snd]
  split_ifs with hnone
  · rw [BitArray.xor_none_iff.mp hnone]
    exact Sat.pure ⟨hagrees, hcounts, fun _ h => h⟩
  · have hany : ((m.wanted is_read).xor (m.applied is_read)).any = true := by
      simpa [BitArray.any] using hnone
    -- A page of the mask has no watcher where one is added, and one where it is removed.
    have hcount : ∀ i < 1024, ((m.wanted is_read).xor (m.applied is_read)).bit i = true →
        (pages.cached_pages (m.cpu_addr / 4096 + i)).count is_read = if track then 0 else 1 := by
      intro i hi hset
      rw [hcounts i hi, hdir i hi ((hbit i hi).mp hset)]
    have hfits : ∀ p, InMask m.cpu_addr ((m.wanted is_read).xor (m.applied is_read)) p →
        (pages.cached_pages p).Fits track is_read := by
      rintro p ⟨i, hi, rfl, hset⟩
      exact PageState.fits_of_count (hcount i hi hset)
    have hcall := updatePageWatchersForRegion_updates hagrees halign hend hany hfits
    apply Sat.bind (P := fun pages' => pages.Updated track is_read
      (InMask m.cpu_addr ((m.wanted is_read).xor (m.applied is_read))) pages')
    · refine ⟨fun pages' hok => (hcall.1 pages' hok).1, fun e he => ?_⟩
      rw [(hcall.2 e he).1]
      decide
    · intro pages' hupdated
      have hin : ∀ i < 1024, ((m.wanted is_read).xor (m.applied is_read)).bit i = true →
          pages'.cached_pages (m.cpu_addr / 4096 + i) =
            (pages.cached_pages (m.cpu_addr / 4096 + i)).bump track is_read :=
        fun i hi hset => hupdated.inside _ ⟨i, hi, rfl, hset⟩
      have hout : ∀ i < 1024, ¬ ((m.wanted is_read).xor (m.applied is_read)).bit i = true →
          pages'.cached_pages (m.cpu_addr / 4096 + i) =
            pages.cached_pages (m.cpu_addr / 4096 + i) := by
        intro i hi hclear
        apply hupdated.outside
        rintro ⟨j, hj, heq, hset⟩
        obtain rfl : i = j := by omega
        exact hclear hset
      apply Sat.pure
      refine ⟨hupdated.agrees, fun i hi => ?_, fun bits hbits i hi => ?_⟩
      · by_cases hset : ((m.wanted is_read).xor (m.applied is_read)).bit i = true
        · have hne := (hbit i hi).mp hset
          have htrack := hdir i hi hne
          rw [hin i hi hset, PageState.count_bump (PageState.fits_of_count (hcount i hi hset)), hcount i hi hset]
          cases track <;> simp_all
        · have heq := not_not.mp (mt (hbit i hi).mpr hset)
          rw [hout i hi hset, hcounts i hi, heq]
      · by_cases hset : ((m.wanted is_read).xor (m.applied is_read)).bit i = true
        · rw [hin i hi hset, PageState.count_bump_not, hbits i hi]
        · rw [hout i hi hset, hbits i hi]

/-! ## Operations keep the agreement -/

structure WatchedRegion.Wf (mode : GpuReadbacksMode) (s : WatchedRegion) : Prop
    extends s.Consistent where
  align : s.region.cpu_addr % 4194304 = 0
  bound : s.region.cpu_addr + 4194304 ≤ 2^40
  agrees : s.pages.Agrees
  /-- With `Precise`, the pages that the device has modified are watched. -/
  precise : mode = .precise → s.region.readable = s.region.gpu.not
  unread : mode ≠ .precise → s.region.readable = BitArray.fill

/-- What an operation does when it does not run out of watchers. -/
def RegionOp.Keeps (mode : GpuReadbacksMode) (s : WatchedRegion) (result : RegionManager × List Notice) : Prop :=
  Sat (s.pages.notify result.2) (fun pages => WatchedRegion.Wf mode { region := result.1, pages })
      (· ≠ .notEnoughWatchers) ∧
    ∀ notice ∈ result.2, notice.Directed s.region result.1

variable {s : WatchedRegion}

theorem directed_updateProtection (haddr : m.cpu_addr = m0.cpu_addr)
    (happlied : m.applied is_read = m0.applied is_read)
    (hdir : ∀ i < 1024, (m.wanted is_read).bit i ≠ (m.applied is_read).bit i → (m.applied is_read).bit i = track) :
    ∀ notice ∈ (m.updateProtection track is_read).2, notice.Directed m0 (m.updateProtection track is_read).1 := by
  intro notice hnotice
  have hafter : (m.updateProtection track is_read).1.applied is_read = m.wanted is_read := by
    rw [updateProtection_fst]
    cases is_read <;> rfl
  rw [updateProtection_snd] at hnotice
  split_ifs at hnotice
  · simp at hnotice
  · obtain rfl := List.mem_singleton.mp hnotice
    refine ⟨haddr, fun i hi hset => ?_⟩
    rw [BitArray.bit_xor _ _ hi] at hset
    have hne : (m.wanted is_read).bit i ≠ (m.applied is_read).bit i := by simpa using hset
    have htrack := hdir i hi hne
    rw [← happlied, hafter]
    refine ⟨htrack, ?_⟩
    rw [htrack] at hne
    simpa using Bool.eq_not_of_ne hne

theorem keeps_cpu (h : s.Wf mode) (hdir : ∀ i < 1024, bits.bit i ≠ s.region.cpu.bit i → s.region.cpu.bit i = track) :
    RegionOp.Keeps mode s (({ s.region with cpu := bits } : RegionManager).updateProtection track
      false) := by
  have hdir' : ∀ i < 1024, bits.bit i ≠ s.region.writeable.bit i → s.region.writeable.bit i = track := by
    rw [h.writeable]
    exact hdir
  have hwrite : s.pages.Counts s.region.cpu_addr false s.region.writeable := by
    rw [h.writeable]
    exact h.write
  refine ⟨?_, directed_updateProtection rfl rfl hdir'⟩
  have hnotify := notify_spec (m := { s.region with cpu := bits }) h.align h.bound h.agrees hwrite hdir'
  apply hnotify.mono
  rintro pages ⟨hagrees, hcounts, hother⟩
  rw [updateProtection_fst]
  exact ⟨⟨rfl, hcounts, hother _ h.read⟩, h.align, h.bound, hagrees, h.precise, h.unread⟩

theorem keeps_gpu (h : s.Wf mode)
    (hdir : ∀ i < 1024, bits.not.bit i ≠ s.region.readable.bit i → s.region.readable.bit i = track)
    (hmode : mode ≠ .precise → bits.not = BitArray.fill) :
    RegionOp.Keeps mode s (({ s.region with gpu := bits } : RegionManager).updateProtection track
      true) := by
  refine ⟨?_, directed_updateProtection rfl rfl hdir⟩
  have hnotify := notify_spec (m := { s.region with gpu := bits }) h.align h.bound h.agrees h.read hdir
  apply hnotify.mono
  rintro pages ⟨hagrees, hcounts, hother⟩
  rw [updateProtection_fst]
  exact ⟨⟨h.writeable, hother _ h.write, hcounts⟩, h.align, h.bound, hagrees, fun _ => rfl, hmode⟩

theorem keeps_nothing (h : WatchedRegion.Wf mode { s with region := m }) :
    RegionOp.Keeps mode s (m, []) :=
  ⟨Sat.pure h, fun _ hnotice => absurd hnotice (by simp)⟩

theorem WatchedRegion.Wf.setGpu (h : s.Wf mode) (hmode : mode ≠ .precise) (bits : RegionBits) :
    WatchedRegion.Wf mode { s with region := { s.region with gpu := bits } } :=
  ⟨⟨h.writeable, h.write, h.read⟩, h.align, h.bound, h.agrees, fun hc => absurd hc hmode, h.unread⟩

theorem notify_ranges (hrest : ∀ notice ∈ rest, ∃ a b, notice = .range a b)
    (pages : PageManager) : pages.notify rest = .ok pages := by
  induction rest with
  | nil => rfl
  | cons notice rest ih =>
    obtain ⟨a, b, rfl⟩ := hrest notice (by simp)
    exact ih fun n hn => hrest n (by simp [hn])

theorem notify_append (notices rest : List Notice) (pages : PageManager) :
    pages.notify (notices ++ rest) = pages.notify notices >>= fun pages => pages.notify rest := by
  induction notices generalizing pages with
  | nil => rfl
  | cons notice notices ih =>
    cases notice with
    | range address size => exact ih pages
    | onUpload => exact ih pages
    | watchers track is_read cpu_addr mask =>
      simp only [List.cons_append, notify, ih]
      cases pages.updatePageWatchersForRegion track is_read cpu_addr mask <;> rfl

theorem RegionOp.Keeps.append
    (h : RegionOp.Keeps mode s result) (hrest : ∀ notice ∈ rest, ∃ a b, notice = .range a b) :
    RegionOp.Keeps mode s (result.1, result.2 ++ rest) := by
  refine ⟨?_, fun notice hnotice => ?_⟩
  · rw [notify_append]
    apply h.1.bind
    intro pages hpages
    rw [notify_ranges hrest]
    exact Sat.pure hpages
  · rcases List.mem_append.mp hnotice with hin | hin
    · exact h.2 notice hin
    · obtain ⟨a, b, rfl⟩ := hrest notice hin
      trivial

theorem changeRegionState_keeps (h : s.Wf mode) (type : TrackType) (enable : Bool) (dirty_addr size : ℕ) :
    RegionOp.Keeps mode s (s.region.changeRegionState mode type enable dirty_addr size) := by
  unfold RegionManager.changeRegionState
  generalize pageRange (dirty_addr - s.region.cpu_addr) size = range
  obtain ⟨start_page, end_page⟩ := range
  dsimp only
  by_cases hempty : start_page ≥ numPagesPerRegion ∨ end_page ≤ start_page
  · rw [if_pos hempty]
    exact keeps_nothing h
  rw [if_neg hempty]
  cases type with
  | cpu =>
    apply keeps_cpu h
    intro i _ hne
    exact s.region.cpu.bit_change enable start_page end_page hne
  | gpu =>
    by_cases hmode : mode = .precise
    · simp only [hmode, if_true]
      apply keeps_gpu (hmode ▸ h) _ (absurd rfl)
      intro i hi hne
      -- A page that is watched is one that the device has modified.
      rw [h.precise hmode, BitArray.bit_not _ hi, BitArray.bit_not _ hi] at hne
      rw [h.precise hmode, BitArray.bit_not _ hi,
        s.region.gpu.bit_change enable start_page end_page fun hc => hne (congrArg _ hc),
        Bool.not_not]
    · simp only [hmode, if_false]
      exact keeps_nothing (h.setGpu hmode _)

theorem clear_gpu_keeps (h : s.Wf mode) (hcovers : mode = .relaxed → ∀ i < 1024, s.region.gpu.bit i = true →
      start_page ≤ i ∧ i < end_page ∧ end_page ≤ 1024) : RegionOp.Keeps mode s (if mode ≠ .disabled then
        ({ s.region with gpu := s.region.gpu.unsetRange start_page end_page } :
          RegionManager).updateProtection false true
      else ({ s.region with gpu := s.region.gpu.unsetRange start_page end_page }, [])) := by
  cases mode with
  | disabled => exact keeps_nothing (h.setGpu (by decide) _)
  | precise =>
    apply keeps_gpu h _ (absurd rfl)
    intro i hi hne
    rw [h.precise rfl, BitArray.bit_not _ hi] at hne ⊢
    rw [BitArray.bit_not _ hi] at hne
    rw [s.region.gpu.bit_change false start_page end_page fun hc => hne (congrArg _ hc)]
    rfl
  | relaxed =>
    -- No flag of the device is left, so that no watcher is wanted and none is there.
    have hcleared : (s.region.gpu.unsetRange start_page end_page).not = BitArray.fill := by
      apply BitArray.ext_bit
      intro i hi
      rw [BitArray.bit_not _ hi, BitArray.bit_fill hi, Bool.not_eq_true']
      by_contra hset
      have hold : s.region.gpu.bit i = true := by
        by_contra hclear
        apply hclear
        have hchange := s.region.gpu.bit_change false start_page end_page (i := i) fun hc => by
          simp_all
        simpa using hchange
      obtain ⟨h1, h2, h3⟩ := hcovers rfl i hi hold
      rw [BitArray.bit_unsetRange _ h3, if_pos ⟨h1, h2⟩] at hset
      exact hset rfl
    apply keeps_gpu h _ fun _ => hcleared
    intro i _ hne
    rw [hcleared, h.unread (by decide)] at hne
    exact absurd rfl hne

theorem forEachModifiedRange_keeps (h : s.Wf mode) (type : TrackType) (clear : Bool) (query_cpu_range size : ℕ)
    (hcovers : (RegionOp.forEachModifiedRange type clear query_cpu_range size).Covers mode s.region) :
    RegionOp.Keeps mode s (s.region.forEachModifiedRange mode type clear query_cpu_range size) := by
  have hwalk : type = .gpu → clear = true → mode = .relaxed →
      (pageRange (query_cpu_range - s.region.cpu_addr) size).1 < 1024 →
      (pageRange (query_cpu_range - s.region.cpu_addr) size).1 <
        (pageRange (query_cpu_range - s.region.cpu_addr) size).2 →
      ∀ i < 1024, s.region.gpu.bit i = true →
        (pageRange (query_cpu_range - s.region.cpu_addr) size).1 ≤ i ∧
        i < (pageRange (query_cpu_range - s.region.cpu_addr) size).2 ∧
        (pageRange (query_cpu_range - s.region.cpu_addr) size).2 ≤ 1024 := by
    rintro rfl rfl
    exact hcovers
  unfold RegionManager.forEachModifiedRange
  generalize pageRange (query_cpu_range - s.region.cpu_addr) size = range at hwalk ⊢
  obtain ⟨start_page, end_page⟩ := range
  dsimp only at hwalk ⊢
  by_cases hempty : start_page ≥ numPagesPerRegion ∨ end_page ≤ start_page
  · rw [if_pos hempty]
    exact keeps_nothing h
  rw [if_neg hempty]
  unfold numPagesPerRegion at hempty
  have hranges : ∀ (cpu_addr : ℕ) (ranges : List (ℕ × ℕ)),
      ∀ notice ∈ ranges.map fun range => Notice.range (cpu_addr + range.1 * trackerBytesPerPage)
        ((range.2 - range.1) * trackerBytesPerPage), ∃ a b, notice = .range a b := by
    intro cpu_addr ranges notice hnotice
    obtain ⟨r, -, rfl⟩ := List.mem_map.mp hnotice
    exact ⟨_, _, rfl⟩
  cases clear with
  | false => exact (keeps_nothing h).append (hranges _ _)
  | true =>
    cases type with
    | cpu =>
      have hcpu := keeps_cpu h
        fun i _ hne => s.region.cpu.bit_change false start_page end_page hne
      exact hcpu.append (hranges _ _)
    | gpu =>
      have hgpu := clear_gpu_keeps h fun hmode => hwalk rfl rfl hmode (by omega) (by omega)
      exact hgpu.append (hranges _ _)

theorem RegionOp.keeps (h : s.Wf mode) (op : RegionOp) (hcovers : op.Covers mode s.region) :
    RegionOp.Keeps mode s (op.run mode s.region) := by
  cases op with
  | changeRegionState type enable dirty_addr size =>
    exact changeRegionState_keeps h type enable dirty_addr size
  | forEachModifiedRange type clear query_cpu_range size =>
    exact forEachModifiedRange_keeps h type clear query_cpu_range size hcovers

/-! ## Runs -/

/-- A new region manager beside a page manager without watchers. -/
def WatchedRegion.new (cpu_addr : ℕ) : WatchedRegion where
  region := { cpu_addr }

/-- The states that the operations reach which meet the condition and return. -/
abbrev WatchedRegion.Reached (mode : GpuReadbacksMode) (cpu_addr : ℕ) : WatchedRegion → Prop :=
  Run (· = .new cpu_addr) (fun s (op : RegionOp) s' => op.exec mode s = .ok s')
    fun s op => op.Covers mode s.region

theorem WatchedRegion.wf_new (halign : cpu_addr % 4194304 = 0)
    (hend : cpu_addr + 4194304 ≤ 2^40) : (WatchedRegion.new cpu_addr).Wf mode where
  writeable := rfl
  write i hi := by
    rw [show (WatchedRegion.new cpu_addr).region.cpu.bit i = true from BitArray.bit_fill hi]
    rfl
  read i hi := by
    rw [show (WatchedRegion.new cpu_addr).region.readable.bit i = true from BitArray.bit_fill hi]
    rfl
  align := halign
  bound := hend
  agrees _ := (by decide : Memory.MemoryPermission.readWrite = PageState.perms {})
  precise _ := by
    apply BitArray.ext_bit
    intro i hi
    rw [BitArray.bit_not _ hi]
    calc (WatchedRegion.new cpu_addr).region.readable.bit i = true := BitArray.bit_fill hi
      _ = !(WatchedRegion.new cpu_addr).region.gpu.bit i := by
        rw [show (WatchedRegion.new cpu_addr).region.gpu.bit i = false from BitArray.bit_clear i]
        rfl
  unread _ := rfl

theorem RegionOp.exec_spec (h : s.Wf mode) (op : RegionOp) (hcovers : op.Covers mode s.region) :
    Sat (op.exec mode s) (WatchedRegion.Wf mode) (· ≠ .notEnoughWatchers) := by
  apply (op.keeps h hcovers).1.bind
  intro pages hpages
  exact Sat.pure hpages

def faultOf {α : Type} : Except PageFault α → Option PageFault
  | .error e => some e
  | .ok _ => none

theorem eq_error_of_faultOf (h : faultOf x = some e) : x = .error e := by
  cases x with
  | error e' => exact congrArg Except.error (Option.some.inj h)
  | ok a => simp [faultOf] at h

/-- In every state of a run whose operations meet the condition, the page manager watches what the
region manager asked for, and the next operation that meets it neither asks for a change in the wrong
direction nor runs out of watchers. -/
theorem watched_run {cpu_addr : ℕ} (halign : cpu_addr % 4194304 = 0)
    (hend : cpu_addr + 4194304 ≤ 2^40) (h : WatchedRegion.Reached mode cpu_addr s) :
    s.Consistent ∧ ∀ op : RegionOp, op.Covers mode s.region → (∀ notice ∈ (op.run mode s.region).2,
        notice.Directed s.region (op.run mode s.region).1) ∧ op.exec mode s ≠ .error .notEnoughWatchers := by
  have hwf : s.Wf mode := by
    apply Run.invariant h
    · intro s hs
      exact hs ▸ WatchedRegion.wf_new halign hend
    · intro s op s' hs hcovers hexec
      exact (op.exec_spec hs hcovers).1 s' hexec
  refine ⟨hwf.toConsistent, fun op hcovers => ⟨(op.keeps hwf hcovers).2, fun herror => ?_⟩⟩
  exact (op.exec_spec hwf hcovers).2 _ herror rfl

theorem watched_run_sample : ∃ s, (RegionOp.forEachModifiedRange .cpu true 0 4096).exec .precise (.new 0) = .ok s ∧
      s.Consistent := by
  have hok : faultOf ((RegionOp.forEachModifiedRange .cpu true 0 4096).exec .precise (.new 0)) =
      none := by decide +kernel
  cases hexec : (RegionOp.forEachModifiedRange .cpu true 0 4096).exec .precise (.new 0) with
  | error e =>
    rw [hexec] at hok
    simp [faultOf] at hok
  | ok s =>
    have hreached : WatchedRegion.Reached .precise 0 s := .step (.start rfl) (by trivial) hexec
    exact ⟨s, rfl, (watched_run (by omega) (by omega) hreached).1⟩

/-- The device writes a page, and in the mode `Relaxed` the page behind it is read back. -/
theorem relaxed_runs_out : ((RegionOp.changeRegionState .gpu true 0 4096).exec .relaxed (.new 0) >>=
      (RegionOp.forEachModifiedRange .gpu true 4096 4096).exec .relaxed) = .error .notEnoughWatchers := by
  apply eq_error_of_faultOf
  decide +kernel

end ShadPS4.VideoCore
