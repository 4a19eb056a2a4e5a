import ShadPS4.Common.BitArraySpec
import ShadPS4.VideoCore.MemoryTracker

/-!
# What an operation of the tracker does to the flags

The flags of a page are read through the table and the pool (`MemoryTracker.flag`); a page whose region has not
been made has the flags that a new region gives it.
-/

namespace ShadPS4.VideoCore

open ShadPS4.Common

def Touches (address size page : ℕ) : Prop :=
  ∃ x, address ≤ x ∧ x < address + size ∧ x / trackerBytesPerPage = page

theorem touches_iff : Touches address size page ↔
    0 < size ∧ address / 4096 ≤ page ∧ page * 4096 < address + size := by
  unfold Touches trackerBytesPerPage
  refine ⟨fun h => ?_, fun h => ?_⟩
  · obtain ⟨x, hle, hlt, rfl⟩ := h
    omega
  · refine ⟨max address (page * 4096), ?_, ?_, ?_⟩
    · omega
    · omega
    · omega

/-- It can be decided whether a page is touched. -/
instance (address size page : ℕ) : Decidable (Touches address size page) :=
  decidable_of_iff _ touches_iff.symm

abbrev PageFlags : Type := TrackType → Bool

/-- The flags that a new region gives a page. -/
def PageFlags.default : PageFlags
  | .cpu => true
  | .gpu => false

def PageFlags.set (type : TrackType) (value : Bool) (flags : PageFlags) : PageFlags := fun t =>
  if t = type then value else flags t

def RegionManager.flags (m : RegionManager) (page : ℕ) : PageFlags := fun type =>
  (m.getRegionBits type).bit page

theorem RegionManager.flags_new (cpu_addr : ℕ) (h : page < 1024) :
    RegionManager.flags { cpu_addr } page = PageFlags.default := by
  funext type
  cases type with
  | cpu => exact BitArray.bit_fill (by unfold bitsPerWord; omega)
  | gpu => exact BitArray.bit_clear _

def MemoryTracker.manager (t : MemoryTracker) (region : ℕ) : Option RegionManager :=
  (t.top_tier region).bind (t.manager_pool[·]?)

def MemoryTracker.flags (t : MemoryTracker) (page : ℕ) : PageFlags :=
  match t.manager (page / 1024) with
  | some m => m.flags (page % 1024)
  | none => .default

/-! ## A visit of a region -/

def rangesOf (notices : List Notice) : List (ℕ × ℕ) :=
  notices.filterMap fun notice => match notice with
    | .range address size => some (address, size)
    | _ => none

/-- A range has a page: it starts no later, and ends behind it. -/
def HasPage (range : ℕ × ℕ) (page : ℕ) : Prop :=
  range.1 ≤ page * trackerBytesPerPage ∧ (page + 1) * trackerBytesPerPage ≤ range.1 + range.2

/-- The ranges that an operation called for: whole pages in order, without overlap, and together the
given ones. -/
structure Covers (ranges : List (ℕ × ℕ)) (pages : ℕ → Prop) : Prop where
  aligned : ∀ r ∈ ranges, r.1 % trackerBytesPerPage = 0 ∧ r.2 % trackerBytesPerPage = 0 ∧ 0 < r.2
  ordered : ranges.Pairwise fun r r' => r.1 + r.2 ≤ r'.1
  union : ∀ page, (∃ r ∈ ranges, HasPage r page) ↔ pages page

theorem Covers.nil (h : ∀ page, ¬ pages page) : Covers [] pages :=
  ⟨by simp, List.Pairwise.nil, fun page => by simp [h page]⟩

/-- What a visit of a region does to the request: the touched pages of the region have their flags
changed by `g`, and the caller is called for those of them that `e` selects. -/
structure Does (g : PageFlags → PageFlags) (e : PageFlags → Bool) (m : RegionManager)
    (offset size : ℕ) (result : RegionManager × List Notice) : Prop where
  cpu_addr : result.1.cpu_addr = m.cpu_addr
  flags : ∀ page < 1024, result.1.flags page =
    if Touches offset size page then g (m.flags page) else m.flags page
  covers : Covers (rangesOf result.2) fun page => ∃ i < 1024, page = m.cpu_addr / 4096 + i ∧
    Touches offset size i ∧ e (m.flags i) = true

theorem pageRange_spec {m : RegionManager} {offset size : ℕ} (hpos : 0 < size) (hle : offset + size ≤ 4194304) :
    pageRange ((m.cpu_addr + offset : ℕ) - (m.cpu_addr : ℕ)) size = pageRange offset size ∧
    (pageRange offset size).1 < (pageRange offset size).2 ∧ (pageRange offset size).2 ≤ 1024 ∧
    ∀ page, (pageRange offset size).1 ≤ page ∧ page < (pageRange offset size).2 ↔ Touches offset size page := by
  have hoffset : ((m.cpu_addr + offset : ℕ) : ℤ) - (m.cpu_addr : ℕ) = offset := by omega
  refine ⟨by rw [hoffset], ?_⟩
  have hsum : ((offset : ℤ) + size).toNat = offset + size := by omega
  simp only [pageRange, sanitizeAddress, divCeil, trackerBytesPerPage, hsum, Int.toNat_natCast]
  refine ⟨by omega, by omega, fun page => ?_⟩
  rw [touches_iff]
  omega

variable (m : RegionManager)

theorem updateProtection_spec (track is_read : Bool) :
    (m.updateProtection track is_read).1.cpu_addr = m.cpu_addr ∧
      (m.updateProtection track is_read).1.flags = m.flags ∧ rangesOf (m.updateProtection track is_read).2 = [] := by
  unfold RegionManager.updateProtection
  dsimp only
  split_ifs
  · exact ⟨rfl, rfl, rfl⟩
  · exact ⟨rfl, by funext page type; cases type <;> rfl, rfl⟩
  · exact ⟨rfl, rfl, rfl⟩
  · exact ⟨rfl, by funext page type; cases type <;> rfl, rfl⟩

theorem flags_setRegionBits (bits : RegionBits) (type : TrackType) (page : ℕ) :
    (m.setRegionBits bits type).flags page = PageFlags.set type (bits.bit page) (m.flags page) := by
  funext t
  cases type <;> cases t <;> rfl

theorem set_flags_self (type : TrackType) (page : ℕ) :
    PageFlags.set type ((m.getRegionBits type).bit page) (m.flags page) = m.flags page := by
  funext t
  unfold PageFlags.set RegionManager.flags
  split_ifs with h
  · rw [h]
  · rfl

theorem flags_changed (type : TrackType) (enable : Bool) (first : ℕ)
    (hlast : last ≤ 1024) (page : ℕ) : (m.setRegionBits (if enable then (m.getRegionBits type).setRange first last
      else (m.getRegionBits type).unsetRange first last) type).flags page =
      if first ≤ page ∧ page < last then PageFlags.set type enable (m.flags page)
      else m.flags page := by
  have hsize : last ≤ 16 * bitsPerWord := by unfold bitsPerWord; omega
  rw [flags_setRegionBits]
  cases enable with
  | true =>
    rw [if_pos rfl, BitArray.bit_setRange _ hsize]
    split_ifs
    · rfl
    · exact set_flags_self m type page
  | false =>
    rw [if_neg (by simp), BitArray.bit_unsetRange _ hsize]
    split_ifs
    · rfl
    · exact set_flags_self m type page

theorem changeRegionState_does (mode : GpuReadbacksMode) (type : TrackType)
    (enable : Bool) {offset size : ℕ} (hpos : 0 < size) (hle : offset + size ≤ 4194304) :
    Does (PageFlags.set type enable) (fun _ => false) m offset size
      (m.changeRegionState mode type enable (m.cpu_addr + offset) size) := by
  obtain ⟨hrange, hlt, hle', htouch⟩ := @pageRange_spec m _ _ hpos hle
  unfold RegionManager.changeRegionState
  rw [hrange]
  generalize pageRange offset size = range at *
  obtain ⟨first, last⟩ := range
  dsimp only at hlt hle' htouch ⊢
  rw [if_neg (by unfold numPagesPerRegion; omega)]
  -- What is left is to update the protection, or not.
  have hdone : ∀ result : RegionManager × List Notice, result.1.cpu_addr = m.cpu_addr →
      result.1.flags = (m.setRegionBits (if enable then (m.getRegionBits type).setRange first last
        else (m.getRegionBits type).unsetRange first last) type).flags →
      rangesOf result.2 = [] → Does (PageFlags.set type enable) (fun _ => false) m offset size
        result := by
    intro result haddr hflags hranges
    refine ⟨haddr, fun page _ => ?_, ?_⟩
    · rw [hflags, flags_changed m type enable first hle']
      simp only [htouch]
    · rw [hranges]
      exact .nil (by simp)
  cases type with
  | cpu =>
    obtain ⟨haddr, hflags, hranges⟩ := updateProtection_spec (m.setRegionBits (if enable then
      (m.getRegionBits .cpu).setRange first last
      else (m.getRegionBits .cpu).unsetRange first last) .cpu) (!enable) false
    exact hdone _ haddr hflags hranges
  | gpu =>
    by_cases hmode : mode = .precise
    · rw [if_pos hmode]
      obtain ⟨haddr, hflags, hranges⟩ := updateProtection_spec (m.setRegionBits (if enable then
        (m.getRegionBits .gpu).setRange first last
        else (m.getRegionBits .gpu).unsetRange first last) .gpu) enable true
      exact hdone _ haddr hflags hranges
    · rw [if_neg hmode]
      exact hdone _ rfl rfl rfl

theorem rangesOf_append (xs ys : List Notice) : rangesOf (xs ++ ys) = rangesOf xs ++ rangesOf ys :=
  List.filterMap_append ..

theorem covers_ranges (bits : RegionBits) (haddr : cpu_addr % 4096 = 0) :
    Covers (rangesOf (bits.ranges.map fun range => .range (cpu_addr + range.1 * trackerBytesPerPage)
      ((range.2 - range.1) * trackerBytesPerPage)))
      fun page => ∃ i < 1024, page = cpu_addr / 4096 + i ∧ bits.bit i = true := by
  have hvisits := bits.ranges_visits
  have hranges : rangesOf (bits.ranges.map fun range =>
      .range (cpu_addr + range.1 * trackerBytesPerPage)
        ((range.2 - range.1) * trackerBytesPerPage)) =
      bits.ranges.map fun range => (cpu_addr + range.1 * 4096, (range.2 - range.1) * 4096) := by
    unfold rangesOf
    rw [List.filterMap_map]
    exact congrFun List.filterMap_eq_map _
  rw [hranges]
  refine ⟨fun r hr => ?_, ?_, fun page => ?_⟩
  · obtain ⟨range, hrange, rfl⟩ := List.mem_map.mp hr
    have hinside := hvisits.inside range hrange
    unfold trackerBytesPerPage
    omega
  · rw [List.pairwise_map]
    refine hvisits.ordered.imp_of_mem fun hr hr' hle => ?_
    have hinside := hvisits.inside _ hr
    omega
  · unfold HasPage trackerBytesPerPage
    refine ⟨fun h => ?_, fun h => ?_⟩
    · obtain ⟨r, hr, hpage⟩ := h
      obtain ⟨range, hrange, rfl⟩ := List.mem_map.mp hr
      have hinside := hvisits.inside range hrange
      unfold bitsPerWord at hinside
      refine ⟨page - cpu_addr / 4096, by omega, by omega, ?_⟩
      exact (hvisits.bits _ (Nat.zero_le _) (by unfold bitsPerWord; omega)).mpr
        ⟨range, hrange, by omega, by omega⟩
    · obtain ⟨i, hi, rfl, hbit⟩ := h
      obtain ⟨range, hrange, hle, hlt⟩ :=
        (hvisits.bits i (Nat.zero_le _) (by unfold bitsPerWord; omega)).mp hbit
      refine ⟨_, List.mem_map_of_mem hrange, ?_⟩
      omega

theorem forEachModifiedRange_does {m : RegionManager} (haddr : m.cpu_addr % 4096 = 0)
    (mode : GpuReadbacksMode) (type : TrackType) (clear : Bool) {offset size : ℕ} (hpos : 0 < size)
    (hle : offset + size ≤ 4194304) : Does (fun flags => if clear then PageFlags.set type false flags else flags)
      (fun flags => flags type) m offset size
      (m.forEachModifiedRange mode type clear (m.cpu_addr + offset) size) := by
  obtain ⟨hrange, hlt, hle', htouch⟩ := @pageRange_spec m _ _ hpos hle
  unfold RegionManager.forEachModifiedRange
  rw [hrange]
  generalize pageRange offset size = range at *
  obtain ⟨first, last⟩ := range
  dsimp only at hlt hle' htouch ⊢
  rw [if_neg (by unfold numPagesPerRegion; omega)]
  have hsize : last ≤ 16 * bitsPerWord := by unfold bitsPerWord; omega
  -- What is left is to clear the bits and update the protection, or not.
  have hdone : ∀ result : RegionManager × List Notice, result.1.cpu_addr = m.cpu_addr →
      (∀ page < 1024, result.1.flags page = if Touches offset size page then
        (if clear then PageFlags.set type false (m.flags page) else m.flags page)
        else m.flags page) →
      rangesOf result.2 = [] →
      Does (fun flags => if clear then PageFlags.set type false flags else flags)
        (fun flags => flags type) m offset size (result.1, result.2 ++
          (BitArray.ofRange (m.getRegionBits type) first last).ranges.map fun range =>
            .range (result.1.cpu_addr + range.1 * trackerBytesPerPage)
              ((range.2 - range.1) * trackerBytesPerPage)) := by
    intro result hcpu hflags hranges
    refine ⟨hcpu, hflags, ?_⟩
    rw [rangesOf_append, hranges, List.nil_append, hcpu]
    have hcovers := covers_ranges (BitArray.ofRange (m.getRegionBits type) first last) haddr
    refine ⟨hcovers.aligned, hcovers.ordered, fun page => (hcovers.union page).trans ?_⟩
    refine exists_congr fun i => and_congr_right fun _ => and_congr_right fun _ => ?_
    rw [BitArray.bit_ofRange _ hsize, ← htouch]
    unfold RegionManager.flags
    split_ifs with hin <;> simp [hin]
  have hcleared : ∀ page, (m.setRegionBits ((m.getRegionBits type).unsetRange first last) type).flags
      page = if Touches offset size page then PageFlags.set type false (m.flags page)
        else m.flags page := by
    intro page
    have hchanged := flags_changed m type false first hle' page
    rw [if_neg (by simp)] at hchanged
    rw [hchanged]
    simp only [htouch]
  cases clear with
  | false => exact hdone (m, []) rfl (fun page _ => by simp) rfl
  | true =>
    cases type with
    | cpu =>
      obtain ⟨hcpu, hflags, hranges⟩ := updateProtection_spec
        (m.setRegionBits ((m.getRegionBits .cpu).unsetRange first last) .cpu) true false
      exact hdone _ hcpu (fun page _ => (congrFun hflags page).trans (hcleared page)) hranges
    | gpu =>
      by_cases hmode : mode ≠ .disabled
      · rw [if_pos hmode]
        obtain ⟨hcpu, hflags, hranges⟩ := updateProtection_spec
          (m.setRegionBits ((m.getRegionBits .gpu).unsetRange first last) .gpu) false true
        exact hdone _ hcpu (fun page _ => (congrFun hflags page).trans (hcleared page)) hranges
      · rw [if_neg hmode]
        exact hdone (_, []) rfl (fun page _ => hcleared page) rfl

theorem isRegionModified_iff (type : TrackType) {offset size : ℕ}
    (hpos : 0 < size) (hle : offset + size ≤ 4194304) : m.isRegionModified type offset size = true ↔
      ∃ page < 1024, Touches offset size page ∧ m.flags page type = true := by
  obtain ⟨-, hlt, hle', htouch⟩ := @pageRange_spec m _ _ hpos hle
  unfold RegionManager.isRegionModified
  generalize pageRange offset size = range at *
  obtain ⟨first, last⟩ := range
  dsimp only at hlt hle' htouch ⊢
  have hsize : last ≤ 16 * bitsPerWord := by unfold bitsPerWord; omega
  rw [if_neg (by unfold numPagesPerRegion; omega), BitArray.any_iff]
  refine exists_congr fun page => and_congr (by unfold bitsPerWord; omega) ?_
  rw [BitArray.bit_ofRange _ hsize, ← htouch]
  unfold RegionManager.flags
  split_ifs with hin <;> simp [hin]

end ShadPS4.VideoCore
