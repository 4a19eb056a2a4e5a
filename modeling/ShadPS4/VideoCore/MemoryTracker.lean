import Mathlib.Data.Int.Bitwise
import ShadPS4.Common.BitArray

/-!
# `MemoryTracker`

Two flags for each page of 4 KB of a space of 2^40 bytes: the processor has modified it, the device has modified
it.
-/

namespace ShadPS4.VideoCore

open ShadPS4.Common

def trackerBytesPerPage : ℕ := 4096

def trackerHigherPageSize : ℕ := 4194304

def numPagesPerRegion : ℕ := 1024

def numHighPages : ℕ := 262144

def managerPoolSize : ℕ := 32

abbrev RegionBits : Type := BitArray 16

/-- `Type`: who has modified a page. -/
inductive TrackType where
  | cpu
  | gpu
deriving DecidableEq

inductive GpuReadbacksMode where
  /-- modifications of the device are not watched -/
  | disabled
  | relaxed
  | precise
deriving DecidableEq

/-- What an operation calls on the way. -/
inductive Notice where
  | range (address size : ℕ)
  | onUpload
  /-- `UpdatePageWatchersForRegion` of the page manager -/
  | watchers (track is_read : Bool) (cpu_addr : ℕ) (mask : RegionBits)

/-! ## A region -/

structure RegionManager where
  cpu_addr : ℕ
  cpu : RegionBits := BitArray.fill
  gpu : RegionBits := BitArray.clear
  writeable : RegionBits := BitArray.fill
  readable : RegionBits := BitArray.fill

section

variable (m : RegionManager)

def RegionManager.getRegionBits : TrackType → RegionBits
  | .cpu => m.cpu
  | .gpu => m.gpu

/-- The flags of one kind are changed. -/
def RegionManager.setRegionBits (bits : RegionBits) : TrackType → RegionManager
  | .cpu => { m with cpu := bits }
  | .gpu => { m with gpu := bits }

/-- `SanitizeAddress`: a difference below zero is zero. -/
def sanitizeAddress (address : ℤ) : ℕ := address.toNat

def divCeil (number divisor : ℕ) : ℕ := (number + divisor - 1) / divisor

/-- The first page of a request, and the page behind the last one. -/
def pageRange (offset : ℤ) (size : ℕ) : ℕ × ℕ :=
  (sanitizeAddress offset / trackerBytesPerPage,
    divCeil (sanitizeAddress (offset + size)) trackerBytesPerPage)

def RegionManager.updateProtection (track is_read : Bool) : RegionManager × List Notice :=
  let mask := if is_read then m.gpu.not.xor m.readable else m.cpu.xor m.writeable
  if mask.none then (m, [])
  else
    let m := if is_read then { m with readable := m.gpu.not } else { m with writeable := m.cpu }
    (m, [.watchers track is_read m.cpu_addr mask])

def RegionManager.changeRegionState (mode : GpuReadbacksMode) (type : TrackType)
    (enable : Bool) (dirty_addr size : ℕ) : RegionManager × List Notice :=
  let (start_page, end_page) := pageRange (dirty_addr - m.cpu_addr) size
  if start_page ≥ numPagesPerRegion ∨ end_page ≤ start_page then (m, [])
  else
    let bits := m.getRegionBits type
    let m := m.setRegionBits
      (if enable then bits.setRange start_page end_page else bits.unsetRange start_page end_page) type
    match type with
    | .cpu => m.updateProtection (!enable) false
    | .gpu => if mode = .precise then m.updateProtection enable true else (m, [])

def RegionManager.forEachModifiedRange (mode : GpuReadbacksMode)
    (type : TrackType) (clear : Bool) (query_cpu_range size : ℕ) : RegionManager × List Notice :=
  let (start_page, end_page) := pageRange (query_cpu_range - m.cpu_addr) size
  if start_page ≥ numPagesPerRegion ∨ end_page ≤ start_page then (m, [])
  else
    let bits := m.getRegionBits type
    let mask := BitArray.ofRange bits start_page end_page
    let (m, watchers) :=
      if clear then
        let m := m.setRegionBits (bits.unsetRange start_page end_page) type
        match type with
        | .cpu => m.updateProtection true false
        | .gpu => if mode ≠ .disabled then m.updateProtection false true else (m, [])
      else (m, [])
    (m, watchers ++ mask.ranges.map fun range =>
      .range (m.cpu_addr + range.1 * trackerBytesPerPage)
        ((range.2 - range.1) * trackerBytesPerPage))

def RegionManager.isRegionModified (type : TrackType) (offset size : ℕ) : Bool :=
  let (start_page, end_page) := pageRange offset size
  if start_page ≥ numPagesPerRegion ∨ end_page ≤ start_page then false
  else (BitArray.ofRange (m.getRegionBits type) start_page end_page).any

end

/-! ## The tracker -/

structure MemoryTracker where
  /-- `manager_pool`, array after array -/
  manager_pool : List RegionManager := []
  free_managers : List ℕ := []
  top_tier : ℕ → Option ℕ := fun _ => none

def MemoryTracker.createRegion (t : MemoryTracker) (page_index : ℕ) : MemoryTracker :=
  let t := if t.free_managers.isEmpty then { t with
      manager_pool := t.manager_pool ++ List.replicate managerPoolSize { cpu_addr := 0 }
      free_managers := List.range' t.manager_pool.length managerPoolSize }
    else t
  match t.free_managers.getLast? with
  | none => t
  | some new_manager => { t with
    manager_pool := t.manager_pool.modify new_manager fun m =>
      { m with cpu_addr := page_index * trackerHigherPageSize }
    free_managers := t.free_managers.dropLast
    top_tier := fun p => if p = page_index then some new_manager else t.top_tier p }

/-- A callback of `IteratePages`: the manager afterwards, what it called, and whether the loop is to
end. -/
abbrev Visit : Type := RegionManager → ℕ → ℕ → RegionManager × List Notice × Bool

/-- A callback that does not end the loop. -/
def Visit.of (func : RegionManager → ℕ → ℕ → RegionManager × List Notice) : Visit :=
  fun m offset size => ((func m offset size).1, (func m offset size).2, false)

/-- What an operation of the tracker returns: the tracker afterwards, what it called, and a result. -/
abbrev Tracking : Type := Option (MemoryTracker × List Notice × Bool)

/-- The loop of `IteratePages`. Each round takes at least one byte. -/
def MemoryTracker.iterate (create_region_on_fail : Bool) (func : Visit) : ℕ → ℕ → ℕ → ℕ → MemoryTracker → Tracking
  | 0, _, _, _, t => some (t, [], false)
  | fuel + 1, page_index, page_offset, remaining_size, t =>
    if remaining_size = 0 then some (t, [], false)
    else if page_index ≥ numHighPages then none
    else
      let copy_amount := min (trackerHigherPageSize - page_offset) remaining_size
      let t := if (t.top_tier page_index).isNone && create_region_on_fail then
          t.createRegion page_index
        else t
      match (t.top_tier page_index).bind fun k => (t.manager_pool[k]?).map fun m => (k, m) with
      | none => iterate create_region_on_fail func fuel (page_index + 1) 0
          (remaining_size - copy_amount) t
      | some (k, m) =>
        let (m, notices, stop) := func m page_offset copy_amount
        let t := { t with manager_pool := t.manager_pool.set k m }
        if stop then some (t, notices, true)
        else
          (iterate create_region_on_fail func fuel (page_index + 1) 0 (remaining_size - copy_amount)
            t).map fun (t, rest, result) => (t, notices ++ rest, result)

variable (t : MemoryTracker)

def MemoryTracker.iteratePages (create_region_on_fail : Bool)
    (cpu_address size : ℕ) (func : Visit) : Tracking :=
  iterate create_region_on_fail func size (cpu_address / trackerHigherPageSize)
    (cpu_address % trackerHigherPageSize) size t

def MemoryTracker.isRegionCpuModified (query_cpu_addr query_size : ℕ) : Tracking :=
  t.iteratePages true query_cpu_addr query_size fun m offset size =>
    (m, [], m.isRegionModified .cpu offset size)

def MemoryTracker.isRegionGpuModified (query_cpu_addr query_size : ℕ) : Tracking :=
  t.iteratePages false query_cpu_addr query_size fun m offset size =>
    (m, [], m.isRegionModified .gpu offset size)

def MemoryTracker.markRegionAsCpuModified (mode : GpuReadbacksMode)
    (dirty_cpu_addr query_size : ℕ) : Tracking :=
  t.iteratePages false dirty_cpu_addr query_size <| .of fun m offset size =>
    m.changeRegionState mode .cpu true (m.cpu_addr + offset) size

def MemoryTracker.unmarkRegionAsGpuModified (mode : GpuReadbacksMode)
    (dirty_cpu_addr query_size : ℕ) : Tracking :=
  t.iteratePages false dirty_cpu_addr query_size <| .of fun m offset size =>
    m.changeRegionState mode .gpu false (m.cpu_addr + offset) size

def MemoryTracker.forEachUploadRange (mode : GpuReadbacksMode)
    (query_cpu_range query_size : ℕ) (is_written : Bool) : Tracking := do
  let (t, first, _) ← t.iteratePages true query_cpu_range query_size <| .of fun m offset size =>
    m.forEachModifiedRange mode .cpu true (m.cpu_addr + offset) size
  if is_written then
    let (t, second, _) ← t.iteratePages false query_cpu_range query_size <| .of fun m offset size =>
      m.changeRegionState mode .gpu true (m.cpu_addr + offset) size
    return (t, first ++ .onUpload :: second, false)
  else return (t, first ++ [.onUpload], false)

def MemoryTracker.forEachDownloadRange (mode : GpuReadbacksMode) (clear : Bool)
    (query_cpu_range query_size : ℕ) : Tracking :=
  t.iteratePages false query_cpu_range query_size <| .of fun m offset size =>
    m.forEachModifiedRange mode .gpu clear (m.cpu_addr + offset) size

end ShadPS4.VideoCore
