import ShadPS4.Memory.Types
import ShadPS4.VideoCore.MemoryTracker

/-!
# `PageManager`

The page manager counts the watchers of each page of a space of 2^40 bytes. A page with a watcher of writes is not
to be written by the host, and a page with a watcher of reads is not to be read.
-/

namespace ShadPS4.VideoCore

open ShadPS4.Common ShadPS4.Memory

def numAddressPages : ℕ := 268435456

inductive PageFault
  | notEnoughWatchers
  /-- the assertion of `Protect` against a permission that is write-only -/
  | writeOnly
  /-- the assertion of `UpdatePageWatchersForRegion` about its base page -/
  | basePage
  /-- an access outside of `cached_pages` -/
  | outOfBounds
deriving DecidableEq

structure PageState where
  num_write_watchers : BitVec 7 := 0
  num_read_watchers : BitVec 1 := 0

namespace PageState

variable (s : PageState)

def writePerm : MemoryPermission :=
  if s.num_write_watchers = 0 then MemoryPermission.write else MemoryPermission.none

def readPerm : MemoryPermission :=
  if s.num_read_watchers = 0 then MemoryPermission.read else MemoryPermission.none

def perms : MemoryPermission := s.readPerm ||| s.writePerm

/-- `AddDelta<delta, is_read>`: the state, and the new count. -/
def addDelta (delta : ℤ) (is_read : Bool) : Except PageFault (PageState × ℕ) :=
  if is_read then
    if delta = 1 then
      let num_read_watchers := s.num_read_watchers + 1
      .ok ({ s with num_read_watchers }, num_read_watchers.toNat)
    else if delta = -1 then
      if s.num_read_watchers > 0 then
        let num_read_watchers := s.num_read_watchers - 1
        .ok ({ s with num_read_watchers }, num_read_watchers.toNat)
      else .error .notEnoughWatchers
    else .ok (s, s.num_read_watchers.toNat)
  else
    if delta = 1 then
      let num_write_watchers := s.num_write_watchers + 1
      .ok ({ s with num_write_watchers }, num_write_watchers.toNat)
    else if delta = -1 then
      if s.num_write_watchers > 0 then
        let num_write_watchers := s.num_write_watchers - 1
        .ok ({ s with num_write_watchers }, num_write_watchers.toNat)
      else .error .notEnoughWatchers
    else .ok (s, s.num_write_watchers.toNat)

end PageState

/-- `PageManager::Impl`, with the protection of the host. -/
structure PageManager where
  cached_pages : ℕ → PageState := fun _ => {}
  host : ℕ → MemoryPermission := fun _ => MemoryPermission.readWrite

namespace PageManager

/-- `Protect`, for an address and a size that are multiples of the page size. -/
def protect (m : PageManager) (address size : ℕ) (perms : MemoryPermission) : Except PageFault PageManager :=
  if perms ≠ MemoryPermission.write then
    .ok { m with host := fun page =>
      if address ≤ page * trackerBytesPerPage ∧ page * trackerBytesPerPage < address + size then perms
      else m.host page }
  else .error .writeOnly

def setState (m : PageManager) (page : ℕ) (state : PageState) : PageManager :=
  { m with cached_pages := fun p => if p = page then state else m.cached_pages p }

end PageManager

/-- The variables of the loop that updates pages. -/
structure Pending where
  perms : MemoryPermission
  range_begin : ℕ := 0
  range_bytes : ℕ := 0
  potential_range_bytes : ℕ := 0

def releasePending (m : PageManager) (q : Pending) : Except PageFault (PageManager × Pending) :=
  if q.range_bytes > 0 then do
    let m ← m.protect (q.range_begin * trackerBytesPerPage) q.range_bytes q.perms
    return (m, { q with range_bytes := 0, potential_range_bytes := 0 })
  else return (m, q)

/-- A round of the loop that updates pages. The loop of `UpdatePageWatchers` updates every page. -/
def watchPage (track is_read update : Bool) (page : ℕ) (m : PageManager) (q : Pending) :
    Except PageFault (PageManager × Pending) := do
  let (state, new_count) ← (m.cached_pages page).addDelta
    (if update then (if track then 1 else -1) else 0) is_read
  let m := m.setState page state
  let (m, q) ← (if state.perms ≠ q.perms then do
      let (m, q) ← releasePending m q
      return (m, { q with perms := state.perms })
    else if q.range_bytes ≠ 0 then
      return (m, { q with potential_range_bytes := q.potential_range_bytes + trackerBytesPerPage })
    else return (m, q))
  if update = true ∧ (new_count = 0 ∧ track = false ∨ new_count = 1 ∧ track = true) then
    let q := if q.range_bytes = 0 then
        { q with range_begin := page, potential_range_bytes := trackerBytesPerPage }
      else q
    return (m, { q with range_bytes := q.potential_range_bytes })
  else return (m, q)

/-- The loop that updates `count` pages from `page` on. -/
def watchPages (track is_read : Bool) (update : ℕ → Bool) :
    ℕ → ℕ → PageManager → Pending → Except PageFault (PageManager × Pending)
  | _, 0, m, q => .ok (m, q)
  | page, count + 1, m, q => do
    let (m, q) ← watchPage track is_read (update page) page m q
    watchPages track is_read update (page + 1) count m q

namespace PageManager

/-- `UpdatePageWatchers<track, is_read>`. -/
def updatePageWatchers (m : PageManager) (track is_read : Bool) (addr size : ℕ) : Except PageFault PageManager :=
  let page := addr / trackerBytesPerPage
  let page_end := divCeil (addr + size) trackerBytesPerPage
  if page ≥ numAddressPages ∨ page_end > numAddressPages then .error .outOfBounds
  else do
    let (m, q) ← watchPages track is_read (fun _ => true) page (page_end - page) m
      { perms := (m.cached_pages page).perms }
    let (m, _) ← releasePending m q
    return m

/-- `UpdatePageWatchersForRegion<track, is_read>`. -/
def updatePageWatchersForRegion (m : PageManager) (track is_read : Bool) (base_addr : ℕ)
    (mask : RegionBits) : Except PageFault PageManager :=
  let start_range := mask.firstRange
  let end_range := mask.lastRange
  if start_range.2 = end_range.2 then
    m.updatePageWatchers track is_read (base_addr + start_range.1 * trackerBytesPerPage)
      ((start_range.2 - start_range.1) * trackerBytesPerPage)
  else
    let base_page := base_addr / trackerBytesPerPage
    if base_page % numPagesPerRegion ≠ 0 then .error .basePage
    else if base_page + start_range.1 ≥ numAddressPages ∨
        base_page + end_range.2 > numAddressPages then .error .outOfBounds
    else do
      let (m, q) ← watchPages track is_read (fun page => mask.get (page - base_page))
        (base_page + start_range.1) (end_range.2 - start_range.1) m
        { perms := (m.cached_pages (base_page + start_range.1)).perms }
      let (m, _) ← releasePending m q
      return m

end PageManager

end ShadPS4.VideoCore
