import ShadPS4.Memory.Types

/-!
# Splitting, carving, and merging areas

The private functions of `src/core/memory.cpp` that keep the area maps: `Split`, `CarvePhysArea`, `CarveVMA`, and
`MergeAdjacent`, each on a map of physical areas and on the map of virtual areas.
-/

namespace ShadPS4.Memory

/-- `Split` on a map of physical areas. The handle returned is that of the second part. -/
def splitPhys (map : PhysMap) (phys_handle offset_in_area : ℕ) : Except Fault (PhysMap × ℕ) := do
  let old_area ← deref (map.get? phys_handle)
  require .splitPhys (offset_in_area < old_area.size ∧ 0 < offset_in_area)
  let new_area := { old_area with
    base := old_area.base + offset_in_area, size := old_area.size - offset_in_area }
  let map := map.insert phys_handle { old_area with size := offset_in_area }
  return (map.emplace new_area.base new_area, new_area.base)

variable (map : PhysMap)

/-- `CarvePhysArea`: the area found at `addr` is split so that one area is `[addr, addr + size)`. -/
def carvePhysArea (addr size : ℕ) : Except Fault (PhysMap × ℕ) := do
  let (pmem_handle, area) ← deref (map.floor? addr)
  require .carvePhysAddress (addr ≤ area.getEnd)
  require .carvePhysBase (area.base ≤ addr)
  let start_in_area := addr - area.base
  let end_in_vma := add64 start_in_area size
  require .carvePhysFit (end_in_vma ≤ area.size)
  let map ← (if end_in_vma ≠ area.size then (·.1) <$> splitPhys map pmem_handle end_in_vma
    else pure map)
  if start_in_area ≠ 0 then splitPhys map pmem_handle start_in_area
  else return (map, pmem_handle)

/-- The first half of `MergeAdjacent` on physical areas: the area after `iter` joins it. -/
def mergeNextPhys (iter : ℕ) : Except Fault PhysMap := do
  let area ← deref (map.get? iter)
  match map.next? iter with
  | some (next_vma, next) =>
    if area.canMergeWith next then
      return (map.insert iter { area with size := area.size + next.size }).erase next_vma
    else return map
  | none => return map

/-- The second half of `MergeAdjacent` on physical areas: `iter` joins the area before it. -/
def mergePrevPhys (iter : ℕ) : Except Fault (PhysMap × ℕ) := do
  let area ← deref (map.get? iter)
  match map.prev? iter with
  | some (prev_vma, prev) =>
    if prev.canMergeWith area then
      return ((map.insert prev_vma { prev with size := prev.size + area.size }).erase iter,
        prev_vma)
    else return (map, iter)
  | none => return (map, iter)

/-- `MergeAdjacent` on a map of physical areas. -/
def mergeAdjacentPhys (iter : ℕ) : Except Fault (PhysMap × ℕ) := do
  let map ← mergeNextPhys map iter
  mergePrevPhys map iter

/-! ## Virtual areas -/

/-- The loop of `Split` over the physical areas of a virtual area: each goes to the first part, to
the second, or is itself split between them. -/
def splitPhysAreas (offset_in_vma : ℕ) : List (ℕ × PhysicalMemoryArea) → PhysMap → PhysMap → PhysMap × PhysMap
  | [], old_phys, new_phys => (old_phys, new_phys)
  | (offset, region) :: rest, old_phys, new_phys =>
    let old_phys := if offset + region.size ≤ offset_in_vma then old_phys.insert offset region
      else old_phys
    let size_in_old := offset_in_vma - offset
    let straddles := offset < offset_in_vma ∧ offset_in_vma < offset + region.size
    let old_phys := if straddles then old_phys.insert offset { region with size := size_in_old }
      else old_phys
    let new_phys := if straddles then
        new_phys.insert 0 { region with
          base := region.base + size_in_old, size := region.size - size_in_old }
      else new_phys
    let new_phys := if offset_in_vma ≤ offset then new_phys.insert (offset - offset_in_vma) region
      else new_phys
    splitPhysAreas offset_in_vma rest old_phys new_phys

/-- The two parts that `Split` makes of a virtual area. -/
def splitParts (vma : VirtualMemoryArea) (offset_in_vma : ℕ) : VirtualMemoryArea × VirtualMemoryArea :=
  let old_vma := { vma with size := offset_in_vma }
  let new_vma := { vma with
    base := vma.base + offset_in_vma, size := vma.size - offset_in_vma }
  if vma.type.HasPhysicalBacking then
    let parts := splitPhysAreas offset_in_vma vma.phys_areas.entries .empty .empty
    ({ old_vma with phys_areas := parts.1 }, { new_vma with phys_areas := parts.2 })
  else (old_vma, new_vma)

/-- `Split` on the map of virtual areas. The handle returned is that of the second part. -/
def splitVMA (map : VMAMap) (vma_handle offset_in_vma : ℕ) : Except Fault (VMAMap × ℕ) := do
  let vma ← deref (map.get? vma_handle)
  require .splitVMA (offset_in_vma < vma.size ∧ 0 < offset_in_vma)
  let (old_vma, new_vma) := splitParts vma offset_in_vma
  let map := map.insert vma_handle old_vma
  return (map.emplace new_vma.base new_vma, new_vma.base)

variable (map : VMAMap)

/-- `CarveVMA`: the area found at `virtual_addr` is split so that one area is
`[virtual_addr, virtual_addr + size)`. -/
def carveVMA (virtual_addr size : ℕ) : Except Fault (VMAMap × ℕ) := do
  let (vma_handle, vma) ← deref (map.floor? virtual_addr)
  require .carveVMABase (vma.base ≤ virtual_addr)
  let start_in_vma := virtual_addr - vma.base
  let end_in_vma := add64 start_in_vma size
  if start_in_vma = 0 ∧ size = vma.size then return (map, vma_handle)
  else
    require .carveVMAFit (end_in_vma ≤ vma.size)
    let map ← (if end_in_vma ≠ vma.size then (·.1) <$> splitVMA map vma_handle end_in_vma
      else pure map)
    if start_in_vma ≠ 0 then splitVMA map vma_handle start_in_vma
    else return (map, vma_handle)

/-- The loop of `MergeAdjacent` that appends the physical areas of the second virtual area, rebased
by the size of the first. -/
def appendAreas (base_offset : ℕ) : List (ℕ × PhysicalMemoryArea) → PhysMap → PhysMap
  | [], phys_areas => phys_areas
  | (offset, area) :: rest, phys_areas =>
    appendAreas base_offset rest (phys_areas.insert (base_offset + offset) area)

/-- The virtual area that `MergeAdjacent` makes of two. -/
def mergedVMA (vma next : VirtualMemoryArea) : VirtualMemoryArea :=
  { vma with
    size := vma.size + next.size
    phys_areas := appendAreas vma.size next.phys_areas.entries vma.phys_areas }

/-- The first half of `MergeAdjacent` on virtual areas: the area after `iter` joins it. -/
def mergeNextVMA (iter : ℕ) : Except Fault VMAMap := do
  let vma ← deref (map.get? iter)
  match map.next? iter with
  | some (next_vma, next) =>
    if ← vma.canMergeWith next then
      return (map.insert iter (mergedVMA vma next)).erase next_vma
    else return map
  | none => return map

/-- The second half of `MergeAdjacent` on virtual areas: `iter` joins the area before it. -/
def mergePrevVMA (iter : ℕ) : Except Fault (VMAMap × ℕ) := do
  let vma ← deref (map.get? iter)
  match map.prev? iter with
  | some (prev_vma, prev) =>
    if ← prev.canMergeWith vma then
      return ((map.insert prev_vma (mergedVMA prev vma)).erase iter, prev_vma)
    else return (map, iter)
  | none => return (map, iter)

/-- `MergeAdjacent` on the map of virtual areas. -/
def mergeAdjacentVMA (iter : ℕ) : Except Fault (VMAMap × ℕ) := do
  let map ← mergeNextVMA map iter
  mergePrevVMA map iter

end ShadPS4.Memory
