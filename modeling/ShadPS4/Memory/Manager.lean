import ShadPS4.Memory.Areas

/-!
# The memory manager's operations

The public operations of `MemoryManager` (`src/core/memory.cpp`) that change its state, and the searches that they
use.
-/

namespace ShadPS4.Memory.MemoryManager

section

variable (s : MemoryManager)

/-- `FindVMA`: the handle and the area. -/
def findVMA (target : ℕ) : Except Fault (ℕ × VirtualMemoryArea) :=
  deref (s.vma_map.floor? target)

/-- `FindDmemArea`: the handle and the area. -/
def findDmemArea (target : ℕ) : Except Fault (ℕ × PhysicalMemoryArea) :=
  deref (s.dmem_map.floor? target)

/-- The loop of `IsValidMapping`: the areas from the first on cover the range without a gap. -/
def validRange : List (ℕ × VirtualMemoryArea) → ℕ → ℕ → Bool
  | [], _, size_to_validate => size_to_validate = 0
  | (_, vma) :: rest, addr_to_check, size_to_validate =>
    if size_to_validate = 0 then true
    else
      let offset_in_vma := sub64 addr_to_check vma.base
      let size_in_vma := min (sub64 vma.size offset_in_vma) size_to_validate
      let size_to_validate := size_to_validate - size_in_vma
      let addr_to_check := add64 addr_to_check size_in_vma
      match rest with
      | [] => size_to_validate = 0
      | (_, next) :: _ =>
        if 0 < size_to_validate ∧ addr_to_check ≠ next.base then false
        else validRange rest addr_to_check size_to_validate

def isValidMapping (virtual_addr size : ℕ) : Except Fault Bool := do
  let (last_key, last) ← deref s.vma_map.last?
  let (first_key, _) ← deref s.vma_map.first?
  if virtual_addr < first_key ∨ last_key + last.size ≤ virtual_addr then return false
  else if size = 0 then return true
  else
    let (vma_handle, _) ← s.findVMA virtual_addr
    return validRange (s.vma_map.tailFrom vma_handle) virtual_addr size

def requireValid (virtual_addr size : ℕ) : Except Fault Unit := do
  let valid ← s.isValidMapping virtual_addr size
  require .invalidAddress (valid = true)

/-- The search of `Allocate` and `PoolExpand`: from the area found for `search_start`, with the
start that it gives, on to the first free area that is large enough. -/
def findFreeDmem (size alignment : ℕ) : ℕ → List (ℕ × PhysicalMemoryArea) → Option (ℕ × ℕ)
  | _, [] => none
  | mapping_start, (dmem_area, area) :: rest =>
    let mapping_end := add64 mapping_start size
    if area.dma_type ≠ .free ∨ area.getEnd < mapping_end then
      let mapping_start := match rest with
        | (_, next) :: _ => alignUp next.base alignment
        | [] => mapping_start
      findFreeDmem size alignment mapping_start rest
    else some (dmem_area, mapping_start)

/-- `PoolExpand`. The result `none` is the source's `-1`. -/
def poolExpand (search_start _search_end size alignment : ℕ) :
    Except Fault (MemoryManager × Option ℕ) := do
  let alignment := if 0 < alignment then alignment else kb64
  let (dmem_area, area) ← s.findDmemArea search_start
  let mapping_start := if area.base < search_start then alignUp search_start alignment
    else alignUp area.base alignment
  match findFreeDmem size alignment mapping_start (s.dmem_map.tailFrom dmem_area) with
  | none => return (s, none)
  | some (_, mapping_start) =>
    let (dmem_map, handle) ← carvePhysArea s.dmem_map mapping_start size
    let area ← deref (dmem_map.get? handle)
    let dmem_map := dmem_map.insert handle { area with dma_type := .pooled, memory_type := 3 }
    return ({ s with dmem_map, pool_budget := add64 s.pool_budget size }, some mapping_start)

/-- `Allocate`. -/
def allocate (search_start search_end size alignment : ℕ) (memory_type : ℤ) :
    Except Fault (MemoryManager × Option ℕ) := do
  let alignment := if 0 < alignment then alignment else kb16
  let (dmem_area, area) ← s.findDmemArea search_start
  let mapping_start := alignUp (max search_start area.base) alignment
  match findFreeDmem size alignment mapping_start (s.dmem_map.tailFrom dmem_area) with
  | none => return (s, none)
  | some (dmem_area, mapping_start) =>
    if search_end < add64 mapping_start size then return (s, none)
    else
      let (dmem_map, handle) ← carvePhysArea s.dmem_map mapping_start size
      let area ← deref (dmem_map.get? handle)
      let dmem_map := dmem_map.insert handle { area with memory_type, dma_type := .allocated }
      let (dmem_map, _) ← mergeAdjacentPhys dmem_map dmem_area
      return ({ s with dmem_map }, some mapping_start)

end

/-! ## Unmapping -/

/-- One turn of the loop of `UnmapBytesFromEntry` over the physical areas: the bytes
`[phys_addr, phys_addr + size_in_dma)` lose their mapping. -/
def unmapPhys (vma_type : VMAType) (s : MemoryManager) (phys_addr size_in_dma : ℕ) : Except Fault MemoryManager := do
  if vma_type = .direct then
    let (dmem_map, handle) ← carvePhysArea s.dmem_map phys_addr size_in_dma
    let area ← deref (dmem_map.get? handle)
    let (dmem_map, _) ←
      mergeAdjacentPhys (dmem_map.insert handle { area with dma_type := .allocated }) handle
    return { s with dmem_map }
  else if vma_type = .flexible then
    let (fmem_map, handle) ← carvePhysArea s.fmem_map phys_addr size_in_dma
    let area ← deref (fmem_map.get? handle)
    let (fmem_map, _) ←
      mergeAdjacentPhys (fmem_map.insert handle { area with dma_type := .free }) handle
    return { s with fmem_map, flexible_usage := sub64 s.flexible_usage size_in_dma }
  else return s

/-- The loop over the physical areas of a virtual area, from the one that holds `start_in_vma` on,
that `UnmapBytesFromEntry` and `PoolDecommit` share: `f` is applied to the physical range of each
area's part in `[start_in_vma, start_in_vma + size_to_free)`, and `a` is the assertion that the
areas cover it. -/
def forPhysAreas (f : MemoryManager → ℕ → ℕ → Except Fault MemoryManager) (a : Assertion) (start_in_vma : ℕ) :
    List (ℕ × PhysicalMemoryArea) → ℕ → MemoryManager → Except Fault MemoryManager
  | [], size_to_free, s => do
    require a (size_to_free = 0)
    return s
  | (offset, area) :: rest, size_to_free, s =>
    if size_to_free = 0 then return s
    else do
      let dma_offset := max offset start_in_vma - offset
      let phys_addr := add64 area.base dma_offset
      let size_in_dma := min size_to_free (sub64 area.size dma_offset)
      let s ← f s phys_addr size_in_dma
      forPhysAreas f a start_in_vma rest (size_to_free - size_in_dma) s

/-- The part of `UnmapBytesFromEntry` that unmaps the physical areas, if there are any. -/
def unmapBacking (s : MemoryManager) (vma_base : VirtualMemoryArea)
    (start_in_vma size_in_vma : ℕ) : Except Fault MemoryManager := do
  if vma_base.phys_areas ≠ .empty then
    let (phys_handle, _) ← deref (vma_base.phys_areas.floor? start_in_vma)
    forPhysAreas (unmapPhys vma_base.type) .unmapPhysical start_in_vma
      (vma_base.phys_areas.tailFrom phys_handle) size_in_vma s
  else return s

/-- `UnmapBytesFromEntry`. The second result is the number of bytes that it accounts for. -/
def unmapBytesFromEntry (s : MemoryManager) (virtual_addr : ℕ) (vma_base : VirtualMemoryArea)
    (size : ℕ) : Except Fault (MemoryManager × ℕ) := do
  let start_in_vma := sub64 virtual_addr vma_base.base
  let size_in_vma := min (sub64 vma_base.size start_in_vma) size
  let vma_type := vma_base.type
  if vma_type = .free ∨ vma_type = .pooled then return (s, size_in_vma)
  else
    let s ← s.unmapBacking vma_base start_in_vma size_in_vma
    let (vma_map, new_it) ← carveVMA s.vma_map virtual_addr size_in_vma
    let vma ← deref (vma_map.get? new_it)
    let (vma_map, _) ← mergeAdjacentVMA (vma_map.insert new_it { vma with
      type := .free, prot := MemoryProt.noAccess, phys_areas := .empty, disallow_merge := false,
      name := "" }) new_it
    let s := { s with vma_map }
    if vma_type ≠ .reserved ∧ vma_type ≠ .poolReserved then
      return (s.host (.unmap virtual_addr size_in_vma), size_in_vma)
    else return (s, size_in_vma)

/-- The loop of `UnmapMemoryImpl`, which runs once before it tests its condition. -/
def unmapMemoryLoop (virtual_addr size : ℕ) : ℕ → MemoryManager → ℕ → Except Fault MemoryManager
  | 0, _, _ => .error .diverges
  | fuel + 1, s, unmapped_bytes => do
    let (_, vma_base) ← s.findVMA (add64 virtual_addr unmapped_bytes)
    let (s, unmapped) ← s.unmapBytesFromEntry (add64 virtual_addr unmapped_bytes) vma_base
      (size - unmapped_bytes)
    require .unmapProgress (0 < unmapped)
    if unmapped_bytes + unmapped < size then
      unmapMemoryLoop virtual_addr size fuel s (unmapped_bytes + unmapped)
    else return s

/-- `UnmapMemoryImpl`. Each turn of its loop accounts for a byte or more, or faults. -/
def unmapMemoryImpl (s : MemoryManager) (virtual_addr size : ℕ) : Except Fault MemoryManager :=
  unmapMemoryLoop virtual_addr size (size + 1) s 0

def unmapMemory (s : MemoryManager) (virtual_addr size : ℕ) : Except Fault (MemoryManager × Orbis) := do
  if size = 0 then return (s, .ok)
  else
    let virtual_addr := alignDown virtual_addr kb16
    let size := alignUp size kb16
    if ← s.isValidMapping virtual_addr size then
      let s ← s.unmapMemoryImpl virtual_addr size
      return (s, .ok)
    else return (s, .einval)

/-! ## Releasing direct memory -/

/-- The search of `Free` for the areas to release: the physical address and size of each. -/
def freeList (is_checked : Bool) (phys_addr : ℕ) : ℕ → List (ℕ × PhysicalMemoryArea) → Option (List (ℕ × ℕ))
  | _, [] => some []
  | remaining_size, (phys_handle, dmem_area) :: rest =>
    if remaining_size = 0 then some []
    else if dmem_area.dma_type = .free then
      if is_checked then none else freeList is_checked phys_addr remaining_size rest
    else
      let current_phys_addr := max phys_addr phys_handle
      let start_in_dma := current_phys_addr - phys_handle
      let size_in_dma := min remaining_size (sub64 dmem_area.size start_in_dma)
      (freeList is_checked phys_addr (remaining_size - size_in_dma) rest).map
        ((current_phys_addr, size_in_dma) :: ·)

/-- The virtual range that `Free` unmaps for one physical area of a direct mapping, if any. -/
def removeRange (phys_addr size base : ℕ) (entry : ℕ × PhysicalMemoryArea) : Option (ℕ × ℕ) :=
  let (offset_in_vma, phys_mapping) := entry
  if phys_mapping.base < add64 phys_addr size ∧
      phys_addr < phys_mapping.base + phys_mapping.size then
    let phys_offset := max phys_mapping.base phys_addr - phys_mapping.base
    some (base + offset_in_vma + phys_offset, min (phys_mapping.size - phys_offset) size)
  else none

/-- The search of `Free` for the virtual ranges to unmap: those that the direct mappings give. -/
def removeList (vma_map : VMAMap) (phys_addr size : ℕ) : List (ℕ × ℕ) :=
  vma_map.entries.flatMap fun (_, mapping) =>
    if mapping.type = .direct then
      mapping.phys_areas.entries.filterMap (removeRange phys_addr size mapping.base)
    else []

/-- The loop of `Free` that unmaps the ranges found. -/
def unmapRanges : List (ℕ × ℕ) → MemoryManager → Except Fault MemoryManager
  | [], s => return s
  | (addr, size) :: rest, s => do
    let s ← s.unmapMemoryImpl addr size
    unmapRanges rest s

/-- The loop of `Free` that releases the areas found. -/
def releaseAreas : List (ℕ × ℕ) → PhysMap → Except Fault PhysMap
  | [], dmem_map => return dmem_map
  | (phys_addr, size) :: rest, dmem_map => do
    let (dmem_map, dmem_handle) ← carvePhysArea dmem_map phys_addr size
    let area ← deref (dmem_map.get? dmem_handle)
    let (dmem_map, _) ← mergeAdjacentPhys
      (dmem_map.insert dmem_handle { area with dma_type := .free, memory_type := 0 }) dmem_handle
    releaseAreas rest dmem_map

/-- The bounds check of `Free` passes. -/
def FreeInBounds (s : MemoryManager) (phys_addr size : ℕ) (is_checked : Bool) : Prop :=
  phys_addr ≤ s.total_direct_size ∧
    (is_checked = true → add64 phys_addr size ≤ s.total_direct_size)

instance (s : MemoryManager) (phys_addr size : ℕ) (is_checked : Bool) :
    Decidable (s.FreeInBounds phys_addr size is_checked) := inferInstanceAs (Decidable (_ ∧ _))

def free (s : MemoryManager) (phys_addr size : ℕ) (is_checked : Bool) : Except Fault (MemoryManager × Orbis) := do
  if ¬ s.FreeInBounds phys_addr size is_checked then
    return (s, if is_checked then .enoent else .ok)
  else
    let (phys_handle, _) ← s.findDmemArea phys_addr
    match freeList is_checked phys_addr size (s.dmem_map.tailFrom phys_handle) with
    | none => return (s, .enoent)
    | some free_list =>
      let remove_list := removeList s.vma_map phys_addr size
      let s ← unmapRanges remove_list s
      let dmem_map ← releaseAreas free_list s.dmem_map
      return ({ s with dmem_map }, .ok)

/-! ## Mapping -/

/-- The loop of `SearchFree` after its first area: the first free area that fits the mapping. -/
def searchFreeFrom (size alignment max_search_address : ℕ) : List (ℕ × VirtualMemoryArea) → Option ℕ
  | [] => none
  | (_, vma) :: rest =>
    if vma.type ≠ .free then searchFreeFrom size alignment max_search_address rest
    else
      let virtual_addr := alignUp vma.base alignment
      if vma.base + vma.size < virtual_addr then
        searchFreeFrom size alignment max_search_address rest
      else if max_search_address ≤ virtual_addr then none
      else if size ≤ vma.base + vma.size - virtual_addr then some virtual_addr
      else searchFreeFrom size alignment max_search_address rest

/-- `SearchFree`, whose alignment is cut to 32 bits. The result `none` is the source's `-1`. -/
def searchFree (s : MemoryManager) (virtual_addr size alignment : ℕ) : Except Fault (Option ℕ) := do
  let alignment := alignment % 2^32
  let min_search_address := s.impl.system_managed_base
  let max_search_address := s.impl.user_base + s.impl.user_size
  let virtual_addr := max virtual_addr min_search_address
  if ← s.isValidMapping virtual_addr 0 then
    if alignment = 0 then .error .undefined
    else
      let virtual_addr := alignUp virtual_addr alignment
      let (it, vma) ← s.findVMA virtual_addr
      if vma.type = .free ∧ vma.Contains virtual_addr size then return some virtual_addr
      else return searchFreeFrom size alignment max_search_address (s.vma_map.tailFrom (it + 1))
  else return none

/-- The loop of `CreateArea` that clears the range of a fixed mapping. -/
def clearRange : ℕ → MemoryManager → ℕ → ℕ → VirtualMemoryArea → Except Fault MemoryManager
  | 0, s, _, unmap_size, _ => if unmap_size = 0 then .ok s else .error .diverges
  | fuel + 1, s, unmap_addr, unmap_size, vma =>
    if unmap_size = 0 then return s
    else do
      let (s, unmapped) ← s.unmapBytesFromEntry unmap_addr vma unmap_size
      let unmap_addr := add64 unmap_addr unmapped
      let (_, vma) ← s.findVMA unmap_addr
      clearRange fuel s unmap_addr (unmap_size - unmapped) vma

variable (s : MemoryManager)

/-- `CreateArea`. The second result is the handle of the new area. -/
def createArea (virtual_addr size : ℕ) (prot : MemoryProt)
    (flags : MemoryMapFlags) (type : VMAType) (name : String) : Except Fault (MemoryManager × ℕ) := do
  let (_, vma) ← s.findVMA virtual_addr
  let s ← (if anySet (flags &&& MemoryMapFlags.fixed) then clearRange size s virtual_addr size vma
    else pure s)
  let (_, vma) ← s.findVMA virtual_addr
  require .vmaNotFree (vma.type = .free)
  let (vma_map, new_vma_handle) ← carveVMA s.vma_map virtual_addr size
  let new_vma ← deref (vma_map.get? new_vma_handle)
  let vma_map := vma_map.insert new_vma_handle { new_vma with
    disallow_merge := anySet (flags &&& MemoryMapFlags.noCoalesce), prot := appendRead prot,
    name, type, phys_areas := .empty }
  return ({ s with vma_map }, new_vma_handle)

/-- The state of a loop that backs a virtual range with physical areas. -/
structure Backing where
  map : PhysMap
  phys_areas : PhysMap
  calls : List HostCall
  /-- The bytes still to back. -/
  remaining_size : ℕ

/-- The loop of `PoolCommit` and of the flexible branch of `MapMemory`: from `handle` on, each area of type `want`
gives as much as is still needed, and is retyped by `retype`. -/
def backFrom (want : PhysicalMemoryType) (retype : PhysicalMemoryArea → PhysicalMemoryArea)
    (exec : Bool) (mapped_addr : ℕ) : ℕ → Backing → Option ℕ → ℕ → Except Fault Backing
  | _, b, none, _ => return b
  | 0, b, some _, _ => if b.remaining_size = 0 then return b else .error .diverges
  | fuel + 1, b, some handle, current_addr =>
    if b.remaining_size = 0 then return b
    else do
      let area ← deref (b.map.get? handle)
      if area.dma_type ≠ want then
        backFrom want retype exec mapped_addr fuel b ((b.map.next? handle).map (·.1)) current_addr
      else
        let size_to_map := min b.remaining_size area.size
        let (map, new_handle) ← carvePhysArea b.map area.base size_to_map
        let new_area ← deref (map.get? new_handle)
        let new_area := retype new_area
        let map := map.insert new_handle new_area
        let (phys_areas, _) ← mergeAdjacentPhys
          (b.phys_areas.insert (current_addr - mapped_addr) new_area) (current_addr - mapped_addr)
        let (map, handle) ← mergeAdjacentPhys map new_handle
        backFrom want retype exec mapped_addr fuel
          { map, phys_areas
            calls := .map current_addr size_to_map new_area.base exec :: b.calls
            remaining_size := b.remaining_size - size_to_map }
          ((map.next? handle).map (·.1)) (current_addr + size_to_map)

/-- `backFrom` from the first area. -/
def backRange (want : PhysicalMemoryType) (retype : PhysicalMemoryArea → PhysicalMemoryArea)
    (exec : Bool) (mapped_addr size : ℕ) (map : PhysMap) (calls : List HostCall) : Except Fault Backing :=
  backFrom want retype exec mapped_addr ((map.last?.map (·.1)).getD 0 + 1)
    { map, phys_areas := .empty, calls, remaining_size := size } (map.first?.map (·.1)) mapped_addr

/-- The flexible branch of `MapMemory`. -/
def mapFlexible (mapped_addr size : ℕ) (is_exec : Bool) : Except Fault MemoryManager := do
  let b ← backRange .free (fun area => { area with dma_type := .flexible }) is_exec mapped_addr size
    s.fmem_map s.impl.calls
  require .mapPhysical (b.remaining_size = 0)
  let vma ← deref (s.vma_map.get? mapped_addr)
  return { s with
    fmem_map := b.map
    vma_map := s.vma_map.insert mapped_addr { vma with phys_areas := b.phys_areas }
    impl := { s.impl with calls := b.calls }
    flexible_usage := add64 s.flexible_usage (size - b.remaining_size) }

/-- The loop of the direct branch of `MapMemory`. -/
def mapDirectFrom (phys_addr : ℕ) : ℕ → PhysMap → PhysMap → ℕ → ℕ → Except Fault (PhysMap × PhysMap)
  | 0, dmem_map, phys_areas, _, remaining_size =>
    if remaining_size = 0 then return (dmem_map, phys_areas) else .error .diverges
  | fuel + 1, dmem_map, phys_areas, current_phys_addr, remaining_size =>
    if remaining_size = 0 then return (dmem_map, phys_areas)
    else do
      let (_, dmem_area) ← deref (dmem_map.floor? current_phys_addr)
      let start_phys_addr := max current_phys_addr dmem_area.base
      let offset_in_dma := start_phys_addr - dmem_area.base
      let size_in_dma := min (sub64 dmem_area.size offset_in_dma) remaining_size
      let (dmem_map, dmem_handle) ← carvePhysArea dmem_map start_phys_addr size_in_dma
      let new_dmem_area ← deref (dmem_map.get? dmem_handle)
      let new_dmem_area := { new_dmem_area with dma_type := .mapped }
      let dmem_map := dmem_map.insert dmem_handle new_dmem_area
      let offset_in_vma := current_phys_addr - phys_addr
      let (phys_areas, _) ←
        mergeAdjacentPhys (phys_areas.insert offset_in_vma new_dmem_area) offset_in_vma
      let (dmem_map, _) ← mergeAdjacentPhys dmem_map dmem_handle
      mapDirectFrom phys_addr fuel dmem_map phys_areas (add64 current_phys_addr size_in_dma)
        (remaining_size - size_in_dma)

/-- The direct branch of `MapMemory`. -/
def mapDirect (mapped_addr size phys_addr : ℕ) : Except Fault MemoryManager := do
  let (dmem_map, phys_areas) ← mapDirectFrom phys_addr size s.dmem_map .empty phys_addr size
  let vma ← deref (s.vma_map.get? mapped_addr)
  return { s with dmem_map, vma_map := s.vma_map.insert mapped_addr { vma with phys_areas } }

abbrev fw200 : ℕ := 0x2000000

/-- The part of `MapMemory` that backs the new area with physical memory. -/
def mapBacking (mapped_addr size : ℕ) (is_exec : Bool) (type : VMAType)
    (phys_addr : ℕ) : Except Fault MemoryManager :=
  if type = .flexible then s.mapFlexible mapped_addr size is_exec
  else if type = .direct then s.mapDirect mapped_addr size phys_addr
  else pure s

/-- The part of `MapMemory` that merges the new area with its neighbours, which old SDK versions do
not do for direct memory. -/
def mergeMapped (mapped_addr : ℕ) (type : VMAType) : Except Fault MemoryManager := do
  if type ≠ .direct ∨ fw200 ≤ s.sdk_version then
    let (vma_map, _) ← mergeAdjacentVMA s.vma_map mapped_addr
    return { s with vma_map }
  else return s

/-- `MapMemory` from the point where the address is settled. The second result is `*out_addr`. -/
def mapAt (virtual_addr size : ℕ) (prot : MemoryProt) (flags : MemoryMapFlags)
    (type : VMAType) (name : String) (phys_addr : ℕ) : Except Fault (MemoryManager × ℕ) := do
  let (s, mapped_addr) ← s.createArea virtual_addr size prot flags type name
  let is_exec := anySet (prot &&& MemoryProt.cpuExec)
  let s ← s.mapBacking mapped_addr size is_exec type phys_addr
  let s ← s.mergeMapped mapped_addr type
  if type ≠ .reserved ∧ type ≠ .poolReserved ∧ type ≠ .flexible then
    return (s.host (.map mapped_addr size phys_addr is_exec), mapped_addr)
  else return (s, mapped_addr)

/-- The walk of `MapMemory` over the areas of a requested physical range: the error, if any. -/
def validateDmem (validate_dmem : Bool) (phys_end : ℕ) : List (ℕ × PhysicalMemoryArea) → Option Orbis
  | [] => none
  | (_, dmem_area) :: rest =>
    if phys_end ≤ dmem_area.base then none
    else if dmem_area.dma_type ≠ .allocated ∧ dmem_area.dma_type ≠ .mapped then some .enomem
    else if validate_dmem = true ∧ dmem_area.dma_type = .mapped then some .ebusy
    else validateDmem validate_dmem phys_end rest

/-- The checks of `MapMemory` on the amount of flexible memory and on the physical range: the error,
if any. -/
def checkPhysical (size : ℕ) (type : VMAType) (validate_dmem : Bool)
    (phys_addr : ℕ) : Except Fault (Option Orbis) := do
  if type = .flexible ∧ s.total_flexible_size < add64 s.flexible_usage size then return some .einval
  else if phys_addr = minusOne then return none
  else if s.total_direct_size < add64 phys_addr size then return some .enomem
  else
    let (dmem_area, _) ← s.findDmemArea phys_addr
    return validateDmem validate_dmem (add64 phys_addr size) (s.dmem_map.tailFrom dmem_area)

/-- How `MapMemory` and `MapFile` settle the virtual address. The result `none` is `ENOMEM`. -/
def placeMapping (virtual_addr size : ℕ) (flags : MemoryMapFlags)
    (alignment : ℕ) : Except Fault (Option ℕ) := do
  if anySet (flags &&& MemoryMapFlags.fixed) then
    if anySet (flags &&& MemoryMapFlags.noOverwrite) then
      if ← s.isValidMapping virtual_addr size then
        let (_, vma) ← s.findVMA virtual_addr
        let remaining_size := sub64 (vma.base + vma.size) virtual_addr
        if vma.type ≠ .free ∨ remaining_size < size then return none
        else return some virtual_addr
      else return none
    else return some virtual_addr
  else
    let alignment := if 0 < alignment then alignment else kb16
    let virtual_addr := if virtual_addr = 0 then 0x200000000 else virtual_addr
    s.searchFree virtual_addr size alignment

/-- `MapMemory`. The last result is `*out_addr`, which an error leaves alone. -/
def mapMemory (virtual_addr size : ℕ) (prot : MemoryProt)
    (flags : MemoryMapFlags) (type : VMAType) (name : String) (validate_dmem : Bool)
    (phys_addr alignment : ℕ) : Except Fault (MemoryManager × Orbis × Option ℕ) := do
  match ← s.checkPhysical size type validate_dmem phys_addr with
  | some error => return (s, error, none)
  | none =>
    match ← s.placeMapping virtual_addr size flags alignment with
    | none => return (s, .enomem, none)
    | some virtual_addr =>
      let (s, mapped_addr) ← s.mapAt virtual_addr size prot flags type name phys_addr
      return (s, .ok, some mapped_addr)

/-- What `MapFile` learns of the file that it maps. -/
inductive MappedFile
  /-- There is no such file, or it is not a regular one. -/
  | invalid
  /-- A file of the host, which `map_native` maps. -/
  | host (writable : Bool)
  /-- A file of an archive, which `map_anonymous` and `protect` map when it is open. -/
  | archive (isOpen : Bool)
deriving DecidableEq

/-- The permissions that `map_ctx.protect` applies to an archive's pages. -/
def archivePermissions (prot : MemoryProt) : MemoryPermission :=
  (if anySet (prot &&& MemoryProt.cpuRead) then MemoryPermission.read else 0) |||
    (if anySet (prot &&& MemoryProt.cpuReadWrite) then MemoryPermission.readWrite else 0) |||
    (if anySet (prot &&& MemoryProt.cpuExec) then MemoryPermission.execute else 0)

/-- The host calls that the file's backend makes for a mapping, newest first. -/
def fileCalls (file : MappedFile) (mapped_addr size : ℕ) (offset : ℤ) (prot : MemoryProt) : List HostCall :=
  match file with
  | .archive true =>
    [.protect mapped_addr size (archivePermissions prot),
      .mapFile mapped_addr size (-1) MemoryProt.cpuReadWrite]
  | .host _ => [.mapFile mapped_addr size offset prot]
  | _ => []

/-- The protection that `MapFile` gives a mapping before it checks it: read is appended to write,
and write is dropped for a file that cannot be written. -/
def fileProt (file : MappedFile) (prot : MemoryProt) : MemoryProt :=
  match file with
  | .host true => appendRead prot
  | _ => appendRead prot &&& ~~~MemoryProt.cpuWrite

def mapFile (virtual_addr size : ℕ) (prot : MemoryProt)
    (flags : MemoryMapFlags) (fd : ℤ) (file : MappedFile) (phys_addr : ℤ) :
    Except Fault (MemoryManager × Orbis × Option ℕ) := do
  if file = .invalid then return (s, .ebadf, none)
  else
    let prot := fileProt file prot
    require .fileToGpu (prot < MemoryProt.gpuRead)
    let prot := prot &&& ~~~MemoryProt.cpuExec
    match ← s.placeMapping virtual_addr size flags kb16 with
    | none => return (s, .enomem, none)
    | some virtual_addr =>
      let (s, mapped_addr) ← s.createArea virtual_addr size prot flags .file "anon"
      let vma ← deref (s.vma_map.get? mapped_addr)
      let s := { s with vma_map := s.vma_map.insert mapped_addr { vma with fd } }
      return ({ s with impl := { s.impl with
        calls := fileCalls file mapped_addr size phys_addr prot ++ s.impl.calls } },
        .ok, some mapped_addr)

end ShadPS4.Memory.MemoryManager
