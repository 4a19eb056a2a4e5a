import ShadPS4.Memory.System

/-!
# Queries of the memory manager, and the kernel's checks

The operations of `MemoryManager` (`src/core/memory.cpp`) that read its maps, and the functions of
`src/core/libraries/kernel/memory.cpp` that check a guest's arguments before they call it.
-/

namespace ShadPS4.Memory

abbrev gb : ℕ := 0x40000000

/-- The `ORBIS_KERNEL_ERROR_` codes of the kernel's checks and of the queries. -/
inductive KernelError
  | einval
  | eagain
  | enomem
  | eacces
deriving DecidableEq

structure OrbisQueryInfo where
  start : ℕ
  /-- The byte after the last. -/
  end_ : ℕ
  memoryType : ℤ
deriving DecidableEq

namespace MemoryManager

/-- The loop of `ClampRangeSize` over the areas after the first. -/
def clampFrom (size : ℕ) : List (ℕ × VirtualMemoryArea) → ℕ → ℕ
  | [], clamped_size => clamped_size
  | (_, vma) :: rest, clamped_size =>
    if vma.type.IsMapped ∧ clamped_size < size then
      clampFrom size rest (add64 clamped_size vma.size)
    else clamped_size

variable (s : MemoryManager)

def clampRangeSize (virtual_addr size : ℕ) : Except Fault ℕ := do
  if size < gb then return size
  else
    s.requireValid virtual_addr 0
    let (vma_handle, vma) ← s.findVMA virtual_addr
    let clamped_size := sub64 (vma.base + vma.size) virtual_addr
    return min (clampFrom size (s.vma_map.tailFrom (vma_handle + 1)) clamped_size) size

/-- One turn of the loop of `DirectQueryAvailable`: the area is trimmed to what lies in the search
range, and what is left of it replaces the result if it is larger. -/
def queryArea (search_start search_end alignment : ℕ) (best : ℕ × ℕ) (dmem_area : PhysicalMemoryArea) : ℕ × ℕ :=
  if dmem_area.dma_type ≠ .free then best
  else
    let aligned_base := if 0 < alignment then alignUp dmem_area.base alignment else dmem_area.base
    let alignment_size := sub64 aligned_base dmem_area.base
    let remaining_size :=
      if alignment_size ≤ dmem_area.size then dmem_area.size - alignment_size else 0
    let before := search_start - dmem_area.base
    let (remaining_size, aligned_base) := if dmem_area.base < search_start then
        (if before < remaining_size then remaining_size - before else 0,
          if 0 < alignment then alignUp search_start alignment else search_start)
      else (remaining_size, aligned_base)
    let beyond := dmem_area.getEnd - search_end
    let remaining_size := if search_end < dmem_area.getEnd then
        if beyond < remaining_size then remaining_size - beyond else 0
      else remaining_size
    if best.2 < remaining_size then (aligned_base, remaining_size) else best

/-- `DirectQueryAvailable`: `*phys_addr_out` and `*size_out`. -/
def directQueryAvailable (search_start search_end alignment : ℕ) : Except Fault (ℕ × ℕ) := do
  let (dmem_area, _) ← s.findDmemArea search_start
  return (s.dmem_map.tailFrom dmem_area).foldl
    (fun best e => queryArea search_start search_end alignment best e.2) (0, 0)

/-- The second loop of `DirectMemoryQuery`, which stores the end of each area that it passes. -/
def queryEnd (memoryType : ℤ) : List (ℕ × PhysicalMemoryArea) → ℕ → ℕ
  | [], query_end => query_end
  | (_, dmem_area) :: rest, query_end =>
    if dmem_area.memory_type = memoryType ∧
        (dmem_area.dma_type = .mapped ∨ dmem_area.dma_type = .allocated) then
      queryEnd memoryType rest dmem_area.getEnd
    else query_end

/-- `DirectMemoryQuery`, which fills in the structure that the caller passes. -/
def directMemoryQuery (addr : ℕ) (find_next : Bool)
    (out_info : OrbisQueryInfo) : Except Fault (Except KernelError OrbisQueryInfo) := do
  if s.total_direct_size ≤ addr then return .error .eacces
  else
    let (handle, _) ← s.findDmemArea addr
    let areas := s.dmem_map.tailFrom handle
    let areas := if find_next then areas.dropWhile (·.2.dma_type = .free) else areas
    match areas with
    | [] => return .error .eacces
    | (_, dmem_area) :: _ =>
      if dmem_area.dma_type = .free then return .error .eacces
      else return .ok {
        start := dmem_area.base
        end_ := queryEnd dmem_area.memory_type areas out_info.end_
        memoryType := dmem_area.memory_type }

/-- The bytes of the host's backing memory, by physical address. -/
abbrev BackingBytes := ℕ → UInt8

/-- `memcpy(dest, src, count)`, from a buffer that holds the bytes it reads. -/
def memcpy (backing : BackingBytes) (dest : ℕ) (src : List UInt8) (count : ℕ) : BackingBytes :=
  fun x => if InRange dest count x then (src[x - dest]?).getD 0 else backing x

/-- The first loop of `TryWriteBacking`: the areas to write to. -/
def vmasToWrite (virtual_addr size : ℕ) : List (ℕ × VirtualMemoryArea) → Except Fault (List VirtualMemoryArea)
  | [] => .error .undefined
  | (_, vma) :: rest =>
    if virtual_addr < vma.base + vma.size ∧ vma.base < add64 virtual_addr size then
      if vma.type.HasPhysicalBacking then do
        let vmas_to_write ← vmasToWrite virtual_addr size rest
        return vma :: vmas_to_write
      else return []
    else return []

/-- The loop of `TryWriteBacking` over the physical areas of a virtual area. -/
def writeAreas (data : List UInt8) (start_in_vma : ℕ) :
    List (ℕ × PhysicalMemoryArea) → BackingBytes → ℕ → BackingBytes × ℕ
  | [], backing, size => (backing, size)
  | (offset, phys) :: rest, backing, size =>
    if size = 0 then (backing, size)
    else
      let start_in_dma := max start_in_vma offset - offset
      let copy_size := min size (sub64 phys.size start_in_dma)
      writeAreas data start_in_vma rest
        (memcpy backing (phys.base + start_in_dma) data copy_size) (size - copy_size)

/-- The second loop of `TryWriteBacking`. -/
def writeVMAs (virtual_addr : ℕ) (data : List UInt8) :
    List VirtualMemoryArea → BackingBytes → ℕ → Except Fault BackingBytes
  | [], backing, _ => return backing
  | vma :: rest, backing, size => do
    let start_in_vma := max virtual_addr vma.base - vma.base
    let (phys_handle, _) ← deref (vma.phys_areas.floor? start_in_vma)
    let (backing, size) := writeAreas data start_in_vma (vma.phys_areas.tailFrom phys_handle)
      backing size
    writeVMAs virtual_addr data rest backing size

def tryWriteBacking (backing : BackingBytes) (virtual_addr : ℕ)
    (data : List UInt8) (size : ℕ) : Except Fault (BackingBytes × Bool) := do
  s.requireValid virtual_addr size
  let (handle, _) ← s.findVMA virtual_addr
  let vmas_to_write ← vmasToWrite virtual_addr size (s.vma_map.tailFrom handle)
  if vmas_to_write = [] then return (backing, false)
  else
    let backing ← writeVMAs virtual_addr data vmas_to_write backing size
    return (backing, true)

/-! ## The kernel's checks -/

/-- The range that `sceKernelAllocateDirectMemory` and `sceKernelMemoryPoolExpand` are asked to search is
too small. -/
def RangeTooSmall (searchStart searchEnd : ℤ) (len : ℕ) : Prop :=
  searchEnd ≤ searchStart ∨ word searchEnd < len ∨ word (searchEnd - searchStart) < len

instance (searchStart searchEnd : ℤ) (len : ℕ) : Decidable (RangeTooSmall searchStart searchEnd len) :=
  inferInstanceAs (Decidable (_ ∨ _))

/-- The checks of `sceKernelAllocateDirectMemory`. -/
def allocateDirectMemoryError (searchStart searchEnd : ℤ) (len alignment : ℕ) (memoryType : ℤ)
    (physAddrOut : Bool) : Option KernelError :=
  if searchStart < 0 ∨ searchEnd < 0 then some .einval
  else if len = 0 ∨ len % kb16 ≠ 0 then some .einval
  else if alignment ≠ 0 ∧ alignment % kb16 ≠ 0 then some .einval
  else if 10 < memoryType then some .einval
  else if physAddrOut = false then some .einval
  else if RangeTooSmall searchStart searchEnd len then some .eagain
  else none

/-- `sceKernelAllocateDirectMemory`. The second result is `*physAddrOut`. -/
def sceKernelAllocateDirectMemory (searchStart searchEnd : ℤ)
    (len alignment : ℕ) (memoryType : ℤ) (physAddrOut : Bool) : Except Fault (MemoryManager × Except KernelError ℕ) :=
  match allocateDirectMemoryError searchStart searchEnd len alignment memoryType physAddrOut with
  | some error => return (s, .error error)
  | none => do
    let (s, phys_addr) ← s.allocate (word searchStart) (word searchEnd) len alignment memoryType
    return (s, match phys_addr with | some phys_addr => .ok phys_addr | none => .error .eagain)

/-- The checks of `sceKernelMemoryPoolExpand`. -/
def memoryPoolExpandError (searchStart searchEnd len alignment : ℕ) (physAddrOut : Bool) : Option KernelError :=
  if searchEnd ≤ searchStart then some .einval
  else if len = 0 ∨ len % kb64 ≠ 0 then some .einval
  else if alignment ≠ 0 ∧ alignment % kb64 ≠ 0 then some .einval
  else if physAddrOut = false then some .einval
  else if RangeTooSmall searchStart searchEnd len then some .enomem
  else none

/-- `sceKernelMemoryPoolExpand`. The second result is `*physAddrOut`. -/
def sceKernelMemoryPoolExpand (searchStart searchEnd len alignment : ℕ)
    (physAddrOut : Bool) : Except Fault (MemoryManager × Except KernelError ℕ) :=
  match memoryPoolExpandError searchStart searchEnd len alignment physAddrOut with
  | some error => return (s, .error error)
  | none => do
    let (s, phys_addr) ← s.poolExpand searchStart searchEnd len alignment
    return (s, match phys_addr with | some phys_addr => .ok phys_addr | none => .error .enomem)

/-- `sceKernelAvailableDirectMemorySize`: `*physAddrOut` and `*sizeOut`. -/
def sceKernelAvailableDirectMemorySize (searchStart searchEnd alignment : ℕ)
    (physAddrOut sizeOut : Bool) : Except Fault (Except KernelError (ℕ × ℕ)) :=
  if physAddrOut = false ∨ sizeOut = false then return .error .einval
  else do
    let (physAddr, size) ← s.directQueryAvailable searchStart searchEnd alignment
    return if size = 0 then .error .enomem else .ok (physAddr, size)

def sceKernelDirectMemoryQuery (offset : ℕ) (flags : ℤ)
    (query_info : OrbisQueryInfo) : Except Fault (Except KernelError OrbisQueryInfo) :=
  s.directMemoryQuery offset (flags = 1) query_info

def sceKernelMunmap (addr len : ℕ) : Except Fault (MemoryManager × Orbis) :=
  if len = 0 then return (s, .einval) else s.unmapMemory addr len

end MemoryManager

end ShadPS4.Memory
