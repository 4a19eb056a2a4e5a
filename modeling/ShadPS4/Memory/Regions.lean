import ShadPS4.Memory.Manager

/-!
# Operations on mapped ranges

The operations of `MemoryManager` (`src/core/memory.cpp`) that walk a virtual range which is already
mapped or reserved: the commitment and decommitment of pooled memory, the change of protection, the
change of memory type, and the naming of a range.
-/

namespace ShadPS4.Memory.MemoryManager

/-! ## Pooled memory -/

section

variable (s : MemoryManager)

/-- `PoolCommit`. -/
def poolCommit (virtual_addr size : ℕ) (prot : MemoryProt) (mtype : ℤ) :
    Except Fault (MemoryManager × Orbis) := do
  s.requireValid virtual_addr size
  let mapped_addr := alignUp virtual_addr kb64
  let (_, vma) ← s.findVMA mapped_addr
  if vma.type ≠ .poolReserved then return (s, .einval)
  else if ¬ vma.Contains mapped_addr size then return (s, .einval)
  else if s.pool_budget ≤ size then return (s, .enomem)
  else
    let (vma_map, new_vma_handle) ← carveVMA s.vma_map virtual_addr size
    let new_vma ← deref (vma_map.get? new_vma_handle)
    let b ← backRange .pooled
      (fun area => { area with dma_type := .committed, memory_type := mtype }) false mapped_addr size
      s.dmem_map s.impl.calls
    require .commitPooled (b.remaining_size = 0)
    let (vma_map, _) ← mergeAdjacentVMA (vma_map.insert new_vma_handle { new_vma with
      disallow_merge := false, prot := appendRead prot, name := "anon", type := .pooled,
      phys_areas := b.phys_areas }) new_vma_handle
    return ({ s with
      vma_map
      dmem_map := b.map
      impl := { s.impl with calls := b.calls }
      pool_budget := s.pool_budget - size }, .ok)

/-- The search of `PoolDecommit` that checks the range: the areas that end in it are pool memory. -/
def decommitValid (range_end : ℕ) : List (ℕ × VirtualMemoryArea) → Bool
  | [] => true
  | (_, vma) :: rest =>
    if vma.base + vma.size ≤ range_end then
      if vma.type ≠ .poolReserved ∧ vma.type ≠ .pooled then false
      else decommitValid range_end rest
    else true

/-- One turn of the loop of `PoolDecommit` over the physical areas: the bytes
`[phys_addr, phys_addr + size_in_dma)` go back to the pool. -/
def decommitPhys (phys_addr size_in_dma : ℕ) : Except Fault MemoryManager := do
  let (dmem_map, handle) ← carvePhysArea s.dmem_map phys_addr size_in_dma
  let area ← deref (dmem_map.get? handle)
  let (dmem_map, _) ←
    mergeAdjacentPhys (dmem_map.insert handle { area with dma_type := .pooled }) handle
  return { s with dmem_map }

/-- The part of a turn of `PoolDecommit` that gives the physical areas of a committed virtual area
back to the pool, and their size back to the budget. -/
def decommitBacking (vma_base : VirtualMemoryArea)
    (start_in_vma size_in_vma : ℕ) : Except Fault MemoryManager := do
  if vma_base.type = .pooled then
    let (phys_handle, _) ← deref (vma_base.phys_areas.floor? start_in_vma)
    forPhysAreas decommitPhys .decommitPooled start_in_vma
      (vma_base.phys_areas.tailFrom phys_handle) size_in_vma
      { s with pool_budget := add64 s.pool_budget size_in_vma }
  else return s

/-- One turn of the loop of `PoolDecommit` over the virtual areas, on the area found at `current_addr`. -/
def decommitBytes (current_addr : ℕ) (vma_base : VirtualMemoryArea)
    (remaining_size : ℕ) : Except Fault (MemoryManager × ℕ) := do
  let start_in_vma := sub64 current_addr vma_base.base
  let size_in_vma := min remaining_size (sub64 vma_base.size start_in_vma)
  let s ← s.decommitBacking vma_base start_in_vma size_in_vma
  let (vma_map, new_it) ← carveVMA s.vma_map current_addr size_in_vma
  let vma ← deref (vma_map.get? new_it)
  let (vma_map, _) ← mergeAdjacentVMA (vma_map.insert new_it { vma with
    type := .poolReserved, prot := MemoryProt.noAccess, disallow_merge := false, name := "anon",
    phys_areas := .empty }) new_it
  return ({ s with vma_map }, size_in_vma)

end

/-- The loop of `PoolDecommit` over the virtual areas. -/
def decommitLoop : ℕ → MemoryManager → ℕ → ℕ → Except Fault MemoryManager
  | 0, s, _, remaining_size => if remaining_size = 0 then .ok s else .error .diverges
  | fuel + 1, s, current_addr, remaining_size =>
    if remaining_size = 0 then return s
    else do
      let (_, vma_base) ← s.findVMA current_addr
      let (s, size_in_vma) ← s.decommitBytes current_addr vma_base remaining_size
      decommitLoop fuel s (add64 current_addr size_in_vma) (remaining_size - size_in_vma)

def poolDecommit (s : MemoryManager) (virtual_addr size : ℕ) : Except Fault (MemoryManager × Orbis) := do
  s.requireValid virtual_addr size
  let (it, _) ← s.findVMA virtual_addr
  if decommitValid (add64 virtual_addr size) (s.vma_map.tailFrom it) then
    let s ← decommitLoop size s virtual_addr size
    return (s.host (.unmap virtual_addr size), .ok)
  else return (s, .einval)

/-! ## Protection -/

/-- The permissions that `ProtectBytes` computes from a protection. -/
def protPermissions (prot : MemoryProt) : MemoryPermission :=
  (if anySet (prot &&& MemoryProt.cpuRead) then MemoryPermission.read else 0) |||
    (if anySet (prot &&& MemoryProt.cpuReadWrite) then MemoryPermission.readWrite else 0) |||
    (if anySet (prot &&& MemoryProt.cpuExec) then MemoryPermission.execute else 0) |||
    (if anySet (prot &&& MemoryProt.gpuRead) then MemoryPermission.read else 0) |||
    (if anySet (prot &&& MemoryProt.gpuWrite) then MemoryPermission.write else 0) |||
    (if anySet (prot &&& MemoryProt.gpuReadWrite) then MemoryPermission.readWrite else 0)

/-- The protection that `ProtectBytes` stores: execution is hidden from direct memory and from
files. -/
def storedProt (type : VMAType) (prot : MemoryProt) : MemoryProt :=
  if type = .direct ∨ type = .pooled ∨ type = .file then prot &&& ~~~MemoryProt.cpuExec else prot

/-- `ProtectBytes`. The second result is the number of bytes that it accounts for. -/
def protectBytes (s : MemoryManager) (addr : ℕ) (vma_base : VirtualMemoryArea) (size : ℕ)
    (prot : MemoryProt) : Except Fault (MemoryManager × ℕ) := do
  let start_in_vma := sub64 addr vma_base.base
  let adjusted_size := min (sub64 vma_base.size start_in_vma) size
  let old_prot := vma_base.prot
  let new_prot := prot
  if vma_base.type = .free ∨ vma_base.type = .poolReserved then return (s, adjusted_size)
  else
    let prot := appendRead prot
    let perms := protPermissions prot
    let prot := storedProt vma_base.type prot
    let (vma_map, new_it) ← carveVMA s.vma_map addr adjusted_size
    let new_vma ← deref (vma_map.get? new_it)
    let (vma_map, _) ← mergeAdjacentVMA (vma_map.insert new_it { new_vma with prot }) new_it
    let s := { s with vma_map }
    if vma_base.type = .reserved then return (s, adjusted_size)
    else if new_prot ≠ old_prot then return (s.host (.protect addr adjusted_size perms), adjusted_size)
    else return (s, adjusted_size)

/-- The loop of `Protect`. -/
def protectLoop (addr size : ℕ) (prot : MemoryProt) : ℕ → MemoryManager → ℕ → Except Fault (MemoryManager × Orbis)
  | 0, s, protected_bytes => if size ≤ protected_bytes then .ok (s, .ok) else .error .diverges
  | fuel + 1, s, protected_bytes =>
    if protected_bytes < size then do
      let (_, vma_base) ← s.findVMA (add64 addr protected_bytes)
      let protected_bytes := if add64 addr protected_bytes < vma_base.base then
          add64 protected_bytes (vma_base.base - add64 addr protected_bytes)
        else protected_bytes
      let (s, result) ← s.protectBytes (add64 addr protected_bytes) vma_base
        (sub64 size protected_bytes) prot
      if 2^63 ≤ result then return (s, if result % 2^32 = 0 then .ok else .negative)
      else protectLoop addr size prot fuel s (add64 protected_bytes result)
    else return (s, .ok)

/-- `Protect`. The flags that it restricts to the valid ones are not the ones that it applies. -/
def protect (s : MemoryManager) (addr size : ℕ) (prot : MemoryProt) : Except Fault (MemoryManager × Orbis) := do
  if size = 0 then return (s, .ok)
  else
    s.requireValid addr size
    protectLoop addr size prot size s 0

/-! ## Memory types and names -/

/-- The end of a turn of `SetDirectMemoryType` and `NameVirtualRange`: the area is merged with its
neighbours, and the walk goes on to the next area when `current_addr` is past this one. -/
def mergeAdvance (vma_map : VMAMap) (handle current_addr : ℕ) : Except Fault (VMAMap × Option ℕ) := do
  let (vma_map, handle) ← mergeAdjacentVMA vma_map handle
  let vma ← deref (vma_map.get? handle)
  if vma.base + vma.size ≤ current_addr then
    return (vma_map, (vma_map.next? handle).map (·.1))
  else return (vma_map, some handle)

/-- The loop of `SetDirectMemoryType` over the physical areas of a virtual area. -/
def retypeAreas (memory_type : ℤ) : List (ℕ × PhysicalMemoryArea) → PhysMap → Except Fault PhysMap
  | [], dmem_map => return dmem_map
  | (_, area) :: rest, dmem_map => do
    let (dmem_map, dmem_handle) ← carvePhysArea dmem_map area.base area.size
    let dmem_area ← deref (dmem_map.get? dmem_handle)
    retypeAreas memory_type rest (dmem_map.insert dmem_handle { dmem_area with memory_type })

/-- The part of a turn of `SetDirectMemoryType` that changes the range found in one virtual area. -/
def retypeBytes (s : MemoryManager) (vma_handle : ℕ) (vma : VirtualMemoryArea)
    (current_addr size_in_vma : ℕ) (memory_type : ℤ) : Except Fault (MemoryManager × ℕ) := do
  if vma.type = .direct ∨ vma.type = .pooled then
    let (vma_map, vma_handle) ← carveVMA s.vma_map current_addr size_in_vma
    let vma ← deref (vma_map.get? vma_handle)
    let vma_map := vma_map.insert vma_handle { vma with
      phys_areas := vma.phys_areas.mapVal fun area => { area with memory_type } }
    let dmem_map ← retypeAreas memory_type vma.phys_areas.entries s.dmem_map
    return ({ s with vma_map, dmem_map }, vma_handle)
  else return (s, vma_handle)

/-- The loop of `SetDirectMemoryType` over the virtual areas. -/
def setTypeLoop (memory_type : ℤ) : ℕ → MemoryManager → Option ℕ → ℕ → ℕ → Except Fault MemoryManager
  | _, s, none, _, _ => .ok s
  | 0, s, some _, _, remaining_size => if remaining_size = 0 then .ok s else .error .diverges
  | fuel + 1, s, some vma_handle, current_addr, remaining_size =>
    if remaining_size = 0 then return s
    else do
      let vma ← deref (s.vma_map.get? vma_handle)
      let start_in_vma := sub64 current_addr vma.base
      let size_in_vma := min remaining_size (sub64 vma.size start_in_vma)
      let (s, vma_handle) ← s.retypeBytes vma_handle vma current_addr size_in_vma memory_type
      let current_addr := add64 current_addr size_in_vma
      let (vma_map, vma_handle) ← mergeAdvance s.vma_map vma_handle current_addr
      setTypeLoop memory_type fuel { s with vma_map } vma_handle current_addr
        (remaining_size - size_in_vma)

def setDirectMemoryType (s : MemoryManager) (addr size : ℕ) (memory_type : ℤ) :
    Except Fault (MemoryManager × Orbis) := do
  s.requireValid addr size
  let (vma_handle, _) ← s.findVMA addr
  let s ← setTypeLoop memory_type size s (some vma_handle) addr size
  return (s, .ok)

/-- The part of a turn of `NameVirtualRange` that names the range found in one virtual area. -/
def nameBytes (vma_map : VMAMap) (it : ℕ) (vma : VirtualMemoryArea) (current_addr size_in_vma : ℕ)
    (name : String) : Except Fault (VMAMap × ℕ) := do
  if vma.type = .free then return (vma_map, it)
  else if size_in_vma < vma.size then
    let (vma_map, it) ← carveVMA vma_map current_addr size_in_vma
    let new_vma ← deref (vma_map.get? it)
    return (vma_map.insert it { new_vma with name }, it)
  else return (vma_map.insert it { vma with name }, it)

/-- The loop of `NameVirtualRange`. -/
def nameLoop (name : String) : ℕ → MemoryManager → Option ℕ → ℕ → ℕ → Except Fault MemoryManager
  | _, s, none, _, _ => .ok s
  | 0, s, some _, _, remaining_size => if remaining_size = 0 then .ok s else .error .diverges
  | fuel + 1, s, some it, current_addr, remaining_size =>
    if remaining_size = 0 then return s
    else do
      let vma ← deref (s.vma_map.get? it)
      let start_in_vma := sub64 current_addr vma.base
      let size_in_vma := min remaining_size (sub64 vma.size start_in_vma)
      let (vma_map, it) ← nameBytes s.vma_map it vma current_addr size_in_vma name
      let current_addr := add64 current_addr size_in_vma
      let (vma_map, it) ← mergeAdvance vma_map it current_addr
      nameLoop name fuel { s with vma_map } it current_addr (remaining_size - size_in_vma)

def nameVirtualRange (s : MemoryManager) (virtual_addr size : ℕ) (name : String) : Except Fault MemoryManager := do
  let aligned_size := alignUp size kb16
  let aligned_addr := alignDown virtual_addr kb16
  s.requireValid aligned_addr aligned_size
  let (it, _) ← s.findVMA aligned_addr
  nameLoop name aligned_size s (some it) aligned_addr aligned_size

end ShadPS4.Memory.MemoryManager
