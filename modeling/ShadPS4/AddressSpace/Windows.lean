import ShadPS4.Lib.Machine
import ShadPS4.Lib.OrdMap

/-!
# The address space on Windows

`AddressSpace::Impl` of `core/address_space.cpp`, in its Windows form.
-/

namespace ShadPS4.AddressSpace

/-- The page protections, `PAGE_NOACCESS` and the others. -/
inductive PageProt
  | noAccess
  | readOnly
  | readWrite
  | execute
  | executeRead
  | executeReadWrite
deriving DecidableEq

/-- `PAddr(-1)`: no backing. -/
def noPhys : ℕ := uint64Max

structure MemoryRegion where
  base : ℕ
  /-- The offset of its first byte in what backs it. -/
  phys_base : ℕ
  size : ℕ
  prot : PageProt
  fd : ℤ
  /-- Whether it is a mapping, or else a placeholder. -/
  is_mapped : Bool

/-- Why a call does not return. -/
inductive Fault
  /-- An `ASSERT_MSG` failed, or an `UNREACHABLE_MSG` was reached. -/
  | assertion
  /-- An iterator that names no region was dereferenced. -/
  | undefined
  | diverges

/-- `ASSERT_MSG`. -/
def require (c : Prop) [Decidable c] : Except Fault Unit :=
  if c then .ok () else .error .assertion

/-- `ASSERT_MSG(ret, ..)` on what a Win32 call returned. -/
def succeeded {α : Type} : Option α → Except Fault α
  | some a => .ok a
  | none => .error .assertion

/-! ## The process -/

inductive Handle
  /-- `backing_handle`: the section that stands for the physical memory. -/
  | backing_handle
  | file (fd : ℤ)
deriving DecidableEq

/-- What stands behind a page that is not a placeholder. -/
inductive Backing
  /-- A byte of a section or a file, mapped. -/
  | view (handle : Handle) (offset : ℕ)
  /-- Memory of the process's own, and the byte that was read into it, if any. -/
  | own (contents : Option (Handle × ℕ))

structure HostPage where
  /-- Where the allocation or view starts that it belongs to. -/
  alloc_base : ℕ
  alloc_size : ℕ
  backing : Backing
  prot : PageProt

/-- The process: the ranges that it reserved, each a base and a size, and its pages. -/
structure Process where
  reserved : List (ℕ × ℕ)
  page : ℕ → Option HostPage

namespace Process

/-- The range is nonempty, and inside of what the process reserved. -/
def Holds (p : Process) (addr size : ℕ) : Prop :=
  0 < size ∧ ∃ r ∈ p.reserved, r.1 ≤ addr ∧ addr + size ≤ r.1 + r.2

instance (p : Process) (addr size : ℕ) : Decidable (p.Holds addr size) :=
  inferInstanceAs (Decidable (_ ∧ _))

variable (p : Process)

/-- The pages of a range are changed, each by itself. -/
def update (addr size : ℕ) (f : ℕ → Option HostPage → Option HostPage) : Process :=
  { p with page := fun x => if addr ≤ x ∧ x < addr + size then f x (p.page x) else p.page x }

/-- `VirtualAlloc2` in place of a placeholder: memory of the process's own. -/
def virtualAlloc2 (addr size : ℕ) (prot : PageProt) : Option Process :=
  if p.Holds addr size then
    some (p.update addr size fun _ _ => some
      { alloc_base := addr, alloc_size := size, backing := .own none, prot })
  else none

/-- `MapViewOfFile3` in place of a placeholder. -/
def mapViewOfFile3 (handle : Handle) (addr offset size : ℕ) (prot : PageProt) : Option Process :=
  if p.Holds addr size ∧ offset < 2^63 then
    some (p.update addr size fun x _ => some
      { alloc_base := addr, alloc_size := size,
        backing := .view handle (offset + (x - addr)), prot })
  else none

/-- `ReadFile` into memory of the process's own. -/
def readFile (handle : Handle) (addr offset size : ℕ) : Option Process :=
  if p.Holds addr size ∧ offset < 2^63 then
    some (p.update addr size fun x page => page.map fun page =>
      { page with backing := .own (some (handle, offset + (x - addr))) })
  else none

/-- `VirtualProtect` and `VirtualProtectEx`. -/
def virtualProtect (addr size : ℕ) (prot : PageProt) : Option Process :=
  if p.Holds addr size then
    some (p.update addr size fun _ page => page.map fun page => { page with prot })
  else none

/-- `UnmapViewOfFile2` with `MEM_PRESERVE_PLACEHOLDER`: the whole of the view that starts there
becomes a placeholder. -/
def unmapViewOfFile2 (addr : ℕ) : Option Process :=
  match p.page addr with
  | some { alloc_base, alloc_size, backing := .view .., .. } =>
    if alloc_base = addr then some (p.update addr alloc_size fun _ _ => none) else none
  | _ => none

/-- `VirtualFreeEx` with `MEM_RELEASE | MEM_PRESERVE_PLACEHOLDER`: memory of the process's own
becomes a placeholder, and a placeholder is cut at the bounds of the range. -/
def virtualFreeEx (addr size : ℕ) : Option Process :=
  if p.Holds addr size then
    match p.page addr with
    | some { backing := .view .., .. } => none
    | some { backing := .own _, .. } => some (p.update addr size fun _ _ => none)
    | none => some p
  else none

/-- `VirtualFreeEx` with `MEM_RELEASE | MEM_COALESCE_PLACEHOLDERS`: the placeholders of the range
become one. -/
def coalescePlaceholders (addr size : ℕ) : Option Process :=
  if p.Holds addr size ∧ p.page addr = none then some p else none

end Process

def mapRegion (p : Process) (region : MemoryRegion) : Except Fault Process :=
  if region.phys_base ≠ noPhys then
    let backing := if region.fd ≠ -1 then .file region.fd else .backing_handle
    if region.fd ≠ -1 ∧ region.prot = .readOnly then do
      -- A file that is only read is copied into memory of the process's own.
      let p ← succeeded (p.virtualAlloc2 region.base region.size .readWrite)
      let p ← succeeded (p.readFile backing region.base region.phys_base region.size)
      succeeded (p.virtualProtect region.base region.size region.prot)
    else if region.prot = .noAccess then do
      let p ← succeeded
        (p.mapViewOfFile3 backing region.base region.phys_base region.size .readWrite)
      succeeded (p.virtualProtect region.base region.size region.prot)
    else
      succeeded (p.mapViewOfFile3 backing region.base region.phys_base region.size region.prot)
  else
    succeeded (p.virtualAlloc2 region.base region.size region.prot)

def unmapRegion (p : Process) (region : MemoryRegion) : Except Fault Process :=
  if (region.fd ≠ -1 ∧ region.prot ≠ .readOnly) ∨ (region.fd = -1 ∧ region.phys_base ≠ noPhys) then
    succeeded (p.unmapViewOfFile2 region.base)
  else
    succeeded (p.virtualFreeEx region.base region.size)

structure Impl where
  process : Process
  regions : OrdMap MemoryRegion

namespace Impl

/-- The loop of the constructor over the free blocks, each a base and a size. -/
def emplaceFree : List (ℕ × ℕ) → OrdMap MemoryRegion → OrdMap MemoryRegion
  | [], regions => regions
  | (addr, size) :: blocks, regions =>
    let region :=
      { base := addr, phys_base := noPhys, size, prot := .noAccess, fd := -1, is_mapped := false }
    emplaceFree blocks (regions.emplace addr region)

/-- The constructor, over the free blocks that `VirtualQuery` reports: each is reserved, as a
placeholder. -/
def create (blocks : List (ℕ × ℕ)) : Impl where
  process := { reserved := blocks, page := fun _ => none }
  regions := emplaceFree blocks ∅

section

variable (s : Impl)

/-- `std::prev(regions.upper_bound(virtual_addr))`, dereferenced. -/
def containing (virtual_addr : ℕ) : Except Fault (ℕ × MemoryRegion) :=
  match s.regions.floor? virtual_addr with
  | some it => .ok it
  | none => .error .undefined

/-- The region that `SplitRegion` stores for what it takes off a region: it starts at `addr`, which
is `offset` into the region. -/
def remainder (region : MemoryRegion) (addr offset : ℕ) : MemoryRegion where
  base := addr
  phys_base := if region.is_mapped then add64 region.phys_base offset else noPhys
  size := sub64 region.size offset
  prot := region.prot
  fd := region.fd
  is_mapped := region.is_mapped

/-- The first half of `SplitRegion`: the memory before the requested range becomes a region of its own. -/
def splitBefore (it : ℕ) (region : MemoryRegion) (virtual_addr : ℕ) : Except Fault Impl := do
  let base_offset := sub64 virtual_addr region.base
  let next_region := remainder region virtual_addr base_offset
  let region := { region with size := base_offset }
  let process ← succeeded (s.process.virtualFreeEx region.base region.size)
  let process ← (if region.is_mapped then mapRegion process region else pure process)
  pure { process, regions := (s.regions.insert it region).emplace virtual_addr next_region }

/-- The second half of `SplitRegion`: the memory after the requested range becomes a region of its
own. -/
def splitAfter (it : ℕ) (region : MemoryRegion) (size : ℕ) : Except Fault Impl := do
  let next_region_addr := add64 region.base size
  let next_region := remainder region next_region_addr size
  let region := { region with size }
  let regions := (s.regions.insert it region).emplace next_region_addr next_region
  let process ← succeeded (s.process.virtualFreeEx region.base region.size)
  let process ←
    (if region.is_mapped then
      match regions.next? it with
      | some next => mapRegion process next.2
      | none => .error .undefined
    else pure process)
  pure { process, regions }

def splitRegion (virtual_addr size : ℕ) : Except Fault Impl := do
  let (it, region) ← s.containing virtual_addr
  require (add64 virtual_addr size ≤ add64 region.base region.size)
  let process ←
    (if region.is_mapped then do
      require (region.phys_base ≠ noPhys)
      unmapRegion s.process region
    else pure s.process)
  let s : Impl := { s with process }
  let s ← (if region.base ≠ virtual_addr then s.splitBefore it region virtual_addr else pure s)
  -- The region's base matches the requested address from here on.
  let (it, region) ← s.containing virtual_addr
  let s ← (if region.size ≠ size then s.splitAfter it region size else pure s)
  if region.is_mapped then do
    let process ← mapRegion s.process { region with size }
    pure { s with process }
  else pure s

def map (virtual_addr phys_addr size : ℕ) (prot : PageProt) (fd : ℤ) : Except Fault Impl := do
  let (it, region) ← s.containing virtual_addr
  let s ←
    (if it ≠ virtual_addr ∨ region.size ≠ size then s.splitRegion virtual_addr size else pure s)
  let (it, region) ← s.containing virtual_addr
  require (region.is_mapped = false)
  let region := { region with is_mapped := true, phys_base := phys_addr, prot, fd }
  let process ← mapRegion s.process region
  pure { process, regions := s.regions.insert it region }

/-! ## Unmap -/

/-- The loop of `CoalesceFreeRegions` over the regions before `it`, which holds `region`. -/
def coalescePrev : ℕ → OrdMap MemoryRegion → ℕ → MemoryRegion → Bool → OrdMap MemoryRegion × ℕ × MemoryRegion × Bool
  | 0, regions, it, region, can_coalesce => (regions, it, region, can_coalesce)
  | passes + 1, regions, it, region, can_coalesce =>
    match regions.prev? it with
    | some (it_prev, prev) =>
      if prev.is_mapped = false ∧ add64 it_prev prev.size = it then
        let prev := { prev with size := add64 prev.size region.size }
        coalescePrev passes ((regions.insert it_prev prev).erase it) it_prev prev true
      else (regions, it, region, can_coalesce)
    | none => (regions, it, region, can_coalesce)

/-- The loop of `CoalesceFreeRegions` over the regions after `it`. -/
def coalesceNext : ℕ → OrdMap MemoryRegion → ℕ → MemoryRegion → Bool → OrdMap MemoryRegion × MemoryRegion × Bool
  | 0, regions, _, region, can_coalesce => (regions, region, can_coalesce)
  | passes + 1, regions, it, region, can_coalesce =>
    match regions.next? it with
    | some (it_next, next) =>
      if next.is_mapped = false ∧ add64 it region.size = it_next then
        let region := { region with size := add64 region.size next.size }
        coalesceNext passes ((regions.insert it region).erase it_next) it region true
      else (regions, region, can_coalesce)
    | none => (regions, region, can_coalesce)

def coalesceFreeRegions (virtual_addr : ℕ) : Except Fault Impl := do
  let (it, region) ← s.containing virtual_addr
  require (region.is_mapped = false)
  let (regions, it, region, can_coalesce) := coalescePrev it s.regions it region false
  let (regions, region, can_coalesce) :=
    coalesceNext (2^64 - (it + region.size)) regions it region can_coalesce
  if can_coalesce then do
    let process ← succeeded (s.process.coalescePlaceholders it region.size)
    pure { process, regions }
  else pure { s with regions }

/-- A pass of the loop of `Unmap`, with the size that it unmaps. -/
def unmapPass (current_addr remaining_size : ℕ) : Except Fault (Impl × ℕ) := do
  let (_, region) ← s.containing current_addr
  let base_offset := sub64 current_addr region.base
  let size_to_unmap := min (sub64 region.size base_offset) remaining_size
  let s ←
    (if current_addr ≠ region.base ∨ size_to_unmap ≠ region.size then
      s.splitRegion current_addr size_to_unmap
    else pure s)
  let (it, region) ← s.containing current_addr
  let process ← (if region.is_mapped then unmapRegion s.process region else pure s.process)
  let region := { region with is_mapped := false, fd := -1, phys_base := noPhys, prot := .noAccess }
  pure ({ process, regions := s.regions.insert it region }, size_to_unmap)

end

/-- The loop of `Unmap`. -/
def unmapLoop : ℕ → Impl → ℕ → ℕ → Except Fault Impl
  | 0, s, _, _ => pure s
  | passes + 1, s, current_addr, remaining_size =>
    if remaining_size = 0 then pure s
    else do
      let (s, size_to_unmap) ← s.unmapPass current_addr remaining_size
      if size_to_unmap = 0 then .error .diverges
      else unmapLoop passes s (add64 current_addr size_to_unmap) (remaining_size - size_to_unmap)

def unmap (s : Impl) (virtual_addr size : ℕ) : Except Fault Impl := do
  let s ← unmapLoop size s virtual_addr size
  s.coalesceFreeRegions virtual_addr

/-- The flags that `Protect` works out. One is always assigned. -/
def newFlags (read write execute : Bool) : PageProt :=
  if execute then
    if write then .executeReadWrite
    else if read && !write then .executeRead
    else .execute
  else
    if write then .readWrite
    else if read && !write then .readOnly
    else .noAccess

/-- The loop of `Protect`, over the regions from the first one on. -/
def protectLoop (virtual_addr virtual_end : ℕ) (new_flags : PageProt) :
    List (ℕ × MemoryRegion) → Process → Except Fault Process
  | [], _ => .error .undefined
  | (it, region) :: regions, process =>
    if it < virtual_end then
      if region.is_mapped then do
        let range_addr := max region.base virtual_addr
        let range_size := sub64 (min (add64 region.base region.size) virtual_end) range_addr
        let process ← succeeded (process.virtualProtect range_addr range_size new_flags)
        protectLoop virtual_addr virtual_end new_flags regions process
      else protectLoop virtual_addr virtual_end new_flags regions process
    else pure process

def protect (s : Impl) (virtual_addr size : ℕ) (read write execute : Bool) : Except Fault Impl := do
  let (it, _) ← s.containing virtual_addr
  let process ← protectLoop virtual_addr (add64 virtual_addr size) (newFlags read write execute)
    (s.regions.tailFrom it) s.process
  pure { s with process }

end Impl

end ShadPS4.AddressSpace
