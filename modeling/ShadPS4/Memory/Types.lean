import ShadPS4.Lib.Machine
import ShadPS4.Lib.Extent

/-!
# The memory manager's data

The types of `src/core/memory.h` and `src/core/address_space.h`: physical areas, virtual areas, the calls that
reach the host address space, and the state of `MemoryManager`.
-/

namespace ShadPS4

/-- `Common::AlignUp`, which wraps as the source's unsigned sum does. -/
def alignUp (value size : ℕ) : ℕ :=
  let mod := value % size
  if mod = 0 then value else add64 (value - mod) size

theorem alignUp_lt (h : value < 2^64) : alignUp value alignment < 2^64 := by
  unfold alignUp
  simp only
  split_ifs
  · exact h
  · exact add64_lt _ _

theorem le_alignUp (h : value < 2^63) (hpos : 0 < alignment) (ha : alignment < 2^64) :
    value ≤ alignUp value alignment := by
  unfold alignUp
  simp only
  split_ifs with hm
  · exact le_rfl
  · have hmod := Nat.mod_lt value hpos
    have hlt : value - value % alignment + alignment < 2^64 := by
      rcases Nat.lt_or_ge value alignment with hva | hva
      · rw [Nat.mod_eq_of_lt hva]
        omega
      · omega
    rw [add64_of_lt hlt]
    omega

def alignDown (value size : ℕ) : ℕ := value - value % size

/-- `16_KB`. -/
abbrev kb16 : ℕ := 0x4000

/-- `64_KB`. -/
abbrev kb64 : ℕ := 0x10000

abbrev mb : ℕ := 0x100000

/-- The value `-1` of an unsigned 64-bit address. -/
abbrev minusOne : ℕ := 2^64 - 1

namespace Memory

/-- The assertions of the memory manager, by the message that they fail with. -/
inductive Assertion
  | invalidAddress
  /-- "Adding a mapping to already mapped region", in `CarveVMA`. -/
  | carveVMABase
  /-- "Mapping cannot fit inside free region", in `CarveVMA`. -/
  | carveVMAFit
  | carvePhysAddress
  /-- "Adding an allocation to already allocated region", in `CarvePhysArea`. -/
  | carvePhysBase
  /-- "Mapping cannot fit inside free region", in `CarvePhysArea`. -/
  | carvePhysFit
  | splitVMA
  | splitPhys
  | vmaNotFree
  | mapPhysical
  | unmapPhysical
  | unmapProgress
  | commitPooled
  | decommitPooled
  | fileToGpu
  | shrinkFlexible
  | shrinkDmem
deriving DecidableEq

/-- Why a call does not return. -/
inductive Fault
  | assertion (a : Assertion)
  /-- An iterator that names no element was dereferenced, or a division by zero was made. -/
  | undefined
  | diverges
deriving DecidableEq

/-- `ASSERT_MSG`. -/
def require (a : Assertion) (c : Prop) [Decidable c] : Except Fault Unit :=
  if c then .ok () else .error (.assertion a)

theorem require_eq_ok [Decidable c] : require a c = .ok u ↔ c := by
  unfold require
  split_ifs with h <;> simp [h]

theorem require_eq_error [Decidable c] : require a c = .error e ↔ ¬ c ∧ e = .assertion a := by
  unfold require
  split_ifs with h <;> simp [h, eq_comm]

def deref {α : Type} : Option α → Except Fault α
  | some a => .ok a
  | none => .error .undefined

theorem deref_eq_ok : deref o = .ok a ↔ o = some a := by
  cases o <;> simp [deref]

theorem deref_eq_error : deref o = .error e ↔ o = none ∧ e = .undefined := by
  cases o <;> simp [deref, eq_comm]

/-- The codes that the calls return: `ORBIS_OK` and the `ORBIS_KERNEL_ERROR_` codes. -/
inductive Orbis
  | ok
  | enoent
  | ebadf
  | enomem
  | ebusy
  | einval
  /-- A negative count that `Protect` passes on as its result. -/
  | negative
deriving DecidableEq

/-- `MemoryProt`: a set of protection bits. -/
abbrev MemoryProt := BitVec 32

namespace MemoryProt
abbrev noAccess : MemoryProt := 0
abbrev cpuRead : MemoryProt := 1
abbrev cpuWrite : MemoryProt := 2
abbrev cpuReadWrite : MemoryProt := 3
abbrev cpuExec : MemoryProt := 4
abbrev gpuRead : MemoryProt := 16
abbrev gpuWrite : MemoryProt := 32
abbrev gpuReadWrite : MemoryProt := 48
end MemoryProt

/-- `MemoryMapFlags`: a set of mapping flags. -/
abbrev MemoryMapFlags := BitVec 32

namespace MemoryMapFlags
abbrev fixed : MemoryMapFlags := 0x10
abbrev noOverwrite : MemoryMapFlags := 0x80
abbrev noCoalesce : MemoryMapFlags := 0x400000
end MemoryMapFlags

/-- `MemoryPermission`: what the host address space is asked to permit. -/
abbrev MemoryPermission := BitVec 32

namespace MemoryPermission
abbrev none : MemoryPermission := 0
abbrev read : MemoryPermission := 1
abbrev write : MemoryPermission := 2
abbrev readWrite : MemoryPermission := 3
abbrev execute : MemoryPermission := 4
abbrev readWriteExecute : MemoryPermission := 7
end MemoryPermission

/-- `True` of a flag set: some bit is set. -/
def anySet (flags : BitVec 32) : Bool := flags != 0

/-- `prot` with read added to write, as PS4 mappings have it. -/
def appendRead (prot : MemoryProt) : MemoryProt :=
  if anySet (prot &&& MemoryProt.cpuWrite) then prot ||| MemoryProt.cpuRead else prot

/-! ## Areas -/

inductive PhysicalMemoryType
  | free
  | allocated
  | mapped
  | pooled
  | committed
  | flexible
deriving DecidableEq

structure PhysicalMemoryArea where
  /-- The physical address of the first byte. -/
  base : ℕ
  size : ℕ
  memory_type : ℤ := 0
  dma_type : PhysicalMemoryType := .free
deriving DecidableEq

namespace PhysicalMemoryArea

def getEnd (area : PhysicalMemoryArea) : ℕ := area.base + area.size

/-- `CanMergeWith`: `next` continues the area and has the same types. -/
def canMergeWith (area next : PhysicalMemoryArea) : Bool :=
  area.base + area.size = next.base ∧ area.memory_type = next.memory_type ∧
    area.dma_type = next.dma_type

end PhysicalMemoryArea

inductive VMAType
  | free
  | reserved
  | direct
  | flexible
  | pooled
  | poolReserved
  | stack
  | code
  | file
  | system
deriving DecidableEq

namespace VMAType

def HasPhysicalBacking (type : VMAType) : Prop := type = direct ∨ type = flexible ∨ type = pooled

instance (type : VMAType) : Decidable type.HasPhysicalBacking :=
  inferInstanceAs (Decidable (_ ∨ _))

def IsMapped (type : VMAType) : Prop := type ≠ free ∧ type ≠ reserved ∧ type ≠ poolReserved

instance (type : VMAType) : Decidable type.IsMapped := inferInstanceAs (Decidable (_ ∧ _))

end VMAType

/-- A map of physical areas: `dmem_map` and `fmem_map` by physical address, and the `phys_areas` of
a virtual area by offset. -/
abbrev PhysMap := OrdMap PhysicalMemoryArea

structure VirtualMemoryArea where
  /-- The virtual address of the first byte. -/
  base : ℕ
  size : ℕ
  phys_areas : PhysMap := .empty
  type : VMAType := .free
  prot : MemoryProt := MemoryProt.noAccess
  name : String := ""
  /-- The file that is mapped, for a file mapping. -/
  fd : ℤ := 0
  disallow_merge : Bool := false
deriving DecidableEq

namespace VirtualMemoryArea

/-- `Contains`, whose sum of the arguments wraps. -/
def Contains (vma : VirtualMemoryArea) (addr size : ℕ) : Prop :=
  vma.base ≤ addr ∧ add64 addr size ≤ vma.base + vma.size

instance (vma : VirtualMemoryArea) (addr size : ℕ) : Decidable (vma.Contains addr size) :=
  inferInstanceAs (Decidable (_ ∧ _))

/-- The comparison of `CanMergeWith` that direct mappings add: the last physical area of the one and
the first of the other, either of which is read without a check that it exists. -/
def directAdjoin (vma next : VirtualMemoryArea) : Except Fault Bool := do
  let (_, last_phys) ← deref vma.phys_areas.last?
  let (_, first_next_phys) ← deref next.phys_areas.first?
  return last_phys.base + last_phys.size = first_next_phys.base ∧
    last_phys.memory_type = first_next_phys.memory_type

def canMergeWith (vma next : VirtualMemoryArea) : Except Fault Bool := do
  if vma.disallow_merge ∨ next.disallow_merge then
    return false
  else if vma.base + vma.size ≠ next.base then
    return false
  else
    let adjoin ← (if vma.type = .direct ∧ next.type = .direct then vma.directAdjoin next
      else pure true)
    return adjoin ∧ vma.prot = next.prot ∧ vma.type = next.type ∧ vma.name = next.name

end VirtualMemoryArea

abbrev VMAMap := OrdMap VirtualMemoryArea

/-- A call of `AddressSpace` that changes the host's mappings. -/
inductive HostCall
  /-- `Map(virtual_addr, size, phys_addr, exec)`; a `phys_addr` of `-1` maps private memory. -/
  | map (virtual_addr size phys_addr : ℕ) (exec : Bool)
  | mapFile (virtual_addr size : ℕ) (offset : ℤ) (prot : MemoryProt)
  | unmap (virtual_addr size : ℕ)
  | protect (virtual_addr size : ℕ) (perms : MemoryPermission)
deriving DecidableEq

/-- The address lies in `[start, start + size)`. -/
def InRange (start size x : ℕ) : Prop := start ≤ x ∧ x < start + size

instance (start size x : ℕ) : Decidable (InRange start size x) :=
  inferInstanceAs (Decidable (_ ∧ _))

/-- Where the calls issued so far, newest first, map a virtual byte: its physical address, when the
last call that mapped or unmapped it gave it one. -/
def hostPhys : List HostCall → ℕ → Option ℕ
  | [], _ => none
  | .map va size pa _ :: calls, v =>
    if InRange va size v then if pa = minusOne then none else some (pa + (v - va))
    else hostPhys calls v
  | .mapFile va size _ _ :: calls, v => if InRange va size v then none else hostPhys calls v
  | .unmap va size :: calls, v => if InRange va size v then none else hostPhys calls v
  | .protect _ _ _ :: calls, v => hostPhys calls v

/-- `ToWindowsProt` and `ToPosixProt`: what a file mapping permits, which merges the CPU's and the
GPU's bits and adds read to write. -/
def toHostProt (prot : MemoryProt) : MemoryPermission :=
  let write := anySet (prot &&& MemoryProt.cpuWrite) || anySet (prot &&& MemoryProt.gpuWrite)
  let read := anySet (prot &&& MemoryProt.cpuRead) || anySet (prot &&& MemoryProt.gpuRead)
  (if write then MemoryPermission.readWrite else if read then MemoryPermission.read else 0) |||
    (if anySet (prot &&& MemoryProt.cpuExec) then MemoryPermission.execute else 0)

/-- The permission last applied to a virtual byte by the calls issued so far, newest first. -/
def hostPerm : List HostCall → ℕ → MemoryPermission
  | [], _ => MemoryPermission.none
  | .map va size _ exec :: calls, v =>
    if InRange va size v then
      if exec then MemoryPermission.readWriteExecute else MemoryPermission.readWrite
    else hostPerm calls v
  | .mapFile va size _ prot :: calls, v =>
    if InRange va size v then toHostProt prot else hostPerm calls v
  | .unmap va size :: calls, v =>
    if InRange va size v then MemoryPermission.none else hostPerm calls v
  | .protect va size perms :: calls, v => if InRange va size v then perms else hostPerm calls v

/-- `AddressSpace`, as the memory manager sees it: the bounds that address searches use, and the
calls issued so far. -/
structure AddressSpace where
  system_managed_base : ℕ
  user_base : ℕ
  user_size : ℕ
  calls : List HostCall := []
deriving DecidableEq

/-- The state of `MemoryManager`. -/
structure MemoryManager where
  impl : AddressSpace
  dmem_map : PhysMap
  fmem_map : PhysMap
  vma_map : VMAMap
  total_direct_size : ℕ
  total_flexible_size : ℕ
  flexible_usage : ℕ := 0
  pool_budget : ℕ := 0
  /-- The SDK version that the game was compiled for, as the unsigned comparisons read it. -/
  sdk_version : ℕ := 0
deriving DecidableEq

/-- The state after one more call to the host address space. -/
def MemoryManager.host (s : MemoryManager) (call : HostCall) : MemoryManager :=
  { s with impl := { s.impl with calls := call :: s.impl.calls } }

end Memory

end ShadPS4
