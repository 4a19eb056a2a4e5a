import ShadPS4.Lib.Transition
import ShadPS4.Memory.Regions

/-!
# The memory manager as a machine

The constructor of `MemoryManager`, `SetupMemoryRegions`, and the operations as steps of a machine from a
constructed state: what the proofs about every reachable state quantify over.
-/

namespace ShadPS4.Memory

abbrev totalMem : ℕ := 5248 * mb

abbrev totalMemPro : ℕ := 5888 * mb

abbrev totalMemDev : ℕ := 6656 * mb

abbrev totalMemDevPro : ℕ := 7936 * mb

abbrev flexibleMemoryBase : ℕ := 64 * mb

abbrev flexibleMemorySize : ℕ := 512 * mb

def word (z : ℤ) : ℕ := (z % 2^64).toNat

/-- What the memory manager reads of its surroundings: the usable regions of the host address space and the
settings. -/
structure Config where
  /-- `GetUsableRegions`: the lower and the upper bound of each region. -/
  regions : List (ℕ × ℕ)
  /-- No region is empty, and user addresses are below `2^63`. -/
  regions_lt : ∀ r ∈ regions, r.1 < r.2 ∧ r.2 < 2^63
  regions_sorted : regions.Pairwise fun r q => r.2 ≤ q.1
  system_managed_base : ℕ
  user_base : ℕ
  user_size : ℕ
  extra_dmem : ℤ := 0
  extra_fmem : ℤ := 0
  is_neo : Bool := false
  is_devkit : Bool := false
  sdk_version : ℕ := 0
  direct_pos : 0 < word (totalMemDevPro + extra_dmem * mb + extra_fmem * mb)
  flexible_pos : 0 < word (flexibleMemorySize + extra_fmem)
  backing_lt : word (totalMemDevPro + extra_dmem * mb + extra_fmem * mb) +
    word (flexibleMemorySize + extra_fmem) < 2^63

namespace Config

variable (cfg : Config)

def direct_size : ℕ :=
  word (totalMemDevPro + cfg.extra_dmem * mb + cfg.extra_fmem * mb)

/-- The size of flexible memory that the constructor sets, to which the extra size is added as a
number of bytes. -/
def flexible_size : ℕ := word (flexibleMemorySize + cfg.extra_fmem)

def Usable (v : ℕ) : Prop := ∃ r ∈ cfg.regions, r.1 ≤ v ∧ v < r.2

/-- The address lies in the interval of flexible memory that the constructor sets. -/
def InFlexible (x : ℕ) : Prop := InRange cfg.direct_size cfg.flexible_size x

end Config

/-- The virtual areas that the constructor makes of the usable regions. -/
def regionAreas : List (ℕ × ℕ) → VMAMap → VMAMap
  | [], vma_map => vma_map
  | (lower, upper) :: rest, vma_map =>
    regionAreas rest (vma_map.emplace lower { base := lower, size := upper - lower })

namespace MemoryManager

variable (cfg : Config)

def new : MemoryManager where
  impl := {
    system_managed_base := cfg.system_managed_base
    user_base := cfg.user_base
    user_size := cfg.user_size }
  vma_map := regionAreas cfg.regions .empty
  dmem_map := OrdMap.empty.emplace 0 { base := 0, size := cfg.direct_size }
  fmem_map := OrdMap.empty.emplace cfg.direct_size {
    base := cfg.direct_size, size := cfg.flexible_size }
  total_direct_size := cfg.direct_size
  total_flexible_size := cfg.flexible_size
  sdk_version := cfg.sdk_version

/-- The total size that `SetupMemoryRegions` gives direct and flexible memory together. -/
def setupTotalSize (use_extended_mem1 use_extended_mem2 : Bool) : ℕ :=
  let total_size := if cfg.is_devkit then if cfg.is_neo then totalMemDevPro else totalMemDev
    else if cfg.is_neo then totalMemPro else totalMem
  word (total_size + cfg.extra_dmem * mb + cfg.extra_fmem * mb -
    (if !use_extended_mem1 && cfg.is_neo then 256 * mb else 0 : ℕ) -
    (if !use_extended_mem2 && !cfg.is_neo then 128 * mb else 0 : ℕ))

/-- The flexible size that `SetupMemoryRegions` sets, with the extra size in megabytes. -/
def setupFlexibleSize (flexible_size : ℕ) : ℕ :=
  word (flexible_size + cfg.extra_fmem * mb - flexibleMemoryBase)

/-- The direct size that `SetupMemoryRegions` sets. -/
def setupDirectSize (flexible_size : ℕ) (use_extended_mem1 use_extended_mem2 : Bool) : ℕ :=
  sub64 (setupTotalSize cfg use_extended_mem1 use_extended_mem2)
    (word (flexible_size + cfg.extra_fmem * mb))

def setupMemoryRegions (s : MemoryManager) (flexible_size : ℕ)
    (use_extended_mem1 use_extended_mem2 : Bool) : Except Fault MemoryManager := do
  let total_flexible_size := setupFlexibleSize cfg flexible_size
  require .shrinkFlexible (s.flexible_usage ≤ total_flexible_size)
  let total_direct_size := setupDirectSize cfg flexible_size use_extended_mem1 use_extended_mem2
  let lost := sub64 s.total_direct_size total_direct_size
  let (handle, last_dmem_area) ← s.findDmemArea total_direct_size
  require .shrinkDmem (last_dmem_area.dma_type = .free ∧ lost ≤ last_dmem_area.size)
  return { s with
    total_flexible_size, total_direct_size
    dmem_map := s.dmem_map.insert handle { last_dmem_area with size := last_dmem_area.size - lost } }

end MemoryManager

/-- A call of the memory manager that can change its state, with its arguments. -/
inductive Op
  | allocate (search_start search_end size alignment : UInt64) (memory_type : ℤ)
  | free (phys_addr size : UInt64) (is_checked : Bool)
  | poolExpand (search_start search_end size alignment : UInt64)
  | poolCommit (virtual_addr size : UInt64) (prot : MemoryProt) (mtype : ℤ)
  | poolDecommit (virtual_addr size : UInt64)
  | mapMemory (virtual_addr size : UInt64) (prot : MemoryProt) (flags : MemoryMapFlags)
    (type : VMAType) (name : String) (validate_dmem : Bool) (phys_addr alignment : UInt64)
  | mapFile (virtual_addr size : UInt64) (prot : MemoryProt) (flags : MemoryMapFlags) (fd : ℤ)
    (file : MemoryManager.MappedFile) (phys_addr : ℤ)
  | unmapMemory (virtual_addr size : UInt64)
  | protect (addr size : UInt64) (prot : MemoryProt)
  | setDirectMemoryType (addr size : UInt64) (memory_type : ℤ)
  | nameVirtualRange (virtual_addr size : UInt64) (name : String)
  | setupMemoryRegions (flexible_size : UInt64) (use_extended_mem1 use_extended_mem2 : Bool)

namespace Op

/-- The state after a call. -/
def exec (cfg : Config) (s : MemoryManager) : Op → Except Fault MemoryManager
  | allocate start last size alignment type =>
    (·.1) <$> s.allocate start.toNat last.toNat size.toNat alignment.toNat type
  | free addr size is_checked => (·.1) <$> s.free addr.toNat size.toNat is_checked
  | poolExpand start last size alignment =>
    (·.1) <$> s.poolExpand start.toNat last.toNat size.toNat alignment.toNat
  | poolCommit addr size prot mtype => (·.1) <$> s.poolCommit addr.toNat size.toNat prot mtype
  | poolDecommit addr size => (·.1) <$> s.poolDecommit addr.toNat size.toNat
  | mapMemory addr size prot flags type name validate phys alignment =>
    (·.1) <$> s.mapMemory addr.toNat size.toNat prot flags type name validate phys.toNat
      alignment.toNat
  | mapFile addr size prot flags fd file offset =>
    (·.1) <$> s.mapFile addr.toNat size.toNat prot flags fd file offset
  | unmapMemory addr size => (·.1) <$> s.unmapMemory addr.toNat size.toNat
  | protect addr size prot => (·.1) <$> s.protect addr.toNat size.toNat prot
  | setDirectMemoryType addr size type =>
    (·.1) <$> s.setDirectMemoryType addr.toNat size.toNat type
  | nameVirtualRange addr size name => s.nameVirtualRange addr.toNat size.toNat name
  | setupMemoryRegions size mem1 mem2 => s.setupMemoryRegions cfg size.toNat mem1 mem2

/-- The calls that the emulator makes. -/
def Admitted (cfg : Config) (s : MemoryManager) : Op → Prop
  | mapMemory _ _ _ _ type _ _ _ _ => type ≠ .free ∧ type ≠ .pooled
  | setupMemoryRegions size mem1 mem2 =>
    (∀ p ∈ s.dmem_map, p.1 = 0 ∧ p.2.dma_type = .free) ∧
      0 < MemoryManager.setupDirectSize cfg size.toNat mem1 mem2
  | _ => True

end Op

/-- The states that the constructor's is led to by calls that return, each of which the emulator makes
and each of which meets `guard`. -/
def ReachableVia (cfg : Config) (guard : MemoryManager → Op → Prop) : MemoryManager → Prop :=
  Run (· = .new cfg) (fun s op s' => op.exec cfg s = .ok s')
    fun s op => op.Admitted cfg s ∧ guard s op

/-- The states that calls of the emulator lead to. -/
def Reachable (cfg : Config) : MemoryManager → Prop := ReachableVia cfg fun _ _ => True

end ShadPS4.Memory
