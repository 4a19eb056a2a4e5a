import Mathlib.Tactic.Ring
import Mathlib.Data.List.Forall2

/-!
# Shared memory in a buffer

When the host has too little shared memory, or none with the types that a program uses, each workgroup
has a part of a buffer instead, and the accesses of shared memory are rewritten.
-/

namespace ShadPS4.IR.SharedToStorage

open BitVec (ofNat lt_def eq_of_toNat_eq)

inductive Kind
  | load | write | iAdd | iSub | sMin | uMin | sMax | uMax | inc | dec | and | or | xor
deriving DecidableEq

inductive Width
  | u16 | u32 | u64
deriving DecidableEq

/-- An opcode, such as `LoadSharedU16` or `SharedAtomicXor64`, or one of a buffer. -/
abbrev Opcode := Kind × Width

/-- The access has an operand besides the offset. -/
def Kind.hasValue : Kind → Bool
  | .load | .inc | .dec => false
  | _ => true

inductive Address (α : Type)
  | arg (value : α)
  | workgroupIndex
  | imm32 (value : BitVec 32)
  | iMul (a b : Address α)
  | iAdd (a b : Address α)

def Address.eval {α : Type} (values : α → BitVec 32) (workgroup_index : BitVec 32) : Address α → BitVec 32
  | .arg value => values value
  | .workgroupIndex => workgroup_index
  | .imm32 value => value
  | .iMul a b => a.eval values workgroup_index * b.eval values workgroup_index
  | .iAdd a b => a.eval values workgroup_index + b.eval values workgroup_index

inductive Inst (α : Type)
  | shared (opcode : Opcode) (offset value : α)
  | buffer (opcode : Opcode) (handle : ℕ) (address : Address α) (value : Option α)
  | other (number : ℕ)

def isSharedAccess : Opcode → Bool
  | (.load, _) | (.write, _) => true
  | (_, .u32) | (_, .u64) => true
  | _ => false

def Inst.isAccess {α : Type} : Inst α → Bool
  | .shared opcode _ _ => isSharedAccess opcode
  | _ => false

/-- `IREmitter::BufferAtomicIAdd`, `BufferAtomicIMin` and `BufferAtomicIMax`, by the type of the value. -/
def bufferAtomic (kind : Kind) : Width → Option Opcode
  | .u32 => some (kind, .u32)
  | .u64 => some (kind, .u64)
  | .u16 => none

/-- The opcodes of the switch, which ends in `UNREACHABLE`. A value has the type of its opcode. -/
def rewriteOpcode (opcode : Opcode) : Option Opcode :=
  match opcode with
  | (.iAdd, .u32) | (.iAdd, .u64) => bufferAtomic .iAdd opcode.2
  | (.iSub, .u32) | (.iSub, .u64) => some (.iSub, .u32)
  | (.sMin, .u32) | (.sMin, .u64) => bufferAtomic .sMin opcode.2
  | (.uMin, .u32) | (.uMin, .u64) => bufferAtomic .uMin opcode.2
  | (.sMax, .u32) | (.sMax, .u64) => bufferAtomic .sMax opcode.2
  | (.uMax, .u32) | (.uMax, .u64) => bufferAtomic .uMax opcode.2
  | (.inc, .u32) => some (.inc, .u32)
  | (.dec, .u32) => some (.dec, .u32)
  | (.and, .u32) | (.and, .u64) => some (.and, .u32)
  | (.or, .u32) | (.or, .u64) => some (.or, .u32)
  | (.xor, .u32) | (.xor, .u64) => some (.xor, .u32)
  | (.load, width) => some (.load, width)
  | (.write, width) => some (.write, width)
  | _ => none

def rewrite {α : Type} (binding : ℕ) (shared_memory_size : BitVec 32) : Inst α → Option (Inst α)
  | .shared opcode offset value =>
    if isSharedAccess opcode then
      (rewriteOpcode opcode).map fun opcode =>
        .buffer opcode binding (.iAdd (.arg offset) (.iMul .workgroupIndex (.imm32 shared_memory_size)))
          (if opcode.1.hasValue then some value else none)
    else some (.shared opcode offset value)
  | inst => some inst

/-- A program, what it is to run with, and the host. -/
structure Setup (α : Type) where
  insts : List (Inst α)
  compute : Bool
  buffers : ℕ
  shared_memory_size : BitVec 32
  max_shared_memory_size : ℕ
  supports_workgroup_explicit_memory_layout : Bool

variable {α : Type} {p : Setup α} {insts : List (Inst α)} {opcode : Opcode}

/-- `CalculateSharedMemoryTypes`. -/
def Setup.usedTypes (p : Setup α) : List Width :=
  [.u16, .u32, .u64].filter fun width => p.insts.any fun inst =>
    match inst with
    | .shared opcode _ _ => isSharedAccess opcode && opcode.2 = width
    | _ => false

def Setup.needed (p : Setup α) : Bool :=
  p.compute && !(p.usedTypes.isEmpty || (p.shared_memory_size.toNat ≤ p.max_shared_memory_size &&
    (p.supports_workgroup_explicit_memory_layout || p.usedTypes.length = 1)))

/-- `SharedMemoryToStoragePass`. -/
def Setup.pass (p : Setup α) : Option (List (Inst α)) :=
  if p.needed then p.insts.mapM (rewrite p.buffers p.shared_memory_size) else some p.insts

/-! ## What the pass is for -/

/-- The access of a buffer that an access of shared memory is to become: the same operation on the same
operands, at the offset within the part of the workgroup. -/
def Becomes (p : Setup α) : Inst α → Inst α → Prop
  | .shared opcode offset value, inst =>
    if isSharedAccess opcode then
      ∃ address, inst = .buffer opcode p.buffers address (if opcode.1.hasValue then some value else none) ∧
        ∀ values workgroup_index, address.eval values workgroup_index =
          workgroup_index * p.shared_memory_size + values offset
    else inst = .shared opcode offset value
  | inst, inst' => inst' = inst

/-- The parts of some workgroups are apart, and an address of a part has one offset. -/
def Apart (size : BitVec 32) (workgroups : ℕ) : Prop :=
  ∀ w w' offset offset' : BitVec 32, w.toNat < workgroups → w'.toNat < workgroups → offset < size →
    offset' < size → w * size + offset = w' * size + offset' → w = w' ∧ offset = offset'

def lacking : List Opcode :=
  [(.iSub, .u64), (.inc, .u64), (.dec, .u64), (.and, .u64), (.or, .u64), (.xor, .u64)]

theorem rewriteOpcode_iff (h : isSharedAccess opcode = true) :
    rewriteOpcode opcode = some opcode ↔ opcode ∉ lacking := by
  obtain ⟨kind, width⟩ := opcode
  cases kind <;> cases width <;> first | decide | cases h

theorem rewrite_iff : (∃ inst', rewrite p.buffers p.shared_memory_size inst = some inst' ∧
    Becomes p inst inst') ↔ ∀ opcode offset value, inst = .shared opcode offset value →
      isSharedAccess opcode = true → opcode ∉ lacking := by
  cases inst with
  | buffer opcode handle address value => exact ⟨fun _ _ _ _ h => (by cases h), fun _ => ⟨_, rfl, rfl⟩⟩
  | other number => exact ⟨fun _ _ _ _ h => (by cases h), fun _ => ⟨_, rfl, rfl⟩⟩
  | shared opcode offset value =>
    unfold rewrite Becomes
    by_cases haccess : isSharedAccess opcode = true
    · simp only [if_pos haccess]
      constructor
      · rintro ⟨inst', hrewrite, address, rfl, -⟩ opcode' offset' value' heq -
        obtain ⟨rfl, -, -⟩ := Inst.shared.inj heq
        obtain ⟨opcode', hopcode, hinst⟩ := Option.map_eq_some_iff.mp hrewrite
        obtain ⟨rfl, -, -, -⟩ := Inst.buffer.inj hinst
        exact (rewriteOpcode_iff haccess).mp hopcode
      · intro h
        have hopcode := (rewriteOpcode_iff haccess).mpr (h opcode offset value rfl haccess)
        rw [hopcode]
        exact ⟨_, rfl, _, rfl, fun values workgroup_index => BitVec.add_comm _ _⟩
    · simp only [if_neg haccess]
      refine ⟨fun _ opcode' offset' value' heq haccess' => ?_, fun _ => ⟨_, rfl, rfl⟩⟩
      obtain ⟨rfl, -, -⟩ := Inst.shared.inj heq
      exact absurd haccess' haccess

theorem mapM_iff {β γ : Type} {f : β → Option γ} {R : β → γ → Prop} {l : List β} :
    (∃ l', l.mapM f = some l' ∧ List.Forall₂ R l l') ↔ ∀ x ∈ l, ∃ y, f x = some y ∧ R x y := by
  induction l with
  | nil => exact ⟨fun _ x hx => absurd hx List.not_mem_nil, fun _ => ⟨[], rfl, .nil⟩⟩
  | cons x l ih =>
    rw [List.forall_mem_cons, ← ih, List.mapM_cons]
    constructor
    · rintro ⟨l', hl, hforall⟩
      obtain ⟨y, hy, hl⟩ := Option.bind_eq_some_iff.mp hl
      obtain ⟨l1, hl1, hl⟩ := Option.bind_eq_some_iff.mp hl
      obtain rfl := Option.some.inj hl
      obtain ⟨hxy, hrest⟩ := List.forall₂_cons.mp hforall
      exact ⟨⟨y, hy, hxy⟩, l1, hl1, hrest⟩
    · rintro ⟨⟨y, hy, hxy⟩, l1, hl1, hrest⟩
      rw [hy, hl1]
      exact ⟨y :: l1, rfl, .cons hxy hrest⟩

theorem apart_iff : Apart size workgroups ↔ min workgroups (2^32) * size.toNat ≤ 2^32 := by
  have hsize := size.isLt
  constructor
  · -- The address that is one too large for 32 bits is that of the first byte.
    intro h
    by_contra hlarge
    have hpos : 0 < size.toNat := Nat.pos_of_ne_zero fun hzero => by rw [hzero] at hlarge; omega
    have hdiv := Nat.div_add_mod (2^32) size.toNat
    have hmod := Nat.mod_lt (2^32) hpos
    have hone : 1 ≤ 2^32 / size.toNat := (Nat.one_le_div_iff hpos).mpr (Nat.le_of_lt hsize)
    have hfew : 2^32 / size.toNat < min workgroups (2^32) := by
      rw [Nat.div_lt_iff_lt_mul hpos]
      omega
    generalize 2^32 / size.toNat = w at *
    generalize 2^32 % size.toNat = offset at *
    have hw : (ofNat 32 w).toNat = w := Nat.mod_eq_of_lt (by omega)
    have hoffset : (ofNat 32 offset).toNat = offset := Nat.mod_eq_of_lt (by omega)
    have hsame := h (ofNat 32 w) 0#32 (ofNat 32 offset) 0#32 (by omega) (by simp; omega)
      (by rw [lt_def, hoffset]; exact hmod) (by rw [lt_def]; simpa using hpos) (by
        apply eq_of_toNat_eq
        rw [BitVec.toNat_add, BitVec.toNat_mul, hw, hoffset, Nat.mod_add_mod, Nat.mul_comm, hdiv]
        simp)
    have hzero := congrArg BitVec.toNat hsame.1
    simp at hzero
    omega
  · intro hfits w w' offset offset' hw hw' hoffset hoffset' heq
    have hplain {w offset : BitVec 32} (hw : w.toNat < workgroups) (hoffset : offset < size) :
        (w * size + offset).toNat = size.toNat * w.toNat + offset.toNat := by
      have hle : (w.toNat + 1) * size.toNat ≤ min workgroups (2^32) * size.toNat :=
        Nat.mul_le_mul_right _ (by have := w.isLt; omega)
      rw [Nat.add_mul] at hle
      have hoffset : offset.toNat < size.toNat := hoffset
      rw [BitVec.toNat_add, BitVec.toNat_mul, Nat.mod_add_mod, Nat.mod_eq_of_lt (by omega), Nat.mul_comm]
    have hsame := congrArg BitVec.toNat heq
    rw [hplain hw hoffset, hplain hw' hoffset'] at hsame
    have hoffset : offset.toNat < size.toNat := hoffset
    have hdiv := congrArg (· / size.toNat) hsame
    have hmod := congrArg (· % size.toNat) hsame
    simp only [Nat.mul_add_div (by omega : 0 < size.toNat), Nat.div_eq_of_lt hoffset,
      Nat.div_eq_of_lt hoffset', Nat.add_zero, Nat.mul_add_mod, Nat.mod_eq_of_lt hoffset,
      Nat.mod_eq_of_lt hoffset'] at hdiv hmod
    exact ⟨eq_of_toNat_eq hdiv, eq_of_toNat_eq hmod⟩

/-- A program with one access, for which the host has too little shared memory. -/
def sample (opcode : Opcode) : Setup ℕ := ⟨[.shared opcode 0 1], true, 3, 0x10000#32, 0x8000, false⟩

end ShadPS4.IR.SharedToStorage
