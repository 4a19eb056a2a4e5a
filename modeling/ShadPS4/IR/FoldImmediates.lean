import ShadPS4.IR.Inst
import ShadPS4.IR.SpirvOps

/-!
# Folds of immediates

The functions that `ConstantPropagation` gives to `FoldWhenAllImmediates` and `FoldCommutative` for the integer and
logical opcodes, and the instructions that the backend emits for the same opcodes.
-/

namespace ShadPS4.IR

namespace Immediate

def asU1 : Immediate → Option Bool
  | u1 value => some value
  | _ => none

/-- `Value::U32`. What a release build reads is the word of the union. -/
def asU32 : Immediate → Option (BitVec 32)
  | u32 value | f32 value => some value
  | _ => none

/-- `Value::U64`. What a release build reads is the word of the union. -/
def asU64 : Immediate → Option (BitVec 64)
  | u64 value | f64 value => some value
  | _ => none

/-- An immediate of `Type::U32`. -/
def ofU32 : Immediate → Option (BitVec 32)
  | u32 value => some value
  | _ => none

/-- An immediate of `Type::U64`. -/
def ofU64 : Immediate → Option (BitVec 64)
  | u64 value => some value
  | _ => none

end Immediate

/-- A function of one operand is applied. -/
def unary {α : Type} (read : Immediate → Option α) (func : α → Option Immediate) : List Immediate → Option Immediate
  | [a] => do func (← read a)
  | _ => none

/-- A function of two operands is applied. -/
def binary {α : Type} (read : Immediate → Option α) (func : α → α → Option Immediate) :
    List Immediate → Option Immediate
  | [a, b] => do func (← read a) (← read b)
  | _ => none

/-- A function of three operands is applied. -/
def ternary {α : Type} (read : Immediate → Option α) (func : α → α → α → Option Immediate) :
    List Immediate → Option Immediate
  | [a, b, c] => do func (← read a) (← read b) (← read c)
  | _ => none

/-- A function of four operands is applied. -/
def quaternary {α : Type} (read : Immediate → Option α)
    (func : α → α → α → α → Option Immediate) : List Immediate → Option Immediate
  | [a, b, c, d] => do func (← read a) (← read b) (← read c) (← read d)
  | _ => none

namespace Host

section

variable (a b : BitVec 32)

/-- `a << b` for 32 bits. -/
def shl : Option (BitVec 32) := if b.toNat < 32 then some (a <<< b.toNat) else none

/-- `a >> b` for `u32`. -/
def shr : Option (BitVec 32) := if b.toNat < 32 then some (a >>> b.toNat) else none

/-- `a >> b` for `s32`. -/
def sar : Option (BitVec 32) :=
  if b.slt 0 ∨ b.toNat ≥ 32 then none else some (a.sshiftRight b.toNat)

/-- `a / b`, and the `ASSERT_MSG` before it. -/
def div : Option (BitVec 32) := if b = 0 then none else some (a / b)

/-- `a % b`, and the `ASSERT_MSG` before it. -/
def mod : Option (BitVec 32) := if b = 0 then none else some (a % b)

end

/-- The loop of `BitReverse32`, with the turns that are left. -/
def reverseBits : ℕ → BitVec 32 → BitVec 32 → BitVec 32
  | 0, _, res => res
  | turns + 1, a, res => reverseBits turns (a >>> 1) (res <<< 1 ||| a &&& 1)

/-- The function of `BitFieldUExtract`. -/
def bitFieldUExtract (base shift count : BitVec 32) : Option (BitVec 32) :=
  if shift.toNat + count.toNat > 32 then none
  else do
    let field ← shr base shift
    let bit ← shl 1 count
    pure (field &&& (bit - 1))

/-- The function of `BitFieldSExtract`. The shifts are of type `size_t`, and `32 - count` of type `u32`. -/
def bitFieldSExtract (base shift count : BitVec 32) : Option (BitVec 32) :=
  let back_shift := shift.toNat + count.toNat
  let left_shift := (2^64 + 32 - back_shift) % 2^64
  let right_shift := (2^32 + 32 - count.toNat) % 2^32
  if back_shift > 32 ∨ left_shift ≥ 32 ∨ right_shift ≥ 32 then none
  else some ((base <<< left_shift).sshiftRight right_shift)

/-- The function of `BitFieldInsert`. -/
def bitFieldInsert (base insert offset bits : BitVec 32) : Option (BitVec 32) :=
  if bits.toNat ≥ 32 ∨ offset.toNat ≥ 32 then none
  else do
    let above ← shl (~~~0) bits
    let mask ← shl (~~~above) offset
    pure (base &&& ~~~mask ||| (← shl insert offset))

end Host

/-! ## Opcodes -/

/-- The integer and logical opcodes that are folded when all operands are immediates. -/
inductive IntegerOp
  | iAdd32 | iSub32 | iMul32 | uDiv32 | uMod32
  | shiftLeftLogical32 | shiftRightLogical32 | shiftRightArithmetic32
  | logicalAnd | logicalOr | logicalNot
  | sLessThan32 | sLessThan64 | uLessThan32 | uLessThan64
  | sLessThanEqual32 | sLessThanEqual64 | uLessThanEqual32 | uLessThanEqual64
  | sGreaterThan32 | sGreaterThan64 | uGreaterThan32 | uGreaterThan64
  | sGreaterThanEqual32 | sGreaterThanEqual64 | uGreaterThanEqual32 | uGreaterThanEqual64
  | iEqual32 | iEqual64 | iNotEqual32 | iNotEqual64
  | bitwiseAnd32 | bitwiseAnd64 | bitwiseOr32 | bitwiseOr64 | bitwiseXor32 | bitwiseNot32
  | bitReverse32 | bitCount32 | bitCount64
  | bitFieldUExtract | bitFieldSExtract | bitFieldInsert
deriving DecidableEq

namespace IntegerOp

open Immediate (asU1 asU32 asU64 ofU32 ofU64)

/-- What `ConstantPropagation` makes of the operands. -/
def fold : IntegerOp → List Immediate → Option Immediate
  | iAdd32 => binary asU32 fun a b => some (.u32 (a + b))
  | iSub32 => binary asU32 fun a b => some (.u32 (a - b))
  | iMul32 => binary asU32 fun a b => some (.u32 (a * b))
  | uDiv32 => binary asU32 fun a b => (Host.div a b).map .u32
  | uMod32 => binary asU32 fun a b => (Host.mod a b).map .u32
  | shiftLeftLogical32 => binary asU32 fun a b => (Host.shl a b).map .u32
  | shiftRightLogical32 => binary asU32 fun a b => (Host.shr a b).map .u32
  | shiftRightArithmetic32 => binary asU32 fun a b => (Host.sar a b).map .u32
  | logicalAnd => binary asU1 fun a b => some (.u1 (a && b))
  | logicalOr => binary asU1 fun a b => some (.u1 (a || b))
  | logicalNot => unary asU1 fun a => some (.u1 !a)
  | sLessThan32 => binary asU32 fun a b => some (.u1 (a.slt b))
  | sLessThan64 => binary asU64 fun a b => some (.u1 (a.slt b))
  | uLessThan32 => binary asU32 fun a b => some (.u1 (a.ult b))
  | uLessThan64 => binary asU64 fun a b => some (.u1 (a.ult b))
  | sLessThanEqual32 => binary asU32 fun a b => some (.u1 (a.sle b))
  | sLessThanEqual64 => binary asU64 fun a b => some (.u1 (a.sle b))
  | uLessThanEqual32 => binary asU32 fun a b => some (.u1 (a.ule b))
  | uLessThanEqual64 => binary asU64 fun a b => some (.u1 (a.ule b))
  | sGreaterThan32 => binary asU32 fun a b => some (.u1 (b.slt a))
  | sGreaterThan64 => binary asU64 fun a b => some (.u1 (b.slt a))
  | uGreaterThan32 => binary asU32 fun a b => some (.u1 (b.ult a))
  | uGreaterThan64 => binary asU64 fun a b => some (.u1 (b.ult a))
  | sGreaterThanEqual32 => binary asU32 fun a b => some (.u1 (b.sle a))
  | sGreaterThanEqual64 => binary asU64 fun a b => some (.u1 (b.sle a))
  | uGreaterThanEqual32 => binary asU32 fun a b => some (.u1 (b.ule a))
  | uGreaterThanEqual64 => binary asU64 fun a b => some (.u1 (b.ule a))
  | iEqual32 => binary asU32 fun a b => some (.u1 (a == b))
  | iEqual64 => binary asU64 fun a b => some (.u1 (a == b))
  | iNotEqual32 => binary asU32 fun a b => some (.u1 (a != b))
  | iNotEqual64 => binary asU64 fun a b => some (.u1 (a != b))
  | bitwiseAnd32 => binary asU32 fun a b => some (.u32 (a &&& b))
  | bitwiseAnd64 => binary asU64 fun a b => some (.u64 (a &&& b))
  | bitwiseOr32 => binary asU32 fun a b => some (.u32 (a ||| b))
  | bitwiseOr64 => binary asU64 fun a b => some (.u64 (a ||| b))
  | bitwiseXor32 => binary asU32 fun a b => some (.u32 (a ^^^ b))
  | bitwiseNot32 => unary asU32 fun a => some (.u32 (~~~a))
  | bitReverse32 => unary asU32 fun a => some (.u32 (Host.reverseBits 32 a 0))
  | bitCount32 => unary asU32 fun a => some (.u32 (BitVec.ofNat 32 (countOnes a)))
  | bitCount64 => unary asU64 fun a => some (.u32 (BitVec.ofNat 32 (countOnes a)))
  | bitFieldUExtract => ternary asU32 fun base shift count =>
      (Host.bitFieldUExtract base shift count).map .u32
  | bitFieldSExtract => ternary asU32 fun base shift count =>
      (Host.bitFieldSExtract base shift count).map .u32
  | bitFieldInsert => quaternary asU32 fun base insert offset bits =>
      (Host.bitFieldInsert base insert offset bits).map .u32

/-- What the instructions compute that the backend emits: `EmitIAdd32` and so on. -/
def emitted : IntegerOp → List Immediate → Option Immediate
  | iAdd32 => binary ofU32 fun a b => some (.u32 (Spirv.iAdd a b))
  | iSub32 => binary ofU32 fun a b => some (.u32 (Spirv.iSub a b))
  | iMul32 => binary ofU32 fun a b => some (.u32 (Spirv.iMul a b))
  | uDiv32 => binary ofU32 fun a b => (Spirv.uDiv a b).map .u32
  | uMod32 => binary ofU32 fun a b => (Spirv.uMod a b).map .u32
  | shiftLeftLogical32 => binary ofU32 fun base shift =>
      (Spirv.shiftLeftLogical base shift).map .u32
  | shiftRightLogical32 => binary ofU32 fun base shift =>
      (Spirv.shiftRightLogical base shift).map .u32
  | shiftRightArithmetic32 => binary ofU32 fun base shift =>
      (Spirv.shiftRightArithmetic base shift).map .u32
  | logicalAnd => binary asU1 fun a b => some (.u1 (decide (a = true ∧ b = true)))
  | logicalOr => binary asU1 fun a b => some (.u1 (decide (a = true ∨ b = true)))
  | logicalNot => unary asU1 fun value => some (.u1 (decide ¬ value = true))
  | sLessThan32 => binary ofU32 fun lhs rhs => some (.u1 (decide (lhs.toInt < rhs.toInt)))
  | sLessThan64 => binary ofU64 fun lhs rhs => some (.u1 (decide (lhs.toInt < rhs.toInt)))
  | uLessThan32 => binary ofU32 fun lhs rhs => some (.u1 (decide (lhs.toNat < rhs.toNat)))
  | uLessThan64 => binary ofU64 fun lhs rhs => some (.u1 (decide (lhs.toNat < rhs.toNat)))
  | sLessThanEqual32 => binary ofU32 fun lhs rhs => some (.u1 (decide (lhs.toInt ≤ rhs.toInt)))
  | sLessThanEqual64 => binary ofU64 fun lhs rhs => some (.u1 (decide (lhs.toInt ≤ rhs.toInt)))
  | uLessThanEqual32 => binary ofU32 fun lhs rhs => some (.u1 (decide (lhs.toNat ≤ rhs.toNat)))
  | uLessThanEqual64 => binary ofU64 fun lhs rhs => some (.u1 (decide (lhs.toNat ≤ rhs.toNat)))
  | sGreaterThan32 => binary ofU32 fun lhs rhs => some (.u1 (decide (lhs.toInt > rhs.toInt)))
  | sGreaterThan64 => binary ofU64 fun lhs rhs => some (.u1 (decide (lhs.toInt > rhs.toInt)))
  | uGreaterThan32 => binary ofU32 fun lhs rhs => some (.u1 (decide (lhs.toNat > rhs.toNat)))
  | uGreaterThan64 => binary ofU64 fun lhs rhs => some (.u1 (decide (lhs.toNat > rhs.toNat)))
  | sGreaterThanEqual32 => binary ofU32 fun lhs rhs => some (.u1 (decide (lhs.toInt ≥ rhs.toInt)))
  | sGreaterThanEqual64 => binary ofU64 fun lhs rhs => some (.u1 (decide (lhs.toInt ≥ rhs.toInt)))
  | uGreaterThanEqual32 => binary ofU32 fun lhs rhs => some (.u1 (decide (lhs.toNat ≥ rhs.toNat)))
  | uGreaterThanEqual64 => binary ofU64 fun lhs rhs => some (.u1 (decide (lhs.toNat ≥ rhs.toNat)))
  | iEqual32 => binary ofU32 fun lhs rhs => some (.u1 (decide (lhs.toNat = rhs.toNat)))
  | iEqual64 => binary ofU64 fun lhs rhs => some (.u1 (decide (lhs.toNat = rhs.toNat)))
  | iNotEqual32 => binary ofU32 fun lhs rhs => some (.u1 (decide (lhs.toNat ≠ rhs.toNat)))
  | iNotEqual64 => binary ofU64 fun lhs rhs => some (.u1 (decide (lhs.toNat ≠ rhs.toNat)))
  | bitwiseAnd32 => binary ofU32 fun a b => some (.u32 (Spirv.bitwiseAnd a b))
  | bitwiseAnd64 => binary ofU64 fun a b => some (.u64 (Spirv.bitwiseAnd a b))
  | bitwiseOr32 => binary ofU32 fun a b => some (.u32 (Spirv.bitwiseOr a b))
  | bitwiseOr64 => binary ofU64 fun a b => some (.u64 (Spirv.bitwiseOr a b))
  | bitwiseXor32 => binary ofU32 fun a b => some (.u32 (Spirv.bitwiseXor a b))
  | bitwiseNot32 => unary ofU32 fun value => some (.u32 (Spirv.not value))
  | bitReverse32 => unary ofU32 fun value => some (.u32 (Spirv.bitReverse value))
  | bitCount32 => unary ofU32 fun value => some (.u32 (Spirv.bitCount value))
  | bitCount64 => unary ofU64 fun value =>
      some (.u32 (Spirv.iAdd (Spirv.bitCount (value.setWidth 32))
        (Spirv.bitCount ((value >>> 32).setWidth 32))))
  | bitFieldUExtract => ternary ofU32 fun base offset count =>
      (Spirv.bitFieldUExtract base offset count).map .u32
  | bitFieldSExtract => ternary ofU32 fun base offset count =>
      (Spirv.bitFieldSExtract base offset count).map .u32
  | bitFieldInsert => quaternary ofU32 fun base insert offset count =>
      (Spirv.bitFieldInsert base insert offset count).map .u32

end IntegerOp

end ShadPS4.IR
