import ShadPS4.IR.FoldImmediates
import ShadPS4.IR.SrtGvnTable

/-!
# `ConstantPropagationPass`

The pass looks at each instruction once, and folds it by its opcode. A fold computes what is made of immediates,
takes an operand in place of the instruction, or changes its operands.
-/

namespace ShadPS4.IR

/-! ## Opcodes -/

/-- The opcode of `opcodes.inc`. -/
def IntegerOp.opcode : IntegerOp → Opcode
  | iAdd32 => .other 315 2
  | iSub32 => .other 318 2
  | iMul32 => .other 320 2
  | uDiv32 => .other 325 2
  | uMod32 => .other 327 2
  | shiftLeftLogical32 => .other 331 2
  | shiftRightLogical32 => .other 333 2
  | shiftRightArithmetic32 => .other 335 2
  | bitwiseAnd32 => .other 337 2
  | bitwiseAnd64 => .other 338 2
  | bitwiseOr32 => .other 339 2
  | bitwiseOr64 => .other 340 2
  | bitwiseXor32 => .other 341 2
  | bitFieldInsert => .other 342 4
  | bitFieldSExtract => .other 343 3
  | bitFieldUExtract => .other 344 3
  | bitReverse32 => .other 345 1
  | bitCount32 => .other 346 1
  | bitCount64 => .other 347 1
  | bitwiseNot32 => .other 348 1
  | sLessThan32 => .other 367 2
  | sLessThan64 => .other 368 2
  | uLessThan32 => .other 369 2
  | uLessThan64 => .other 370 2
  | iEqual32 => .other 371 2
  | iEqual64 => .other 372 2
  | sLessThanEqual32 => .other 373 2
  | sLessThanEqual64 => .other 374 2
  | uLessThanEqual32 => .other 375 2
  | uLessThanEqual64 => .other 376 2
  | sGreaterThan32 => .other 377 2
  | sGreaterThan64 => .other 378 2
  | uGreaterThan32 => .other 379 2
  | uGreaterThan64 => .other 380 2
  | iNotEqual32 => .other 381 2
  | iNotEqual64 => .other 382 2
  | sGreaterThanEqual32 => .other 383 2
  | sGreaterThanEqual64 => .other 384 2
  | uGreaterThanEqual32 => .other 385 2
  | uGreaterThanEqual64 => .other 386 2
  | logicalOr => .other 389 2
  | logicalAnd => .other 390 2
  | logicalNot => .other 392 1

inductive Composite
  | u32x2
  | u32x3
  | u32x4
  | f32x2
  | f32x3
  | f32x4
deriving DecidableEq

namespace Composite

def construct : Composite → Opcode
  | u32x2 => .compositeConstructU32x2
  | u32x3 => .other 159 3
  | u32x4 => .other 160 4
  | f32x2 => .other 171 2
  | f32x3 => .other 172 3
  | f32x4 => .other 173 4

def extract : Composite → Opcode
  | u32x2 => .other 162 2
  | u32x3 => .other 163 2
  | u32x4 => .other 164 2
  | f32x2 => .other 175 2
  | f32x3 => .other 176 2
  | f32x4 => .other 177 2

def insert : Composite → Opcode
  | u32x2 => .other 165 3
  | u32x3 => .other 166 3
  | u32x4 => .other 167 3
  | f32x2 => .other 178 3
  | f32x3 => .other 179 3
  | f32x4 => .other 180 3

end Composite

inductive PackFormat
  | unorm2x16 | snorm2x16 | uint2x16 | sint2x16 | half2x16
  | unorm4x8 | snorm4x8 | uint4x8 | sint4x8
  | ufloat10_11_11
  | unorm2_10_10_10 | snorm2_10_10_10 | uint2_10_10_10 | sint2_10_10_10

def PackFormat.pack : PackFormat → Opcode
  | unorm2x16 => .other 201 1
  | snorm2x16 => .other 203 1
  | uint2x16 => .other 205 1
  | sint2x16 => .other 207 1
  | half2x16 => .other 209 1
  | unorm4x8 => .other 212 1
  | snorm4x8 => .other 214 1
  | uint4x8 => .other 216 1
  | sint4x8 => .other 218 1
  | ufloat10_11_11 => .other 221 1
  | unorm2_10_10_10 => .other 224 1
  | snorm2_10_10_10 => .other 226 1
  | uint2_10_10_10 => .other 228 1
  | sint2_10_10_10 => .other 230 1

def PackFormat.unpack : PackFormat → Opcode
  | unorm2x16 => .other 202 1
  | snorm2x16 => .other 204 1
  | uint2x16 => .other 206 1
  | sint2x16 => .other 208 1
  | half2x16 => .other 210 1
  | unorm4x8 => .other 213 1
  | snorm4x8 => .other 215 1
  | uint4x8 => .other 217 1
  | sint4x8 => .other 219 1
  | ufloat10_11_11 => .other 222 1
  | unorm2_10_10_10 => .other 225 1
  | snorm2_10_10_10 => .other 227 1
  | uint2_10_10_10 => .other 229 1
  | sint2_10_10_10 => .other 231 1

namespace Opcode

def getAttributeU32 : Opcode := .other 77 2
def selectU1 : Opcode := .other 186 3
def selectU32 : Opcode := .other 187 3
def selectF32 : Opcode := .other 188 3
def bitCastU32F32 : Opcode := .other 192 1
def bitCastF32U32 : Opcode := .other 194 1
def packUint2x32 : Opcode := .other 196 1
def unpackUint2x32 : Opcode := .other 197 1
def packDouble2x32 : Opcode := .other 198 1
def unpackDouble2x32 : Opcode := .other 199 1
def fpNeg32 : Opcode := .other 252 1
def fpIsNan32 : Opcode := .other 308 1
def fpIsInf32 : Opcode := .other 310 1
def fpCmpClass32 : Opcode := .other 312 2
def convertF16F32 : Opcode := .other 398 1
def convertF32F16 : Opcode := .other 399 1
def convertF32U32 : Opcode := .other 403 1

end Opcode

namespace Attribute

def renderTargetIndex : ℕ := 66
def sampleIndex : ℕ := 72
def packedAncillary : ℕ := 96

end Attribute

/-! ## Folds -/

def Inst.operands (inst : Inst) : List Value := (List.range inst.numArgs).map inst.arg

/-- The bits of `static_cast<float>(value)`: the value is rounded to the nearest float, and to the even one
of two. -/
def floatOfNat (value : ℕ) : BitVec 32 :=
  let exponent := value.log2
  let mantissa :=
    if exponent ≤ 23 then value <<< (23 - exponent)
    else
      let unit := 2^(exponent - 23)
      let rest := value % unit
      if 2 * rest > unit ∨ 2 * rest = unit ∧ value / unit % 2 = 1 then value / unit + 1 else value / unit
  if value = 0 then 0 else BitVec.ofNat 32 ((exponent + 126) * 2^23 + mantissa)

namespace Program

variable (p : Program)

def instRecursive (value : Value) : Option ℕ := do (← p.resolved value).inst?

def immediate (value : Value) : Option Immediate := do
  match ← p.resolved value with
  | .imm value => some value
  | _ => none

variable (x : ℕ)

def replaceUsesWithAndRemove (replacement : Value) : Option Program :=
  p.replaceUsesWith x replacement false

/-- A new instruction in front of another. -/
def emit (block x : ℕ) (op : Opcode) (args : List Value) : Option (Value × Program) := do
  let p' ← p.prependNewInst block ((p.blocks block).idxOf x) op args 0
  some (.inst p.created, p')

/-- The operand of a commutative instruction that is no immediate, and the immediate of the instruction that
it comes from, when this has the same opcode. -/
def nested (op : Opcode) (value : Value) : Option (Option (Value × Value)) := do
  let inst ← p.instRecursive value
  if (p.insts inst).op = op then
    let immediate ← p.isImmediate ((p.insts inst).arg 1)
    some (if immediate then some ((p.insts inst).arg 0, (p.insts inst).arg 1) else none)
  else some none

/-- `FoldCommutative` when both operands are immediates. -/
def foldBoth (imm_fn : List Immediate → Option Immediate) : Option Program := do
  let result ← imm_fn [← p.immediate ((p.insts x).arg 0), ← p.immediate ((p.insts x).arg 1)]
  p.replaceUsesWithAndRemove x (.imm result)

/-- `FoldCommutative` when an operand comes from an instruction with the same opcode and an immediate: the
instruction is given the operand of that one, and the two immediates in one. -/
def foldNested (imm_fn : List Immediate → Option Immediate) (immediate arg0 arg1 : Value) :
    Option Program := do
  let combined ← imm_fn [← p.immediate immediate, ← p.immediate arg1]
  let p₁ ← p.setArg x 0 arg0
  p₁.setArg x 1 (.imm combined)

/-- `FoldCommutative` when the immediate is to go to the right. -/
def normalize (lhs rhs : Value) : Option Program := do
  let p₁ ← p.setArg x 0 rhs
  p₁.setArg x 1 lhs

/-- `FoldCommutative`. It tells whether the instruction is still there. -/
def foldCommutative (imm_fn : List Immediate → Option Immediate) : Option (Program × Bool) := do
  let lhs := (p.insts x).arg 0
  let rhs := (p.insts x).arg 1
  let is_lhs_immediate ← p.isImmediate lhs
  let is_rhs_immediate ← p.isImmediate rhs
  match is_lhs_immediate, is_rhs_immediate with
  | true, true => (p.foldBoth x imm_fn).map (·, false)
  | true, false =>
    match ← p.nested (p.insts x).op rhs with
    | some (arg0, arg1) => (p.foldNested x imm_fn lhs arg0 arg1).map (·, true)
    | none => (p.normalize x lhs rhs).map (·, true)
  | false, true =>
    match ← p.nested (p.insts x).op lhs with
    | some (arg0, arg1) => (p.foldNested x imm_fn rhs arg0 arg1).map (·, true)
    | none => some (p, true)
  | false, false => some (p, true)

def foldWhenAllImmediates (func : List Immediate → Option Immediate) : Option Program := do
  let immediates ← (p.insts x).operands.mapM p.isImmediate
  if immediates.all id then
    let result ← func (← (p.insts x).operands.mapM p.immediate)
    p.replaceUsesWithAndRemove x (.imm result)
  else some p

/-- The part of the folds of inverse functions for an operand that is no immediate: the operand of the
reverse. -/
def foldReverse (reverse : Opcode) : Option Program := do
  let arg_inst ← p.instRecursive ((p.insts x).arg 0)
  if (p.insts arg_inst).op = reverse then
    p.replaceUsesWithAndRemove x ((p.insts arg_inst).arg 0)
  else some p

/-- `FoldInverseFunc`, and `FoldConvert`. -/
def foldInverseFunc (reverse : Opcode) : Option Program := do
  if ← p.isImmediate ((p.insts x).arg 0) then some p
  else p.foldReverse x reverse

def foldBitCast (cast : BitVec 32 → Immediate) (reverse : Opcode) : Option Program := do
  let value := (p.insts x).arg 0
  if ← p.isImmediate value then
    let word ← (← p.immediate value).asU32
    p.replaceUsesWithAndRemove x (.imm (cast word))
  else p.foldReverse x reverse

def foldUnpack32x2 (block x : ℕ) (reverse : Opcode) : Option Program := do
  let value := (p.insts x).arg 0
  if ← p.isImmediate value then
    let word ← (← p.immediate value).asU64
    let value_lo := Value.imm (.u32 (word.setWidth 32))
    let value_hi := Value.imm (.u32 ((word >>> 32).setWidth 32))
    let (composite, p₁) ← p.emit block x .compositeConstructU32x2 [value_lo, value_hi]
    p₁.replaceUsesWithAndRemove x composite
  else p.foldReverse x reverse

/-- `FoldCompositeExtractImpl`, with a bound on the depth of the recursion. -/
def foldCompositeExtractImpl (insert construct : Opcode) (first_index : ℕ) : ℕ → Value → Option (Option Value)
  | 0, _ => none
  | depth + 1, inst_value => do
    let inst ← p.instRecursive inst_value
    let arg := (p.insts inst).arg
    if (p.insts inst).op = construct then some (some (arg first_index))
    else if (p.insts inst).op ≠ insert then some none
    else if ← p.isImmediate (arg 2) then
      let second_index ← (← p.immediate (arg 2)).asU32
      if first_index ≠ second_index.toNat then
        if ← p.isImmediate (arg 0) then some none
        else foldCompositeExtractImpl insert construct first_index depth (arg 0)
      else some (some (arg 1))
    else some none

/-- `FoldCompositeExtract`. -/
def foldCompositeExtract (construct insert : Opcode) : Option Program := do
  let value_1 := (p.insts x).arg 0
  let value_2 := (p.insts x).arg 1
  if ← p.isImmediate value_1 then some p
  else if ← p.isImmediate value_2 then
    let first_index ← (← p.immediate value_2).asU32
    match ← p.foldCompositeExtractImpl insert construct first_index.toNat (p.created + 1)
      value_1 with
    | some result => p.replaceUsesWithAndRemove x result
    | none => some p
  else some p

/-- The part of the folds of `LogicalAnd`, `LogicalOr`, `IAdd32` and `IMul32` after `FoldCommutative`: the
immediate on the right decides. -/
def foldIdentity (imm_fn : List Immediate → Option Immediate)
    (decide : Immediate → Value → Option (Option Value)) : Option Program := do
  let (p₁, there) ← p.foldCommutative x imm_fn
  if there then
    let rhs := (p₁.insts x).arg 1
    if ← p₁.isImmediate rhs then
      match ← decide (← p₁.immediate rhs) ((p₁.insts x).arg 0) with
      | some result => p₁.replaceUsesWithAndRemove x result
      | none => some p₁
    else some p₁
  else some p₁

def foldLogicalAnd : Option Program :=
  p.foldIdentity x IntegerOp.logicalAnd.fold fun rhs lhs => do
    if ← rhs.asU1 then some (some lhs) else some (some (.imm (.u1 false)))

def foldLogicalOr : Option Program :=
  p.foldIdentity x IntegerOp.logicalOr.fold fun rhs lhs => do
    if ← rhs.asU1 then some (some (.imm (.u1 true))) else some (some lhs)

def foldAdd : Option Program :=
  p.foldIdentity x IntegerOp.iAdd32.fold fun rhs lhs => do
    if (← rhs.asU32) = 0 then some (some lhs) else some none

def foldMul : Option Program :=
  p.foldIdentity x IntegerOp.iMul32.fold fun rhs lhs => do
    let word ← rhs.asU32
    if word = 0 then some (some (.imm (.u32 0)))
    else if word = 1 then some (some lhs)
    else some none

def foldLogicalNot : Option Program := do
  let value := (p.insts x).arg 0
  if ← p.isImmediate value then
    let result ← IntegerOp.logicalNot.fold [← p.immediate value]
    p.replaceUsesWithAndRemove x (.imm result)
  else p.foldReverse x IntegerOp.logicalNot.opcode

def foldSelect : Option Program := do
  let cond := (p.insts x).arg 0
  if ← p.isImmediate cond then
    let value ← (← p.immediate cond).asU1
    p.replaceUsesWithAndRemove x (if value then (p.insts x).arg 1 else (p.insts x).arg 2)
  else some p

def foldDiscardCond : Option Program := do
  let cond := (p.insts x).arg 0
  if ← p.isImmediate cond then
    if ← (← p.immediate cond).asU1 then p.replaceOpcode x .discard else p.invalidate x
  else some p

def foldCmpClass (block x : ℕ) : Option Program := do
  if ← p.isImmediate ((p.insts x).arg 1) then
    let class_mask ← (← p.immediate ((p.insts x).arg 1)).asU32
    if class_mask &&& 0x003 = 0x003 then p.replaceOpcode x .fpIsNan32
    else if class_mask &&& 0x204 = 0x204 then p.replaceOpcode x .fpIsInf32
    else if class_mask &&& 0x1f8 = 0x1f8 then
      let value := (p.insts x).arg 0
      let (nan, p₁) ← p.emit block x .fpIsNan32 [value]
      let (inf, p₂) ← p₁.emit block x .fpIsInf32 [value]
      let (either, p₃) ← p₂.emit block x IntegerOp.logicalOr.opcode [nan, inf]
      let (neither, p₄) ← p₃.emit block x IntegerOp.logicalNot.opcode [either]
      p₄.replaceUsesWithAndRemove x neither
    else none
  else none

/-- What `FoldPackedAncillary` puts in the place of a field of the packed word that is within an attribute:
the attribute, or the field of it. -/
def emitAttributeField (block x attr : ℕ) (whole : Bool) (offset bits : BitVec 32) : Option (Value × Program) := do
  let (index, p₁) ← p.emit block x .getAttributeU32 [.imm (.attribute attr), .imm (.u32 0)]
  if whole then some (index, p₁)
  else p₁.emit block x IntegerOp.bitFieldUExtract.opcode [index, .imm (.u32 offset), .imm (.u32 bits)]

/-- What `FoldPackedAncillary` puts in the place of a field of the packed word. -/
def emitAncillaryField (block x : ℕ) (offset bits : BitVec 32) : Option (Value × Program) :=
  if 8 ≤ offset ∧ offset + bits ≤ 12 then
    p.emitAttributeField block x Attribute.sampleIndex (offset = 8 ∧ bits = 4) (offset - 8) bits
  else if 16 ≤ offset ∧ offset + bits ≤ 27 then
    p.emitAttributeField block x Attribute.renderTargetIndex (offset = 16 ∧ bits = 11) (offset - 16)
      bits
  else none

/-- The packed word that an instruction extracts a field of, if it does that. -/
def ancillary : Option (Option ℕ) := do
  let arg := (p.insts x).arg
  if (← p.isImmediate (arg 0)) ∨ ¬ (← p.isImmediate (arg 1)) ∨ ¬ (← p.isImmediate (arg 2)) then
    some none
  else
    let value ← p.instRecursive (arg 0)
    if (p.insts value).op ≠ .getAttributeU32 ∨
        (p.insts value).arg 0 ≠ .imm (.attribute Attribute.packedAncillary) then some none
    else some (some value)

/-- `FoldPackedAncillary`. It tells whether the instruction was folded. -/
def foldPackedAncillary (block x : ℕ) : Option (Program × Bool) := do
  match ← p.ancillary x with
  | none => some (p, false)
  | some value =>
    let offset ← (← p.immediate ((p.insts x).arg 1)).asU32
    let bits ← (← p.immediate ((p.insts x).arg 2)).asU32
    let (field, p₁) ← p.emitAncillaryField block x offset bits
    let p₂ ← p₁.replaceUsesWithAndRemove x field
    some (← p₂.replaceUsesWithAndRemove value (.imm (.u32 0)), true)

end Program

/-! ## The pass -/

/-- The calls that `ConstantPropagation` makes. -/
inductive Fold
  | whenAllImmediates (op : IntegerOp)
  | convertF32U32
  | fpNeg32
  | bitFieldUExtract
  | add
  | mul
  | cmpClass
  | bitCastF32U32
  | bitCastU32F32
  | unpack32x2 (reverse : Opcode)
  | inverseFunc (reverse : Opcode)
  | select
  | logicalAnd
  | logicalOr
  | logicalNot
  | compositeExtract (construct insert : Opcode)
  | convert (opposite : Opcode)
  | discardCond
deriving DecidableEq

namespace Fold

/-- The opcodes whose cases are only `FoldWhenAllImmediates`. -/
def immediateCases : List IntegerOp :=
  [.iSub32, .uDiv32, .uMod32, .shiftLeftLogical32, .shiftRightLogical32, .shiftRightArithmetic32,
    .sLessThan32, .sLessThan64, .uLessThan32, .uLessThan64,
    .sLessThanEqual32, .sLessThanEqual64, .uLessThanEqual32, .uLessThanEqual64,
    .sGreaterThan32, .sGreaterThan64, .uGreaterThan32, .uGreaterThan64,
    .sGreaterThanEqual32, .sGreaterThanEqual64, .uGreaterThanEqual32, .uGreaterThanEqual64,
    .iEqual32, .iEqual64, .iNotEqual32, .iNotEqual64,
    .bitwiseAnd32, .bitwiseAnd64, .bitwiseOr32, .bitwiseOr64, .bitwiseXor32, .bitwiseNot32,
    .bitReverse32, .bitCount32, .bitCount64, .bitFieldSExtract, .bitFieldInsert]

def formats : List PackFormat :=
  [.unorm2x16, .snorm2x16, .uint2x16, .sint2x16, .half2x16, .unorm4x8, .snorm4x8, .uint4x8, .sint4x8,
    .ufloat10_11_11, .unorm2_10_10_10, .snorm2_10_10_10, .uint2_10_10_10, .sint2_10_10_10]

def composites : List Composite := [.u32x2, .u32x3, .u32x4, .f32x2, .f32x3, .f32x4]

/-- The cases of `ConstantPropagation`. -/
def table : List (Opcode × Fold) :=
  [(IntegerOp.iAdd32.opcode, add), (.convertF32U32, convertF32U32), (IntegerOp.iMul32.opcode, mul),
    (.fpCmpClass32, cmpClass), (.bitCastF32U32, bitCastF32U32), (.bitCastU32F32, bitCastU32F32),
    (.unpackUint2x32, unpack32x2 .packUint2x32),
    (.unpackDouble2x32, unpack32x2 .packDouble2x32),
    (.selectU1, select), (.selectU32, select), (.selectF32, select), (.fpNeg32, fpNeg32),
    (IntegerOp.logicalAnd.opcode, logicalAnd), (IntegerOp.logicalOr.opcode, logicalOr),
    (IntegerOp.logicalNot.opcode, logicalNot),
    (IntegerOp.bitFieldUExtract.opcode, bitFieldUExtract),
    (.convertF32F16, convert .convertF16F32), (.convertF16F32, convert .convertF32F16),
    (.discardCond, discardCond)] ++
  immediateCases.map (fun op => (op.opcode, whenAllImmediates op)) ++
  formats.map (fun format => (format.pack, inverseFunc format.unpack)) ++
  formats.map (fun format => (format.unpack, inverseFunc format.pack)) ++
  composites.map fun type => (type.extract, compositeExtract type.construct type.insert)

def of (op : Opcode) : Option Fold := table.lookup op

def call (p : Program) (block x : ℕ) : Fold → Option Program
  | whenAllImmediates op => p.foldWhenAllImmediates x op.fold
  | convertF32U32 => p.foldWhenAllImmediates x
      (unary Immediate.asU32 fun a => some (.f32 (floatOfNat a.toNat)))
  | fpNeg32 => p.foldWhenAllImmediates x
      (unary Immediate.asU32 fun a => some (.f32 (a ^^^ 0x80000000)))
  | bitFieldUExtract => do
    let (p₁, folded) ← p.foldPackedAncillary block x
    if folded then some p₁ else p₁.foldWhenAllImmediates x IntegerOp.bitFieldUExtract.fold
  | add => p.foldAdd x
  | mul => p.foldMul x
  | cmpClass => p.foldCmpClass block x
  | bitCastF32U32 => p.foldBitCast x .f32 .bitCastU32F32
  | bitCastU32F32 => p.foldBitCast x .u32 .bitCastF32U32
  | unpack32x2 reverse => p.foldUnpack32x2 block x reverse
  | inverseFunc reverse | convert reverse => p.foldInverseFunc x reverse
  | select => p.foldSelect x
  | logicalAnd => p.foldLogicalAnd x
  | logicalOr => p.foldLogicalOr x
  | logicalNot => p.foldLogicalNot x
  | compositeExtract construct insert => p.foldCompositeExtract x construct insert
  | discardCond => p.foldDiscardCond x

end Fold

namespace Program

def constantPropagation (p : Program) (block x : ℕ) : Option Program :=
  match Fold.of (p.insts x).op with
  | some fold => fold.call p block x
  | none => some p

/-- The walk of `ConstantPropagationPass`: the blocks from the last, and in each block the instructions. -/
def walk (visit : Program → ℕ → ℕ → Option Program) (p : Program) (program : List ℕ) : Option Program :=
  program.reverse.foldlM (fun p block => (p.blocks block).foldlM (visit · block) p) p

def constantPropagationPass (p : Program) (program : List ℕ) : Option Program :=
  p.walk constantPropagation program

end Program

end ShadPS4.IR
