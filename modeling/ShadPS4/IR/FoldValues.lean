import ShadPS4.IR.OperandEdits

/-!
# What instructions evaluate to

A valuation gives each instruction a value.
-/

namespace ShadPS4.IR

/-! ## Values -/

inductive Datum
  | void
  | scalar (value : Immediate)
  | composite (type : Composite) (components : List Immediate)

def Composite.size : Composite → ℕ
  | u32x2 | f32x2 => 2
  | u32x3 | f32x3 => 3
  | u32x4 | f32x4 => 4

def Composite.holds : Composite → Immediate → Bool
  | u32x2, .u32 _ | u32x3, .u32 _ | u32x4, .u32 _ => true
  | f32x2, .f32 _ | f32x3, .f32 _ | f32x4, .f32 _ => true
  | _, _ => false

def Composite.component (type : Composite) : Datum → Option Immediate
  | .scalar value => if type.holds value then some value else none
  | _ => none

/-- What an opcode computes. It computes nothing of operands of other types. -/
abbrev Meaning : Type := List Datum → Option Datum

namespace Meaning

/-- A function of one word or flag. -/
def unary (f : Immediate → Option Immediate) : Meaning
  | [.scalar a] => (f a).map .scalar
  | _ => none

/-- `OpIAdd` and `OpIMul`, of words. -/
def ofWords (f : BitVec 32 → BitVec 32 → BitVec 32) : Meaning
  | [.scalar (.u32 a), .scalar (.u32 b)] => some (.scalar (.u32 (f a b)))
  | _ => none

/-- `OpLogicalAnd` and `OpLogicalOr`. -/
def ofFlags (f : Bool → Bool → Bool) : Meaning
  | [.scalar (.u1 a), .scalar (.u1 b)] => some (.scalar (.u1 (f a b)))
  | _ => none

def select : Meaning
  | [.scalar (.u1 cond), a, b] => some (if cond then a else b)
  | _ => none

def construct (type : Composite) (components : List Datum) : Option Datum :=
  if components.length = type.size then (components.mapM type.component).map (.composite type)
  else none

def extract (type : Composite) : Meaning
  | [.composite type' components, .scalar (.u32 index)] =>
    if type' = type then (components[index.toNat]?).map .scalar else none
  | _ => none

def insert (type : Composite) : Meaning
  | [.composite type' components, .scalar object, .scalar (.u32 index)] =>
    if type' = type ∧ type.holds object ∧ index.toNat < components.length then
      some (.composite type (components.set index.toNat object))
    else none
  | _ => none

/-- `OpBitcast` of two words to a wide one. -/
def pack (wide : BitVec 64 → Immediate) : Meaning
  | [.composite .u32x2 [.u32 lo, .u32 hi]] => some (.scalar (wide (hi ++ lo)))
  | _ => none

/-- `OpBitcast` of a wide word to two words. -/
def unpack (wide : Immediate → Option (BitVec 64)) : Meaning
  | [.scalar value] => do
    let word ← wide value
    some (.composite .u32x2 [.u32 (word.setWidth 32), .u32 ((word >>> 32).setWidth 32)])
  | _ => none

/-- An immediate of `Type::F64`. -/
def ofF64 : Immediate → Option (BitVec 64)
  | .f64 value => some value
  | _ => none

/-- What `Identity` is: the same as its operand. -/
def same : Meaning
  | [a] => some a
  | _ => none

def logicalNot : Meaning :=
  unary fun
    | .u1 a => some (.u1 !a)
    | _ => none

/-- `OpBitcast` of a float. -/
def bitCastU32F32 : Meaning :=
  unary fun
    | .f32 a => some (.u32 a)
    | _ => none

/-- `OpBitcast` to a float. -/
def bitCastF32U32 : Meaning :=
  unary fun
    | .u32 a => some (.f32 a)
    | _ => none

/-- The opcodes that the structural folds are about, and what they compute. -/
def table : List (Opcode × Meaning) :=
  [(.identity, same),
    (IntegerOp.iAdd32.opcode, ofWords Spirv.iAdd), (IntegerOp.iMul32.opcode, ofWords Spirv.iMul),
    (IntegerOp.logicalAnd.opcode, ofFlags fun a b => a && b),
    (IntegerOp.logicalOr.opcode, ofFlags fun a b => a || b),
    (IntegerOp.logicalNot.opcode, logicalNot),
    (.selectU1, select), (.selectU32, select), (.selectF32, select),
    (.bitCastU32F32, bitCastU32F32), (.bitCastF32U32, bitCastF32U32),
    (.packUint2x32, pack .u64), (.unpackUint2x32, unpack Immediate.ofU64),
    (.packDouble2x32, pack .f64), (.unpackDouble2x32, unpack ofF64)] ++
  Fold.composites.map (fun type => (type.construct, construct type)) ++
  Fold.composites.map (fun type => (type.insert, insert type)) ++
  Fold.composites.map fun type => (type.extract, extract type)

end Meaning

/-- What the other opcodes compute, if anything: any functions of their operands. -/
structure OtherMeanings where
  meaning : Opcode → Option Meaning
  void : meaning .void = none

def OtherMeanings.of (others : OtherMeanings) (op : Opcode) : Option Meaning :=
  (Meaning.table.lookup op).or (others.meaning op)

def Value.datum (v : ℕ → Datum) : Value → Datum
  | .void => .void
  | .inst x => v x
  | .imm value => .scalar value

def Inst.data (inst : Inst) (v : ℕ → Datum) : List Datum := inst.operands.map (·.datum v)

namespace Program

variable (others : OtherMeanings)

/-- Each instruction has the value that its opcode computes. -/
def Consistent (p : Program) (v : ℕ → Datum) : Prop :=
  ∀ x < p.created, ∀ f, others.of (p.insts x).op = some f → f ((p.insts x).data v) = some (v x)

/-- One program in the place of another, by their valuations: the instructions that remain have the values that
they had, and so have the operands of those that compute nothing. -/
structure Keeps (p : Program) (v : ℕ → Datum) (p' : Program) (v' : ℕ → Datum) : Prop where
  created : p.created ≤ p'.created
  same : ∀ x < p.created, v' x = v x
  consistent : p'.Consistent others v'
  op : ∀ x < p.created, (p'.insts x).op ≠ .void → (p'.insts x).op = (p.insts x).op
  data : ∀ x < p.created, (p'.insts x).op ≠ .void → others.of (p.insts x).op = none →
    (p'.insts x).data v' = (p.insts x).data v

/-- One program may take the place of another: whatever the values are of the instructions that compute
nothing. -/
structure Sound (p p' : Program) : Prop where
  linked : p'.Linked
  created : p.created ≤ p'.created
  keeps : ∀ v, p.Consistent others v → ∃ v', p.Keeps others v p' v'

end Program

end ShadPS4.IR
