import ShadPS4.IR.ConstantPropagation

/-!
# Integer formats of packed words

The instructions that the backend emits for the integer formats: `InsertBitFields` puts the components into
the fields of a word, and `ExtractBitFields` takes them out, with or without their signs.
-/

namespace ShadPS4.IR

inductive IntegerFormat
  | uint2x16 | sint2x16 | uint4x8 | sint4x8 | uint2_10_10_10 | sint2_10_10_10

namespace IntegerFormat

def toFormat : IntegerFormat → PackFormat
  | uint2x16 => .uint2x16
  | sint2x16 => .sint2x16
  | uint4x8 => .uint4x8
  | sint4x8 => .sint4x8
  | uint2_10_10_10 => .uint2_10_10_10
  | sint2_10_10_10 => .sint2_10_10_10

/-- The arguments `R(…)`. -/
def fields : IntegerFormat → List Field
  | uint2x16 | sint2x16 => [⟨0, 16⟩, ⟨16, 16⟩]
  | uint4x8 | sint4x8 => [⟨0, 8⟩, ⟨8, 8⟩, ⟨16, 8⟩, ⟨24, 8⟩]
  | uint2_10_10_10 | sint2_10_10_10 => [⟨0, 10⟩, ⟨10, 10⟩, ⟨20, 10⟩, ⟨30, 2⟩]

/-- The argument `is_signed` of `ExtractBitFields`. -/
def isSigned : IntegerFormat → Bool
  | uint2x16 | uint4x8 | uint2_10_10_10 => false
  | sint2x16 | sint4x8 | sint2_10_10_10 => true

end IntegerFormat

def constU32 (value : ℕ) : BitVec 32 := BitVec.ofNat 32 value

def extractBitFields (is_signed : Bool) (value : BitVec 32) (args : List Field) : Option (List (BitVec 32)) :=
  let op_func := if is_signed then Spirv.bitFieldSExtract else Spirv.bitFieldUExtract
  args.mapM fun args => op_func value (constU32 args.offset) (constU32 args.size)

def insertBitFields (values : List (BitVec 32)) (args : List Field) : Option (BitVec 32) :=
  match values.zip args with
  | [] => none
  | it :: rest => rest.foldlM (fun result it =>
      Spirv.bitFieldInsert result it.1 (constU32 it.2.offset) (constU32 it.2.size)) it.1

namespace IntegerFormat

/-- `EmitPackUint2x16` and so on. The signed formats are packed as the others are. -/
def emitPack (format : IntegerFormat) (components : List (BitVec 32)) : Option (BitVec 32) :=
  insertBitFields components format.fields

/-- `EmitUnpackUint2x16`, `EmitUnpackSint2x16` and so on. -/
def emitUnpack (format : IntegerFormat) (value : BitVec 32) : Option (List (BitVec 32)) :=
  extractBitFields format.isSigned value format.fields

end IntegerFormat

end ShadPS4.IR
