import Mathlib.Tactic.Ring

/-!
# `Inst` and `Value`

The instructions of the shader recompiler's intermediate representation. An instruction has operands, which are
immediates or other instructions, and a list of its uses by operands of other instructions.
-/

namespace ShadPS4.IR

instance neZero_seven : NeZero 7 := ⟨by decide⟩

/-- `Opcode`. -/
inductive Opcode
  | phi | identity | void | getUserData | readConst | compositeConstructU32x2
  | conditionRef | reference | phiMove
  | prologue | epilogue | discard | discardCond | debugPrint
  | barrier | workgroupMemoryBarrier | deviceMemoryBarrier | emitVertex | emitPrimitive
  | writeSharedU16 | writeSharedU32 | writeSharedU64
  | sharedAtomicIAdd32 | sharedAtomicIAdd64 | sharedAtomicISub32 | sharedAtomicISub64
  | sharedAtomicSMin32 | sharedAtomicSMin64 | sharedAtomicUMin32 | sharedAtomicUMin64
  | sharedAtomicSMax32 | sharedAtomicSMax64 | sharedAtomicUMax32 | sharedAtomicUMax64
  | sharedAtomicInc32 | sharedAtomicInc64 | sharedAtomicDec32 | sharedAtomicDec64
  | sharedAtomicAnd32 | sharedAtomicAnd64 | sharedAtomicOr32 | sharedAtomicOr64
  | sharedAtomicXor32 | sharedAtomicXor64
  | setAttribute | setTcsGenericAttribute | setPatch
  | storeBufferU8 | storeBufferU16 | storeBufferU32 | storeBufferU32x2 | storeBufferU32x3
  | storeBufferU32x4 | storeBufferU64 | storeBufferF32 | storeBufferF32x2 | storeBufferF32x3
  | storeBufferF32x4 | storeBufferFormatF32
  | bufferAtomicIAdd32 | bufferAtomicIAdd64 | bufferAtomicISub32 | bufferAtomicSMin32
  | bufferAtomicSMin64 | bufferAtomicUMin32 | bufferAtomicUMin64 | bufferAtomicFMin32
  | bufferAtomicSMax32 | bufferAtomicSMax64 | bufferAtomicUMax32 | bufferAtomicUMax64
  | bufferAtomicFMax32 | bufferAtomicInc32 | bufferAtomicDec32 | bufferAtomicAnd32
  | bufferAtomicOr32 | bufferAtomicXor32 | bufferAtomicSwap32 | bufferAtomicCmpSwap32
  | bufferAtomicFCmpSwap32
  | dataAppend | dataConsume
  | imageWrite | imageAtomicIAdd32 | imageAtomicSMin32 | imageAtomicUMin32 | imageAtomicSMax32
  | imageAtomicUMax32 | imageAtomicFMax32 | imageAtomicFMin32 | imageAtomicInc32
  | imageAtomicDec32 | imageAtomicAnd32 | imageAtomicOr32 | imageAtomicXor32
  | imageAtomicExchange32 | imageAtomicCmpSwap32
  | other (number : ℕ) (num_args : Fin 7)
deriving DecidableEq

def Opcode.numArgs : Opcode → ℕ
  | .phi | .void | .prologue | .epilogue | .discard | .barrier | .workgroupMemoryBarrier
  | .deviceMemoryBarrier | .emitVertex | .emitPrimitive => 0
  | .identity | .getUserData | .conditionRef | .reference | .discardCond | .sharedAtomicInc32 | .sharedAtomicInc64
  | .sharedAtomicDec32 | .sharedAtomicDec64 => 1
  | .readConst | .compositeConstructU32x2 | .phiMove | .setPatch | .dataAppend | .dataConsume | .bufferAtomicInc32 | .bufferAtomicDec32
  | .writeSharedU16 | .writeSharedU32 | .writeSharedU64 | .sharedAtomicIAdd32
  | .sharedAtomicIAdd64 | .sharedAtomicISub32 | .sharedAtomicISub64 | .sharedAtomicSMin32
  | .sharedAtomicSMin64 | .sharedAtomicUMin32 | .sharedAtomicUMin64 | .sharedAtomicSMax32
  | .sharedAtomicSMax64 | .sharedAtomicUMax32 | .sharedAtomicUMax64 | .sharedAtomicAnd32
  | .sharedAtomicAnd64 | .sharedAtomicOr32 | .sharedAtomicOr64 | .sharedAtomicXor32
  | .sharedAtomicXor64 => 2
  | .bufferAtomicCmpSwap32 | .bufferAtomicFCmpSwap32 | .imageAtomicCmpSwap32 => 4
  | .imageWrite | .debugPrint => 5
  | .other _ num_args => num_args
  | _ => 3

def Opcode.mayHaveSideEffects : Opcode → Bool
  | .phi | .identity | .void | .getUserData | .readConst | .compositeConstructU32x2 | .other _ _ => false
  | _ => true

inductive Immediate
  | scalarReg (reg : ℕ)
  | vectorReg (reg : ℕ)
  | attribute (value : ℕ)
  | patch (patch : ℕ)
  | u1 (value : Bool)
  | u8 (value : BitVec 8)
  | u16 (value : BitVec 16)
  | u32 (value : BitVec 32)
  | f32 (value : BitVec 32)
  | u64 (value : BitVec 64)
  | f64 (value : BitVec 64)
  | stringLiteral (value : String)
deriving DecidableEq

inductive Value
  | void
  | inst (x : ℕ)
  | imm (value : Immediate)
deriving DecidableEq

def Value.inst? : Value → Option ℕ
  | .inst x => some x
  | _ => none

/-- `Inst`. Of `args` there are six. -/
structure Inst where
  op : Opcode := .void
  flags : ℕ := 0
  args : ℕ → Value := fun _ => .void
  phi_args : List (ℕ × Value) := []
  /-- `uses`: users, and their operands -/
  uses : List (ℕ × ℕ) := []

namespace Inst

def numArgs (inst : Inst) : ℕ :=
  if inst.op = .phi then inst.phi_args.length else inst.op.numArgs

variable (inst : Inst)

def arg (index : ℕ) : Value :=
  if inst.op = .phi then (inst.phi_args[index]?).elim .void Prod.snd else inst.args index

def store (index : ℕ) (value : Value) : Inst :=
  if inst.op = .phi then
    { inst with phi_args := inst.phi_args.modify index fun pair => (pair.1, value) }
  else { inst with args := Function.update inst.args index value }

/-- An operand is added to a phi. -/
def emplaceBack (predecessor : ℕ) (value : Value) : Inst :=
  { inst with phi_args := inst.phi_args ++ [(predecessor, value)] }

def clear : Inst :=
  if inst.op = .phi then { inst with phi_args := [] } else { inst with args := fun _ => .void }

/-- The opcode is replaced. What was a phi has no operands. -/
def become (opcode : Opcode) : Inst :=
  if inst.op = .phi then { inst with op := opcode, phi_args := [], args := fun _ => .void }
  else { inst with op := opcode }

end Inst

/-- The instructions of a program, and their blocks. -/
structure Program where
  insts : ℕ → Inst := fun _ => {}
  created : ℕ := 0
  blocks : ℕ → List ℕ := fun _ => []
  /-- an operand that is an `Identity` was taken for an immediate when its use was made or dropped -/
  looked_through : Bool := false

namespace Program

variable (p : Program)

def setInst (u : ℕ) (inst : Inst) : Program := { p with insts := Function.update p.insts u inst }

def IsIdentity : Value → Prop
  | .inst x => (p.insts x).op = .identity
  | _ => False

instance : DecidablePred p.IsIdentity := fun value => by
  unfold IsIdentity
  split <;> infer_instance

/-- The loop over the `Identity` instructions that a value leads through, with the number of turns that are
left. -/
def resolve : ℕ → Value → Option Value
  | 0, _ => none
  | turns + 1, .inst x =>
    if (p.insts x).op = .identity then resolve turns ((p.insts x).arg 0) else some (.inst x)
  | _ + 1, value => some value

/-- `IsImmediate`. It does not return when the loop comes to an `Identity` again. -/
def isImmediate (value : Value) : Option Bool :=
  (p.resolve (p.created + 1) value).map fun value => value.inst? = none

def use (used u operand : ℕ) : Program :=
  p.setInst used { p.insts used with uses := (u, operand) :: (p.insts used).uses }

def undoUse (used u operand : ℕ) : Program :=
  p.setInst used { p.insts used with uses := (p.insts used).uses.filter (· ≠ (u, operand)) }

def unlessImmediate (value : Value) (change : ℕ → Program) : Option Program :=
  (p.isImmediate value).bind fun immediate =>
    if immediate then
      some { p with looked_through := p.looked_through || value.inst?.isSome }
    else value.inst?.map change

def setArg (u index : ℕ) (value : Value) : Option Program := do
  if index ≥ (p.insts u).numArgs then none
  else
    let arg := (p.insts u).arg index
    let p₁ ← p.unlessImmediate arg fun used => p.undoUse used u index
    let p₂ ← p₁.unlessImmediate value fun used => p₁.use used u index
    some (p₂.setInst u ((p₂.insts u).store index value))

def addPhiOperand (u predecessor : ℕ) (value : Value) : Option Program := do
  if (p.insts u).op ≠ .phi then none
  else
    let p₁ ← p.unlessImmediate value fun used => p.use used u (p.insts u).phi_args.length
    some (p₁.setInst u ((p₁.insts u).emplaceBack predecessor value))

/-- The loop of `ClearArgs` over the operands. -/
def clearUses (u : ℕ) (p : Program) (index : ℕ) : Option Program :=
  p.unlessImmediate ((p.insts u).arg index) fun used => p.undoUse used u index

def clearArgs (u : ℕ) : Option Program := do
  let size := if (p.insts u).op = .phi then (p.insts u).phi_args.length else 6
  let p₁ ← (List.range size).foldlM (clearUses u) p
  some (p₁.setInst u (p₁.insts u).clear)

def replaceOpcode (u : ℕ) (opcode : Opcode) : Option Program :=
  if opcode = .phi then none else some (p.setInst u ((p.insts u).become opcode))

def invalidate (u : ℕ) : Option Program := do
  let p₁ ← p.clearArgs u
  p₁.replaceOpcode u .void

def replaceUsesWith (x : ℕ) (replacement : Value) (preserve : Bool) : Option Program := do
  let temp_uses := (p.insts x).uses
  let p₁ ← temp_uses.foldlM (fun p use => p.setArg use.1 use.2 replacement) p
  let p₂ ← p₁.invalidate x
  if preserve then
    let p₃ ← p₂.replaceOpcode x .identity
    p₃.setArg x 0 replacement
  else some p₂

/-- `PrependNewInst`: an instruction is created, and put into a block. -/
def prependNewInst (block insertion_point : ℕ) (op : Opcode) (args : List Value) (flags : ℕ) : Option Program :=
  let u := p.created
  let p₁ := { p.setInst u { op, flags } with
    created := u + 1
    blocks := Function.update p.blocks block ((p.blocks block).insertIdx insertion_point u) }
  if op.numArgs ≠ args.length then none
  else args.zipIdx.foldlM (fun p arg => p.setArg u arg.2 arg.1) p₁

end Program

end ShadPS4.IR
