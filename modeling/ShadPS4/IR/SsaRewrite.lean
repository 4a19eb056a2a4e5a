import ShadPS4.IR.SrtGvnTable
import ShadPS4.Lib.Stops

/-!
# `SsaRewritePass`

The pass gives each read of a variable the value that reaches it.
-/

namespace ShadPS4.IR

open Function (update)

/-- `Variant`: what the pass keeps the value of. -/
inductive Variable
  | scalarReg (reg : ℕ)
  | vectorReg (reg : ℕ)
  | gotoVariable (index : ℕ)
  | maskLane (vgpr lane : ℕ)
  | threadBit (sgpr : ℕ)
  | sccFlag
  | execFlag
  | vccFlag
  | vccLo
  | vccHi
  | m0
deriving DecidableEq

namespace Variable

/-- The place of a variable in the order of `std::variant`. -/
def key : Variable → ℕ × ℕ × ℕ
  | scalarReg reg => (0, reg, 0)
  | vectorReg reg => (1, reg, 0)
  | gotoVariable index => (2, index, 0)
  | maskLane vgpr lane => (3, vgpr, lane)
  | threadBit sgpr => (4, sgpr, 0)
  | sccFlag => (5, 0, 0)
  | execFlag => (6, 0, 0)
  | vccFlag => (7, 0, 0)
  | vccLo => (8, 0, 0)
  | vccHi => (9, 0, 0)
  | m0 => (10, 0, 0)

/-- `operator<=>`. -/
def before (v w : Variable) : Bool :=
  v.key.1 < w.key.1 || v.key.1 = w.key.1 &&
    (v.key.2.1 < w.key.2.1 || v.key.2.1 = w.key.2.1 && v.key.2.2 < w.key.2.2)

/-- The entry of `DefTable` for a variable: the lanes of `MaskLaneVariable` go by `MaskLaneKey`. -/
def entry : Variable → Variable
  | maskLane vgpr lane => maskLane ((vgpr <<< 6 ||| lane) % 2^32) 0
  | v => v

end Variable

namespace Opcode

/-! The opcodes that the pass tells apart, by their lines in `opcodes.inc`. -/

@[match_pattern] def getThreadBitScalarReg : Opcode := .other 66 1
@[match_pattern] def setThreadBitScalarReg : Opcode := .other 67 2
@[match_pattern] def getScalarRegister : Opcode := .other 68 1
@[match_pattern] def setScalarRegister : Opcode := .other 69 2
@[match_pattern] def getVectorRegister : Opcode := .other 70 1
@[match_pattern] def setVectorRegister : Opcode := .other 71 2
@[match_pattern] def getGotoVariable : Opcode := .other 72 1
@[match_pattern] def setGotoVariable : Opcode := .other 73 2
@[match_pattern] def getMaskLaneVariable : Opcode := .other 74 2
@[match_pattern] def setMaskLaneVariable : Opcode := .other 75 3
@[match_pattern] def getScc : Opcode := .other 87 0
@[match_pattern] def getExec : Opcode := .other 88 0
@[match_pattern] def getVcc : Opcode := .other 89 0
@[match_pattern] def getVccLo : Opcode := .other 90 0
@[match_pattern] def getVccHi : Opcode := .other 91 0
@[match_pattern] def getM0 : Opcode := .other 92 0
@[match_pattern] def setScc : Opcode := .other 93 1
@[match_pattern] def setExec : Opcode := .other 94 1
@[match_pattern] def setVcc : Opcode := .other 95 1
@[match_pattern] def setVccLo : Opcode := .other 97 1
@[match_pattern] def setVccHi : Opcode := .other 98 1
@[match_pattern] def setM0 : Opcode := .other 99 1
@[match_pattern] def undefU1 : Opcode := .other 102 0
@[match_pattern] def undefU32 : Opcode := .other 105 0

end Opcode

def Variable.undefOpcode : Variable → Opcode
  | scalarReg _ | vectorReg _ | vccLo | vccHi | m0 => .undefU32
  | _ => .undefU1

/-- `TypeOf(UndefOpcode(…))`: `Type::U32` or `Type::U1`. -/
def Variable.type (v : Variable) : ℕ := if v.undefOpcode = .undefU32 then 2^8 else 2^5

namespace Ssa

/-- A call that the statements are about, with what it finds. -/
inductive Call
  /-- `TryRemoveTrivialPhi`: the phi, what it is then, the predecessors of its block, and the phis whose
  operands are being collected then -/
  | tryRemoveTrivialPhi (phi : ℕ) (inst : Inst) (imm_predecessors collecting : List ℕ)
  | addPhiOperand (inst : Inst)

structure State where
  program : Program
  parent : ℕ → ℕ
  sealed : ℕ → Bool := fun _ => false
  current_def : Variable → ℕ → Value := fun _ _ => .void
  incomplete_phis : ℕ → List (Variable × ℕ) := fun _ => []
  /-- the phis that were created and whose operands have not all been added -/
  collecting : List ℕ := []
  calls : List Call := []

/-- A part of the pass. It stops where the code does not return, or at an `UNREACHABLE`. -/
abbrev Pass (α : Type) : Type := Stopping State α

def edit (change : Program → Option Program) : Pass PUnit := do
  let s ← get
  match change s.program with
  | some program => modify fun s => { s with program }
  | none => failure

def record (call : Call) : Pass PUnit := modify fun s => { s with calls := call :: s.calls }

/-- `PrependNewInst` for an instruction without arguments. -/
def prepend (block insertion_point : ℕ) (op : Opcode) : Pass ℕ := do
  let s ← get
  edit fun p => p.prependNewInst block insertion_point op [] 0
  modify fun s' => { s' with parent := update s'.parent s.program.created block }
  pure s.program.created

def setFlags (x flags : ℕ) : Pass PUnit :=
  edit fun p => some (p.setInst x { p.insts x with flags })

def setBlock (block : ℕ) (instructions : List ℕ) : Pass PUnit :=
  edit fun p => some { p with blocks := update p.blocks block instructions }

def State.def (s : State) (var : Variable) (block : ℕ) : Value :=
  s.current_def var.entry block

def writeVariable (var : Variable) (block : ℕ) (value : Value) : Pass PUnit :=
  modify fun s => { s with
    current_def := update s.current_def var.entry
      (update (s.current_def var.entry) block value) }

variable (imm_predecessors : ℕ → List ℕ)

/-- A phi is created whose operands are to be collected. -/
def newPhi (var : Variable) (block : ℕ) : Pass ℕ := do
  let phi ← prepend block 0 .phi
  setFlags phi var.type
  modify fun s => { s with collecting := phi :: s.collecting }
  pure phi

def addPhiOperand (phi predecessor : ℕ) (value : Value) : Pass PUnit := do
  let s ← get
  record (.addPhiOperand (s.program.insts phi))
  edit fun p => p.addPhiOperand phi predecessor value

/-- All operands of a phi have been added. -/
def collected (phi : ℕ) : Pass PUnit :=
  modify fun s => { s with collecting := s.collecting.filter (· ≠ phi) }

/-- The loop of `TryRemoveTrivialPhi` over the operands: the one value that is merged, or nothing if there
are two. -/
def findSame (p : Program) (phi : ℕ) : List Value → Value → Option (Option Value)
  | [], same => some (some same)
  | op :: rest, same => do
    let op' ← p.resolved op
    let same' ← p.resolved same
    if op' = same' ∨ op' = .inst phi then findSame p phi rest same
    else if same ≠ .void then some none
    else findSame p phi rest op

def operands (inst : Inst) : List Value := (List.range inst.numArgs).map inst.arg

def firstNonPhi (p : Program) (instructions : List ℕ) : ℕ :=
  instructions.findIdx fun x => decide ((p.insts x).op ≠ .phi)

/-- The value that a phi merges, or an undefined one in its place, and the point behind it. -/
def valueOrUndef (block reinsert_point : ℕ) (undef_opcode : Opcode) (same : Value) : Pass (Value × ℕ) :=
  if same = .void then do
    let undef ← prepend block reinsert_point undef_opcode
    pure (.inst undef, reinsert_point + 1)
  else pure (same, reinsert_point)

/-- The part of `TryRemoveTrivialPhi` that takes a phi out of its block and puts it back behind the phis, as an
`Identity` of the value. -/
def replacePhi (phi block : ℕ) (undef_opcode : Opcode) (same : Value) : Pass (Value × List (ℕ × ℕ)) := do
  let s ← get
  let rest := (s.program.blocks block).erase phi
  let reinsert_point := firstNonPhi s.program rest
  setBlock block rest
  let (same, reinsert_point) ← valueOrUndef block reinsert_point undef_opcode same
  let s₁ ← get
  setBlock block ((s₁.program.blocks block).insertIdx reinsert_point phi)
  edit fun p => p.replaceUsesWith phi same true
  pure (same, (s₁.program.insts phi).uses)

/-- `TryRemoveTrivialPhi`, with a bound on the depth of the recursion. -/
def tryRemoveTrivialPhi : ℕ → ℕ → ℕ → Opcode → Pass Value
  | 0, _, _, _ => failure
  | depth + 1, phi, block, undef_opcode => do
    let s ← get
    record (.tryRemoveTrivialPhi phi (s.program.insts phi) (imm_predecessors (s.parent phi))
      s.collecting)
    match findSame s.program phi (operands (s.program.insts phi)) .void with
    | none => failure
    | some none => pure (.inst phi)
    | some (some same) =>
      let (same, users) ← replacePhi phi block undef_opcode same
      -- Try to recursively remove all phi users, which might have become trivial
      forM users fun user => do
        let s ← get
        if (s.program.insts user.1).op = .phi then
          let _ ← tryRemoveTrivialPhi depth user.1 (s.parent user.1) undef_opcode
          pure ⟨⟩
        else pure ⟨⟩
      pure same

/-! ## `ReadVariable` -/

inductive Status
  | start
  | setValue
  | pushPhiArgument
deriving DecidableEq

structure ReadState where
  block : ℕ := 0
  result : Value := .void
  phi : ℕ := 0
  /-- the predecessors from `pred_it` to `pred_end` -/
  preds : List ℕ := []
  pc : Status := .start

/-- The top of the stack is given a result. -/
def setResult (result : Value) : List ReadState → List ReadState
  | [] => []
  | frame :: rest => { frame with result } :: rest

variable (depth : ℕ)

/-- `prepare_phi_operand`: the frame on the top of the stack goes on to its next predecessor, or has its phi
removed if it merges one value. -/
def preparePhiOperand (var : Variable) (frame : ReadState) (rest : List ReadState) :
    Pass (List ReadState) :=
  match frame.preds with
  | [] => do
    collected frame.phi
    let result ← tryRemoveTrivialPhi imm_predecessors depth frame.phi frame.block
      var.undefOpcode
    writeVariable var frame.block result
    pure (setResult result rest)
  | imm_pred :: _ => pure ({ block := imm_pred } :: { frame with pc := .pushPhiArgument } :: rest)

def setValue (var : Variable) (block : ℕ) (result : Value) (rest : List ReadState) : Pass (List ReadState) := do
  writeVariable var block result
  pure (setResult result rest)

/-- `case Status::Start`. -/
def startRead (var : Variable) (frame : ReadState) (rest : List ReadState) : Pass (List ReadState) := do
  let s ← get
  if s.def var frame.block ≠ .void then
    setValue var frame.block (s.def var frame.block) rest
  else if s.sealed frame.block = false then
    -- Incomplete CFG
    let phi ← newPhi var frame.block
    modify fun s => { s with
      incomplete_phis := update s.incomplete_phis frame.block
        ((s.incomplete_phis frame.block).filter (·.1.before var) ++ (var, phi) ::
          (s.incomplete_phis frame.block).filter (var.before ·.1)) }
    setValue var frame.block (.inst phi) rest
  else match imm_predecessors frame.block with
    | [imm_pred] => pure ({ block := imm_pred } :: { frame with pc := .setValue } :: rest)
    | imm_preds => do
      -- Break potential cycles with operandless phi
      let phi ← newPhi var frame.block
      writeVariable var frame.block (.inst phi)
      preparePhiOperand imm_predecessors depth var { frame with phi, preds := imm_preds } rest

/-- A turn of the loop of `ReadVariable`, for the frame on the top of the stack and those below. -/
def readStep (var : Variable) (frame : ReadState) (rest : List ReadState) : Pass (List ReadState) :=
  match frame.pc with
  | .start => startRead imm_predecessors depth var frame rest
  | .setValue => setValue var frame.block frame.result rest
  | .pushPhiArgument =>
    match frame.preds with
    | [] => failure
    | imm_pred :: preds => do
      addPhiOperand frame.phi imm_pred frame.result
      preparePhiOperand imm_predecessors depth var { frame with preds } rest

/-- The loop of `ReadVariable`, with a bound on its turns. It ends when one frame is left. -/
def readLoop (depth : ℕ) (var : Variable) : ℕ → List ReadState → Pass Value
  | 0, _ | _, [] => failure
  | turns + 1, frame :: rest => do
    let stack ← readStep imm_predecessors depth var frame rest
    match stack with
    | [bottom] => pure bottom.result
    | stack => readLoop depth var turns stack

def readVariable (var : Variable) (root_block : ℕ) : Pass Value :=
  readLoop imm_predecessors depth var depth [{ block := root_block }, {}]

def addPhiOperands (var : Variable) (phi block : ℕ) : Pass Value := do
  forM (imm_predecessors block) fun imm_pred => do
    let value ← readVariable imm_predecessors depth var imm_pred
    addPhiOperand phi imm_pred value
  collected phi
  tryRemoveTrivialPhi imm_predecessors depth phi block var.undefOpcode

def sealBlock (block : ℕ) : Pass PUnit := do
  let s ← get
  forM (s.incomplete_phis block) fun (var, phi) => do
    let _ ← addPhiOperands imm_predecessors depth var phi block
    pure ⟨⟩
  modify fun s => { s with sealed := update s.sealed block true }

/-! ## The pass -/

def scalarRegOf : Value → Pass ℕ
  | .imm (.scalarReg reg) => pure reg
  | _ => failure

def vectorRegOf : Value → Pass ℕ
  | .imm (.vectorReg reg) => pure reg
  | _ => failure

def u32Of (value : Value) : Pass ℕ := do
  let s ← get
  match s.program.resolved value with
  | some (.imm (.u32 value)) => pure value.toNat
  | _ => failure

def replaceRead (var : Variable) (block inst : ℕ) : Pass PUnit := do
  let value ← readVariable imm_predecessors depth var block
  edit fun p => p.replaceUsesWith inst value true

def visitInst (depth block inst : ℕ) : Pass PUnit := do
  let s ← get
  let arg := (s.program.insts inst).arg
  match (s.program.insts inst).op with
  | .setThreadBitScalarReg => do
    let reg ← scalarRegOf (arg 0)
    writeVariable (.threadBit reg) block (arg 1)
  | .setScalarRegister => do
    let reg ← scalarRegOf (arg 0)
    writeVariable (.scalarReg reg) block (arg 1)
  | .setVectorRegister => do
    let reg ← vectorRegOf (arg 0)
    writeVariable (.vectorReg reg) block (arg 1)
  | .setGotoVariable => do
    let index ← u32Of (arg 0)
    writeVariable (.gotoVariable index) block (arg 1)
  | .setMaskLaneVariable => do
    let vgpr ← vectorRegOf (arg 0)
    let lane ← u32Of (arg 1)
    writeVariable (.maskLane vgpr lane) block (arg 2)
  | .setExec => writeVariable .execFlag block (arg 0)
  | .setScc => writeVariable .sccFlag block (arg 0)
  | .setVcc => writeVariable .vccFlag block (arg 0)
  | .setVccLo => writeVariable .vccLo block (arg 0)
  | .setVccHi => writeVariable .vccHi block (arg 0)
  | .setM0 => writeVariable .m0 block (arg 0)
  | .getThreadBitScalarReg => do
    let reg ← scalarRegOf (arg 0)
    replaceRead imm_predecessors depth (.threadBit reg) block inst
  | .getScalarRegister => do
    let reg ← scalarRegOf (arg 0)
    replaceRead imm_predecessors depth (.scalarReg reg) block inst
  | .getVectorRegister => do
    let reg ← vectorRegOf (arg 0)
    replaceRead imm_predecessors depth (.vectorReg reg) block inst
  | .getGotoVariable => do
    let index ← u32Of (arg 0)
    replaceRead imm_predecessors depth (.gotoVariable index) block inst
  | .getMaskLaneVariable => do
    let vgpr ← vectorRegOf (arg 0)
    let lane ← u32Of (arg 1)
    replaceRead imm_predecessors depth (.maskLane vgpr lane) block inst
  | .getExec => replaceRead imm_predecessors depth .execFlag block inst
  | .getScc => replaceRead imm_predecessors depth .sccFlag block inst
  | .getVcc => replaceRead imm_predecessors depth .vccFlag block inst
  | .getVccLo => replaceRead imm_predecessors depth .vccLo block inst
  | .getVccHi => replaceRead imm_predecessors depth .vccHi block inst
  | .getM0 => replaceRead imm_predecessors depth .m0 block inst
  | _ => pure ⟨⟩

/-- `VisitBlock`. What is put into the block meanwhile comes before the instruction that is visited. -/
def visitBlock (depth block : ℕ) : Pass PUnit := do
  let s ← get
  forM (s.program.blocks block) (visitInst imm_predecessors depth block)
  sealBlock imm_predecessors depth block

def ssaRewritePass (program : List ℕ) : Pass PUnit :=
  forM program.reverse (visitBlock imm_predecessors depth)

end Ssa

end ShadPS4.IR
