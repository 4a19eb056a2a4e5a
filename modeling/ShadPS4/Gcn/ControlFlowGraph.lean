import Mathlib.Data.List.Sort
import ShadPS4.Gcn.Instruction
import ShadPS4.Lib.Machine
import ShadPS4.Lib.Search

/-!
# `CFG`

The control flow graph of a shader.
-/

namespace ShadPS4.Gcn

inductive Condition
  | false
  | true
  | scc0
  | scc1
  | vccz
  | vccnz
  | execz
  | execnz
deriving DecidableEq

inductive EndClass
  | branch
  | exit
deriving DecidableEq

structure Block where
  id : ℕ
  begin_pc : ℕ
  end_pc : ℕ
  begin_index : ℕ
  end_index : ℕ
  cond : Condition := .false
  end_inst : GcnInst
  end_class : EndClass := .branch
  branch_true : Option ℕ := none
  branch_false : Option ℕ := none
deriving DecidableEq

/-- What stops the construction of a graph. -/
inductive CfgFault
  | unimplemented
  /-- the assertion about the pattern of `S_SETPC_B64` -/
  | setPc
  | noBlock
  | unreachable
  /-- the assertion of `SplitDivergenceScopes` about its parent block -/
  | parentCond
  | outOfBounds
  /-- more rounds of `SplitDivergenceScopes` than there are instructions, which do not happen -/
  | rounds
deriving DecidableEq

def GcnInst.isConditionalBranch (inst : GcnInst) : Except CfgFault Bool :=
  if inst.isCbranch then .ok true
  else if inst.isCdbg then .error .unimplemented
  else .ok false

def makeCondition (inst : GcnInst) : Condition :=
  if inst.isCmpx then .execnz
  else if inst.opcode = Opcode.sCbranchScc0 then .scc0
  else if inst.opcode = Opcode.sCbranchScc1 then .scc1
  else if inst.opcode = Opcode.sCbranchVccz then .vccz
  else if inst.opcode = Opcode.sCbranchVccnz then .vccnz
  else if inst.opcode = Opcode.sCbranchExecz then .execz
  else if inst.opcode = Opcode.sCbranchExecnz then .execnz
  else .true

def resolveSetPcTarget (list : List GcnInst) (setpc_index : ℕ) (pc_map : List ℕ) : Option ℕ :=
  if setpc_index < 3 then none
  else do
    let getpc ← list[setpc_index - 3]?
    let arith ← list[setpc_index - 2]?
    let setpc ← list[setpc_index]?
    if getpc.opcode ≠ Opcode.sGetpcB64 ∨
        ¬ (arith.opcode = Opcode.sAddU32 ∨ arith.opcode = Opcode.sSubU32) ∨
        setpc.opcode ≠ Opcode.sSetpcB64 then none
    else if getpc.dst0.code ≠ setpc.src0.code ∨ arith.dst0.code ≠ setpc.src0.code then none
    else if arith.src_count < 2 ∨ arith.src1.field ≠ OperandField.literalConst then none
    else
      let imm := arith.src1.code
      let signed_offset := if arith.opcode = Opcode.sAddU32 then imm else -imm
      let base_pc ← (pc_map[setpc_index - 3]?).map (· + getpc.length)
      let result_pc := BitVec.ofNat 32 base_pc + signed_offset
      some (result_pc &&& ~~~ 3#32).toNat

/-- The target of `S_SETPC_B64`, which has to be found. -/
def setPcTarget (list : List GcnInst) (setpc_index : ℕ) (pc_map : List ℕ) : Except CfgFault ℕ :=
  match resolveSetPcTarget list setpc_index pc_map with
  | some target => .ok target
  | none => .error .setPc

def addLabel (labels : List ℕ) (address : ℕ) : List ℕ :=
  if address ∈ labels then labels else labels ++ [address]

variable (inst_list : List GcnInst)

/-- The labels that an instruction of `EmitLabels` adds. -/
def instLabels (index_to_pc : List ℕ) (i pc : ℕ) (inst : GcnInst) :
    Except CfgFault (List ℕ) :=
  if inst.isUnconditionalBranch then do
    let target ← (if inst.opcode = Opcode.sSetpcB64 then setPcTarget inst_list i index_to_pc
      else .ok (inst.branchTarget pc))
    return [target, (pc + inst.length) % 2^32]
  else do
    if ← inst.isConditionalBranch then
      let true_label := inst.branchTarget pc
      let false_label := (pc + inst.length) % 2^32
      return if true_label ≠ false_label then [true_label, false_label] else []
    else if inst.opcode = Opcode.sEndpgm then return [(pc + inst.length) % 2^32]
    else return []

/-- The loop of `EmitLabels` over the instructions from `i` on. -/
def emitLabelsFrom (inst_list : List GcnInst) :
    List GcnInst → ℕ → ℕ → List ℕ → List ℕ → Except CfgFault (List ℕ × List ℕ)
  | [], _, pc, index_to_pc, labels => .ok (index_to_pc ++ [pc], labels)
  | inst :: rest, i, pc, index_to_pc, labels => do
    let index_to_pc := index_to_pc ++ [pc]
    let added ← instLabels inst_list index_to_pc i pc inst
    emitLabelsFrom inst_list rest (i + 1) ((pc + inst.length) % 2^32) index_to_pc
      (added.foldl addLabel labels)

/-- `EmitLabels`: `index_to_pc`, and the labels. -/
def emitLabels : Except CfgFault (List ℕ × List ℕ) := do
  let (index_to_pc, labels) ← emitLabelsFrom inst_list inst_list 0 0 [] (addLabel [] 0)
  return (index_to_pc, labels.mergeSort (· ≤ ·))

/-! ## Blocks -/

/-- `GetIndex`. Its assertion cannot fail: what `lower_bound` does not find is greater than all. -/
def getIndex (index_to_pc : List ℕ) (label : ℕ) : ℕ :=
  if label = 0 then 0 else index_to_pc.findIdx (label ≤ ·)

/-- The loop of `EmitBlocks` over the labels from the one of block `id` on. -/
def emitBlocksFrom (inst_list : List GcnInst) (index_to_pc : List ℕ) : ℕ → List ℕ → Except CfgFault (List Block)
  | id, start :: stop :: labels => do
    let end_index := getIndex index_to_pc stop - 1
    match inst_list[end_index]? with
    | none => .error .outOfBounds
    | some end_inst =>
      let block := {
        id
        begin_pc := start
        end_pc := stop
        begin_index := getIndex index_to_pc start
        end_index
        end_inst
        cond := makeCondition end_inst }
      return block :: (← emitBlocksFrom inst_list index_to_pc (id + 1) (stop :: labels))
  | _, _ => .ok []

def emitBlocks (index_to_pc labels : List ℕ) : Except CfgFault (List Block) :=
  emitBlocksFrom inst_list index_to_pc 0 labels

/-- `get_block` of `LinkBlocks`. -/
def getBlock (blocks : List Block) (address : ℕ) : Except CfgFault ℕ :=
  match blocks.find? (·.begin_pc = address) with
  | some block => .ok block.id
  | none => .error .noBlock

/-- A round of `LinkBlocks`. -/
def linkBlock (index_to_pc : List ℕ) (blocks : List Block)
    (block : Block) : Except CfgFault Block := do
  let end_inst := block.end_inst
  let is_conditional ← (if end_inst.isUnconditionalBranch then .ok false
    else end_inst.isConditionalBranch)
  if ¬ (end_inst.isUnconditionalBranch ∨ is_conditional ∨ end_inst.isFork ∨
      end_inst.opcode = Opcode.sEndpgm) then
    let next_block ← getBlock blocks block.end_pc
    return { block with branch_true := some next_block, end_class := .branch }
  else
    let branch_pc := block.end_pc - end_inst.length
    let target_pc ← (if end_inst.opcode = Opcode.sSetpcB64 then
        setPcTarget inst_list block.end_index index_to_pc
      else .ok (end_inst.branchTarget branch_pc))
    if end_inst.isUnconditionalBranch then
      let target_block ← getBlock blocks target_pc
      return { block with branch_true := some target_block, end_class := .branch }
    else if is_conditional then
      let target_block ← getBlock blocks target_pc
      let end_block ← getBlock blocks block.end_pc
      return { block with
        branch_true := some target_block
        branch_false := some end_block
        end_class := .branch }
    else if end_inst.opcode = Opcode.sEndpgm then return { block with end_class := .exit }
    else .error .unreachable

def linkBlocks (index_to_pc : List ℕ) (blocks : List Block) :
    Except CfgFault (List Block) :=
  blocks.mapM (linkBlock inst_list index_to_pc blocks)

/-- The blocks that the constructor has before it splits scopes. -/
def buildBlocks : Except CfgFault (List Block) := do
  let (index_to_pc, labels) ← emitLabels inst_list
  let blocks ← emitBlocks inst_list index_to_pc labels
  linkBlocks inst_list index_to_pc blocks

/-! ## Divergence scopes -/

/-- `inst_list[i]`, for an index of the list. -/
def instAt (i : ℕ) : GcnInst :=
  inst_list.getD i { opcode := 0, category := .undefined }

def isOpenScope (inst : GcnInst) : Bool :=
  inst.opcode = Opcode.sAndSaveexecB64 ||
    (inst.opcode = Opcode.sAndn2B64 && inst.dst0.field = OperandField.execLo) || inst.isCmpx

def isCloseScope (inst : GcnInst) : Bool :=
  (inst.opcode = Opcode.sMovB64 && inst.dst0.field = OperandField.execLo) ||
    inst.opcode = Opcode.sCbranchExecz || inst.opcode = Opcode.sEndpgm ||
    (inst.opcode = Opcode.sAndn2B64 && inst.dst0.field = OperandField.execLo)

/-- All instructions from `first` up to `stop` ignore the EXEC mask. -/
def allIgnore (first stop : ℕ) : Bool :=
  (List.range' first (stop - first)).all fun i => ignoresExecMask (instAt inst_list i)

/-- The scan of a block for a scope that is cut out, from an index on: the index that opened the
scope, and the one that closes it. -/
def scanScopes (inst_list : List GcnInst) (end_index : ℕ) : ℕ → ℕ → Option ℕ → Option (ℕ × ℕ)
  | 0, _, _ => none
  | count + 1, index, curr_begin =>
    let inst := instAt inst_list index
    let is_close := isCloseScope inst
    let opened := if isOpenScope inst then some index else none
    match curr_begin with
    | none => scanScopes inst_list end_index count (index + 1) opened
    | some scope_begin =>
      if is_close = true ∨ index = end_index then
        if index - scope_begin = 1 ∧ is_close = true then
          scanScopes inst_list end_index count (index + 1) none
        else if allIgnore inst_list (scope_begin + 1) (index + if is_close then 0 else 1) then
          scanScopes inst_list end_index count (index + 1) opened
        else some (scope_begin, index)
      else scanScopes inst_list end_index count (index + 1) (opened.or curr_begin)

/-- The last instruction up to an index that does not ignore the EXEC mask. -/
def lastAffected (inst_list : List GcnInst) : ℕ → ℕ
  | 0 => 0
  | i + 1 => if ignoresExecMask (instAt inst_list (i + 1)) then lastAffected inst_list i else i + 1

/-- A scope is cut out of a block: the block that is left, and the blocks that are inserted behind it. -/
def splitBlock (index_to_pc : List ℕ) (pool : ℕ) (blk : Block)
    (scope_begin index : ℕ) : Except CfgFault (Block × List Block) :=
  let curr_begin := firstFrom (fun i => !ignoresExecMask (instAt inst_list i)) (scope_begin + 1)
    (index - scope_begin)
  let curr_end := lastAffected inst_list index
  let block : Block := {
    id := pool
    begin_pc := index_to_pc.getD curr_begin 0
    end_pc := index_to_pc.getD curr_end 0
    begin_index := curr_begin
    end_index := curr_end
    end_inst := instAt inst_list curr_end
    cond := .true }
  let shrunk : Block := { blk with
    end_pc := index_to_pc.getD (curr_begin - 1) 0
    end_index := curr_begin - 1
    end_inst := instAt inst_list (curr_begin - 1)
    cond := .execnz
    end_class := .branch
    branch_true := some pool }
  if curr_end ≠ blk.end_index then
    let epi_block : Block := { blk with
      id := pool + 1
      begin_pc := index_to_pc.getD (curr_end + 1) 0
      begin_index := curr_end + 1 }
    .ok ({ shrunk with branch_false := some epi_block.id },
      [{ block with branch_true := some epi_block.id }, epi_block])
  else if blk.cond = .true ∧ blk.branch_true.isSome = true then
    .ok ({ shrunk with branch_false := blk.branch_true },
      [{ block with branch_true := blk.branch_true }])
  else .error .parentCond

/-- The loop of `SplitDivergenceScopes` over the blocks. What is inserted is looked at next. -/
def splitFrom (inst_list : List GcnInst) (index_to_pc : List ℕ) : ℕ → ℕ → List Block → Except CfgFault (List Block)
  | _, _, [] => .ok []
  | 0, _, _ :: _ => .error .rounds
  | fuel + 1, pool, blk :: rest =>
    match scanScopes inst_list blk.end_index (blk.end_index + 1 - blk.begin_index) blk.begin_index
      none with
    | none => do return blk :: (← splitFrom inst_list index_to_pc fuel pool rest)
    | some (scope_begin, index) => do
      let (blk, inserted) ← splitBlock inst_list index_to_pc pool blk scope_begin index
      return blk :: (← splitFrom inst_list index_to_pc fuel (pool + inserted.length)
        (inserted ++ rest))

def splitDivergenceScopes (index_to_pc : List ℕ) (blocks : List Block) :
    Except CfgFault (List Block) :=
  splitFrom inst_list index_to_pc inst_list.length blocks.length blocks

/-- The constructor of `CFG`. -/
def cfg : Except CfgFault (List Block) := do
  let (index_to_pc, labels) ← emitLabels inst_list
  let blocks ← emitBlocks inst_list index_to_pc labels
  let blocks ← linkBlocks inst_list index_to_pc blocks
  splitDivergenceScopes inst_list index_to_pc blocks

end ShadPS4.Gcn
