import ShadPS4.IR.Inst

/-!
# `SrtGvnTable`

Value numbers for the instructions that load from shader resource tables, and the search for the instruction
that a value comes from.
-/

namespace ShadPS4.IR

namespace Program

variable (p : Program)

/-- The value that a value leads to, when it leads to one: `Resolve`, `InstRecursive`. -/
def resolved (value : Value) : Option Value := p.resolve (p.created + 1) value

def visitArg (inst : Inst) (r : List ℕ × List ℕ) (arg : ℕ) : Option (List ℕ × List ℕ) := do
  let arg_value ← p.resolved (inst.arg arg)
  match arg_value with
  | .inst arg_inst =>
    if arg_inst ∈ r.2 then some r else some (r.1 ++ [arg_inst], r.2 ++ [arg_inst])
  | _ => some r

/-- The loop of `BreadthFirstSearch` over the queue, with the number of turns that are left. -/
def search (pred : Opcode → Bool) : ℕ → List ℕ → List ℕ → Option ℕ
  | 0, _, _ => none
  | _ + 1, [], _ => none
  | turns + 1, inst :: queue, visited =>
    if pred (p.insts inst).op then some inst
    else do
      let r ← (List.range (p.insts inst).numArgs).reverse.foldlM (p.visitArg (p.insts inst))
        (queue, visited)
      search pred turns r.1 r.2

/-- `BreadthFirstSearch` from an instruction. -/
def breadthFirstSearch (pred : Opcode → Bool) (inst : ℕ) : Option ℕ :=
  p.search pred (p.created + 2) [inst] []

/-- `BreadthFirstSearch` from a value. -/
def breadthFirstSearchValue (pred : Opcode → Bool) (value : Value) : Option ℕ := do
  let value ← p.resolved value
  let inst ← value.inst?
  p.breadthFirstSearch pred inst

end Program

/-- `InstVector`: the opcode, the flags, and the numbers of the operands. -/
abbrev InstVector := Opcode × ℕ × List ℕ

structure SrtGvnTable where
  value_numbers : Value → Option ℕ := fun _ => none
  next_num : ℕ := 0
  iv_to_vn : InstVector → Option ℕ := fun _ => none

namespace SrtGvnTable

variable (t : SrtGvnTable)

def record (v : Value) (vn : ℕ) : SrtGvnTable :=
  { t with value_numbers := Function.update t.value_numbers v (some vn) }

def nextValueNumber (v : Value) : ℕ × SrtGvnTable :=
  (t.next_num, { t.record v t.next_num with next_num := t.next_num + 1 })

end SrtGvnTable

/-- What the number of a `Phi` is taken from. -/
def Opcode.isSource : Opcode → Bool
  | .getUserData | .compositeConstructU32x2 | .readConst => true
  | _ => false

namespace Program

variable (p : Program)

/-- `MakeInstVector`, with a function for the numbers of the operands. -/
def makeInstVector (number : Value → SrtGvnTable → Option (ℕ × SrtGvnTable)) (inst : Inst)
    (t : SrtGvnTable) : Option (InstVector × SrtGvnTable) := do
  let r ← (List.range inst.numArgs).foldlM (fun (r : List ℕ × SrtGvnTable) i => do
    let n ← number (inst.arg i) r.2
    some (r.1 ++ [n.1], n.2)) ([], t)
  some ((inst.op, inst.flags, r.1), r.2)

/-- `ComputeInstValueNumber`, with a function for the numbers of other values. -/
def computeInstValueNumber (number : Value → SrtGvnTable → Option (ℕ × SrtGvnTable)) (x : ℕ)
    (t : SrtGvnTable) : Option (ℕ × SrtGvnTable) :=
  let inst := p.insts x
  if inst.op.mayHaveSideEffects then some (t.nextValueNumber (.inst x))
  else if inst.op = .phi then do
    let source ← p.breadthFirstSearch Opcode.isSource x
    let n ← number (.inst source) t
    some (n.1, n.2.record (.inst x) n.1)
  else if inst.op.isSource then do
    let (iv, t) ← makeInstVector number inst t
    match t.iv_to_vn iv with
    | some vn => some (vn, t.record (.inst x) vn)
    | none =>
      let n := t.nextValueNumber (.inst x)
      some (n.1, { n.2 with iv_to_vn := Function.update n.2.iv_to_vn iv (some n.1) })
  else some (t.nextValueNumber (.inst x))

/-- `GetValueNumber`, with the number of calls that may be under way. -/
def getValueNumber : ℕ → Value → SrtGvnTable → Option (ℕ × SrtGvnTable)
  | 0, _, _ => none
  | calls + 1, v, t => do
    let v ← p.resolved v
    match t.value_numbers v with
    | some vn => some (vn, t)
    | none =>
      match v with
      | .inst x => p.computeInstValueNumber (getValueNumber calls) x t
      | v => some (t.nextValueNumber v)

end Program

end ShadPS4.IR
