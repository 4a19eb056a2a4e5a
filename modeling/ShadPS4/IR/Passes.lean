import ShadPS4.IR.Inst

/-!
# `DeadCodeEliminationPass` and `IdentityRemovalPass`

The passes that remove instructions: those that are not used and have no side effects, and those that only
pass a value on.
-/

namespace ShadPS4.IR

namespace Program

variable (p : Program)

def erase (block x : ℕ) : Program :=
  { p with blocks := Function.update p.blocks block ((p.blocks block).erase x) }

/-- The turn of the loop of `DeadCodeEliminationPass` for an instruction. -/
def eliminate (block : ℕ) (p : Program) (x : ℕ) : Option Program :=
  if (p.insts x).uses = [] ∧ (p.insts x).op.mayHaveSideEffects = false then do
    let p₁ ← p.invalidate x
    some (p₁.erase block x)
  else some p

/-- `DeadCodeEliminationPass`. -/
def deadCodeElimination (post_order_blocks : List ℕ) : Option Program :=
  post_order_blocks.foldlM
    (fun p block => (p.blocks block).reverse.foldlM (eliminate block) p) p

/-- The loop over an operand that is an `Identity`, with the number of turns that are left. -/
def skipIdentities (u index : ℕ) : ℕ → Program → Option Program
  | 0, _ => none
  | turns + 1, p =>
    match (p.insts u).arg index with
    | .inst x =>
      if (p.insts x).op = .identity then do
        let p₁ ← p.setArg u index ((p.insts x).arg 0)
        skipIdentities u index turns p₁
      else some p
    | _ => some p

/-- The loop over the operands of an instruction. -/
def skipOperands (u : ℕ) : Option Program :=
  (List.range (p.insts u).numArgs).foldlM
    (fun p index => skipIdentities u index (p.created + 1) p) p

/-- The turn of the loop of `IdentityRemovalPass` for an instruction. -/
def removeIdentity (block : ℕ) (r : Program × List ℕ) (x : ℕ) : Option (Program × List ℕ) := do
  let p₁ ← r.1.skipOperands x
  if (p₁.insts x).op = .identity ∨ (p₁.insts x).op = .void then
    some (p₁.erase block x, r.2 ++ [x])
  else some (p₁, r.2)

/-- `IdentityRemovalPass`. -/
def identityRemoval (blocks : List ℕ) : Option Program := do
  let (p₁, to_invalidate) ← blocks.foldlM
    (fun r block => (r.1.blocks block).foldlM (removeIdentity block) r) (p, [])
  to_invalidate.foldlM (fun p x => p.invalidate x) p₁

end Program

inductive IROp
  | prependNewInst (block insertion_point : ℕ) (op : Opcode) (args : List Value) (flags : ℕ)
  | setArg (u index : ℕ) (value : Value)
  | addPhiOperand (u predecessor : ℕ) (value : Value)
  | clearArgs (u : ℕ)
  | invalidate (u : ℕ)
  | replaceUsesWith (x : ℕ) (replacement : Value) (preserve : Bool)
  | deadCodeElimination (post_order_blocks : List ℕ)
  | identityRemoval (blocks : List ℕ)

namespace Program

def Valid (p : Program) (value : Value) : Prop := ∀ x ∈ value.inst?, x < p.created

instance (p : Program) (value : Value) : Decidable (p.Valid value) :=
  inferInstanceAs (Decidable (∀ x ∈ value.inst?, x < p.created))

/-- A step of a run, on instructions that were created. -/
def step (p : Program) : IROp → Option Program
  | .prependNewInst block insertion_point op args flags =>
    if insertion_point ≤ (p.blocks block).length ∧ ∀ value ∈ args, p.Valid value then
      p.prependNewInst block insertion_point op args flags
    else none
  | .setArg u index value =>
    if u < p.created ∧ p.Valid value then p.setArg u index value else none
  | .addPhiOperand u predecessor value =>
    if u < p.created ∧ p.Valid value then p.addPhiOperand u predecessor value else none
  | .clearArgs u => if u < p.created then p.clearArgs u else none
  | .invalidate u => if u < p.created then p.invalidate u else none
  | .replaceUsesWith x replacement preserve =>
    if x < p.created ∧ p.Valid replacement then p.replaceUsesWith x replacement preserve else none
  | .deadCodeElimination post_order_blocks => p.deadCodeElimination post_order_blocks
  | .identityRemoval blocks => p.identityRemoval blocks

end Program

end ShadPS4.IR
