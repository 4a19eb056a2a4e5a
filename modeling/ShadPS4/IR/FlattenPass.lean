import ShadPS4.IR.SrtGvnTable
import ShadPS4.Lib.OrdMap

/-!
# `FlattenExtendedUserdataPass`

The dwords that a shader reads from resource tables in memory, at offsets that are known, are copied into one
buffer by a program that is generated for the shader, the walker.
-/

namespace ShadPS4.IR

open Function (update)

def numUserDataRegs : ℕ := 16

inductive Code
  | pushRdi
  | movRdi (disp : BitVec 64)
  | movR10 (imm : BitVec 64)
  | andRdi
  | movR10d (disp : BitVec 64)
  /-- `mov [rsi + (dst << 2)], r10d` -/
  | store (dst : ℕ)
  | popRdi
  | ret

structure Walker where
  rdi : BitVec 64
  r10 : BitVec 64
  stack : List (BitVec 64)
  /-- the dwords of the buffer in `rsi` -/
  flat : ℕ → BitVec 32

abbrev Dwords := BitVec 64 → BitVec 32

/-- An instruction of the walker is carried out. `ret` returns when what was pushed was popped. -/
def Code.exec (mem : Dwords) (m : Walker) : Code → Option Walker
  | .pushRdi => some { m with stack := m.rdi :: m.stack }
  | .movRdi disp => some { m with rdi := mem (m.rdi + disp + 4) ++ mem (m.rdi + disp) }
  | .movR10 imm => some { m with r10 := imm }
  | .andRdi => some { m with rdi := m.rdi &&& m.r10 }
  | .movR10d disp => some { m with r10 := (mem (m.rdi + disp)).setWidth 64 }
  | .store dst => some { m with flat := update m.flat dst (m.r10.setWidth 32) }
  | .popRdi => m.stack.head?.map fun rdi => { m with rdi, stack := m.stack.tail }
  | .ret => if m.stack = [] then some m else none

def run (mem : Dwords) (code : List Code) (m : Walker) : Option Walker :=
  code.foldlM (fun m c => c.exec mem m) m

/-! ## The pass -/

structure PassInfo where
  gvn_table : SrtGvnTable := {}
  pointer_uses : ℕ → Option (OrdMap ℕ) := fun _ => none
  srt_roots : OrdMap ℕ := .empty
  vn_to_inst : ℕ → Option ℕ := fun _ => none

/-- What is emitted, and the flags that are set meanwhile. -/
structure Emitted where
  code : List Code := []
  dst_off_dw : ℕ := numUserDataRegs
  flags : ℕ → ℕ

/-- An offset in bytes, as a displacement. `Xbyak` takes none that is no signed 32-bit value. -/
def displacement (off_dw : BitVec 32) : Option (BitVec 64) :=
  if (off_dw <<< 2).toNat < 2^31 then some ((off_dw <<< 2).setWidth 64) else none

def pushPtr (s : Emitted) (off_dw : ℕ) : Option Emitted := do
  let disp ← displacement (BitVec.ofNat 32 off_dw)
  some { s with code := s.code ++ [.pushRdi, .movRdi disp, .movR10 0xFFFFFFFFFFFF, .andRdi] }

def popPtr (s : Emitted) : Emitted := { s with code := s.code ++ [.popRdi] }

/-- The turn of the loop of `VisitPointer` that copies a dword. -/
def copyUse (s : Emitted) (use : ℕ × ℕ) : Option Emitted := do
  let disp ← displacement (BitVec.ofNat 32 use.1)
  some {
    code := s.code ++ [.movR10d disp, .store s.dst_off_dw]
    flags := update s.flags use.2 s.dst_off_dw
    dst_off_dw := s.dst_off_dw + 1 }

/-- `VisitPointer`, with the number of calls that may be under way. -/
def visitPointer (pointer_uses : ℕ → Option (OrdMap ℕ)) : ℕ → ℕ → ℕ → Emitted → Option Emitted
  | 0, _, _, _ => none
  | calls + 1, off_dw, subtree, s => do
    let s ← pushPtr s off_dw
    let use_list ← pointer_uses subtree
    let s ← use_list.entries.foldlM copyUse s
    let s ← use_list.entries.foldlM (fun s use =>
      if (pointer_uses use.2).isSome then visitPointer pointer_uses calls use.1 use.2 s else some s) s
    some (popPtr s)

/-- `GenerateSrtProgram`. There is no walker when there are no roots. -/
def generateSrtProgram (calls : ℕ) (info : PassInfo) (flags : ℕ → ℕ) : Option Emitted :=
  if info.srt_roots.entries = [] then some { flags }
  else do
    let s ← info.srt_roots.entries.foldlM
      (fun s root => visitPointer info.pointer_uses calls root.1 root.2 s) { flags }
    some { s with code := s.code ++ [.ret] }

/-- What `FlattenExtendedUserdataPass` takes for the source of a pointer. -/
def Opcode.isPointer : Opcode → Bool
  | .getUserData | .readConst => true
  | _ => false

namespace Program

variable (p : Program)

variable (calls : ℕ)

def deduplicateInstruction (inst : ℕ) (info : PassInfo) : Option (ℕ × PassInfo) := do
  let n ← p.getValueNumber calls (.inst inst) info.gvn_table
  match info.vn_to_inst n.1 with
  | some original => some (original, { info with gvn_table := n.2 })
  | none => some (inst, { info with
      gvn_table := n.2
      vn_to_inst := update info.vn_to_inst n.1 (some inst) })

def scalarReg (value : Value) : Option ℕ := do
  match ← p.resolved value with
  | .imm (.scalarReg reg) => some reg
  | _ => none

def u32 (value : Value) : Option ℕ := do
  match ← p.resolved value with
  | .imm (.u32 value) => some value.toNat
  | _ => none

/-- A read that is the first of its number is put under its pointer. -/
def usePointer (inst : ℕ) (info : PassInfo) : Option PassInfo := do
  let ptr_composite ← (← p.resolved ((p.insts inst).arg 0)).inst?
  let base0 ← p.breadthFirstSearchValue Opcode.isPointer ((p.insts ptr_composite).arg 0)
  let _base1 ← p.breadthFirstSearchValue Opcode.isPointer ((p.insts ptr_composite).arg 1)
  let (ptr_lo, info) ← p.deduplicateInstruction calls base0 info
  let user_list := (info.pointer_uses ptr_lo).getD .empty
  let offset ← p.u32 ((p.insts inst).arg 1)
  let info := { info with
    pointer_uses := update info.pointer_uses ptr_lo (some (user_list.insert offset inst)) }
  if (p.insts ptr_lo).op = .getUserData then do
    let ud_reg ← p.scalarReg ((p.insts ptr_lo).arg 0)
    some { info with srt_roots := info.srt_roots.insert ud_reg ptr_lo }
  else some info

/-- The turn of the loop over the instructions, which come with `all_readconsts`. -/
def visitInst (r : PassInfo × List ℕ) (inst : ℕ) : Option (PassInfo × List ℕ) :=
  if (p.insts inst).op = .readConst then do
    let offset ← p.resolved ((p.insts inst).arg 1)
    if offset.inst?.isSome then some r
    else
      let (original, info) ← p.deduplicateInstruction calls inst r.1
      if original = inst then do
        let info ← p.usePointer calls inst info
        some (info, r.2 ++ [inst])
      else some (info, r.2 ++ [inst])
  else some r

def setFlags (inst flags : ℕ) : Program := p.setInst inst { p.insts inst with flags }

/-- The turn of the loop that gives a read the index of the first of its number. -/
def assignOriginal (r : Program × PassInfo) (readconst : ℕ) : Option (Program × PassInfo) := do
  let (original, info) ← r.1.deduplicateInstruction calls readconst r.2
  some (r.1.setFlags readconst (r.1.insts original).flags, info)

def inOrder (post_order_blocks : List ℕ) : List ℕ := post_order_blocks.reverse.flatMap p.blocks

/-- `FlattenExtendedUserdataPass`, with the number of calls that may be under way. -/
def flattenExtendedUserdata (post_order_blocks : List ℕ) : Option (Program × Emitted) := do
  let (info, all_readconsts) ← (p.inOrder post_order_blocks).foldlM (p.visitInst calls) ({}, [])
  let s ← generateSrtProgram calls info fun x => (p.insts x).flags
  let p₁ := { p with insts := fun x => { p.insts x with flags := s.flags x } }
  let r ← all_readconsts.foldlM (assignOriginal calls) (p₁, info)
  some (r.1, s)

end Program

end ShadPS4.IR
