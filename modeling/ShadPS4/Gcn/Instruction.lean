import Mathlib.Data.Int.Bitwise

/-!
# Decoded instructions

What the control flow graph reads of a decoded instruction (`GcnInst`), and the questions that it asks about one.
-/

namespace ShadPS4.Gcn

/-- `Opcode`, as its number. -/
abbrev Opcode : Type := ℕ

namespace Opcode

abbrev mapSop2 : ℕ := 0
abbrev mapSopk : ℕ := mapSop2 + 45
abbrev mapSop1 : ℕ := mapSopk + 22
abbrev mapSopc : ℕ := mapSop1 + 54
abbrev mapSopp : ℕ := mapSopc + 17
abbrev mapVopc : ℕ := mapSopp + 27
abbrev mapVop2 : ℕ := mapVopc + 248
abbrev mapVop1 : ℕ := mapVop2 + 60

abbrev sAddU32 : Opcode := 0 + mapSop2
abbrev sSubU32 : Opcode := 1 + mapSop2
abbrev sAndn2B64 : Opcode := 21 + mapSop2
abbrev sCbranchGFork : Opcode := 43 + mapSop2
abbrev sCbranchIFork : Opcode := 17 + mapSopk
abbrev sMovB64 : Opcode := 4 + mapSop1
abbrev sGetpcB64 : Opcode := 31 + mapSop1
abbrev sSetpcB64 : Opcode := 32 + mapSop1
abbrev sAndSaveexecB64 : Opcode := 36 + mapSop1
abbrev sCbranchJoin : Opcode := 50 + mapSop1
abbrev sEndpgm : Opcode := 1 + mapSopp
abbrev sBranch : Opcode := 2 + mapSopp
abbrev sCbranchScc0 : Opcode := 4 + mapSopp
abbrev sCbranchScc1 : Opcode := 5 + mapSopp
abbrev sCbranchVccz : Opcode := 6 + mapSopp
abbrev sCbranchVccnz : Opcode := 7 + mapSopp
abbrev sCbranchExecz : Opcode := 8 + mapSopp
abbrev sCbranchExecnz : Opcode := 9 + mapSopp
abbrev sCbranchCdbgsys : Opcode := 23 + mapSopp
abbrev sCbranchCdbguser : Opcode := 24 + mapSopp
abbrev sCbranchCdbgsysOrUser : Opcode := 25 + mapSopp
abbrev sCbranchCdbgsysAndUser : Opcode := 26 + mapSopp
abbrev vCmpxFF32 : Opcode := 16 + mapVopc
abbrev vCmpxTF32 : Opcode := 31 + mapVopc
abbrev vCmpxFF64 : Opcode := 48 + mapVopc
abbrev vCmpxTF64 : Opcode := 63 + mapVopc
abbrev vCmpsxFF32 : Opcode := 80 + mapVopc
abbrev vCmpsxTF32 : Opcode := 95 + mapVopc
abbrev vCmpsxFF64 : Opcode := 112 + mapVopc
abbrev vCmpsxTF64 : Opcode := 127 + mapVopc
abbrev vCmpxFI32 : Opcode := 144 + mapVopc
abbrev vCmpxClassF32 : Opcode := 152 + mapVopc
abbrev vCmpxFI64 : Opcode := 176 + mapVopc
abbrev vCmpxClassF64 : Opcode := 184 + mapVopc
abbrev vCmpxFU32 : Opcode := 208 + mapVopc
abbrev vCmpxTU32 : Opcode := 215 + mapVopc
abbrev vCmpxFU64 : Opcode := 240 + mapVopc
abbrev vCmpxTU64 : Opcode := 247 + mapVopc
abbrev vReadlaneB32 : Opcode := 1 + mapVop2
abbrev vWritelaneB32 : Opcode := 2 + mapVop2
abbrev vReadfirstlaneB32 : Opcode := 2 + mapVop1

end Opcode

inductive InstCategory
  | undefined
  | scalarALU
  | scalarMemory
  | vectorALU
  | vectorMemory
  | flowControl
  | dataShare
  | vectorInterpolation
  | export
  | debugProfile
deriving DecidableEq

/-- `OperandField`, as its number. -/
abbrev OperandField : Type := ℕ

namespace OperandField
abbrev execLo : OperandField := 126
abbrev literalConst : OperandField := 255
abbrev undefined : OperandField := 0xFFFFFFFF
end OperandField

structure InstOperand where
  field : OperandField := OperandField.undefined
  code : BitVec 32 := 0xFFFFFFFF
deriving DecidableEq

structure GcnInst where
  opcode : Opcode
  category : InstCategory
  simm : BitVec 16 := 0
  length : ℕ := 4
  src_count : ℕ := 0
  src0 : InstOperand := {}
  src1 : InstOperand := {}
  dst0 : InstOperand := {}
deriving DecidableEq

namespace GcnInst

variable (inst : GcnInst)

def branchTarget (pc : ℕ) : ℕ :=
  let simm := inst.simm.toInt * 4
  ((pc + simm + 4) % 2^32).toNat

def isUnconditionalBranch : Bool :=
  inst.opcode = Opcode.sBranch || inst.opcode = Opcode.sSetpcB64

def isFork : Bool :=
  inst.opcode = Opcode.sCbranchIFork || inst.opcode = Opcode.sCbranchGFork ||
    inst.opcode = Opcode.sCbranchJoin

/-- The cases of `IsConditionalBranch` that it has. -/
def isCbranch : Bool :=
  inst.opcode = Opcode.sCbranchScc0 || inst.opcode = Opcode.sCbranchScc1 ||
    inst.opcode = Opcode.sCbranchVccz || inst.opcode = Opcode.sCbranchVccnz ||
    inst.opcode = Opcode.sCbranchExecz || inst.opcode = Opcode.sCbranchExecnz

/-- The cases of `IsConditionalBranch` that are not implemented. -/
def isCdbg : Bool :=
  inst.opcode = Opcode.sCbranchCdbgsys || inst.opcode = Opcode.sCbranchCdbguser ||
    inst.opcode = Opcode.sCbranchCdbgsysOrUser || inst.opcode = Opcode.sCbranchCdbgsysAndUser

def isCmpx : Bool :=
  (Opcode.vCmpxFF32 ≤ inst.opcode && inst.opcode ≤ Opcode.vCmpxTF32) ||
  (Opcode.vCmpxFF64 ≤ inst.opcode && inst.opcode ≤ Opcode.vCmpxTF64) ||
  (Opcode.vCmpsxFF32 ≤ inst.opcode && inst.opcode ≤ Opcode.vCmpsxTF32) ||
  (Opcode.vCmpsxFF64 ≤ inst.opcode && inst.opcode ≤ Opcode.vCmpsxTF64) ||
  (Opcode.vCmpxFI32 ≤ inst.opcode && inst.opcode ≤ Opcode.vCmpxClassF32) ||
  (Opcode.vCmpxFI64 ≤ inst.opcode && inst.opcode ≤ Opcode.vCmpxClassF64) ||
  (Opcode.vCmpxFU32 ≤ inst.opcode && inst.opcode ≤ Opcode.vCmpxTU32) ||
  (Opcode.vCmpxFU64 ≤ inst.opcode && inst.opcode ≤ Opcode.vCmpxTU64)

end GcnInst

def ignoresExecMask (inst : GcnInst) : Bool :=
  match inst.category with
  | .scalarALU | .scalarMemory | .flowControl => true
  | _ => inst.opcode = Opcode.vReadlaneB32 || inst.opcode = Opcode.vWritelaneB32 ||
    inst.opcode = Opcode.vReadfirstlaneB32

end ShadPS4.Gcn
