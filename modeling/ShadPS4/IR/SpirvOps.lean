import ShadPS4.Lib.Bits

/-!
# SPIR-V instructions

What the instructions that the backend emits compute, for integers and fields. An instruction has no
result where SPIR-V leaves it undefined.
-/

namespace ShadPS4.Spirv

open BitVec (ofNat eq_of_getLsbD_eq)

variable {w : ℕ}

section

variable (a b : BitVec w)

/-- `OpIAdd`: the low bits of the sum. -/
def iAdd : BitVec w := ofNat w (a.toNat + b.toNat)

/-- `OpISub`: the low bits of the difference. -/
def iSub : BitVec w := BitVec.ofInt w (a.toNat - b.toNat)

/-- `OpIMul`: the low bits of the product. -/
def iMul : BitVec w := ofNat w (a.toNat * b.toNat)

/-- `OpUDiv`. It is undefined for the divisor 0. -/
def uDiv : Option (BitVec w) :=
  if b.toNat = 0 then none else some (ofNat w (a.toNat / b.toNat))

/-- `OpUMod`. It is undefined for the divisor 0. -/
def uMod : Option (BitVec w) :=
  if b.toNat = 0 then none else some (ofNat w (a.toNat % b.toNat))

/-- `OpShiftLeftLogical`: zeros come in. It is undefined for a shift of the width or more. -/
def shiftLeftLogical (base shift : BitVec w) : Option (BitVec w) :=
  if shift.toNat ≥ w then none
  else some (ofBits w fun i => decide (shift.toNat ≤ i) && base.getLsbD (i - shift.toNat))

/-- `OpShiftRightLogical`: zeros come in. It is undefined for a shift of the width or more. -/
def shiftRightLogical (base shift : BitVec w) : Option (BitVec w) :=
  if shift.toNat ≥ w then none
  else some (ofBits w fun i => base.getLsbD (shift.toNat + i))

/-- `OpShiftRightArithmetic`: the sign bit comes in. It is undefined for a shift of the width or more. -/
def shiftRightArithmetic (base shift : BitVec w) : Option (BitVec w) :=
  if shift.toNat ≥ w then none
  else some (ofBits w fun i =>
    if shift.toNat + i < w then base.getLsbD (shift.toNat + i) else base.msb)

def bitwiseAnd : BitVec w := ofBits w fun i => a.getLsbD i && b.getLsbD i

def bitwiseOr : BitVec w := ofBits w fun i => a.getLsbD i || b.getLsbD i

def bitwiseXor : BitVec w := ofBits w fun i => a.getLsbD i != b.getLsbD i

end

def not (a : BitVec w) : BitVec w := ofBits w fun i => !a.getLsbD i

theorem bitwiseAnd_eq (a b : BitVec w) : a &&& b = bitwiseAnd a b := by
  refine eq_of_getLsbD_eq fun i hi => ?_
  unfold bitwiseAnd
  rw [getLsbD_ofBits, BitVec.getLsbD_and, decide_eq_true hi, Bool.true_and]

theorem bitwiseOr_eq (a b : BitVec w) : a ||| b = bitwiseOr a b := by
  refine eq_of_getLsbD_eq fun i hi => ?_
  unfold bitwiseOr
  rw [getLsbD_ofBits, BitVec.getLsbD_or, decide_eq_true hi, Bool.true_and]

theorem bitwiseXor_eq (a b : BitVec w) : a ^^^ b = bitwiseXor a b := by
  refine eq_of_getLsbD_eq fun i hi => ?_
  unfold bitwiseXor
  rw [getLsbD_ofBits, BitVec.getLsbD_xor, decide_eq_true hi, Bool.true_and]

theorem not_eq (a : BitVec w) : ~~~a = not a := by
  refine eq_of_getLsbD_eq fun i hi => ?_
  unfold not
  rw [getLsbD_ofBits, BitVec.getLsbD_not]

def bitReverse (base : BitVec w) : BitVec w := ofBits w fun i => base.getLsbD (w - 1 - i)

/-- `OpBitCount`, with a result of 32 bits. -/
def bitCount (base : BitVec w) : BitVec 32 := ofNat 32 (countOnes base)

def Within (offset count : BitVec 32) : Prop := offset.toNat + count.toNat ≤ 32

instance (offset count : BitVec 32) : Decidable (Within offset count) := Nat.decLe _ _

/-- `OpBitFieldUExtract`. It is undefined for a field that is not within the word. -/
def bitFieldUExtract (base offset count : BitVec 32) : Option (BitVec 32) :=
  if Within offset count then some (extractField base offset.toNat count.toNat false) else none

/-- `OpBitFieldSExtract`: above the field are copies of its last bit, and a field without bits gives 0. -/
def bitFieldSExtract (base offset count : BitVec 32) : Option (BitVec 32) :=
  if Within offset count then
    if count.toNat = 0 then some 0
    else some (extractField base offset.toNat count.toNat
      (base.getLsbD (offset.toNat + count.toNat - 1)))
  else none

/-- `OpBitFieldInsert`. It is undefined for a field that is not within the word. -/
def bitFieldInsert (base insert offset count : BitVec 32) : Option (BitVec 32) :=
  if Within offset count then some (insertField base insert offset.toNat count.toNat) else none

end ShadPS4.Spirv
