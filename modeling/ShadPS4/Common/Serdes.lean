import ShadPS4.Lib.Layout

/-!
# `Serialization::Archive`

A shader cache is kept in archives.
-/

namespace ShadPS4

/-- Values that are copied as the bytes of their object. -/
class TriviallyCopyable (α : Type) where
  sizeof : ℕ
  bytes : α → List UInt8
  ofBytes : List UInt8 → α
  length_bytes : ∀ value, (bytes value).length = sizeof
  ofBytes_bytes : ∀ value, ofBytes (bytes value) = value

open TriviallyCopyable

/-- An object whose layout does not matter. -/
abbrev Blob (n : ℕ) : Type := { bytes : List UInt8 // bytes.length = n }

def Blob.zero (n : ℕ) : Blob n := ⟨List.replicate n 0, List.length_replicate⟩

instance (n : ℕ) : TriviallyCopyable (Blob n) where
  sizeof := n
  bytes := Subtype.val
  ofBytes bytes := if h : bytes.length = n then ⟨bytes, h⟩ else ⟨List.replicate n 0, List.length_replicate⟩
  length_bytes := Subtype.property
  ofBytes_bytes value := dif_pos value.property

theorem ofNat_leRead_leBytes (hw : w = 8 * count) (value : BitVec w) :
    BitVec.ofNat w (leRead (leBytes value.toNat count) 0 count) = value := by
  have hread : leRead (leBytes value.toNat count) 0 count = value.toNat % 2^(8 * count) := by
    apply leRead_of_leByte
    intro i hi
    unfold leBytes
    rw [Nat.zero_add, List.getElem?_map, List.getElem?_range hi]
    rfl
  rw [hread, ← hw, Nat.mod_eq_of_lt value.isLt, BitVec.ofNat_toNat, BitVec.setWidth_eq]

@[reducible] def wordCopyable (w count : ℕ) (hw : w = 8 * count) : TriviallyCopyable (BitVec w) where
  sizeof := count
  bytes value := leBytes value.toNat count
  ofBytes bytes := BitVec.ofNat w (leRead bytes 0 count)
  length_bytes value := length_leBytes value.toNat count
  ofBytes_bytes := ofNat_leRead_leBytes hw

instance : TriviallyCopyable (BitVec 8) := wordCopyable 8 1 rfl

instance : TriviallyCopyable (BitVec 32) := wordCopyable 32 4 rfl

instance : TriviallyCopyable (BitVec 64) := wordCopyable 64 8 rfl

/-- Two values one behind the other. -/
instance {α β : Type} [TriviallyCopyable α] [TriviallyCopyable β] : TriviallyCopyable (α × β) where
  sizeof := sizeof α + sizeof β
  bytes value := bytes value.1 ++ bytes value.2
  ofBytes bytes := (ofBytes (bytes.take (sizeof α)), ofBytes (bytes.drop (sizeof α)))
  length_bytes value := by rw [List.length_append, length_bytes, length_bytes]
  ofBytes_bytes value := by
    rw [← length_bytes value.1, List.take_left, List.drop_left, ofBytes_bytes, ofBytes_bytes]

structure Archive where
  offset : ℕ := 0
  container : List UInt8 := []

namespace Archive

variable (ar : Archive)

def grow (size : ℕ) : Archive := { ar with container := ar.container ++ List.replicate size 0 }

/-- `Advance`, whose assertion must hold. -/
def advance (size : ℕ) : Option Archive :=
  if ar.offset + size ≤ ar.container.length then some { ar with offset := (ar.offset + size) % 2^32 }
  else none

/-- `memcpy` to `CurrPtr`. -/
def copyTo (bytes : List UInt8) : Option Archive :=
  if ar.offset + bytes.length ≤ ar.container.length then
    some { ar with container :=
      ar.container.take ar.offset ++ (bytes ++ ar.container.drop (ar.offset + bytes.length)) }
  else none

/-- `memcpy` from `CurrPtr`. -/
def copyFrom (size : ℕ) : Option (List UInt8) :=
  if ar.offset + size ≤ ar.container.length then some ((ar.container.drop ar.offset).take size) else none

end Archive

abbrev Serdes : Type → Type := StateT Archive Option

variable {α β : Type} [TriviallyCopyable α]

namespace Writer

/-- `Grow` of the archive. -/
def grow (size : ℕ) : Serdes Unit := fun ar => some ((), ar.grow size)

/-- `Write` of a block. -/
def writeBytes (bytes : List UInt8) : Serdes Unit := fun ar => do
  let ar := if ar.offset + bytes.length ≥ ar.container.length then ar.grow bytes.length else ar
  let ar ← ar.copyTo bytes
  let ar ← ar.advance bytes.length
  pure ((), ar)

/-- `Write` of a value. -/
def write (value : α) : Serdes Unit := writeBytes (bytes value)

def writeElems : List α → Serdes Unit
  | [] => pure ()
  | elem :: rest => do
    write elem
    writeElems rest

/-- `Write` of a container. -/
def writeVector (v : List α) : Serdes Unit := do
  write (BitVec.ofNat 64 v.length)
  writeElems v

def writeString (s : List UInt8) : Serdes Unit := do
  write (BitVec.ofNat 64 s.length)
  writeBytes s

end Writer

namespace Reader

/-- `Read` of a block; its assertion is the one of `Advance`. -/
def readBytes (size : ℕ) : Serdes (List UInt8) := fun ar => do
  let bytes ← ar.copyFrom size
  let ar ← ar.advance size
  pure (bytes, ar)

/-- `Read` of a value. -/
def read (α : Type) [TriviallyCopyable α] : Serdes α := do
  let bytes ← readBytes (sizeof α)
  pure (ofBytes bytes)

/-- The elements of a container, behind those that are there. -/
def readElems (v : List α) : ℕ → Serdes (List α)
  | 0 => pure v
  | count + 1 => do
    let elem ← read α
    readElems (v ++ [elem]) count

/-- `Read` of a container. Its loop counts in an `int`, which must not overflow. -/
def readVector (v : List α) : Serdes (List α) := do
  let num_elements ← read (BitVec 64)
  if num_elements.toNat < 2^31 then readElems v num_elements.toNat else StateT.lift none

def readString : Serdes (List UInt8) := do
  let length ← read (BitVec 64)
  readBytes length.toNat

end Reader

end ShadPS4
