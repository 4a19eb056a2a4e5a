import ShadPS4.Common.Serdes

/-!
# What a writer writes and a reader reads

`Writes x bs` says that a function puts the bytes `bs` behind what was written before, whatever space was grown
behind the offset; `Reads x bs v` says that a function takes the bytes `bs` at the offset and gives `v`.
-/

namespace ShadPS4

open List
open BitVec (ofNat)
open TriviallyCopyable

variable {α β γ : Type} [TriviallyCopyable α] {x y : Serdes Unit} {bs bs' : List UInt8}

/-! ## Writing -/

/-- A function puts some bytes behind what was written before. -/
def Writes (x : Serdes Unit) (bs : List UInt8) : Prop :=
  ∀ ar : Archive, ar.offset ≤ ar.container.length → ar.offset + bs.length < 2^32 →
    ∃ ar', x ar = some ((), ar') ∧ ar'.offset = ar.offset + bs.length ∧
      ar'.offset ≤ ar'.container.length ∧
        ar'.container.take ar'.offset = ar.container.take ar.offset ++ bs

theorem Writes.pure : Writes (Pure.pure ()) [] := by
  intro ar hin _
  exact ⟨ar, rfl, rfl, hin, (append_nil _).symm⟩

theorem Writes.bind (hx : Writes x bs) (hy : Writes y bs') : Writes (x >>= fun _ => y) (bs ++ bs') := by
  intro ar hin hlt
  rw [length_append] at hlt
  obtain ⟨ar1, hrun1, hoffset1, hin1, hwritten1⟩ := hx ar hin (by omega)
  obtain ⟨ar2, hrun2, hoffset2, hin2, hwritten2⟩ := hy ar1 hin1 (by omega)
  refine ⟨ar2, ?_, ?_, hin2, ?_⟩
  · show (x ar).bind (fun p => y p.2) = _
    rw [hrun1]
    exact hrun2
  · rw [length_append]
    omega
  · rw [hwritten2, hwritten1, append_assoc]

theorem writes_grow (size : ℕ) : Writes (Writer.grow size) [] := by
  intro ar hin _
  refine ⟨ar.grow size, rfl, rfl, ?_, ?_⟩
  · show ar.offset ≤ (ar.container ++ replicate size 0).length
    rw [length_append]
    omega
  · show (ar.container ++ replicate size 0).take ar.offset = _
    rw [take_append_of_le_length hin, append_nil]

theorem writes_writeBytes (bs : List UInt8) : Writes (Writer.writeBytes bs) bs := by
  intro ar hin hlt
  -- The container has room for the block, grown or not.
  obtain ⟨ar1, har1, hoffset, hroom, htake⟩ : ∃ ar1,
      (if ar.offset + bs.length ≥ ar.container.length then ar.grow bs.length else ar) = ar1 ∧
        ar1.offset = ar.offset ∧ ar.offset + bs.length ≤ ar1.container.length ∧
          ar1.container.take ar.offset = ar.container.take ar.offset := by
    split_ifs with hfull
    · refine ⟨_, rfl, rfl, ?_, ?_⟩
      · unfold Archive.grow
        rw [length_append, length_replicate]
        omega
      · exact take_append_of_le_length hin
    · exact ⟨_, rfl, rfl, by omega, rfl⟩
  have hlength : (ar1.container.take ar.offset ++
      (bs ++ ar1.container.drop (ar.offset + bs.length))).length = ar1.container.length := by
    simp only [length_append, length_take, length_drop]
    omega
  unfold Writer.writeBytes
  dsimp only
  rw [har1]
  unfold Archive.copyTo Archive.advance
  rw [hoffset, if_pos hroom, Option.bind_eq_bind, Option.bind_some, if_pos (by rw [hlength]; exact hroom)]
  refine ⟨_, rfl, Nat.mod_eq_of_lt hlt, ?_, ?_⟩
  · dsimp only
    rw [hlength, Nat.mod_eq_of_lt hlt]
    exact hroom
  · dsimp only
    have hfront : (ar.container.take ar.offset ++ bs).length = ar.offset + bs.length := by
      rw [length_append, length_take]
      omega
    rw [Nat.mod_eq_of_lt hlt, htake, ← append_assoc, ← hfront, take_left]

theorem writes_write (value : α) : Writes (Writer.write value) (bytes value) := writes_writeBytes _

variable (v : List α)

theorem writes_writeElems : Writes (Writer.writeElems v) (v.flatMap bytes) := by
  induction v with
  | nil => exact Writes.pure
  | cons elem rest ih => exact (writes_write elem).bind ih

/-- The bytes of a container: its size and its elements. -/
def vectorBytes : List UInt8 := bytes (ofNat 64 v.length) ++ v.flatMap bytes

theorem writes_writeVector : Writes (Writer.writeVector v) (vectorBytes v) :=
  (writes_write _).bind (writes_writeElems v)

theorem writes_writeString (s : List UInt8) : Writes (Writer.writeString s) (bytes (ofNat 64 s.length) ++ s) :=
  (writes_write _).bind (writes_writeBytes s)

/-! ## Reading -/

/-- A function takes some bytes at the offset and gives a value. -/
def Reads (x : Serdes β) (bs : List UInt8) (value : β) : Prop :=
  ∀ ar : Archive, At ar.container ar.offset bs → ar.offset + bs.length ≤ ar.container.length →
    ar.offset + bs.length < 2^32 → x ar = some (value, { ar with offset := ar.offset + bs.length })

theorem Reads.pure (value : β) : Reads (Pure.pure value) [] value := fun _ _ _ _ => rfl

theorem Reads.bind {x : Serdes β} {f : β → Serdes γ} {value : β} {result : γ} (hx : Reads x bs value)
    (hf : Reads (f value) bs' result) : Reads (x >>= f) (bs ++ bs') result := by
  intro ar hat hin hlt
  rw [length_append] at hin hlt
  show (x ar).bind (fun p => f p.1 p.2) = _
  rw [hx ar hat.left (by omega) (by omega), Option.bind_some]
  have hrest := hf { ar with offset := ar.offset + bs.length } hat.right (by dsimp only; omega)
    (by dsimp only; omega)
  rw [hrest, length_append, Nat.add_assoc]

theorem Reads.map {x : Serdes β} {value : β} (hx : Reads x bs value) (f : β → γ) : Reads (f <$> x) bs (f value) := by
  intro ar hat hin hlt
  show (x ar).bind (fun p => some (f p.1, p.2)) = _
  rw [hx ar hat hin hlt]
  rfl

theorem Reads.lift_bind {f : β → Serdes γ} {value : β} {result : γ} (hf : Reads (f value) bs result) :
    Reads (StateT.lift (some value) >>= f) bs result := hf

theorem reads_readBytes (bs : List UInt8) : Reads (Reader.readBytes bs.length) bs bs := by
  intro ar hat hin hlt
  obtain ⟨rest, hrest⟩ := hat
  unfold Reader.readBytes Archive.copyFrom Archive.advance
  rw [if_pos hin, if_pos hin, ← hrest, take_left, Nat.mod_eq_of_lt hlt]
  rfl

theorem reads_read (value : α) : Reads (Reader.read α) (bytes value) value := by
  have hblock := reads_readBytes (bytes value)
  rw [length_bytes] at hblock
  have hpure : Reads (Pure.pure (ofBytes (bytes value) : α)) [] value := by
    rw [ofBytes_bytes]
    exact Reads.pure value
  rw [← append_nil (bytes value)]
  exact hblock.bind hpure

theorem reads_readElems (v v' : List α) : Reads (Reader.readElems v v'.length) (v'.flatMap bytes) (v ++ v') := by
  induction v' generalizing v with
  | nil =>
    rw [append_nil]
    exact Reads.pure v
  | cons elem rest ih =>
    have hrest := ih (v ++ [elem])
    rw [append_assoc] at hrest
    exact (reads_read elem).bind hrest

theorem reads_readVector {v : List α} (hv : v.length < 2^31) : Reads (Reader.readVector []) (vectorBytes v) v := by
  apply (reads_read (ofNat 64 v.length)).bind
  have hlength : (ofNat 64 v.length).toNat = v.length := by
    exact Nat.mod_eq_of_lt (by omega)
  rw [hlength, if_pos hv]
  exact reads_readElems [] v

theorem reads_readString {s : List UInt8} (hs : s.length < 2^64) :
    Reads Reader.readString (bytes (ofNat 64 s.length) ++ s) s := by
  apply (reads_read (ofNat 64 s.length)).bind
  have hlength : (ofNat 64 s.length).toNat = s.length := by
    exact Nat.mod_eq_of_lt hs
  rw [hlength]
  exact reads_readBytes s

theorem length_vectorBytes : (vectorBytes v).length = 8 + v.length * sizeof α := by
  unfold vectorBytes
  rw [length_append, length_bytes, length_flatMap, map_congr_left (fun x _ => length_bytes x),
    map_const', sum_replicate_nat]
  rfl

/-- A function that is given some bytes does not end. -/
def Overflows (x : Serdes β) (bs : List UInt8) : Prop :=
  ∀ ar : Archive, At ar.container ar.offset bs → ar.offset + bs.length ≤ ar.container.length →
    ar.offset + bs.length < 2^32 → x ar = none

theorem Reads.bind_overflows {x : Serdes β} {f : β → Serdes γ} {value : β} (hx : Reads x bs value)
    (hf : Overflows (f value) bs') : Overflows (x >>= f) (bs ++ bs') := by
  intro ar hat hin hlt
  rw [length_append] at hin hlt
  show (x ar).bind (fun p => f p.1 p.2) = _
  rw [hx ar hat.left (by omega) (by omega), Option.bind_some]
  exact hf { ar with offset := ar.offset + bs.length } hat.right (by dsimp only; omega)
    (by dsimp only; omega)

theorem Overflows.bind {x : Serdes β} (hx : Overflows x bs) (f : β → Serdes γ) : Overflows (x >>= f) bs := by
  intro ar hat hin hlt
  show (x ar).bind (fun p => f p.1 p.2) = _
  rw [hx ar hat hin hlt]
  rfl

theorem Overflows.lift_bind {f : β → Serdes γ} {value : β} (hf : Overflows (f value) bs) :
    Overflows (StateT.lift (some value) >>= f) bs := hf

theorem overflows_readVector {v : List α} (hv : 2^31 ≤ v.length) (hv' : v.length < 2^64) :
    Overflows (Reader.readVector ([] : List α)) (vectorBytes v) := by
  apply (reads_read (ofNat 64 v.length)).bind_overflows
  have hlength : (ofNat 64 v.length).toNat = v.length := by
    exact Nat.mod_eq_of_lt hv'
  rw [hlength, if_neg (by omega)]
  exact fun _ _ _ _ => rfl

end ShadPS4
