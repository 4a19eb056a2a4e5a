import Mathlib.Data.Nat.Bitwise
import ShadPS4.Lib.Checked

/-!
# Byte strings and little-endian fields

A byte string is a list of bytes, and an access to it is checked.
-/

namespace ShadPS4

variable {bytes : List UInt8} {count offset value : ℕ}
variable {R : Type} {F : Stop R → Prop}

/-- The field of `count` bytes at `offset`, from the low byte up. -/
def read (bytes : List UInt8) (offset : ℕ) : ℕ → Except (Stop R) ℕ
  | 0 => pure 0
  | count + 1 => do
    let value ← read bytes offset count
    let byte ← fetch bytes (offset + count)
    pure (value ||| byte.toNat <<< (8 * count))

/-- The value of the field of `count` bytes at `offset`; a byte outside the string counts as zero. -/
def leRead (bytes : List UInt8) (offset : ℕ) : ℕ → ℕ
  | 0 => 0
  | count + 1 => leRead bytes offset count ||| ((bytes[offset + count]?).getD 0).toNat <<< (8 * count)

theorem read_eq (h : offset + count ≤ bytes.length) :
    read (R := R) bytes offset count = .ok (leRead bytes offset count) := by
  induction count with
  | zero => rfl
  | succ count ih =>
    unfold read leRead
    rw [ih (by omega)]
    have hin : bytes[offset + count]? = some bytes[offset + count] :=
      List.getElem?_eq_getElem (by omega)
    simp only [fetch, hin]
    rfl

theorem leRead_of_read (h : read (R := R) bytes offset count = .ok value) : value = leRead bytes offset count := by
  induction count generalizing value with
  | zero => exact (pure_eq_ok.mp h).symm
  | succ count ih =>
    unfold leRead
    obtain ⟨low, hlow, h⟩ := bind_eq_ok.mp h
    obtain ⟨byte, hbyte, h⟩ := bind_eq_ok.mp h
    rw [← pure_eq_ok.mp h, ih hlow]
    unfold fetch at hbyte
    split at hbyte
    · next hin =>
      rw [hin, ← Except.ok.inj hbyte]
      rfl
    · cases hbyte

theorem Sat.read (h : offset + count ≤ bytes.length) :
    Sat (read bytes offset count) (fun v => v = leRead bytes offset count) F := by
  rw [read_eq h]
  exact Sat.pure rfl

theorem leRead_lt (bytes : List UInt8) (offset count : ℕ) : leRead bytes offset count < 2^(8 * count) := by
  induction count with
  | zero => simp [leRead]
  | succ count ih =>
    apply Nat.or_lt_two_pow
    · exact lt_of_lt_of_le ih (Nat.pow_le_pow_right (by decide) (by omega))
    · have hbyte := (bytes[offset + count]?.getD 0).toNat_lt
      calc (bytes[offset + count]?.getD 0).toNat <<< (8 * count)
          = (bytes[offset + count]?.getD 0).toNat * 2^(8 * count) := Nat.shiftLeft_eq _ _
        _ < 2^8 * 2^(8 * count) := Nat.mul_lt_mul_of_pos_right hbyte (Nat.two_pow_pos _)
        _ = 2^(8 * (count + 1)) := by rw [← pow_add]; congr 1; ring

theorem leRead_take {n : ℕ} (h : offset + count ≤ n) :
    leRead (bytes.take n) offset count = leRead bytes offset count := by
  induction count with
  | zero => rfl
  | succ count ih =>
    unfold leRead
    rw [ih (by omega), List.getElem?_take_of_lt (by omega)]

/-! ## Blocks -/

/-- Copy the `count` bytes of `source` at `first` into `target` at `offset`, from the first one. -/
def copyN (source : List UInt8) (first : ℕ) (target : List UInt8) (offset : ℕ) : ℕ → Except (Stop R) (List UInt8)
  | 0 => pure target
  | count + 1 => do
    let target ← copyN source first target offset count
    let byte ← fetch source (first + count)
    put target (offset + count) byte

theorem Sat.copyN {source target : List UInt8} {first : ℕ}
    (hs : first + count ≤ source.length) (ht : offset + count ≤ target.length) :
    Sat (copyN source first target offset count) (fun out => out.length = target.length ∧
      ∀ j, out[j]? = if offset ≤ j ∧ j < offset + count then source[first + (j - offset)]?
        else target[j]?) F := by
  induction count with
  | zero =>
    refine Sat.pure ⟨rfl, fun j => ?_⟩
    rw [if_neg (by omega)]
  | succ count ih =>
    refine Sat.bind (ih (by omega) (by omega)) fun out ⟨hlen, hout⟩ => ?_
    refine Sat.bind (Sat.fetch (by omega)) fun byte hbyte => ?_
    refine (Sat.put (by omega)).mono fun out' hout' => ?_
    subst hout'
    refine ⟨by rw [List.length_set, hlen], fun j => ?_⟩
    by_cases hj : offset + count = j
    · subst hj
      rw [List.getElem?_set_self (by omega), if_pos (by omega), Nat.add_sub_cancel_left, hbyte]
    · rw [List.getElem?_set_ne hj, hout j]
      by_cases hin : offset ≤ j ∧ j < offset + count
      · rw [if_pos hin, if_pos (by omega)]
      · rw [if_neg hin, if_neg (by omega)]

/-- The `i`-th little-endian byte of a word. -/
def leByte (value i : ℕ) : UInt8 := UInt8.ofNat (value >>> (i * 8))

/-- Store the `count` low bytes of a word at `offset`, from the low byte up. -/
def write (bytes : List UInt8) (offset value : ℕ) : ℕ → Except (Stop R) (List UInt8)
  | 0 => pure bytes
  | count + 1 => do
    let bytes ← write bytes offset value count
    put bytes (offset + count) (leByte value count)

theorem Sat.write (h : offset + count ≤ bytes.length) :
    Sat (write bytes offset value count) (fun out => out.length = bytes.length ∧
      ∀ j, out[j]? = if offset ≤ j ∧ j < offset + count then some (leByte value (j - offset))
        else bytes[j]?) F := by
  induction count with
  | zero =>
    refine Sat.pure ⟨rfl, fun j => ?_⟩
    rw [if_neg (by omega)]
  | succ count ih =>
    refine Sat.bind (ih (by omega)) fun out ⟨hlen, hout⟩ => ?_
    refine (Sat.put (by omega)).mono fun out' hout' => ?_
    subst hout'
    refine ⟨by rw [List.length_set, hlen], fun j => ?_⟩
    by_cases hj : offset + count = j
    · subst hj
      rw [List.getElem?_set_self (by omega), if_pos (by omega), Nat.add_sub_cancel_left]
    · rw [List.getElem?_set_ne hj, hout j]
      by_cases hin : offset ≤ j ∧ j < offset + count
      · rw [if_pos hin, if_pos (by omega)]
      · rw [if_neg hin, if_neg (by omega)]

theorem leRead_of_leByte (h : ∀ i < count, bytes[offset + i]? = some (leByte value i)) :
    leRead bytes offset count = value % 2^(8 * count) := by
  induction count with
  | zero => simp [leRead, Nat.mod_one]
  | succ count ih =>
    unfold leRead
    rw [ih (fun i hi => h i (by omega)), h count (by omega), Option.getD_some]
    -- Compare the two words bit by bit: below, inside and above the last byte.
    apply Nat.eq_of_testBit_eq
    intro i
    rw [Nat.testBit_or, Nat.testBit_mod_two_pow, Nat.testBit_shiftLeft, Nat.testBit_mod_two_pow]
    have hbyte : (leByte value count).toNat = (value >>> (count * 8)) % 2^8 := by
      exact UInt8.toNat_ofNat'
    rw [hbyte, Nat.testBit_mod_two_pow, Nat.testBit_shiftRight]
    by_cases h1 : i < 8 * count
    · have h2 : ¬ i ≥ 8 * count := by omega
      have h3 : i < 8 * (count + 1) := by omega
      simp [h1, h2, h3]
    · have h2 : i ≥ 8 * count := by omega
      have e : count * 8 + (i - 8 * count) = i := by omega
      rw [e]
      by_cases h3 : i < 8 * (count + 1)
      · have h4 : i - 8 * count < 8 := by omega
        simp [h1, h2, h3, h4]
      · have h4 : ¬ i - 8 * count < 8 := by omega
        simp [h1, h3, h4]

end ShadPS4
