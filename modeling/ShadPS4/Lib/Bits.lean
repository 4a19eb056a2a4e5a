import Mathlib.Data.List.Basic
import Mathlib.Data.Int.Bitwise

/-!
# Words by their bits

A word is given by its bits, and the fields of a word by their offsets and sizes: a field is read with zeros
or with other bits above it, and written without a change to the bits around it.
-/

namespace ShadPS4

variable {w : ℕ}

/-- The word with the bits that a function gives. -/
def ofBits : (w : ℕ) → (ℕ → Bool) → BitVec w
  | 0, _ => 0#0
  | w + 1, f => .cons (f w) (ofBits w f)

@[simp] theorem getLsbD_ofBits (w : ℕ) (f : ℕ → Bool) (i : ℕ) : (ofBits w f).getLsbD i = (decide (i < w) && f i) := by
  induction w with
  | zero => simp [ofBits]
  | succ w ih =>
    unfold ofBits
    rw [BitVec.getLsbD_cons, ih]
    rcases Nat.lt_trichotomy i w with hi | rfl | hi
    · rw [if_neg (by omega), decide_eq_true hi, decide_eq_true (by omega)]
    · rw [if_pos rfl, decide_eq_true (by omega), Bool.true_and]
    · rw [if_neg (by omega), decide_eq_false (by omega), decide_eq_false (by omega)]

variable (a : BitVec w)

def countOnes : ℕ := (List.range w).countP fun i => a.getLsbD i

theorem countOnes_le : countOnes a ≤ w := by
  have h := List.countP_le_length (l := List.range w) (p := fun i => a.getLsbD i)
  rwa [List.length_range] at h

theorem countOnes_halves {n : ℕ} (a : BitVec (w + n)) :
    countOnes a = countOnes (a.setWidth w) + countOnes ((a >>> w).setWidth n) := by
  unfold countOnes
  rw [List.range_add, List.countP_append, List.countP_map]
  congr 1
  · refine List.countP_congr fun i hi => ?_
    rw [BitVec.getLsbD_setWidth, decide_eq_true (List.mem_range.mp hi), Bool.true_and]
  · refine List.countP_congr fun i hi => ?_
    rw [BitVec.getLsbD_setWidth, decide_eq_true (List.mem_range.mp hi), Bool.true_and, BitVec.getLsbD_ushiftRight]
    rfl

/-! ## Fields -/

/-- The field of a word at an offset, with other bits above it. -/
def extractField (offset size : ℕ) (fill : Bool) : BitVec w :=
  ofBits w fun i => if i < size then a.getLsbD (offset + i) else fill

def insertField (base insert : BitVec w) (offset size : ℕ) : BitVec w :=
  ofBits w fun i =>
    if offset ≤ i ∧ i < offset + size then insert.getLsbD (i - offset) else base.getLsbD i

theorem getLsbD_extractField (offset size : ℕ) (fill : Bool) {i : ℕ} (hi : i < w) :
    (extractField a offset size fill).getLsbD i = if i < size then a.getLsbD (offset + i) else fill := by
  unfold extractField
  rw [getLsbD_ofBits, decide_eq_true hi, Bool.true_and]

theorem getLsbD_insertField (base insert : BitVec w) (offset size : ℕ) {i : ℕ} (hi : i < w) :
    (insertField base insert offset size).getLsbD i =
      if offset ≤ i ∧ i < offset + size then insert.getLsbD (i - offset) else base.getLsbD i := by
  unfold insertField
  rw [getLsbD_ofBits, decide_eq_true hi, Bool.true_and]

theorem extractField_zero_eq_iff {a : BitVec w} {size : ℕ} : extractField a 0 size false = a ↔ a.toNat < 2^size := by
  constructor
  · intro h
    refine Nat.lt_pow_two_of_testBit _ fun i hi => ?_
    rcases Nat.lt_or_ge i w with hlt | hge
    · have hbit := getLsbD_extractField a 0 size false hlt
      rw [h, if_neg (Nat.not_lt.mpr hi)] at hbit
      exact hbit
    · exact BitVec.getLsbD_of_ge a i hge
  · intro h
    refine BitVec.eq_of_getLsbD_eq fun i hi => ?_
    rw [getLsbD_extractField _ _ _ _ hi, Nat.zero_add]
    split
    next => rfl
    next hsize =>
      have hle : 2^size ≤ 2^i := Nat.pow_le_pow_right (by omega) (Nat.not_lt.mp hsize)
      exact (Nat.testBit_lt_two_pow (Nat.lt_of_lt_of_le h hle)).symm

/-- The low field of a word with copies of its last bit above it is the word if this is, as a signed number,
one that the field holds. -/
theorem extractField_sign_eq_iff {a : BitVec w} {size : ℕ} (hpos : 0 < size) (hsize : size ≤ w) :
    extractField a 0 size (a.getLsbD (size - 1)) = a ↔ -(2 : ℤ)^(size - 1) ≤ a.toInt ∧ a.toInt < 2^(size - 1) := by
  have hextend : extractField a 0 size (a.getLsbD (size - 1)) = (a.setWidth size).signExtend w := by
    refine BitVec.eq_of_getLsbD_eq fun i hi => ?_
    rw [getLsbD_extractField _ _ _ _ hi, BitVec.getLsbD_signExtend, decide_eq_true hi, Bool.true_and,
      BitVec.msb_eq_getLsbD_last, BitVec.getLsbD_setWidth, BitVec.getLsbD_setWidth, Nat.zero_add]
    refine ite_congr rfl (fun h => ?_) fun h => ?_
    · rw [decide_eq_true h, Bool.true_and]
    · rw [decide_eq_true (by omega), Bool.true_and]
  have hpow : (2 : ℕ)^size = 2 * 2^(size - 1) := by
    rw [← Nat.pow_succ', Nat.succ_eq_add_one, Nat.sub_add_cancel hpos]
  have hcast : ((2^(size - 1) : ℕ) : ℤ) = (2 : ℤ)^(size - 1) := by
    rfl
  -- As numbers: what remains of the word modulo the size of the field.
  have hbmod : ((a.setWidth size).signExtend w).toInt = a.toInt.bmod (2^size) := by
    rw [BitVec.toInt_signExtend_of_le hsize, BitVec.toInt_setWidth, BitVec.toInt_eq_toNat_bmod,
      Int.bmod_bmod_of_dvd (Nat.pow_dvd_pow 2 hsize)]
  rw [hextend, ← BitVec.toInt_inj, hbmod, Int.bmod_eq_iff (Nat.two_pow_pos size), hpow, ← hcast]
  constructor
  · rintro ⟨hle, hlt, -⟩
    omega
  · rintro ⟨hle, hlt⟩
    refine ⟨by omega, by omega, ?_⟩
    rw [Int.sub_self]
    exact Int.dvd_zero _

/-! ## Fields one after another -/

structure Field where
  offset : ℕ
  size : ℕ

namespace Field

/-- A field within a word, with at least one bit. -/
def Proper (field : Field) (w : ℕ) : Prop := 0 < field.size ∧ field.offset + field.size ≤ w

instance (field : Field) (w : ℕ) : Decidable (field.Proper w) := instDecidableAnd

def Fits (field : Field) (signed : Bool) (component : BitVec w) : Prop :=
  if signed then
    -(2 : ℤ)^(field.size - 1) ≤ component.toInt ∧ component.toInt < 2^(field.size - 1)
  else component.toNat < 2^field.size

def fill (field : Field) (signed : Bool) (word : BitVec w) : Bool :=
  signed && word.getLsbD (field.offset + field.size - 1)

end Field

theorem extractField_eq_iff {field : Field} {signed : Bool} {word component : BitVec w}
    (h : field.Proper w) (hbits : ∀ i < field.size, word.getLsbD (field.offset + i) = component.getLsbD i) :
    extractField word field.offset field.size (field.fill signed word) = component ↔ field.Fits signed component := by
  obtain ⟨hpos, hle⟩ := h
  have hlast : word.getLsbD (field.offset + field.size - 1) = component.getLsbD (field.size - 1) := by
    rw [Nat.add_sub_assoc hpos]
    exact hbits _ (by omega)
  have hlow : extractField word field.offset field.size (field.fill signed word) =
      extractField component 0 field.size (signed && component.getLsbD (field.size - 1)) := by
    refine BitVec.eq_of_getLsbD_eq fun i hi => ?_
    rw [getLsbD_extractField _ _ _ _ hi, getLsbD_extractField _ _ _ _ hi]
    refine ite_congr rfl (fun hsize => ?_) fun _ => ?_
    · rw [hbits i hsize, Nat.zero_add]
    · unfold Field.fill
      rw [hlast]
  rw [hlow]
  cases signed
  · exact extractField_zero_eq_iff
  · exact extractField_sign_eq_iff hpos (by omega)

def FieldsFrom : ℕ → List Field → Prop
  | _, [] => True
  | offset, field :: fields => field.offset = offset ∧ FieldsFrom (offset + field.size) fields

instance decidableFieldsFrom : (offset : ℕ) → (fields : List Field) → Decidable (FieldsFrom offset fields)
  | _, [] => .isTrue trivial
  | offset, field :: fields =>
    have := decidableFieldsFrom (offset + field.size) fields
    inferInstanceAs (Decidable (field.offset = offset ∧ FieldsFrom (offset + field.size) fields))

def insertFields (base : BitVec w) (values : List (BitVec w × Field)) : BitVec w :=
  values.foldl (fun base value => insertField base value.1 value.2.offset value.2.size) base

theorem getLsbD_insertFields {values : List (BitVec w × Field)} {offset : ℕ}
    (h : FieldsFrom offset (values.map Prod.snd)) (base : BitVec w) :
    (∀ i < w, i < offset → (insertFields base values).getLsbD i = base.getLsbD i) ∧
    ∀ value ∈ values, ∀ i < value.2.size, value.2.offset + i < w →
      (insertFields base values).getLsbD (value.2.offset + i) = value.1.getLsbD i := by
  induction values generalizing offset base with
  | nil => exact ⟨fun _ _ _ => rfl, nofun⟩
  | cons head rest ih =>
    obtain ⟨hoffset, hrest⟩ := h
    obtain ⟨hlow, hfields⟩ := ih hrest (insertField base head.1 head.2.offset head.2.size)
    constructor
    · intro i hi hlt
      have hstep := hlow i hi (by omega)
      rw [getLsbD_insertField _ _ _ _ hi, if_neg (by omega)] at hstep
      exact hstep
    · intro value hvalue i hi hlt
      rcases List.mem_cons.mp hvalue with rfl | hvalue
      · -- What follows is written above the field.
        have hstep := hlow _ hlt (by omega)
        rw [getLsbD_insertField _ _ _ _ hlt, if_pos (by omega), Nat.add_sub_cancel_left] at hstep
        exact hstep
      · exact hfields value hvalue i hi hlt

end ShadPS4
