import ShadPS4.IR.ConstantPropagation

/-!
# The folds of immediates are what is emitted

Operator by operator, the host computes what the emitted instruction does, where that is defined.
-/

namespace ShadPS4.IR

open Option (some.inj ite_none_right_eq_some bind_eq_some_iff map_eq_some_iff)
open BitVec (eq_of_toNat_eq toNat_ofNat toNat_eq eq_of_getLsbD_eq getLsbD_and getLsbD_shiftLeft)

variable {base offset value : BitVec 32} {a : Immediate}
variable {args : List Immediate} {result : Immediate}

/-! ## Operators -/

namespace Host

section

variable (a b : BitVec 32)

theorem add_eq : a + b = Spirv.iAdd a b := BitVec.add_def a b

theorem sub_eq : a - b = Spirv.iSub a b := by
  apply BitVec.eq_of_toInt_eq
  unfold Spirv.iSub
  rw [BitVec.toInt_sub, BitVec.toInt_ofInt, BitVec.toInt_eq_toNat_bmod, BitVec.toInt_eq_toNat_bmod,
    Int.bmod_sub_bmod, Int.sub_bmod_bmod]

theorem mul_eq : a * b = Spirv.iMul a b := by
  apply eq_of_toNat_eq
  unfold Spirv.iMul
  rw [BitVec.toNat_mul, toNat_ofNat]

theorem div_eq : div a b = Spirv.uDiv a b := by
  refine if_congr toNat_eq rfl (congrArg some ?_)
  apply eq_of_toNat_eq
  have hlt : a.toNat / b.toNat < 2^32 := Nat.lt_of_le_of_lt (Nat.div_le_self ..) a.isLt
  rw [BitVec.toNat_udiv, toNat_ofNat, Nat.mod_eq_of_lt hlt]

theorem mod_eq : mod a b = Spirv.uMod a b := by
  refine if_congr toNat_eq rfl (congrArg some ?_)
  apply eq_of_toNat_eq
  have hlt : a.toNat % b.toNat < 2^32 := Nat.lt_of_le_of_lt (Nat.mod_le ..) a.isLt
  rw [BitVec.toNat_umod, toNat_ofNat, Nat.mod_eq_of_lt hlt]

theorem shl_eq : shl a b = Spirv.shiftLeftLogical a b := by
  unfold shl Spirv.shiftLeftLogical
  rw [← ite_not]
  refine if_congr (by omega) rfl (congrArg some (eq_of_getLsbD_eq fun i hi => ?_))
  rcases Nat.lt_or_ge i b.toNat with h | h
  · simp [h, Nat.not_le.mpr h]
  · simp [h, Nat.not_lt.mpr h]

theorem shr_eq : shr a b = Spirv.shiftRightLogical a b := by
  unfold shr Spirv.shiftRightLogical
  rw [← ite_not]
  refine if_congr (by omega) rfl (congrArg some (eq_of_getLsbD_eq fun i hi => ?_))
  rw [getLsbD_ofBits, BitVec.getLsbD_ushiftRight, decide_eq_true hi, Bool.true_and]

theorem sar_eq : sar a b = Spirv.shiftRightArithmetic a b := by
  have hiff : (b.slt 0 ∨ b.toNat ≥ 32) ↔ b.toNat ≥ 32 := by
    refine ⟨fun h => h.elim (fun hneg => ?_) id, .inr⟩
    have hmsb := BitVec.slt_zero_iff_msb_cond.mp hneg
    have hle := BitVec.le_toNat_of_msb_true hmsb
    omega
  refine if_congr hiff rfl (congrArg some (eq_of_getLsbD_eq fun i hi => ?_))
  rw [getLsbD_ofBits, BitVec.getLsbD_sshiftRight, decide_eq_true hi, decide_eq_false (by omega)]
  rfl

end

theorem and_one_getLsbD (a : BitVec 32) (i : ℕ) : (a &&& 1).getLsbD i = (decide (i = 0) && a.getLsbD 0) := by
  rw [getLsbD_and, show (1 : BitVec 32) = 1#32 from rfl, BitVec.getLsbD_one]
  rcases eq_or_ne i 0 with rfl | hi
  · simp
  · simp [hi]

theorem reverseBits_getLsbD (turns : ℕ) (a res : BitVec 32) (hi : i < 32) : (reverseBits turns a res).getLsbD i =
      if i < turns then a.getLsbD (turns - 1 - i) else res.getLsbD (i - turns) := by
  induction turns generalizing a res with
  | zero => rw [if_neg (Nat.not_lt_zero i)]; rfl
  | succ turns ih =>
    unfold reverseBits
    rw [ih, BitVec.getLsbD_ushiftRight, BitVec.getLsbD_or, getLsbD_shiftLeft, and_one_getLsbD]
    rcases Nat.lt_trichotomy i turns with h | rfl | h
    · rw [if_pos h, if_pos (by omega)]
      congr 1
      omega
    · rw [if_neg (Nat.lt_irrefl i), if_pos (Nat.lt_succ_self i)]
      simp
    · rw [if_neg (by omega), if_neg (by omega)]
      have hpos : ¬ i - turns < 1 := by omega
      have hlt : i - turns < 32 := by omega
      have hne : i - turns ≠ 0 := by omega
      simp only [hlt, hpos, hne, decide_true, decide_false, Bool.not_false, Bool.true_and, Bool.false_and,
        Bool.or_false]
      congr 1

theorem reverseBits_eq (a : BitVec 32) : reverseBits 32 a 0 = Spirv.bitReverse a := by
  refine eq_of_getLsbD_eq fun i hi => ?_
  rw [reverseBits_getLsbD _ _ _ hi, if_pos hi]
  unfold Spirv.bitReverse
  rw [getLsbD_ofBits, decide_eq_true hi, Bool.true_and]

theorem countOnes_eq (a : BitVec 64) : BitVec.ofNat 32 (countOnes a) = Spirv.iAdd (Spirv.bitCount (a.setWidth 32))
      (Spirv.bitCount ((a >>> 32).setWidth 32)) := by
  unfold Spirv.iAdd Spirv.bitCount
  have hhalves : countOnes a = countOnes (a.setWidth 32) + countOnes ((a >>> 32).setWidth 32) :=
    countOnes_halves (w := 32) (n := 32) a
  have hlo := countOnes_le (a.setWidth 32)
  have hhi := countOnes_le ((a >>> 32).setWidth 32)
  rw [hhalves, toNat_ofNat, toNat_ofNat, Nat.mod_eq_of_lt (by omega),
    Nat.mod_eq_of_lt (by omega)]

/-! ## Fields -/

theorem mask_getLsbD (hn : n < 32) (i : ℕ) : ((1 : BitVec 32) <<< n - 1).getLsbD i = decide (i < n) := by
  have htoNat : ((1 : BitVec 32) <<< n - 1).toNat = 2^n - 1 := by
    have hlt : 2^n < 2^32 := Nat.pow_lt_pow_right (by omega) hn
    have hpos : 0 < 2^n := Nat.two_pow_pos n
    have hshift : ((1 : BitVec 32) <<< n).toNat = 2^n := by
      rw [BitVec.toNat_shiftLeft, Nat.shiftLeft_eq, show (1 : BitVec 32).toNat = 1 from rfl, Nat.one_mul,
        Nat.mod_eq_of_lt hlt]
    rw [BitVec.toNat_sub, hshift, show (1 : BitVec 32).toNat = 1 from rfl]
    omega
  rw [BitVec.getLsbD, htoNat, Nat.testBit_two_pow_sub_one]

theorem bitFieldUExtract_spec (h : Spirv.bitFieldUExtract base offset count = some value) :
    bitFieldUExtract base offset count = some value ↔ offset ≠ 32 ∧ count ≠ 32 := by
  obtain ⟨hwithin, hvalue⟩ := ite_none_right_eq_some.mp h
  have hwithin : offset.toNat + count.toNat ≤ 32 := hwithin
  obtain rfl := some.inj hvalue
  have hoffset : offset ≠ 32 ↔ offset.toNat < 32 := by
    rw [ne_eq, toNat_eq, show (32 : BitVec 32).toNat = 32 from rfl]
    omega
  have hcount : count ≠ 32 ↔ count.toNat < 32 := by
    rw [ne_eq, toNat_eq, show (32 : BitVec 32).toNat = 32 from rfl]
    omega
  unfold bitFieldUExtract shr shl
  rw [if_neg (by omega), hoffset, hcount]
  constructor
  · intro hfold
    obtain ⟨field, hfield, hfold⟩ := bind_eq_some_iff.mp hfold
    obtain ⟨bit, hbit, -⟩ := bind_eq_some_iff.mp hfold
    exact ⟨(ite_none_right_eq_some.mp hfield).1, (ite_none_right_eq_some.mp hbit).1⟩
  · rintro ⟨hlt, hlt'⟩
    rw [if_pos hlt, if_pos hlt']
    refine congrArg some (eq_of_getLsbD_eq fun i hi => ?_)
    rw [getLsbD_extractField _ _ _ _ hi, getLsbD_and, mask_getLsbD hlt' i, BitVec.getLsbD_ushiftRight]
    rcases Nat.lt_or_ge i count.toNat with h | h
    · rw [if_pos h, decide_eq_true h, Bool.and_true]
    · rw [if_neg (Nat.not_lt.mpr h), decide_eq_false (Nat.not_lt.mpr h), Bool.and_false]

theorem bitFieldSExtract_spec (h : Spirv.bitFieldSExtract base offset count = some value) :
    bitFieldSExtract base offset count = some value ↔ count ≠ 0 := by
  obtain ⟨hwithin, hvalue⟩ := ite_none_right_eq_some.mp h
  have hwithin : offset.toNat + count.toNat ≤ 32 := hwithin
  have hcount : count ≠ 0 ↔ 0 < count.toNat := by
    rw [ne_eq, toNat_eq, show (0 : BitVec 32).toNat = 0 from rfl]
    omega
  unfold bitFieldSExtract
  rw [hcount]
  rcases Nat.eq_zero_or_pos count.toNat with hzero | hpos
  · -- The shift to the right is by 32.
    rw [if_pos (.inr (.inr (by omega)))]
    exact iff_of_false nofun (by omega)
  · rw [if_neg (by omega)] at hvalue
    obtain rfl := some.inj hvalue
    refine iff_of_true ?_ hpos
    rw [if_neg (by omega)]
    refine congrArg some (eq_of_getLsbD_eq fun i hi => ?_)
    have hleft : (2^64 + 32 - (offset.toNat + count.toNat)) % 2^64 = 32 - (offset.toNat + count.toNat) := by omega
    have hright : (2^32 + 32 - count.toNat) % 2^32 = 32 - count.toNat := by omega
    rw [hleft, hright, getLsbD_extractField _ _ _ _ hi, BitVec.getLsbD_sshiftRight,
      decide_eq_false (by omega), BitVec.msb_eq_getLsbD_last, getLsbD_shiftLeft,
      getLsbD_shiftLeft]
    rcases Nat.lt_or_ge i count.toNat with h | h
    · rw [if_pos h, if_pos (by omega), decide_eq_true (by omega), decide_eq_false (by omega)]
      simp only [Bool.not_false, Bool.true_and]
      congr 1
      omega
    · rw [if_neg (by omega), if_neg (by omega), decide_eq_true (by omega), decide_eq_false (by omega)]
      simp only [Bool.not_false, Bool.true_and]
      congr 1
      omega

theorem bitFieldInsert_eq {insert bits : BitVec 32} (hbits : bits.toNat < 32) (hoffset : offset.toNat < 32) :
    bitFieldInsert base insert offset bits = some (ofBits 32 fun i =>
      (decide (offset.toNat ≤ i) && insert.getLsbD (i - offset.toNat)) ||
        (!(decide (offset.toNat ≤ i) && decide (i < offset.toNat + bits.toNat)) && base.getLsbD i)) := by
  unfold bitFieldInsert shl
  rw [if_neg (by omega), if_pos hbits, if_pos hoffset]
  dsimp only [Option.bind_eq_bind, Option.bind_some]
  rw [if_pos hoffset]
  refine congrArg some (eq_of_getLsbD_eq fun i hi => ?_)
  simp only [getLsbD_ofBits, BitVec.getLsbD_or, getLsbD_and, BitVec.getLsbD_not,
    getLsbD_shiftLeft, hi, decide_true, Bool.true_and]
  rcases Nat.lt_or_ge i offset.toNat with h | h
  · simp [h, Nat.not_le.mpr h]
  · have hlt : i - offset.toNat < 32 := by omega
    rcases Nat.lt_or_ge i (offset.toNat + bits.toNat) with h' | h'
    · simp [h, h', Nat.not_lt.mpr h, hlt, show i - offset.toNat < bits.toNat by omega]
    · simp [h, Nat.not_lt.mpr h, Nat.not_lt.mpr h', hlt, show ¬ i - offset.toNat < bits.toNat by omega,
        show i - offset.toNat - bits.toNat < 32 by omega, Bool.or_comm]

theorem bitFieldInsert_spec {insert bits : BitVec 32}
    (h : Spirv.bitFieldInsert base insert offset bits = some value) :
    bitFieldInsert base insert offset bits = some value ↔ bits ≠ 32 ∧ offset ≠ 32 ∧
      ∀ i, bits.toNat ≤ i → offset.toNat + i < 32 → insert.getLsbD i = true →
        base.getLsbD (offset.toNat + i) = true := by
  obtain ⟨hwithin, hvalue⟩ := ite_none_right_eq_some.mp h
  have hwithin : offset.toNat + bits.toNat ≤ 32 := hwithin
  obtain rfl := some.inj hvalue
  have hoffset : offset ≠ 32 ↔ offset.toNat < 32 := by
    rw [ne_eq, toNat_eq, show (32 : BitVec 32).toNat = 32 from rfl]
    omega
  have hbits : bits ≠ 32 ↔ bits.toNat < 32 := by
    rw [ne_eq, toNat_eq, show (32 : BitVec 32).toNat = 32 from rfl]
    omega
  rw [hoffset, hbits]
  rcases Nat.lt_or_ge bits.toNat 32 with hlt | hge
  swap
  · unfold bitFieldInsert
    rw [if_pos (.inl hge)]
    exact iff_of_false nofun fun hall => Nat.not_le_of_lt hall.1 hge
  rcases Nat.lt_or_ge offset.toNat 32 with hlt' | hge
  swap
  · unfold bitFieldInsert
    rw [if_pos (.inr hge)]
    exact iff_of_false nofun fun hall => Nat.not_le_of_lt hall.2.1 hge
  rw [bitFieldInsert_eq hlt hlt', and_iff_right hlt, and_iff_right hlt']
  constructor
  · intro heq i hi hin hset
    have hbit := congrArg (BitVec.getLsbD · (offset.toNat + i)) (some.inj heq)
    rw [getLsbD_ofBits, getLsbD_insertField _ _ _ _ hin, decide_eq_true hin, decide_eq_true (by omega),
      Nat.add_sub_cancel_left, hset, if_neg (by omega)] at hbit
    exact hbit.symm
  · intro hall
    refine congrArg some (eq_of_getLsbD_eq fun i hi => ?_)
    rw [getLsbD_ofBits, getLsbD_insertField _ _ _ _ hi, decide_eq_true hi, Bool.true_and]
    rcases Nat.lt_or_ge i offset.toNat with h | h
    · simp [Nat.not_le.mpr h]
    · rcases Nat.lt_or_ge i (offset.toNat + bits.toNat) with h' | h'
      · simp [h, h']
      · have hi' : offset.toNat + (i - offset.toNat) = i := by omega
        have habove := hall (i - offset.toNat) (by omega) (by omega)
        rw [hi'] at habove
        simp only [h, Nat.not_lt.mpr h', decide_true, decide_false, Bool.and_false, Bool.not_false,
          Bool.true_and, and_false, if_false]
        cases hset : insert.getLsbD (i - offset.toNat)
        · rfl
        · rw [habove hset]
          rfl

end Host

/-! ## Opcodes -/

theorem Immediate.ofU32_eq (h : a.ofU32 = some x) : a.asU32 = some x := by
  cases a with
  | u32 value => exact h
  | _ => cases h

theorem Immediate.ofU64_eq (h : a.ofU64 = some x) : a.asU64 = some x := by
  cases a with
  | u64 value => exact h
  | _ => cases h

variable {α : Type} {read read' : Immediate → Option α}

theorem unary_eq_some (h : unary read g args = some result) :
    ∃ a x, args = [a] ∧ read a = some x ∧ g x = some result := by
  match args, h with
  | [a], h =>
    obtain ⟨x, hx, h⟩ := bind_eq_some_iff.mp h
    exact ⟨a, x, rfl, hx, h⟩

theorem binary_eq_some (h : binary read g args = some result) :
    ∃ a b x y, args = [a, b] ∧ read a = some x ∧ read b = some y ∧ g x y = some result := by
  match args, h with
  | [a, b], h =>
    obtain ⟨x, hx, h⟩ := bind_eq_some_iff.mp h
    obtain ⟨y, hy, h⟩ := bind_eq_some_iff.mp h
    exact ⟨a, b, x, y, rfl, hx, hy, h⟩

theorem unary_same (hread : ∀ a x, read' a = some x → read a = some x)
    (hfg : ∀ x, f x = g x) (h : unary read' g args = some result) : unary read f args = some result := by
  obtain ⟨a, x, rfl, hx, h⟩ := unary_eq_some h
  show (do f (← read a)) = _
  rw [hread a x hx]
  exact (hfg x).trans h

theorem binary_same (hread : ∀ a x, read' a = some x → read a = some x) (hfg : ∀ x y, f x y = g x y)
    (h : binary read' g args = some result) : binary read f args = some result := by
  obtain ⟨a, b, x, y, rfl, hx, hy, h⟩ := binary_eq_some h
  show (do f (← read a) (← read b)) = _
  rw [hread a x hx, hread b y hy]
  exact (hfg x y).trans h

theorem decide_toNat_eq (a b : BitVec w) : (a == b) = decide (a.toNat = b.toNat) :=
  decide_eq_decide.mpr toNat_eq

theorem decide_toNat_ne (a b : BitVec w) : (a != b) = decide (a.toNat ≠ b.toNat) := by
  rw [bne, decide_toNat_eq, decide_not]

namespace IntegerOp

open Immediate (ofU32_eq ofU64_eq)

/-- The operands for which a fold does what is emitted: no field is at an end of the word where the host's
shift is by 32 or the code gives up, and what is inserted has no bits above the field but those that are
set in the base. -/
def Agrees : IntegerOp → List Immediate → Prop
  | .bitFieldUExtract, [_, .u32 offset, .u32 count] => offset ≠ 32 ∧ count ≠ 32
  | .bitFieldSExtract, [_, _, .u32 count] => count ≠ 0
  | .bitFieldInsert, [.u32 base, .u32 insert, .u32 offset, .u32 bits] => bits ≠ 32 ∧ offset ≠ 32 ∧
      ∀ i, bits.toNat ≤ i → offset.toNat + i < 32 → insert.getLsbD i = true →
        base.getLsbD (offset.toNat + i) = true
  | _, _ => True

theorem eq_of_ofU32 (h : a.ofU32 = some x) : a = .u32 x := by
  cases a with
  | u32 value => exact congrArg _ (some.inj h)
  | _ => cases h

theorem ternary_iff {f g : BitVec 32 → BitVec 32 → BitVec 32 → Option (BitVec 32)} {C : List Immediate → Prop}
    (hfg : ∀ a b c value, g a b c = some value → (f a b c = some value ↔ C [.u32 a, .u32 b, .u32 c]))
    (h : ternary Immediate.ofU32 (fun a b c => (g a b c).map .u32) args = some result) :
    ternary Immediate.asU32 (fun a b c => (f a b c).map .u32) args = some result ↔ C args := by
  match args, h with
  | [a, b, c], h =>
    obtain ⟨x, hx, h⟩ := bind_eq_some_iff.mp h
    obtain ⟨y, hy, h⟩ := bind_eq_some_iff.mp h
    obtain ⟨z, hz, h⟩ := bind_eq_some_iff.mp h
    obtain rfl := eq_of_ofU32 hx
    obtain rfl := eq_of_ofU32 hy
    obtain rfl := eq_of_ofU32 hz
    obtain ⟨value, hvalue, rfl⟩ := map_eq_some_iff.mp h
    rw [← hfg x y z value hvalue]
    exact map_eq_some_iff.trans
      ⟨fun ⟨word, hword, heq⟩ => Immediate.u32.inj heq ▸ hword, fun hword => ⟨value, hword, rfl⟩⟩

theorem quaternary_iff {f g : BitVec 32 → BitVec 32 → BitVec 32 → BitVec 32 → Option (BitVec 32)}
    {C : List Immediate → Prop} (hfg : ∀ a b c d value, g a b c d = some value →
      (f a b c d = some value ↔ C [.u32 a, .u32 b, .u32 c, .u32 d]))
    (h : quaternary Immediate.ofU32 (fun a b c d => (g a b c d).map .u32) args = some result) :
    quaternary Immediate.asU32 (fun a b c d => (f a b c d).map .u32) args = some result ↔ C args := by
  match args, h with
  | [a, b, c, d], h =>
    obtain ⟨x, hx, h⟩ := bind_eq_some_iff.mp h
    obtain ⟨y, hy, h⟩ := bind_eq_some_iff.mp h
    obtain ⟨z, hz, h⟩ := bind_eq_some_iff.mp h
    obtain ⟨w, hw, h⟩ := bind_eq_some_iff.mp h
    obtain rfl := eq_of_ofU32 hx
    obtain rfl := eq_of_ofU32 hy
    obtain rfl := eq_of_ofU32 hz
    obtain rfl := eq_of_ofU32 hw
    obtain ⟨value, hvalue, rfl⟩ := map_eq_some_iff.mp h
    rw [← hfg x y z w value hvalue]
    exact map_eq_some_iff.trans
      ⟨fun ⟨word, hword, heq⟩ => Immediate.u32.inj heq ▸ hword, fun hword => ⟨value, hword, rfl⟩⟩

theorem fold_iff (op : IntegerOp) (h : op.emitted args = some result) :
    op.fold args = some result ↔ op.Agrees args := by
  have hu1 : ∀ a x, Immediate.asU1 a = some x → a.asU1 = some x := fun _ _ => id
  cases op
  case bitFieldUExtract =>
    exact ternary_iff (fun _ _ _ _ => Host.bitFieldUExtract_spec) h
  case bitFieldSExtract =>
    exact ternary_iff (fun _ _ _ _ => Host.bitFieldSExtract_spec) h
  case bitFieldInsert =>
    exact quaternary_iff (fun _ _ _ _ _ => Host.bitFieldInsert_spec) h
  all_goals refine iff_of_true ?_ trivial
  case iAdd32 => exact binary_same (fun _ _ => ofU32_eq) (fun a b => by rw [Host.add_eq]) h
  case iSub32 => exact binary_same (fun _ _ => ofU32_eq) (fun a b => by rw [Host.sub_eq]) h
  case iMul32 => exact binary_same (fun _ _ => ofU32_eq) (fun a b => by rw [Host.mul_eq]) h
  case uDiv32 => exact binary_same (fun _ _ => ofU32_eq) (fun a b => by rw [Host.div_eq]) h
  case uMod32 => exact binary_same (fun _ _ => ofU32_eq) (fun a b => by rw [Host.mod_eq]) h
  case shiftLeftLogical32 =>
    exact binary_same (fun _ _ => ofU32_eq) (fun a b => by rw [Host.shl_eq]) h
  case shiftRightLogical32 =>
    exact binary_same (fun _ _ => ofU32_eq) (fun a b => by rw [Host.shr_eq]) h
  case shiftRightArithmetic32 =>
    exact binary_same (fun _ _ => ofU32_eq) (fun a b => by rw [Host.sar_eq]) h
  case logicalAnd => exact binary_same hu1 (fun a b => by cases a <;> cases b <;> rfl) h
  case logicalOr => exact binary_same hu1 (fun a b => by cases a <;> cases b <;> rfl) h
  case logicalNot => exact unary_same hu1 (fun a => by cases a <;> rfl) h
  case bitwiseAnd32 =>
    exact binary_same (fun _ _ => ofU32_eq) (fun a b => by rw [Spirv.bitwiseAnd_eq]) h
  case bitwiseAnd64 =>
    exact binary_same (fun _ _ => ofU64_eq) (fun a b => by rw [Spirv.bitwiseAnd_eq]) h
  case bitwiseOr32 =>
    exact binary_same (fun _ _ => ofU32_eq) (fun a b => by rw [Spirv.bitwiseOr_eq]) h
  case bitwiseOr64 =>
    exact binary_same (fun _ _ => ofU64_eq) (fun a b => by rw [Spirv.bitwiseOr_eq]) h
  case bitwiseXor32 =>
    exact binary_same (fun _ _ => ofU32_eq) (fun a b => by rw [Spirv.bitwiseXor_eq]) h
  case bitwiseNot32 => exact unary_same (fun _ _ => ofU32_eq) (fun a => by rw [Spirv.not_eq]) h
  case bitReverse32 =>
    exact unary_same (fun _ _ => ofU32_eq) (fun a => by rw [Host.reverseBits_eq]) h
  case bitCount32 => exact unary_same (fun _ _ => ofU32_eq) (fun _ => rfl) h
  case bitCount64 => exact unary_same (fun _ _ => ofU64_eq) (fun a => by rw [Host.countOnes_eq]) h
  case iEqual32 => exact binary_same (fun _ _ => ofU32_eq) (fun a b => by rw [decide_toNat_eq]) h
  case iEqual64 => exact binary_same (fun _ _ => ofU64_eq) (fun a b => by rw [decide_toNat_eq]) h
  case iNotEqual32 => exact binary_same (fun _ _ => ofU32_eq) (fun a b => by rw [decide_toNat_ne]) h
  case iNotEqual64 => exact binary_same (fun _ _ => ofU64_eq) (fun a b => by rw [decide_toNat_ne]) h
  -- The comparisons are defined by the numbers of the words.
  all_goals first
    | exact binary_same (fun _ _ => ofU32_eq) (fun _ _ => rfl) h
    | exact binary_same (fun _ _ => ofU64_eq) (fun _ _ => rfl) h

end IntegerOp

/-! ## The pass -/

namespace Program

variable {p : Program} {block x : ℕ}

theorem isImmediate_of_immediate {value : Value} (h : p.immediate value = some a) :
    p.isImmediate value = some true := by
  obtain ⟨w, hw, h⟩ := bind_eq_some_iff.mp h
  cases w with
  | imm b => exact map_eq_some_iff.mpr ⟨_, hw, rfl⟩
  | void => cases h
  | inst y => cases h

theorem all_isImmediate {values : List Value} {args : List Immediate} (h : values.mapM p.immediate = some args) :
    values.mapM p.isImmediate = some (args.map fun _ => true) := by
  induction values generalizing args with
  | nil =>
    obtain rfl := some.inj h
    rfl
  | cons value values ih =>
    rw [List.mapM_cons] at h ⊢
    obtain ⟨a, ha, h⟩ := bind_eq_some_iff.mp h
    obtain ⟨rest, hrest, h⟩ := bind_eq_some_iff.mp h
    obtain rfl := some.inj h
    rw [isImmediate_of_immediate ha, ih hrest]
    rfl

theorem foldWhenAllImmediates_eq (func : List Immediate → Option Immediate)
    (h : (p.insts x).operands.mapM p.immediate = some args) : p.foldWhenAllImmediates x func =
      (func args).bind fun result => p.replaceUsesWithAndRemove x (.imm result) := by
  unfold foldWhenAllImmediates
  rw [all_isImmediate h, h]
  dsimp only [Option.bind_eq_bind, Option.bind_some]
  rw [if_pos (by rw [List.all_map]; exact List.all_eq_true.mpr fun _ _ => rfl)]

theorem mapM_immediate_cons {value : Value} {values : List Value}
    (h : (value :: values).mapM p.immediate = some args) :
    ∃ a rest, args = a :: rest ∧ p.immediate value = some a ∧ values.mapM p.immediate = some rest := by
  rw [List.mapM_cons] at h
  obtain ⟨a, ha, h⟩ := bind_eq_some_iff.mp h
  obtain ⟨rest, hrest, h⟩ := bind_eq_some_iff.mp h
  exact ⟨a, rest, (some.inj h).symm, ha, hrest⟩

theorem operands_eq (hop : (p.insts x).op = op) (hphi : op ≠ .phi) :
    (p.insts x).operands = (List.range op.numArgs).map (p.insts x).arg := by
  unfold Inst.operands Inst.numArgs
  rw [hop, if_neg hphi]

theorem foldIdentity_eq {imm_fn : List Immediate → Option Immediate}
    {decide : Immediate → Value → Option (Option Value)}
    (hargs : [(p.insts x).arg 0, (p.insts x).arg 1].mapM p.immediate = some args) : p.foldIdentity x imm_fn decide =
      (imm_fn args).bind fun result => p.replaceUsesWithAndRemove x (.imm result) := by
  obtain ⟨a, rest, rfl, ha, hrest⟩ := mapM_immediate_cons hargs
  obtain ⟨b, rest, rfl, hb, hrest⟩ := mapM_immediate_cons hrest
  rw [List.mapM_nil] at hrest
  obtain rfl := some.inj hrest
  have hboth : p.foldBoth x imm_fn =
      (imm_fn [a, b]).bind fun result => p.replaceUsesWithAndRemove x (.imm result) := by
    unfold foldBoth
    rw [ha, hb]
    rfl
  unfold foldIdentity foldCommutative
  dsimp only
  rw [isImmediate_of_immediate ha, isImmediate_of_immediate hb]
  rw [hboth]
  cases (imm_fn [a, b]).bind fun result => p.replaceUsesWithAndRemove x (.imm result) <;> rfl

def distinct : List ℕ → Bool
  | [] => true
  | n :: ns => ns.all (fun m => !n.beq m) && distinct ns

/-- Rows of numbers that are different are found by their opcodes. -/
theorem lookup_of_mem {α : Type} (number : Opcode → ℕ) {rows : List (Opcode × α)} {op : Opcode} {value : α}
    (hrows : distinct (rows.map fun row => number row.1)) (h : (op, value) ∈ rows) : rows.lookup op = some value := by
  induction rows with
  | nil => cases h
  | cons row rows ih =>
    obtain ⟨hnew, hrows⟩ := Bool.and_eq_true_iff.mp hrows
    rcases List.mem_cons.mp h with rfl | h
    · exact List.lookup_cons_self
    · have hne : op ≠ row.1 := by
        rintro rfl
        simpa using List.all_eq_true.mp hnew _ (List.mem_map_of_mem h)
      rw [List.lookup_cons, beq_false_of_ne hne]
      exact ih hrows h

theorem Fold.of_immediateCases {op : IntegerOp} (h : op ∈ Fold.immediateCases) :
    Fold.of op.opcode = some (.whenAllImmediates op) := by
  refine lookup_of_mem (fun | .other number _ => number + 1 | _ => 0) (by decide) ?_
  simp only [Fold.table, List.mem_append]
  exact .inl (.inl (.inl (.inr (List.mem_map_of_mem h))))

theorem constantPropagation_integer (op : IntegerOp) (hop : (p.insts x).op = op.opcode)
    (hargs : (p.insts x).operands.mapM p.immediate = some args) : p.constantPropagation block x =
      (op.fold args).bind fun result => p.replaceUsesWithAndRemove x (.imm result) := by
  unfold constantPropagation
  rw [hop]
  have hphi : op.opcode ≠ .phi := by cases op <;> exact nofun
  have hoperands := operands_eq hop hphi
  by_cases hcase : op ∈ Fold.immediateCases
  · rw [Fold.of_immediateCases hcase]
    exact foldWhenAllImmediates_eq _ hargs
  cases op
  case iAdd32 =>
    show p.foldAdd x = _
    rw [hoperands] at hargs
    exact foldIdentity_eq hargs
  case iMul32 =>
    show p.foldMul x = _
    rw [hoperands] at hargs
    exact foldIdentity_eq hargs
  case logicalAnd =>
    show p.foldLogicalAnd x = _
    rw [hoperands] at hargs
    exact foldIdentity_eq hargs
  case logicalOr =>
    show p.foldLogicalOr x = _
    rw [hoperands] at hargs
    exact foldIdentity_eq hargs
  case logicalNot =>
    obtain ⟨a, rest, rfl, ha, hrest⟩ := mapM_immediate_cons (hoperands ▸ hargs)
    obtain rfl := some.inj (List.mapM_nil.symm.trans hrest)
    show p.foldLogicalNot x = _
    unfold foldLogicalNot
    dsimp only
    rw [isImmediate_of_immediate ha, ha]
    rfl
  case bitFieldUExtract =>
    -- The word is an immediate, and so it is not the packed one.
    obtain ⟨a, rest, -, ha, hrest⟩ := mapM_immediate_cons (hoperands ▸ hargs)
    obtain ⟨b, rest, -, hb, hrest⟩ := mapM_immediate_cons hrest
    obtain ⟨c, rest, -, hc, -⟩ := mapM_immediate_cons hrest
    have hancillary : p.foldPackedAncillary block x = some (p, false) := by
      unfold foldPackedAncillary ancillary
      dsimp only
      rw [isImmediate_of_immediate ha, isImmediate_of_immediate hb, isImmediate_of_immediate hc]
      rfl
    show (p.foldPackedAncillary block x).bind (fun r =>
      if r.2 then some r.1 else r.1.foldWhenAllImmediates x IntegerOp.bitFieldUExtract.fold) = _
    rw [hancillary]
    exact foldWhenAllImmediates_eq _ hargs
  all_goals exact absurd (by decide) hcase

/-- Where the emitted instruction has a defined result, the fold of immediates is `ReplaceUsesWithAndRemove`
with that result exactly for the operands that agree. -/
theorem integerFold_iff (op : IntegerOp) (result : Immediate) (hop : (p.insts x).op = op.opcode)
    (hargs : (p.insts x).operands.mapM p.immediate = some args) (hemitted : op.emitted args = some result) :
    p.constantPropagation block x = ((op.fold args).bind fun folded => p.replaceUsesWithAndRemove x (.imm folded)) ∧
    (op.fold args = some result ↔ op.Agrees args) :=
  ⟨constantPropagation_integer op hop hargs, op.fold_iff hemitted⟩

/-- A field of four bits is inserted into 0. -/
def insertProgram : Program where
  insts
    | 0 => { op := IntegerOp.bitFieldInsert.opcode, args := fun
        | 0 => .imm (.u32 0)
        | 1 => .imm (.u32 0x7)
        | 2 => .imm (.u32 8)
        | 3 => .imm (.u32 4)
        | _ => .void }
    | _ => {}
  created := 1
  blocks
    | 0 => [0]
    | _ => []

theorem integerFold_iff_sample : insertProgram.constantPropagation 0 0 =
      ((IntegerOp.bitFieldInsert.fold [.u32 0, .u32 0x7, .u32 8, .u32 4]).bind fun folded =>
        insertProgram.replaceUsesWithAndRemove 0 (.imm folded)) ∧
    (IntegerOp.bitFieldInsert.fold [.u32 0, .u32 0x7, .u32 8, .u32 4] = some (.u32 0x700) ↔
      IntegerOp.bitFieldInsert.Agrees [.u32 0, .u32 0x7, .u32 8, .u32 4]) :=
  integerFold_iff .bitFieldInsert (.u32 0x700) rfl rfl (by decide)

/-- What does not fit into the field is not cut to it. -/
theorem integerFold_differs : IntegerOp.bitFieldInsert.emitted [.u32 0, .u32 0xff, .u32 0, .u32 4] = some (.u32 0xf) ∧
    IntegerOp.bitFieldInsert.fold [.u32 0, .u32 0xff, .u32 0, .u32 4] = some (.u32 0xff) ∧
    IntegerOp.bitFieldUExtract.emitted [.u32 5, .u32 0, .u32 32] = some (.u32 5) ∧
    IntegerOp.bitFieldUExtract.fold [.u32 5, .u32 0, .u32 32] = none ∧
    IntegerOp.bitFieldSExtract.emitted [.u32 5, .u32 0, .u32 0] = some (.u32 0) ∧
    IntegerOp.bitFieldSExtract.fold [.u32 5, .u32 0, .u32 0] = none := by
  decide

end Program

end ShadPS4.IR
