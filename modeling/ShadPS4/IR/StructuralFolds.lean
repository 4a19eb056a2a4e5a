import ShadPS4.IR.FoldImmediatesSpec
import ShadPS4.IR.FoldSound

/-!
# The structural folds

`FoldCommutative` and the folds that go on from it, the folds that take the operand of a reverse, `FoldSelect`,
`FoldLogicalNot`, `FoldUnpack32x2`, and `FoldCompositeExtract` through any chain of insertions.
-/

namespace ShadPS4.IR.Program

open Option (some.inj bind_eq_some_iff ite_none_right_eq_some map_eq_some_iff)
open Prod (ext_iff)

variable {d e r : Datum} {type : Composite}
variable {others : OtherMeanings} {p p' p₁ : Program} {v : ℕ → Datum} {x y block : ℕ} {value w : Value}
  {op reverse : Opcode} {f g : Meaning} {imm_fn : List Immediate → Option Immediate}

/-- An opcode that computes something of its operands. -/
structure Performs (others : OtherMeanings) (op : Opcode) (num_args : ℕ) (f : Meaning) : Prop where
  phi : op ≠ .phi
  identity : op ≠ .identity
  numArgs : op.numArgs = num_args
  of : others.of op = some f

structure Computes (others : OtherMeanings) (p : Program) (x : ℕ) (op : Opcode) (num_args : ℕ)
    (f : Meaning) : Prop extends Performs others op num_args f where
  created : x < p.created
  opcode : (p.insts x).op = op

theorem Computes.unary (h : Computes others p x op 1 f) (hv : p.Consistent others v) :
    f [((p.insts x).arg 0).datum v] = some (v x) :=
  hv.unary h.created h.opcode h.phi h.numArgs h.of

theorem Computes.binary (h : Computes others p x op 2 f) (hv : p.Consistent others v) :
    f [((p.insts x).arg 0).datum v, ((p.insts x).arg 1).datum v] = some (v x) :=
  hv.binary h.created h.opcode h.phi h.numArgs h.of

theorem Computes.ternary (h : Computes others p x op 3 f) (hv : p.Consistent others v) :
    f [((p.insts x).arg 0).datum v, ((p.insts x).arg 1).datum v, ((p.insts x).arg 2).datum v] = some (v x) :=
  hv.ternary h.created h.opcode h.phi h.numArgs h.of

theorem Computes.replace (hx : Computes others p x op num_args f) (hp : p.Linked)
    (hvalue : p.Valid value) (hsame : ∀ v, p.Consistent others v → value.datum v = v x)
    (h : p.replaceUsesWithAndRemove x value = some p') : p.Sound others p' :=
  sound_replace hp (hx.opcode ▸ hx.identity) hvalue hsame h

theorem valid_imm (p : Program) (a : Immediate) : p.Valid (.imm a) := fun y hy => by cases hy

/-! ## `FoldCommutative` -/

/-- What `FoldCommutative` needs of an opcode: it computes a commutative and associative function, and the
function for immediates is the same one. -/
structure Folds (f : Meaning) (imm_fn : List Immediate → Option Immediate) : Prop where
  imm : ∀ a b c d, imm_fn [a, b] = some c → f [.scalar a, .scalar b] = some d → d = .scalar c
  comm : ∀ d e r, f [d, e] = some r → f [e, d] = some r
  nest : ∀ a b c d s r, f [d, .scalar b] = some s → f [s, .scalar a] = some r →
    imm_fn [a, b] = some c → f [d, .scalar c] = some r

theorem ofWords_some (hr : Meaning.ofWords h [d, e] = some r) :
    ∃ a b, d = .scalar (.u32 a) ∧ e = .scalar (.u32 b) ∧ r = .scalar (.u32 (h a b)) := by
  unfold Meaning.ofWords at hr
  split at hr
  next a b heq =>
    cases heq
    exact ⟨a, b, rfl, rfl, (some.inj hr).symm⟩
  next => cases hr

theorem ofFlags_some (hr : Meaning.ofFlags h [d, e] = some r) :
    ∃ a b, d = .scalar (.u1 a) ∧ e = .scalar (.u1 b) ∧ r = .scalar (.u1 (h a b)) := by
  unfold Meaning.ofFlags at hr
  split at hr
  next a b heq =>
    cases heq
    exact ⟨a, b, rfl, rfl, (some.inj hr).symm⟩
  next => cases hr

theorem folds_words (hcomm : ∀ a b, h a b = h b a)
    (hassoc : ∀ a b c, h (h a b) c = h a (h b c)) :
    Folds (Meaning.ofWords h) (IR.binary Immediate.asU32 fun a b => some (.u32 (h a b))) := by
  refine ⟨fun a b c d hc hd => ?_, fun d e r hr => ?_, fun a b c d s r hs hr hc => ?_⟩
  · obtain ⟨i, j, hi, hj, rfl⟩ := ofWords_some hd
    obtain rfl := Datum.scalar.inj hi
    obtain rfl := Datum.scalar.inj hj
    exact congrArg _ (some.inj hc)
  · obtain ⟨i, j, rfl, rfl, rfl⟩ := ofWords_some hr
    rw [hcomm i j]
    rfl
  · obtain ⟨i, j, rfl, hj, rfl⟩ := ofWords_some hs
    obtain ⟨k, l, hk, hl, rfl⟩ := ofWords_some hr
    obtain rfl := Datum.scalar.inj hj
    obtain rfl := Datum.scalar.inj hl
    obtain rfl := Immediate.u32.inj (Datum.scalar.inj hk)
    obtain rfl := some.inj hc
    rw [hassoc, hcomm j l]
    rfl

theorem folds_flags (hcomm : ∀ a b, h a b = h b a)
    (hassoc : ∀ a b c, h (h a b) c = h a (h b c)) :
    Folds (Meaning.ofFlags h) (IR.binary Immediate.asU1 fun a b => some (.u1 (h a b))) := by
  refine ⟨fun a b c d hc hd => ?_, fun d e r hr => ?_, fun a b c d s r hs hr hc => ?_⟩
  · obtain ⟨i, j, hi, hj, rfl⟩ := ofFlags_some hd
    obtain rfl := Datum.scalar.inj hi
    obtain rfl := Datum.scalar.inj hj
    exact congrArg _ (some.inj hc)
  · obtain ⟨i, j, rfl, rfl, rfl⟩ := ofFlags_some hr
    rw [hcomm i j]
    rfl
  · obtain ⟨i, j, rfl, hj, rfl⟩ := ofFlags_some hs
    obtain ⟨k, l, hk, hl, rfl⟩ := ofFlags_some hr
    obtain rfl := Datum.scalar.inj hj
    obtain rfl := Datum.scalar.inj hl
    obtain rfl := Immediate.u1.inj (Datum.scalar.inj hk)
    obtain rfl := some.inj hc
    rw [hassoc, hcomm j l]
    rfl

theorem nested_spec (hp : p.Linked) (hvalue : p.Valid value) (hphi : op ≠ .phi)
    (hnum : op.numArgs = 2) (hof : others.of op = some f) (h : p.nested op value = some (some (arg0, arg1))) :
    p.Valid arg0 ∧ p.Valid arg1 ∧ ∀ v, p.Consistent others v →
      f [arg0.datum v, arg1.datum v] = some (value.datum v) := by
  obtain ⟨y, hy, h⟩ := bind_eq_some_iff.mp h
  split at h
  next hop =>
    obtain ⟨immediate, -, h⟩ := bind_eq_some_iff.mp h
    obtain ⟨-, hargs⟩ := ite_none_right_eq_some.mp (some.inj h)
    obtain ⟨rfl, rfl⟩ := ext_iff.mp (some.inj hargs)
    refine ⟨hp.valid_arg y 0, hp.valid_arg y 1, fun v hv => ?_⟩
    obtain ⟨hdatum, hlt⟩ := instRecursive_spec hp hvalue hy v hv
    rw [hdatum]
    exact hv.binary hlt hop hphi hnum hof
  next => cases some.inj h

theorem foldNested_sound {immediate arg0 arg1 : Value} (hp : p.Linked) (hx : Computes others p x op 2 f)
    (hf : Folds f imm_fn) (hvalid : p.Valid immediate) (hvalid0 : p.Valid arg0) (hvalid1 : p.Valid arg1)
    (hsame : ∀ v, p.Consistent others v → ∃ s, f [arg0.datum v, arg1.datum v] = some s ∧
      f [s, immediate.datum v] = some (v x)) (h : p.foldNested x imm_fn immediate arg0 arg1 = some p') :
    p.Sound others p' ∧ (p'.insts x).op = op ∧ p'.created = p.created := by
  obtain ⟨a, ha, h⟩ := bind_eq_some_iff.mp h
  obtain ⟨b, hb, h⟩ := bind_eq_some_iff.mp h
  obtain ⟨combined, hcombined, h⟩ := bind_eq_some_iff.mp h
  obtain ⟨p₁, h0, h1⟩ := bind_eq_some_iff.mp h
  refine sound_operands hp hx.created hx.opcode hx.phi hx.numArgs hx.of h0 h1 hvalid0 nofun
    fun v hv => ?_
  obtain ⟨s, hs, hr⟩ := hsame v hv
  rw [immediate_spec hp hvalid1 hb v hv] at hs
  rw [immediate_spec hp hvalid ha v hv] at hr
  exact hf.nest a b combined _ s _ hs hr hcombined

theorem foldCommutative_sound (hp : p.Linked) (hx : Computes others p x op 2 f)
    (hf : Folds f imm_fn) (h : p.foldCommutative x imm_fn = some (p', there)) :
    p.Sound others p' ∧ (there = true → Computes others p' x op 2 f) := by
  have hvalid0 := hp.valid_arg x 0
  have hvalid1 := hp.valid_arg x 1
  obtain ⟨is_lhs_immediate, -, h⟩ := bind_eq_some_iff.mp h
  obtain ⟨is_rhs_immediate, -, h⟩ := bind_eq_some_iff.mp h
  rw [hx.opcode] at h
  have hstays (hdone : p.Sound others p' ∧ (p'.insts x).op = op ∧ p'.created = p.created) :
      p.Sound others p' ∧ (there = true → Computes others p' x op 2 f) :=
    ⟨hdone.1, fun _ => ⟨hx.toPerforms, hdone.2.2.symm ▸ hx.created, hdone.2.1⟩⟩
  cases is_lhs_immediate <;> cases is_rhs_immediate <;> dsimp only at h
  case true.true =>
    obtain ⟨p₁, h1, heq⟩ := map_eq_some_iff.mp h
    obtain ⟨rfl, rfl⟩ := ext_iff.mp heq
    obtain ⟨a, ha, h1⟩ := bind_eq_some_iff.mp h1
    obtain ⟨b, hb, h1⟩ := bind_eq_some_iff.mp h1
    obtain ⟨result, hresult, h1⟩ := bind_eq_some_iff.mp h1
    refine ⟨hx.replace hp (valid_imm p _) (fun v hv => ?_) h1, by simp⟩
    have hvalue := hx.binary hv
    rw [immediate_spec hp hvalid0 ha v hv, immediate_spec hp hvalid1 hb v hv] at hvalue
    exact (hf.imm a b result _ hresult hvalue).symm
  case true.false =>
    obtain ⟨nested, hnested, h⟩ := bind_eq_some_iff.mp h
    cases nested with
    | some args =>
      obtain ⟨p₁, h1, heq⟩ := map_eq_some_iff.mp h
      obtain ⟨rfl, rfl⟩ := ext_iff.mp heq
      obtain ⟨hvalid, hvalid', hsame⟩ := nested_spec hp hvalid1 hx.phi hx.numArgs hx.of hnested
      exact hstays (foldNested_sound hp hx hf hvalid0 hvalid hvalid'
        (fun v hv => ⟨_, hsame v hv, hf.comm _ _ _ (hx.binary hv)⟩) h1)
    | none =>
      -- Normalize
      obtain ⟨p2, h2, heq⟩ := map_eq_some_iff.mp h
      obtain ⟨rfl, rfl⟩ := ext_iff.mp heq
      obtain ⟨p₁, h0, h1⟩ := bind_eq_some_iff.mp h2
      exact hstays (sound_operands hp hx.created hx.opcode hx.phi hx.numArgs hx.of h0 h1 hvalid1
        hvalid0 fun v hv => hf.comm _ _ _ (hx.binary hv))
  case false.true =>
    obtain ⟨nested, hnested, h⟩ := bind_eq_some_iff.mp h
    cases nested with
    | some args =>
      obtain ⟨p₁, h1, heq⟩ := map_eq_some_iff.mp h
      obtain ⟨rfl, rfl⟩ := ext_iff.mp heq
      obtain ⟨hvalid, hvalid', hsame⟩ := nested_spec hp hvalid0 hx.phi hx.numArgs hx.of hnested
      exact hstays (foldNested_sound hp hx hf hvalid1 hvalid hvalid' (fun v hv => ⟨_, hsame v hv, hx.binary hv⟩) h1)
    | none =>
      obtain ⟨rfl, rfl⟩ := ext_iff.mp (some.inj h)
      exact hstays ⟨.refl hp, hx.opcode, rfl⟩
  case false.false =>
    obtain ⟨rfl, rfl⟩ := ext_iff.mp (some.inj h)
    exact hstays ⟨.refl hp, hx.opcode, rfl⟩

/-- What the folds after `FoldCommutative` need of what decides, by the immediate on the right. -/
structure Decides (f : Meaning) (decide : Immediate → Value → Option (Option Value)) : Prop where
  known : ∀ a lhs result, decide a lhs = some (some result) → result = lhs ∨ result.inst? = none
  same : ∀ a lhs result v d, decide a lhs = some (some result) →
    f [lhs.datum v, .scalar a] = some d → result.datum v = d

theorem foldIdentity_sound {decide : Immediate → Value → Option (Option Value)} (hp : p.Linked)
    (hx : Computes others p x op 2 f) (hf : Folds f imm_fn) (hdecide : Decides f decide)
    (h : p.foldIdentity x imm_fn decide = some p') : p.Sound others p' := by
  obtain ⟨⟨p₁, there⟩, h1, h⟩ := bind_eq_some_iff.mp h
  obtain ⟨hsound, hthere⟩ := foldCommutative_sound hp hx hf h1
  dsimp only at h
  split at h
  next hstays =>
    have hx1 := hthere hstays
    have hp1 := hsound.linked
    obtain ⟨immediate, -, h⟩ := bind_eq_some_iff.mp h
    split at h
    next =>
      obtain ⟨a, ha, h⟩ := bind_eq_some_iff.mp h
      obtain ⟨decided, hdecided, h⟩ := bind_eq_some_iff.mp h
      cases decided with
      | some result =>
        refine hsound.trans (hx1.replace hp1 ?_ (fun v hv => ?_) h)
        · intro y hy
          rcases hdecide.known a _ result hdecided with rfl | hnone
          · exact hp1.valid_arg x 0 y hy
          · rw [hnone] at hy
            cases hy
        · have hvalue := hx1.binary hv
          rw [immediate_spec hp1 (hp1.valid_arg x 1) ha v hv] at hvalue
          exact hdecide.same a _ result v _ hdecided hvalue
      | none =>
        obtain rfl := some.inj h
        exact hsound
    next =>
      obtain rfl := some.inj h
      exact hsound
  next =>
    obtain rfl := some.inj h
    exact hsound

theorem decides_and : Decides (Meaning.ofFlags fun a b => a && b) (fun rhs lhs => do
    if ← rhs.asU1 then some (some lhs) else some (some (.imm (.u1 false)))) := by
  constructor
  · intro a lhs result h
    obtain ⟨flag, -, h⟩ := bind_eq_some_iff.mp h
    cases flag with
    | true => exact .inl (some.inj (some.inj h)).symm
    | false =>
      obtain rfl := some.inj (some.inj h)
      exact .inr rfl
  · intro a lhs result v d h hd
    obtain ⟨i, j, hi, hj, rfl⟩ := ofFlags_some hd
    obtain rfl := Datum.scalar.inj hj
    cases j with
    | true =>
      obtain rfl := some.inj (some.inj h)
      rw [hi, Bool.and_true]
    | false =>
      obtain rfl := some.inj (some.inj h)
      rw [Bool.and_false]
      rfl

theorem decides_or : Decides (Meaning.ofFlags fun a b => a || b) (fun rhs lhs => do
    if ← rhs.asU1 then some (some (.imm (.u1 true))) else some (some lhs)) := by
  constructor
  · intro a lhs result h
    obtain ⟨flag, -, h⟩ := bind_eq_some_iff.mp h
    cases flag with
    | true =>
      obtain rfl := some.inj (some.inj h)
      exact .inr rfl
    | false => exact .inl (some.inj (some.inj h)).symm
  · intro a lhs result v d h hd
    obtain ⟨i, j, hi, hj, rfl⟩ := ofFlags_some hd
    obtain rfl := Datum.scalar.inj hj
    cases j with
    | true =>
      obtain rfl := some.inj (some.inj h)
      rw [Bool.or_true]
      rfl
    | false =>
      obtain rfl := some.inj (some.inj h)
      rw [hi, Bool.or_false]

theorem decides_add : Decides (Meaning.ofWords fun a b => a + b) (fun rhs lhs => do
    if (← rhs.asU32) = 0 then some (some lhs) else some none) := by
  constructor
  · intro a lhs result h
    obtain ⟨word, -, h⟩ := bind_eq_some_iff.mp h
    split at h
    next => exact .inl (some.inj (some.inj h)).symm
    next => cases some.inj h
  · intro a lhs result v d h hd
    obtain ⟨i, j, hi, hj, rfl⟩ := ofWords_some hd
    obtain rfl := Datum.scalar.inj hj
    obtain ⟨word, hword, h⟩ := bind_eq_some_iff.mp h
    obtain rfl := some.inj hword
    split at h
    next hzero =>
      obtain rfl := some.inj (some.inj h)
      rw [hi, hzero]
      exact congrArg (Datum.scalar ∘ Immediate.u32) (BitVec.add_zero i).symm
    next => cases some.inj h

theorem decides_mul : Decides (Meaning.ofWords fun a b => a * b) (fun rhs lhs => do
    let word ← rhs.asU32
    if word = 0 then some (some (.imm (.u32 0)))
    else if word = 1 then some (some lhs)
    else some none) := by
  constructor
  · intro a lhs result h
    obtain ⟨word, -, h⟩ := bind_eq_some_iff.mp h
    split at h
    next =>
      obtain rfl := some.inj (some.inj h)
      exact .inr rfl
    next =>
      split at h
      next => exact .inl (some.inj (some.inj h)).symm
      next => cases some.inj h
  · intro a lhs result v d h hd
    obtain ⟨i, j, hi, hj, rfl⟩ := ofWords_some hd
    obtain rfl := Datum.scalar.inj hj
    obtain ⟨word, hword, h⟩ := bind_eq_some_iff.mp h
    obtain rfl := some.inj hword
    split at h
    next hzero =>
      obtain rfl := some.inj (some.inj h)
      rw [hzero]
      exact congrArg (Datum.scalar ∘ Immediate.u32) (BitVec.mul_zero).symm
    next =>
      split at h
      next hone =>
        obtain rfl := some.inj (some.inj h)
        rw [hi, hone]
        exact congrArg (Datum.scalar ∘ Immediate.u32) (BitVec.mul_one i).symm
      next => cases some.inj h

theorem foldAdd_sound (hp : p.Linked)
    (hx : Computes others p x IntegerOp.iAdd32.opcode 2 (Meaning.ofWords Spirv.iAdd))
    (h : p.foldAdd x = some p') : p.Sound others p' := by
  exact foldIdentity_sound hp hx (folds_words BitVec.add_comm BitVec.add_assoc) decides_add h

theorem foldMul_sound (hp : p.Linked)
    (hx : Computes others p x IntegerOp.iMul32.opcode 2 (Meaning.ofWords Spirv.iMul))
    (h : p.foldMul x = some p') : p.Sound others p' := by
  exact foldIdentity_sound hp hx (folds_words BitVec.mul_comm BitVec.mul_assoc) decides_mul h

theorem foldLogicalAnd_sound (hp : p.Linked)
    (hx : Computes others p x IntegerOp.logicalAnd.opcode 2 (Meaning.ofFlags fun a b => a && b))
    (h : p.foldLogicalAnd x = some p') : p.Sound others p' :=
  foldIdentity_sound hp hx (folds_flags Bool.and_comm Bool.and_assoc) decides_and h

theorem foldLogicalOr_sound (hp : p.Linked)
    (hx : Computes others p x IntegerOp.logicalOr.opcode 2 (Meaning.ofFlags fun a b => a || b))
    (h : p.foldLogicalOr x = some p') : p.Sound others p' :=
  foldIdentity_sound hp hx (folds_flags Bool.or_comm Bool.or_assoc) decides_or h

/-! ## Folds that take the operand of a reverse -/

theorem logicalNot_some (hr : Meaning.logicalNot [d] = some r) : ∃ a, d = .scalar (.u1 a) ∧ r = .scalar (.u1 !a) := by
  cases d with
  | scalar a =>
    cases a with
    | u1 a => exact ⟨a, rfl, (some.inj hr).symm⟩
    | _ => cases hr
  | _ => cases hr

theorem foldReverse_sound (hp : p.Linked) (hx : Computes others p x op 1 f)
    (hreverse : Performs others reverse 1 g) (hinverse : ∀ d e r, g [d] = some e → f [e] = some r → r = d)
    (h : p.foldReverse x reverse = some p') : p.Sound others p' := by
  obtain ⟨y, hy, h⟩ := bind_eq_some_iff.mp h
  split at h
  next hop =>
    refine hx.replace hp (hp.valid_arg y 0) (fun v hv => ?_) h
    obtain ⟨hdatum, hlt⟩ := instRecursive_spec hp (hp.valid_arg x 0) hy v hv
    have hvalue := hx.unary hv
    rw [hdatum] at hvalue
    exact (hinverse _ _ _ (Computes.unary ⟨hreverse, hlt, hop⟩ hv) hvalue).symm
  next =>
    obtain rfl := some.inj h
    exact .refl hp

theorem foldBitCast_sound {cast : BitVec 32 → Immediate} (hp : p.Linked) (hx : Computes others p x op 1 f)
    (hreverse : Performs others reverse 1 g) (hinverse : ∀ d e r, g [d] = some e → f [e] = some r → r = d)
    (hcast : ∀ a word d, a.asU32 = some word → f [.scalar a] = some d → d = .scalar (cast word))
    (h : p.foldBitCast x cast reverse = some p') : p.Sound others p' := by
  obtain ⟨immediate, -, h⟩ := bind_eq_some_iff.mp h
  split at h
  next =>
    obtain ⟨a, ha, h⟩ := bind_eq_some_iff.mp h
    obtain ⟨word, hword, h⟩ := bind_eq_some_iff.mp h
    refine hx.replace hp (valid_imm p _) (fun v hv => ?_) h
    have hvalue := hx.unary hv
    rw [immediate_spec hp (hp.valid_arg x 0) ha v hv] at hvalue
    exact (hcast a word _ hword hvalue).symm
  next => exact foldReverse_sound hp hx hreverse hinverse h

theorem logicalNot_logicalNot (d e r : Datum) (he : Meaning.logicalNot [d] = some e)
    (hr : Meaning.logicalNot [e] = some r) : r = d := by
  obtain ⟨a, rfl, rfl⟩ := logicalNot_some he
  obtain ⟨b, hb, rfl⟩ := logicalNot_some hr
  obtain rfl := Immediate.u1.inj (Datum.scalar.inj hb)
  rw [Bool.not_not]

theorem foldLogicalNot_sound (hp : p.Linked)
    (hx : Computes others p x IntegerOp.logicalNot.opcode 1 Meaning.logicalNot)
    (h : p.foldLogicalNot x = some p') : p.Sound others p' := by
  obtain ⟨immediate, -, h⟩ := bind_eq_some_iff.mp h
  split at h
  next =>
    obtain ⟨a, ha, h⟩ := bind_eq_some_iff.mp h
    obtain ⟨result, hresult, h⟩ := bind_eq_some_iff.mp h
    refine hx.replace hp (valid_imm p _) (fun v hv => ?_) h
    have hvalue := hx.unary hv
    rw [immediate_spec hp (hp.valid_arg x 0) ha v hv] at hvalue
    obtain ⟨flag, hflag, hnegated⟩ := logicalNot_some hvalue
    obtain rfl := Datum.scalar.inj hflag
    rw [hnegated]
    exact congrArg _ (some.inj hresult).symm
  next => exact foldReverse_sound hp hx hx.toPerforms logicalNot_logicalNot h

theorem bitCastU32F32_some (hr : Meaning.bitCastU32F32 [d] = some r) :
    ∃ a, d = .scalar (.f32 a) ∧ r = .scalar (.u32 a) := by
  cases d with
  | scalar a =>
    cases a with
    | f32 a => exact ⟨a, rfl, (some.inj hr).symm⟩
    | _ => cases hr
  | _ => cases hr

theorem bitCastF32U32_some (hr : Meaning.bitCastF32U32 [d] = some r) :
    ∃ a, d = .scalar (.u32 a) ∧ r = .scalar (.f32 a) := by
  cases d with
  | scalar a =>
    cases a with
    | u32 a => exact ⟨a, rfl, (some.inj hr).symm⟩
    | _ => cases hr
  | _ => cases hr

theorem bitCastF32U32_bitCastU32F32 (d e r : Datum) (he : Meaning.bitCastU32F32 [d] = some e)
    (hr : Meaning.bitCastF32U32 [e] = some r) : r = d := by
  obtain ⟨a, rfl, rfl⟩ := bitCastU32F32_some he
  obtain ⟨b, hb, rfl⟩ := bitCastF32U32_some hr
  obtain rfl := Immediate.u32.inj (Datum.scalar.inj hb)
  rfl

theorem bitCastU32F32_bitCastF32U32 (d e r : Datum) (he : Meaning.bitCastF32U32 [d] = some e)
    (hr : Meaning.bitCastU32F32 [e] = some r) : r = d := by
  obtain ⟨a, rfl, rfl⟩ := bitCastF32U32_some he
  obtain ⟨b, hb, rfl⟩ := bitCastU32F32_some hr
  obtain rfl := Immediate.f32.inj (Datum.scalar.inj hb)
  rfl

theorem bitCastF32U32_cast (a : Immediate) (word : BitVec 32) (d : Datum) (ha : a.asU32 = some word)
    (hd : Meaning.bitCastF32U32 [.scalar a] = some d) : d = .scalar (.f32 word) := by
  obtain ⟨b, hb, rfl⟩ := bitCastF32U32_some hd
  obtain rfl := Datum.scalar.inj hb
  rw [some.inj ha]

theorem bitCastU32F32_cast (a : Immediate) (word : BitVec 32) (d : Datum) (ha : a.asU32 = some word)
    (hd : Meaning.bitCastU32F32 [.scalar a] = some d) : d = .scalar (.u32 word) := by
  obtain ⟨b, hb, rfl⟩ := bitCastU32F32_some hd
  obtain rfl := Datum.scalar.inj hb
  rw [some.inj ha]

/-! ## `FoldUnpack32x2` -/

/-- A wide word and how it is read: what a word is packed in is read from it, and it is read as `U64` is. -/
structure Wide (wide : BitVec 64 → Immediate) (read : Immediate → Option (BitVec 64)) : Prop where
  packed : ∀ word, read (wide word) = some word
  asU64 : ∀ a word, read a = some word → a.asU64 = some word

theorem wide_u64 : Wide .u64 Immediate.ofU64 where
  packed _ := rfl
  asU64 a word h := by
    cases a with
    | u64 b => exact h
    | _ => cases h

theorem wide_f64 : Wide .f64 Meaning.ofF64 where
  packed _ := rfl
  asU64 a word h := by
    cases a with
    | f64 b => exact h
    | _ => cases h

theorem halves_append (lo hi : BitVec 32) :
    BitVec.setWidth 32 (hi ++ lo) = lo ∧ BitVec.setWidth 32 ((hi ++ lo) >>> 32) = hi := by
  constructor <;> apply BitVec.eq_of_getLsbD_eq <;> intro i hlt
  · rw [BitVec.getLsbD_setWidth, BitVec.getLsbD_append, if_pos hlt, decide_eq_true hlt, Bool.true_and]
  · rw [BitVec.getLsbD_setWidth, BitVec.getLsbD_ushiftRight, BitVec.getLsbD_append,
      if_neg (by omega), Nat.add_sub_cancel_left, decide_eq_true hlt, Bool.true_and]

theorem unpack_pack {wide : BitVec 64 → Immediate} {read : Immediate → Option (BitVec 64)}
    (hwide : Wide wide read) (d e r : Datum) (he : Meaning.pack wide [d] = some e)
    (hr : Meaning.unpack read [e] = some r) : r = d := by
  unfold Meaning.pack at he
  split at he
  next lo hi heq =>
    obtain rfl := some.inj he
    obtain rfl := (List.cons.inj heq).1
    obtain ⟨word, hword, hr⟩ := bind_eq_some_iff.mp hr
    obtain rfl := some.inj ((hwide.packed _).symm.trans hword)
    obtain rfl := some.inj hr
    obtain ⟨hlo, hhi⟩ := halves_append lo hi
    rw [hlo, hhi]
  next => cases he

theorem Inserted.consistent (he : p.Inserted op args p')
    (hv : p'.Consistent others v) : p.Consistent others v := by
  intro u hu h hof
  obtain ⟨hop, hnum, harg⟩ := he.insts u (Nat.ne_of_lt hu)
  have hdata : (p'.insts u).data v = (p.insts u).data v := data_congr hnum fun i _ => by rw [harg]
  rw [← hdata]
  exact hv u (by rw [he.created]; exact Nat.lt_succ_of_lt hu) h (hop ▸ hof)

theorem foldUnpack32x2_sound {wide : BitVec 64 → Immediate} {read : Immediate → Option (BitVec 64)}
    (hwide : Wide wide read) (hp : p.Linked) (hx : Computes others p x op 1 (Meaning.unpack read))
    (hreverse : Performs others reverse 1 (Meaning.pack wide))
    (h : p.foldUnpack32x2 block x reverse = some p') : p.Sound others p' := by
  obtain ⟨immediate, -, h⟩ := bind_eq_some_iff.mp h
  split at h
  next =>
    obtain ⟨a, ha, h⟩ := bind_eq_some_iff.mp h
    obtain ⟨word, hword, h⟩ := bind_eq_some_iff.mp h
    obtain ⟨⟨composite, p₁⟩, h1, h⟩ := bind_eq_some_iff.mp h
    have hconstruct : Performs others .compositeConstructU32x2 2 (Meaning.construct .u32x2) :=
      ⟨nofun, nofun, rfl, rfl⟩
    obtain ⟨hsound, he, rfl⟩ := sound_emit hp hconstruct.phi hconstruct.of
      (fun value hmem => by
        rcases List.mem_pair.mp hmem with rfl | rfl
        · exact valid_imm p _
        · exact valid_imm p _)
      (fun v _ => ⟨_, rfl⟩) h1
    obtain ⟨hop, -, harg⟩ := he.insts x (Nat.ne_of_lt hx.created)
    have hnew : Computes others p₁ p.created .compositeConstructU32x2 2
        (Meaning.construct .u32x2) := ⟨hconstruct, by rw [he.created]; exact Nat.lt_succ_self _, he.opcode⟩
    have hx1 : Computes others p₁ x op 1 (Meaning.unpack read) :=
      ⟨hx.toPerforms, by rw [he.created]; exact Nat.lt_succ_of_lt hx.created, hop.trans hx.opcode⟩
    refine hsound.trans (hx1.replace hsound.linked (fun y hy => ?_) (fun v hv => ?_) h)
    · obtain rfl := some.inj hy
      exact hnew.created
    · have hvalue := hx1.unary hv
      rw [harg, immediate_spec hp (hp.valid_arg x 0) ha v (he.consistent hv)] at hvalue
      obtain ⟨word', hword', hvalue⟩ := bind_eq_some_iff.mp hvalue
      obtain rfl := some.inj (hword.symm.trans (hwide.asU64 a word' hword'))
      have hvalue' := hnew.binary hv
      rw [he.arg, he.arg] at hvalue'
      exact some.inj (hvalue'.symm.trans hvalue)
  next => exact foldReverse_sound hp hx hreverse (unpack_pack hwide) h

theorem foldSelect_sound (hp : p.Linked) (hx : Computes others p x op 3 Meaning.select)
    (h : p.foldSelect x = some p') : p.Sound others p' := by
  obtain ⟨immediate, -, h⟩ := bind_eq_some_iff.mp h
  split at h
  next =>
    obtain ⟨a, ha, h⟩ := bind_eq_some_iff.mp h
    obtain ⟨flag, hflag, h⟩ := bind_eq_some_iff.mp h
    refine hx.replace hp ?_ (fun v hv => ?_) h
    · split
      · exact hp.valid_arg x 1
      · exact hp.valid_arg x 2
    · have hvalue := hx.ternary hv
      rw [immediate_spec hp (hp.valid_arg x 0) ha v hv] at hvalue
      cases a with
      | u1 a =>
        obtain rfl := some.inj hflag
        rw [← some.inj hvalue]
        exact apply_ite (Value.datum v) _ _ _
      | _ => cases hvalue
  next =>
    obtain rfl := some.inj h
    exact .refl hp

/-! ## `FoldCompositeExtract` -/

theorem mapM_getElem? {α β : Type} {f : α → Option β} {l : List α} {results : List β}
    (h : l.mapM f = some results) (i : ℕ) : results[i]? = (l[i]?).bind f := by
  induction l generalizing results i with
  | nil =>
    obtain rfl := some.inj h
    rfl
  | cons a l ih =>
    rw [List.mapM_cons] at h
    obtain ⟨b, hb, h⟩ := bind_eq_some_iff.mp h
    obtain ⟨rest, hrest, h⟩ := bind_eq_some_iff.mp h
    obtain rfl := some.inj h
    cases i with
    | zero => exact hb.symm
    | succ i => exact ih hrest i

theorem component_some (h : type.component d = some c) : d = .scalar c := by
  cases d with
  | scalar a => exact congrArg _ (some.inj (ite_none_right_eq_some.mp h).2)
  | void => cases h
  | composite type' components => cases h

theorem construct_some {type' : Composite} {data : List Datum} {components : List Immediate}
    {i : ℕ} {c : Immediate} (h : Meaning.construct type data = some (.composite type' components))
    (hc : components[i]? = some c) : data[i]? = some (.scalar c) := by
  obtain ⟨-, h⟩ := ite_none_right_eq_some.mp h
  obtain ⟨results, hresults, heq⟩ := map_eq_some_iff.mp h
  obtain ⟨-, rfl⟩ := Datum.composite.inj heq
  rw [mapM_getElem? hresults] at hc
  obtain ⟨d, hd, hcomponent⟩ := bind_eq_some_iff.mp hc
  rw [hd, component_some hcomponent]

theorem insert_some (h : Meaning.insert type [d, e, i] = some r) :
    ∃ components object index, d = .composite type components ∧ e = .scalar object ∧
      i = .scalar (.u32 index) ∧ index.toNat < components.length ∧
      r = .composite type (components.set index.toNat object) := by
  unfold Meaning.insert at h
  split at h
  next type' components object index heq =>
    cases heq
    obtain ⟨⟨rfl, -, hlt⟩, h⟩ := ite_none_right_eq_some.mp h
    exact ⟨components, object, index, rfl, rfl, rfl, hlt, (some.inj h).symm⟩
  next => cases h

theorem extract_some (h : Meaning.extract type [d, i] = some r) :
    ∃ components index c, d = .composite type components ∧ i = .scalar (.u32 index) ∧
      components[index.toNat]? = some c ∧ r = .scalar c := by
  unfold Meaning.extract at h
  split at h
  next type' components index heq =>
    cases heq
    obtain ⟨rfl, hmap⟩ := ite_none_right_eq_some.mp h
    obtain ⟨c, hc, rfl⟩ := map_eq_some_iff.mp hmap
    exact ⟨components, index, c, rfl, rfl, hc, rfl⟩
  next => cases h

theorem performs_composite (others : OtherMeanings) (type : Composite) :
    Performs others type.construct type.size (Meaning.construct type) ∧
    Performs others type.insert 3 (Meaning.insert type) ∧ Performs others type.extract 2 (Meaning.extract type) := by
  cases type <;> exact ⟨⟨nofun, nofun, rfl, rfl⟩, ⟨nofun, nofun, rfl, rfl⟩, nofun, nofun, rfl, rfl⟩

theorem foldCompositeExtractImpl_spec {first_index depth : ℕ} {result : Value}
    (hp : p.Linked) (hvalue : p.Valid value)
    (h : p.foldCompositeExtractImpl type.insert type.construct first_index depth value = some (some result)) :
    p.Valid result ∧ ∀ v, p.Consistent others v → ∀ components c,
      value.datum v = .composite type components → components[first_index]? = some c →
      result.datum v = .scalar c := by
  obtain ⟨hconstruct, hinsert, -⟩ := performs_composite others type
  induction depth generalizing value with
  | zero => cases h
  | succ depth ih =>
    obtain ⟨y, hy, h⟩ := bind_eq_some_iff.mp h
    split at h
    next hop =>
      obtain rfl := some.inj (some.inj h)
      refine ⟨hp.valid_arg y first_index, fun v hv components c hcomposite hc => ?_⟩
      obtain ⟨hdatum, hlt⟩ := instRecursive_spec hp hvalue hy v hv
      have hdata := hv y hlt _ (hop ▸ hconstruct.of)
      rw [data_eq hop hconstruct.phi, ← hdatum, hcomposite] at hdata
      have harg := construct_some hdata hc
      rw [List.getElem?_map] at harg
      obtain ⟨i, hi, harg⟩ := map_eq_some_iff.mp harg
      obtain ⟨hlt', rfl⟩ := List.getElem?_eq_some_iff.mp hi
      rwa [List.getElem_range] at harg
    next hnot =>
      split at h
      next => cases some.inj h
      next hop =>
        have hcomputes (hlt : y < p.created) : Computes others p y type.insert 3
            (Meaning.insert type) := ⟨hinsert, hlt, not_not.mp hop⟩
        obtain ⟨index_immediate, -, h⟩ := bind_eq_some_iff.mp h
        split at h
        next =>
          obtain ⟨a, ha, h⟩ := bind_eq_some_iff.mp h
          obtain ⟨second_index, hsecond, h⟩ := bind_eq_some_iff.mp h
          -- What the insertion evaluates to, and what it was inserted into.
          have hinserted (v : ℕ → Datum) (hv : p.Consistent others v) (components : List Immediate)
              (hcomposite : value.datum v = .composite type components) : ∃ base object,
              ((p.insts y).arg 0).datum v = .composite type base ∧
              ((p.insts y).arg 1).datum v = .scalar object ∧ second_index.toNat < base.length ∧
              components = base.set second_index.toNat object := by
            obtain ⟨hdatum, hlt⟩ := instRecursive_spec hp hvalue hy v hv
            obtain ⟨base, object, index, hbase, hobject, hindex, hlt', hset⟩ :=
              insert_some ((hcomputes hlt).ternary hv)
            rw [immediate_spec hp (hp.valid_arg y 2) ha v hv] at hindex
            obtain rfl := Datum.scalar.inj hindex
            obtain rfl := some.inj hsecond
            rw [← hdatum, hcomposite] at hset
            exact ⟨base, object, hbase, hobject, hlt', (Datum.composite.inj hset).2⟩
          split at h
          next hne =>
            obtain ⟨composite_immediate, -, h⟩ := bind_eq_some_iff.mp h
            split at h
            next => cases some.inj h
            next =>
              obtain ⟨hvalid, hrest⟩ := ih (hp.valid_arg y 0) h
              refine ⟨hvalid, fun v hv components c hcomposite hc => ?_⟩
              obtain ⟨base, object, hbase, -, -, rfl⟩ := hinserted v hv components hcomposite
              rw [List.getElem?_set_ne hne.symm] at hc
              exact hrest v hv base c hbase hc
          next heq =>
            obtain rfl := some.inj (some.inj h)
            refine ⟨hp.valid_arg y 1, fun v hv components c hcomposite hc => ?_⟩
            obtain ⟨base, object, -, hobject, hlt, rfl⟩ := hinserted v hv components hcomposite
            rw [not_not.mp heq, List.getElem?_set_self hlt] at hc
            rw [hobject, some.inj hc]
        next => cases some.inj h

theorem foldCompositeExtract_sound (hp : p.Linked) (hx : Computes others p x type.extract 2 (Meaning.extract type))
    (h : p.foldCompositeExtract x type.construct type.insert = some p') : p.Sound others p' := by
  obtain ⟨immediate1, -, h⟩ := bind_eq_some_iff.mp h
  split at h
  next =>
    obtain rfl := some.inj h
    exact .refl hp
  next =>
    obtain ⟨immediate2, -, h⟩ := bind_eq_some_iff.mp h
    split at h
    next =>
      obtain ⟨a, ha, h⟩ := bind_eq_some_iff.mp h
      obtain ⟨first_index, hfirst, h⟩ := bind_eq_some_iff.mp h
      obtain ⟨result, hresult, h⟩ := bind_eq_some_iff.mp h
      cases result with
      | some result =>
        obtain ⟨hvalid, hsame⟩ := foldCompositeExtractImpl_spec hp (hp.valid_arg x 0) hresult
        refine hx.replace hp hvalid (fun v hv => ?_) h
        obtain ⟨components, index, c, hcomposite, hindex, hc, hvalue⟩ := extract_some (hx.binary hv)
        rw [immediate_spec hp (hp.valid_arg x 1) ha v hv] at hindex
        obtain rfl := Datum.scalar.inj hindex
        obtain rfl := some.inj hfirst
        rw [hvalue]
        exact hsame v hv components c hcomposite hc
      | none =>
        obtain rfl := some.inj h
        exact .refl hp
    next =>
      obtain rfl := some.inj h
      exact .refl hp

end ShadPS4.IR.Program
