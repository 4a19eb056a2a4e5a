import ShadPS4.Lib.Bits
import ShadPS4.Lib.Transition

/-!
# Shared memory by double words

Loads and stores of shared memory with 16 or 64 bits are lowered to ones with 32 bits.
-/

namespace ShadPS4.IR.Shared

open Function
open BitVec (eq_of_getLsbD_eq getLsbD_and eq_of_toNat_eq ofNat)
open Option (some.inj)

variable {address other : BitVec 32} {value : BitVec 16}

abbrev Memory := BitVec 32 → BitVec 8

def read (w : ℕ) (mem : Memory) (address : BitVec 32) : BitVec w :=
  ofBits w fun i => (mem (address + ofNat 32 (i / 8))).getLsbD (i % 8)

/-- The memory after a word is stored at an address. -/
def write {w : ℕ} (mem : Memory) (address : BitVec 32) (value : BitVec w) : Memory := fun byte =>
  let d := (byte - address).toNat
  if 8 * d < w then ofBits 8 fun i => value.getLsbD (8 * d + i) else mem byte

/-- The accesses of 32 bits that are left. -/
inductive Prog (α : Type)
  | ret (value : α)
  | load (address : BitVec 32) (next : BitVec 32 → Prog α)
  | store (address value : BitVec 32) (next : Prog α)

/-- What a program does when nothing comes between its steps. -/
def Prog.run {α : Type} (mem : Memory) : Prog α → α × Memory
  | .ret value => (value, mem)
  | .load address next => (next (read 32 mem address)).run mem
  | .store address value next => next.run (write mem address value)

variable (offset : BitVec 32)

/-- `offset & ~3`. -/
def dwordOffset : BitVec 32 := offset &&& ~~~3#32

/-- `(offset & 2) * 8`. -/
def bitOffset : BitVec 32 := (offset &&& 2#32) * 8#32

/-- The case of `LoadSharedU16`. -/
def loadSharedU16 : Prog (BitVec 16) :=
  .load (dwordOffset offset) fun dword_value =>
    .ret ((extractField dword_value (bitOffset offset).toNat 16 false).setWidth 16)

/-- The case of `WriteSharedU16`. -/
def writeSharedU16 (value : BitVec 16) : Prog Unit :=
  .load (offset &&& dwordOffset offset) fun dword_value =>
    .store (dwordOffset offset)
      (insertField dword_value (value.setWidth 32) (bitOffset offset).toNat 16) (.ret ())

/-- The case of `LoadSharedU64`. -/
def loadSharedU64 : Prog (BitVec 64) :=
  .load offset fun value0 => .load (offset + 4) fun value1 => .ret (value1 ++ value0)

/-- The case of `WriteSharedU64`. -/
def writeSharedU64 (value : BitVec 64) : Prog Unit :=
  .store offset (value.extractLsb' 0 32) (.store (offset + 4) (value.extractLsb' 32 32) (.ret ()))

variable {offset} {mem : Memory} {w : ℕ}

/-! ## One access -/

theorem getLsbD_read (hi : i < w) : (read w mem address).getLsbD i =
    (mem (address + ofNat 32 (i / 8))).getLsbD (i % 8) := by
  unfold read
  rw [getLsbD_ofBits, decide_eq_true hi, Bool.true_and]

theorem getLsbD_write {byte : BitVec 32} {value : BitVec w} {i : ℕ} (hi : i < 8) :
    (write mem address value byte).getLsbD i = if 8 * (byte - address).toNat < w then
      value.getLsbD (8 * (byte - address).toNat + i) else (mem byte).getLsbD i := by
  unfold write
  dsimp only
  split_ifs
  · rw [getLsbD_ofBits, decide_eq_true hi, Bool.true_and]
  · rfl

theorem and_not_add_and (x m : BitVec 32) : (x &&& ~~~m) + (x &&& m) = x := by
  rw [BitVec.add_eq_or_of_and_eq_zero]
  · refine eq_of_getLsbD_eq fun i hi => ?_
    rw [BitVec.getLsbD_or, getLsbD_and, getLsbD_and, BitVec.getLsbD_not, decide_eq_true hi]
    cases m.getLsbD i <;> simp
  · refine eq_of_getLsbD_eq fun i hi => ?_
    rw [getLsbD_and, getLsbD_and, getLsbD_and, BitVec.getLsbD_not]
    cases m.getLsbD i <;> simp

theorem toNat_and_three (offset : BitVec 32) : (offset &&& 3#32).toNat = offset.toNat % 4 := by
  exact Nat.and_two_pow_sub_one_eq_mod _ 2

theorem toNat_dwordOffset (offset : BitVec 32) : (dwordOffset offset).toNat = offset.toNat - offset.toNat % 4 := by
  have hsum : dwordOffset offset + (offset &&& 3#32) = offset := and_not_add_and offset 3#32
  have hlow := toNat_and_three offset
  bv_omega

theorem offset_cases (h : offset.toNat % 2 = 0) : ∃ half : ℕ, (half = 0 ∨ half = 2) ∧
    offset = dwordOffset offset + ofNat 32 half ∧ (bitOffset offset).toNat = 8 * half ∧
    offset &&& dwordOffset offset = dwordOffset offset := by
  have hand : offset &&& dwordOffset offset = dwordOffset offset := by
    unfold dwordOffset
    rw [← BitVec.and_assoc, BitVec.and_self]
  have hsum : offset = dwordOffset offset + (offset &&& 3#32) := (and_not_add_and offset 3#32).symm
  have hlow := toNat_and_three offset
  have hbit : offset &&& 2#32 = (offset &&& 3#32) &&& 2#32 := by
    rw [BitVec.and_assoc]
    rfl
  unfold bitOffset
  rw [hbit]
  rcases (by omega : offset.toNat % 4 = 0 ∨ offset.toNat % 4 = 2) with hmod | hmod
  · have hzero : offset &&& 3#32 = 0#32 := eq_of_toNat_eq (hlow.trans hmod)
    exact ⟨0, .inl rfl, by rwa [hzero] at hsum, by rw [hzero]; rfl, hand⟩
  · have htwo : offset &&& 3#32 = 2#32 := eq_of_toNat_eq (hlow.trans hmod)
    exact ⟨2, .inr rfl, by rwa [htwo] at hsum, by rw [htwo]; rfl, hand⟩

theorem loadSharedU16_run (h : offset.toNat % 2 = 0) :
    (loadSharedU16 offset).run mem = (read 16 mem offset, mem) := by
  obtain ⟨half, hhalf, hoffset, hbit, -⟩ := offset_cases h
  refine Prod.ext (eq_of_getLsbD_eq fun i hi => ?_) rfl
  show ((extractField _ (bitOffset offset).toNat 16 false).setWidth 16).getLsbD i = _
  rw [hbit, getLsbD_read hi, BitVec.getLsbD_setWidth, getLsbD_extractField _ _ _ _ (by omega), if_pos hi,
    decide_eq_true hi, Bool.true_and, getLsbD_read (by omega)]
  have hdiv : (8 * half + i) / 8 = half + i / 8 := by omega
  have hmod : (8 * half + i) % 8 = i % 8 := by omega
  rw [hdiv, hmod, BitVec.ofNat_add, ← BitVec.add_assoc, ← hoffset]

theorem write_insertField {half : ℕ} (hhalf : half = 0 ∨ half = 2) (address : BitVec 32)
    (value : BitVec 16) : write mem address (insertField (read 32 mem address) (value.setWidth 32)
      (8 * half) 16) = write mem (address + ofNat 32 half) value := by
  refine funext fun byte => eq_of_getLsbD_eq fun i hi => ?_
  have hd : (byte - (address + ofNat 32 half)).toNat =
      if half ≤ (byte - address).toNat then (byte - address).toNat - half
      else (byte - address).toNat + 2^32 - half := by
    rcases hhalf with rfl | rfl <;> split_ifs <;> bv_omega
  rw [getLsbD_write hi, getLsbD_write hi, hd]
  have hbyte : byte = address + ofNat 32 (byte - address).toNat := by bv_omega
  generalize hdist : (byte - address).toNat = d at *
  by_cases hin : 8 * d < 32
  · rw [if_pos hin, getLsbD_insertField _ _ _ _ (by omega)]
    by_cases hfield : half ≤ d ∧ d < half + 2
    · rw [if_pos (by omega), if_pos hfield.1, if_pos (by omega), BitVec.getLsbD_setWidth]
      have hindex : 8 * d + i - 8 * half = 8 * (d - half) + i := by omega
      rw [hindex, decide_eq_true (by omega), Bool.true_and]
    · rw [if_neg (by omega), if_neg (by split_ifs <;> omega), getLsbD_read (by omega)]
      have hdiv : (8 * d + i) / 8 = d := by omega
      have hmod : (8 * d + i) % 8 = i := by omega
      rw [hdiv, hmod, ← hbyte]
  · rw [if_neg hin, if_neg (by split_ifs <;> omega)]

theorem write_dword (h : offset.toNat % 2 = 0) (value : BitVec 16) :
    write mem (dwordOffset offset) (insertField (read 32 mem (dwordOffset offset))
      (value.setWidth 32) (bitOffset offset).toNat 16) = write mem offset value := by
  obtain ⟨half, hhalf, hoffset, hbit, -⟩ := offset_cases h
  rw [hbit, write_insertField hhalf, ← hoffset]

theorem writeSharedU16_run (h : offset.toNat % 2 = 0) (value : BitVec 16) :
    (writeSharedU16 offset value).run mem = ((), write mem offset value) := by
  unfold writeSharedU16
  rw [(offset_cases h).choose_spec.2.2.2]
  exact Prod.ext rfl (write_dword h value)

theorem loadSharedU64_run : (loadSharedU64 offset).run mem = (read 64 mem offset, mem) := by
  refine Prod.ext (eq_of_getLsbD_eq fun i hi => ?_) rfl
  show (read 32 mem (offset + 4#32) ++ read 32 mem offset).getLsbD i = _
  rw [BitVec.getLsbD_append, getLsbD_read hi]
  split_ifs with hlow
  · rw [getLsbD_read hlow]
  · have hdiv : i / 8 = 4 + (i - 32) / 8 := by omega
    have hmod : i % 8 = (i - 32) % 8 := by omega
    rw [getLsbD_read (by omega), hdiv, hmod, BitVec.ofNat_add, ← BitVec.add_assoc]

theorem writeSharedU64_run (value : BitVec 64) :
    (writeSharedU64 offset value).run mem = ((), write mem offset value) := by
  refine Prod.ext rfl (funext fun byte => eq_of_getLsbD_eq fun i hi => ?_)
  show (write (write mem offset (value.extractLsb' 0 32)) (offset + 4#32)
    (value.extractLsb' 32 32) byte).getLsbD i = _
  have hd : (byte - (offset + 4#32)).toNat = if 4 ≤ (byte - offset).toNat then
      (byte - offset).toNat - 4 else (byte - offset).toNat + 2^32 - 4 := by
    split_ifs <;> bv_omega
  rw [getLsbD_write hi, getLsbD_write hi, getLsbD_write hi, hd, BitVec.getLsbD_extractLsb',
    BitVec.getLsbD_extractLsb']
  generalize (byte - offset).toNat = d
  by_cases hhigh : 4 ≤ d
  · rw [if_pos hhigh]
    by_cases hin : d < 8
    · rw [if_pos (by omega), if_pos (by omega), decide_eq_true (by omega), Bool.true_and]
      congr 1
      omega
    · rw [if_neg (by omega), if_neg (by omega), if_neg (by omega)]
  · rw [if_neg hhigh, if_neg (by omega), if_pos (by omega), if_pos (by omega), decide_eq_true (by omega),
      Bool.true_and, Nat.zero_add]

/-! ## Any order of the steps -/

/-- The invocations of a workgroup, each of which stores some halfwords in turn. -/
structure Group where
  mem : Memory
  done : ℕ → ℕ
  prog : ℕ → Option (Prog Unit)

/-- A step of an invocation: it begins a store, makes an access, or is done with the store. -/
def Group.step (writes : ℕ → List (BitVec 32 × BitVec 16)) (g : Group) (i : ℕ) : Option Group :=
  match g.prog i with
  | none => ((writes i)[g.done i]?).map fun w =>
    { g with prog := update g.prog i (some (writeSharedU16 w.1 w.2)) }
  | some (.load address next) =>
    some { g with prog := update g.prog i (some (next (read 32 g.mem address))) }
  | some (.store address value next) =>
    some { g with
      mem := write g.mem address value
      prog := update g.prog i (some next) }
  | some (.ret _) =>
    some { g with
      done := update g.done i (g.done i + 1)
      prog := update g.prog i none }

/-- The invocation has loaded a double word, and is to store it. -/
def Group.Holds (g : Group) (i : ℕ) (address : BitVec 32) : Prop :=
  ∃ value next, g.prog i = some (.store address value next)

/-- No double word is loaded that another invocation has loaded and is to store. -/
def Group.Alone (g : Group) (i : ℕ) : Prop :=
  ∀ address next, g.prog i = some (.load address next) → ∀ j, ¬ g.Holds j address

/-- The halfwords are aligned, and pairwise different. -/
def Distinct (writes : ℕ → List (BitVec 32 × BitVec 16)) : Prop :=
  ∀ (i p : ℕ) (w : BitVec 32 × BitVec 16), (writes i)[p]? = some w → w.1.toNat % 2 = 0 ∧
    ∀ (j q : ℕ) (v : BitVec 32 × BitVec 16), (writes j)[q]? = some v → v.1 = w.1 → j = i ∧ q = p

/-- A store that is under way is to load its double word, to store it with the halfword in it, or has
stored it. -/
def Underway (mem : Memory) (w : BitVec 32 × BitVec 16) (prog : Prog Unit) : Prop :=
  prog = writeSharedU16 w.1 w.2 ∨
    prog = .store (dwordOffset w.1) (insertField (read 32 mem (dwordOffset w.1)) (w.2.setWidth 32)
      (bitOffset w.1).toNat 16) (.ret ()) ∨
    (prog = .ret () ∧ read 16 mem w.1 = w.2)

variable {writes : ℕ → List (BitVec 32 × BitVec 16)} {g g' : Group} {i : ℕ}

/-- What holds between the steps. -/
structure Group.Kept (writes : ℕ → List (BitVec 32 × BitVec 16)) (g : Group) : Prop where
  underway : ∀ i prog, g.prog i = some prog →
    ∃ w, (writes i)[g.done i]? = some w ∧ Underway g.mem w prog
  alone : ∀ i j address, g.Holds i address → g.Holds j address → i = j
  stored : ∀ i p w, p < g.done i → (writes i)[p]? = some w → read 16 g.mem w.1 = w.2

theorem read_write_self (address : BitVec 32) (value : BitVec 16) :
    read 16 (write mem address value) address = value := by
  refine eq_of_getLsbD_eq fun i hi => ?_
  have hd : (address + ofNat 32 (i / 8) - address).toNat = i / 8 := by bv_omega
  rw [getLsbD_read hi, getLsbD_write (by omega), hd, if_pos (by omega)]
  congr 1
  omega

theorem read_write_of_apart (h : ∀ k, 8 * k < w → 2 ≤ (other + ofNat 32 k - address).toNat) :
    read w (write mem address value) other = read w mem other := by
  refine eq_of_getLsbD_eq fun i hi => ?_
  rw [getLsbD_read hi, getLsbD_read hi, getLsbD_write (by omega),
    if_neg (by have := h (i / 8) (by omega); omega)]

theorem read_write_halfword (h : address.toNat % 2 = 0) (h' : other.toNat % 2 = 0) (hne : other ≠ address) :
    read 16 (write mem address value) other = read 16 mem other := by
  apply read_write_of_apart
  intro k hk
  have hk : k = 0 ∨ k = 1 := by omega
  rcases hk with rfl | rfl <;> bv_omega

theorem read_write_dword (h : address.toNat % 2 = 0) (hne : dwordOffset other ≠ dwordOffset address) :
    read 32 (write mem address value) (dwordOffset other) = read 32 mem (dwordOffset other) := by
  apply read_write_of_apart
  intro k hk
  have hne : (dwordOffset other).toNat ≠ (dwordOffset address).toNat :=
    fun heq => hne (eq_of_toNat_eq heq)
  have hother := toNat_dwordOffset other
  rw [toNat_dwordOffset address] at hne
  rcases (by omega : k = 0 ∨ k = 1 ∨ k = 2 ∨ k = 3) with rfl | rfl | rfl | rfl <;> bv_omega

theorem Underway.write {w v : BitVec 32 × BitVec 16} {prog : Prog Unit} (hu : Underway mem v prog)
    (hw : w.1.toNat % 2 = 0) (hv : v.1.toNat % 2 = 0) (hne : v.1 ≠ w.1)
    (halone : ∀ value next, prog = .store (dwordOffset v.1) value next →
      dwordOffset v.1 ≠ dwordOffset w.1) : Underway (write mem w.1 w.2) v prog := by
  rcases hu with hload | hstore | ⟨hret, hread⟩
  · exact .inl hload
  · refine .inr (.inl ?_)
    rwa [read_write_dword hw (halone _ _ hstore)]
  · exact .inr (.inr ⟨hret, (read_write_halfword hw hv hne).trans hread⟩)

theorem Group.Kept.advance {mem : Memory} {w : BitVec 32 × BitVec 16} {prog : Prog Unit}
    (hk : g.Kept writes) (hw : (writes i)[g.done i]? = some w) (hu : Underway mem w prog)
    (hholds : ∀ address value next, prog = .store address value next → ∀ j, ¬ g.Holds j address)
    (hothers : ∀ j prog, j ≠ i → g.prog j = some prog → ∃ v, (writes j)[g.done j]? = some v ∧ Underway mem v prog)
    (hstored : ∀ j p v, p < g.done j → (writes j)[p]? = some v → read 16 mem v.1 = v.2) :
    ({ g with mem, prog := Function.update g.prog i (some prog) } : Group).Kept writes := by
  constructor
  · intro j prog' hprog
    dsimp only at hprog
    by_cases hj : j = i
    · subst hj
      rw [update_self] at hprog
      exact ⟨w, hw, some.inj hprog ▸ hu⟩
    · rw [update_of_ne hj] at hprog
      exact hothers j prog' hj hprog
  · intro j k address ⟨value, next, hj⟩ ⟨value', next', hk'⟩
    dsimp only at hj hk'
    by_cases hji : j = i <;> by_cases hki : k = i
    · exact hji.trans hki.symm
    · rw [hji, update_self] at hj
      rw [update_of_ne hki] at hk'
      exact (hholds address value next (some.inj hj) k ⟨_, _, hk'⟩).elim
    · rw [hki, update_self] at hk'
      rw [update_of_ne hji] at hj
      exact (hholds address value' next' (some.inj hk') j ⟨_, _, hj⟩).elim
    · rw [update_of_ne hji] at hj
      rw [update_of_ne hki] at hk'
      exact hk.alone j k address ⟨_, _, hj⟩ ⟨_, _, hk'⟩
  · exact hstored

theorem Group.Kept.step (hk : g.Kept writes) (hd : Distinct writes) (halone : g.Alone i)
    (h : g.step writes i = some g') : g'.Kept writes := by
  unfold Group.step at h
  split at h
  next hnone =>
    -- A store begins with a load.
    obtain ⟨w, hw, rfl⟩ := Option.map_eq_some_iff.mp h
    exact hk.advance hw (.inl rfl) nofun (fun j prog _ => hk.underway j prog) hk.stored
  next address next hload =>
    obtain rfl := some.inj h
    obtain ⟨w, hw, hu⟩ := hk.underway i _ hload
    obtain ⟨heven, -⟩ := hd i _ w hw
    rcases hu with hu | hu | ⟨hu, -⟩
    · obtain ⟨rfl, rfl⟩ := Prog.load.inj hu
      have hfree := halone _ _ hload
      rw [(offset_cases heven).choose_spec.2.2.2] at hfree ⊢
      refine hk.advance hw (.inr (.inl rfl)) ?_ (fun j prog _ => hk.underway j prog) hk.stored
      intro address value next hstore
      obtain ⟨rfl, -, -⟩ := Prog.store.inj hstore
      exact hfree
    · cases hu
    · cases hu
  next address value next hstore =>
    obtain rfl := some.inj h
    obtain ⟨w, hw, hu⟩ := hk.underway i _ hstore
    obtain ⟨heven, hdiffer⟩ := hd i _ w hw
    rcases hu with hu | hu | ⟨hu, -⟩
    · cases hu
    · obtain ⟨rfl, rfl, rfl⟩ := Prog.store.inj hu
      rw [write_dword heven]
      refine hk.advance hw (.inr (.inr ⟨rfl, read_write_self w.1 w.2⟩)) nofun ?_ ?_
      · intro j prog hj hprog
        obtain ⟨v, hv, hu⟩ := hk.underway j prog hprog
        refine ⟨v, hv, hu.write heven (hd j _ v hv).1 ?_ ?_⟩
        · intro heq
          exact hj (hdiffer j _ v hv heq).1
        · intro value next hprog' heq
          refine hj (hk.alone j i _ ⟨value, next, hprog.trans (congrArg some hprog')⟩ ?_)
          rw [heq]
          exact ⟨_, _, hstore⟩
      · intro j p v hp hv
        rw [read_write_halfword heven (hd j p v hv).1 ?_, hk.stored j p v hp hv]
        intro heq
        obtain ⟨rfl, rfl⟩ := hdiffer j p v hv heq
        exact Nat.lt_irrefl _ hp
    · cases hu
  next hret =>
    obtain rfl := some.inj h
    obtain ⟨w, hw, hu⟩ := hk.underway i _ hret
    rcases hu with hu | hu | ⟨-, hread⟩
    · cases hu
    · cases hu
    constructor
    · intro j prog hprog
      dsimp only at hprog
      by_cases hj : j = i
      · rw [hj, update_self] at hprog
        cases hprog
      · rw [update_of_ne hj] at hprog
        dsimp only
        rw [update_of_ne hj]
        exact hk.underway j prog hprog
    · intro j k address ⟨value, next, hj⟩ ⟨value', next', hk'⟩
      dsimp only at hj hk'
      rw [update_apply] at hj hk'
      split at hj
      · cases hj
      split at hk'
      · cases hk'
      exact hk.alone j k address ⟨_, _, hj⟩ ⟨_, _, hk'⟩
    · intro j p v hp hv
      dsimp only at hp ⊢
      by_cases hlast : j = i ∧ p = g.done i
      · obtain ⟨rfl, rfl⟩ := hlast
        obtain rfl := some.inj (hw.symm.trans hv)
        exact hread
      · apply hk.stored j p v _ hv
        rw [update_apply] at hp
        split at hp
        · subst j
          omega
        · exact hp

/-- The accesses that are lowered do what the ones they replace do, and what the invocations of a workgroup have
stored stays, in any order of the steps in which no double word is loaded that another invocation is to
store. -/
theorem shared_run (hd : Distinct writes) (hstart : g.done = (fun _ => 0) ∧ g.prog = fun _ => none)
    (hrun : Run (· = g) (fun g i g' => g.step writes i = some g') (fun g i => g.Alone i) g') :
    (∀ (offset : BitVec 32) (mem : Memory), offset.toNat % 2 = 0 →
      (loadSharedU16 offset).run mem = (read 16 mem offset, mem) ∧
      ∀ value, (writeSharedU16 offset value).run mem = ((), write mem offset value)) ∧
    (∀ (offset : BitVec 32) (mem : Memory), (loadSharedU64 offset).run mem = (read 64 mem offset, mem) ∧
      ∀ value, (writeSharedU64 offset value).run mem = ((), write mem offset value)) ∧
    ∀ (i p : ℕ) (w : BitVec 32 × BitVec 16), p < g'.done i → (writes i)[p]? = some w → read 16 g'.mem w.1 = w.2 := by
  refine ⟨fun offset mem h => ⟨loadSharedU16_run h, writeSharedU16_run h⟩,
    fun offset mem => ⟨loadSharedU64_run, writeSharedU64_run⟩, Group.Kept.stored ?_⟩
  refine hrun.invariant ?_ fun g i g' hk halone h => hk.step hd halone h
  rintro g rfl
  constructor
  · intro i prog hprog
    rw [hstart.2] at hprog
    cases hprog
  · intro i j address ⟨value, next, hi⟩
    rw [hstart.2] at hi
    cases hi
  · intro i p w hp
    rw [hstart.1] at hp
    cases hp

/-- Two invocations store the two halfwords of a double word. -/
def halves (i : ℕ) : List (BitVec 32 × BitVec 16) :=
  if i < 2 then [(ofNat 32 (2 * i), ofNat 16 (7 + i))] else []

def halvesGroup : Group := ⟨fun _ => 0, fun _ => 0, fun _ => none⟩

theorem halves_distinct : Distinct halves := by
  have hoffset {i p : ℕ} {w : BitVec 32 × BitVec 16} (hw : (halves i)[p]? = some w) : p = 0 ∧ w.1.toNat = 2 * i := by
    unfold halves at hw
    split at hw
    · obtain ⟨hp, rfl⟩ := List.getElem?_eq_some_iff.mp hw
      obtain rfl := Nat.lt_one_iff.mp hp
      exact ⟨rfl, Nat.mod_eq_of_lt (by omega)⟩
    · cases hw
  intro i p w hw
  obtain ⟨hp, hi⟩ := hoffset hw
  refine ⟨by omega, fun j q v hv heq => ?_⟩
  obtain ⟨hq, hj⟩ := hoffset hv
  rw [heq] at hj
  omega

theorem shared_run_sample : ∃ g : Group, g.done 0 = 1 ∧ read 16 g.mem 0 = 7 := by
  have next {g g' : Group} (hs : g.step halves 0 = some g') :
      Run (· = halvesGroup) (fun g i g' => g.step halves i = some g') (fun g i => g.Alone i) g ∧
        (∀ j, j ≠ 0 → g.prog j = none) →
      Run (· = halvesGroup) (fun g i g' => g.step halves i = some g') (fun g i => g.Alone i) g' ∧
        ∀ j, j ≠ 0 → g'.prog j = none := by
    intro ⟨hrun, hnone⟩
    refine ⟨.step hrun ?_ hs, fun j hj => ?_⟩
    · intro address next hload j ⟨value, next', hstore⟩
      by_cases hj : j = 0
      · rw [hj, hload] at hstore
        cases hstore
      · rw [hnone j hj] at hstore
        cases hstore
    · unfold Group.step at hs
      split at hs
      · obtain ⟨w, -, rfl⟩ := Option.map_eq_some_iff.mp hs
        exact (update_of_ne hj _ _).trans (hnone j hj)
      all_goals
        obtain rfl := some.inj hs
        exact (update_of_ne hj _ _).trans (hnone j hj)
  obtain ⟨hrun, -⟩ := next rfl (next rfl (next rfl (next rfl ⟨.start rfl, fun _ _ => rfl⟩)))
  exact ⟨_, rfl, (shared_run halves_distinct ⟨rfl, rfl⟩ hrun).2.2 0 0 (0, 7) (by decide) rfl⟩

/-- Both have loaded the double word when they store it. -/
theorem halves_lost : Distinct halves ∧
    ([0, 1, 0, 1, 0, 1, 0, 1].foldlM (fun (g : Group) i => g.step halves i) halvesGroup).map
      (fun g => (g.done 0, g.done 1, read 16 g.mem 0, read 16 g.mem 2)) = some (1, 1, 0, 8) := by
  refine ⟨halves_distinct, ?_⟩
  decide +kernel

end ShadPS4.IR.Shared
