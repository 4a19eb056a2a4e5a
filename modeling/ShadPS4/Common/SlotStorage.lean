import ShadPS4.Common.SlotVector
import ShadPS4.Lib.Bits
import ShadPS4.Lib.Transition
import Mathlib.Data.List.Perm.Basic

/-!
# The storage of slot vectors

The storage of a slot vector keeps a bit for each value. Its values are moved when it grows, and its
iterators skip the ids whose bit is not set. Ids have 32 bits, sizes have 64.
-/

namespace ShadPS4.Common

open Function List

variable {index turns : ℕ}

/-- `SlotVector`, as it is stored. -/
structure SlotStorage (α : Type) where
  /-- `values[i].object`, where one was made -/
  values : ℕ → Option α
  values_capacity : ℕ
  stored_bitset : List (BitVec 64)
  free_list : List ℕ

namespace SlotStorage

variable {α : Type} {v : SlotStorage α} {id : ℕ}

/-- `static_cast<u32>`. -/
def toU32 (n : ℕ) : ℕ := n % 2^32

section

variable (v : SlotStorage α)

def readStorageBit (index : ℕ) : Bool :=
  (v.stored_bitset.getD (index / 64) 0 >>> (index % 64)) &&& 1#64 ≠ 0#64

def setStorageBit (index : ℕ) : SlotStorage α :=
  { v with stored_bitset := v.stored_bitset.modify (index / 64) (· ||| 1#64 <<< (index % 64)) }

def resetStorageBit (index : ℕ) : SlotStorage α :=
  { v with stored_bitset := v.stored_bitset.modify (index / 64) (· &&& ~~~(1#64 <<< (index % 64))) }

/-- The loop over the bits of a word. A word has no more bits than there are turns. -/
def moveBits (values : ℕ → Option α) : ℕ → BitVec 64 → ℕ → (ℕ → Option α) → ℕ → Option α
  | 0, _, _, new_values => new_values
  | turns + 1, bits, i, new_values =>
    if bits = 0#64 then new_values
    else moveBits values turns (bits >>> 1) (i + 1)
      (if bits &&& 1#64 = 0#64 then new_values else update new_values i (values i))

def moveWords (values : ℕ → Option α) : List (BitVec 64) → ℕ → (ℕ → Option α) → ℕ → Option α
  | [], _, new_values => new_values
  | bits :: rest, index, new_values =>
    moveWords values rest (index + 64) (moveBits values 64 bits index new_values)

def reserve (new_capacity : ℕ) : SlotStorage α where
  values := moveWords v.values v.stored_bitset 0 fun _ => none
  values_capacity := new_capacity
  stored_bitset := (v.stored_bitset ++ replicate ((new_capacity + 63) / 64) 0#64).take
    ((new_capacity + 63) / 64)
  free_list :=
    (range' v.values_capacity (new_capacity - v.values_capacity)).map toU32 ++ v.free_list

def new : SlotStorage α := reserve ⟨fun _ => none, 0, [], []⟩ 2048

def freeValueIndex : ℕ × SlotStorage α :=
  let v := if v.free_list.isEmpty then
    v.reserve (if v.values_capacity ≠ 0 then v.values_capacity * 2 else 1) else v
  (v.free_list.headD 0, { v with free_list := v.free_list.tail })

def insert (x : α) : ℕ × SlotStorage α :=
  let (index, v) := v.freeValueIndex
  (index, { v with values := update v.values index (some x) }.setStorageBit index)

def erase (id : ℕ) : SlotStorage α :=
  { v with
    values := update v.values id none
    free_list := id :: v.free_list }.resetStorageBit id

def isAllocated (id : ℕ) : Bool := v.readStorageBit id

def size : ℕ := v.values_capacity - v.free_list.length

def advanceToValid (v : SlotStorage α) (slot : ℕ) : ℕ :=
  if slot < toU32 v.values_capacity ∧ v.readStorageBit slot = false then v.advanceToValid (slot + 1)
  else slot
termination_by toU32 v.values_capacity - slot

def visitFrom (v : SlotStorage α) (stop : ℕ) : ℕ → ℕ → Option (List ℕ)
  | 0, _ => none
  | turns + 1, slot =>
    if slot = stop then some []
    else (v.visitFrom stop turns (v.advanceToValid (toU32 (slot + 1)))).map (slot :: ·)

/-- The slots from `begin()` to `end()`, when there are enough turns. -/
def visits (turns : ℕ) : Option (List ℕ) :=
  v.visitFrom (v.advanceToValid (toU32 v.values_capacity)) turns (v.advanceToValid 0)

/-! ## Bits -/

theorem and_one_ne_zero_iff (bits : BitVec 64) : bits &&& 1#64 ≠ 0#64 ↔ bits.getLsbD 0 = true := by
  rw [BitVec.and_one_eq_setWidth_ofBool_getLsbD]
  cases bits.getLsbD 0 <;> decide

theorem readStorageBit_eq (index : ℕ) : v.readStorageBit index =
    (v.stored_bitset.getD (index / 64) 0).getLsbD (index % 64) := by
  rw [Bool.eq_iff_iff]
  unfold readStorageBit
  rw [decide_eq_true_iff, and_one_ne_zero_iff, BitVec.getLsbD_ushiftRight, Nat.add_zero]

end

theorem getLsbD_one_shiftLeft (hi : i < 64) : (1#64 <<< k).getLsbD i = decide (i = k) := by
  rw [BitVec.getLsbD_shiftLeft, BitVec.getLsbD_one, decide_eq_true hi, Bool.eq_iff_iff]
  simp only [Bool.and_eq_true, Bool.not_eq_true', decide_eq_true_iff, decide_eq_false_iff_not]
  exact ⟨fun h => by omega, fun h => ⟨⟨trivial, by omega⟩, by omega, by omega⟩⟩

theorem readStorageBit_modify (f : BitVec 64 → BitVec 64) :
    readStorageBit { v with stored_bitset := v.stored_bitset.modify (id / 64) f } index =
      if id / 64 = index / 64 ∧ index / 64 < v.stored_bitset.length then
        (f (v.stored_bitset.getD (index / 64) 0)).getLsbD (index % 64)
      else v.readStorageBit index := by
  rw [readStorageBit_eq, readStorageBit_eq, getD_eq_getElem?_getD, getD_eq_getElem?_getD, getElem?_modify]
  by_cases hlt : index / 64 < v.stored_bitset.length
  · rw [getElem?_eq_getElem hlt, Option.map_eq_map, Option.map_some, Option.getD_some, Option.getD_some]
    split_ifs <;> first | rfl | omega
  · rw [getElem?_eq_none (by omega), if_neg (by omega)]
    rfl

theorem readStorageBit_setStorageBit (h : id / 64 < v.stored_bitset.length) :
    (v.setStorageBit id).readStorageBit index = (decide (index = id) || v.readStorageBit index) := by
  unfold setStorageBit
  rw [readStorageBit_modify, readStorageBit_eq, BitVec.getLsbD_or,
    getLsbD_one_shiftLeft (Nat.mod_lt _ (by decide)), Bool.or_comm]
  split_ifs with hword
  · congr 2
    exact propext (by omega)
  · rw [decide_eq_false (by rintro rfl; omega), Bool.false_or]

theorem readStorageBit_resetStorageBit :
    (v.resetStorageBit id).readStorageBit index = (!decide (index = id) && v.readStorageBit index) := by
  unfold resetStorageBit
  rw [readStorageBit_modify, readStorageBit_eq, BitVec.getLsbD_and, BitVec.getLsbD_not,
    getLsbD_one_shiftLeft (Nat.mod_lt _ (by decide)), decide_eq_true (Nat.mod_lt _ (by decide)),
    Bool.true_and, Bool.and_comm]
  split_ifs with hword
  · congr 3
    exact propext (by omega)
  · rcases eq_or_ne index id with rfl | hne
    · rw [getD_eq_getElem?_getD, getElem?_eq_none (by omega)]
      simp
    · rw [decide_eq_false hne, Bool.not_false, Bool.true_and]

theorem moveBits_apply (values : ℕ → Option α) : moveBits values turns bits i new_values j =
      if i ≤ j ∧ j < i + turns ∧ bits.getLsbD (j - i) = true then values j else new_values j := by
  induction turns generalizing bits i new_values with
  | zero => rw [moveBits, if_neg (by omega)]
  | succ turns ih =>
    rw [moveBits]
    split
    next hzero => rw [hzero, if_neg (by simp)]
    next =>
      rw [ih, BitVec.getLsbD_ushiftRight]
      rcases eq_or_ne j i with rfl | hne
      · rw [if_neg (by omega), Nat.sub_self]
        by_cases hbit : bits &&& 1#64 = 0#64
        · rw [if_pos hbit, if_neg fun h => (and_one_ne_zero_iff bits).mpr h.2.2 hbit]
        · rw [if_neg hbit, update_self, if_pos ⟨Nat.le_refl _, by omega, (and_one_ne_zero_iff bits).mp hbit⟩]
      · have hnew : (if bits &&& 1#64 = 0#64 then new_values
            else update new_values i (values i)) j = new_values j := by
          split_ifs
          · rfl
          · rw [update_of_ne hne]
        rw [hnew]
        by_cases hlt : i < j
        · have hindex : 1 + (j - (i + 1)) = j - i := by omega
          rw [hindex]
          congr 1
          exact propext ⟨fun h => ⟨by omega, by omega, h.2.2⟩, fun h => ⟨by omega, by omega, h.2.2⟩⟩
        · rw [if_neg (by omega), if_neg (by omega)]

theorem moveWords_apply (values : ℕ → Option α) : moveWords values words index new_values j =
      if index ≤ j ∧ (words.getD ((j - index) / 64) 0).getLsbD ((j - index) % 64) = true then values j
      else new_values j := by
  induction words generalizing index new_values with
  | nil => simp [moveWords]
  | cons bits rest ih =>
    rw [moveWords, ih, moveBits_apply]
    by_cases hfirst : j < index + 64
    · rw [if_neg (by omega)]
      by_cases hle : index ≤ j
      · have hdiv : (j - index) / 64 = 0 := by omega
        have hmod : (j - index) % 64 = j - index := by omega
        rw [hdiv, hmod, getD_cons_zero]
        congr 1
        exact propext ⟨fun h => ⟨h.1, h.2.2⟩, fun h => ⟨h.1, hfirst, h.2⟩⟩
      · rw [if_neg (by omega), if_neg (by omega)]
    · have hout : ¬ (index ≤ j ∧ j < index + 64 ∧ bits.getLsbD (j - index) = true) := fun h => hfirst h.2.1
      have hdiv : (j - index) / 64 = (j - (index + 64)) / 64 + 1 := by omega
      have hmod : (j - index) % 64 = (j - (index + 64)) % 64 := by omega
      rw [hdiv, hmod, getD_cons_succ, if_neg hout]
      congr 1
      exact propext ⟨fun h => ⟨by omega, h.2⟩, fun h => ⟨by omega, h.2⟩⟩

/-! ## The operations -/

def slots (v : SlotStorage α) : SlotVector α := ⟨v.values, v.values_capacity, v.free_list⟩

/-- Objects are made where a bit is set, and the free list has the other slots. -/
structure Stored (v : SlotStorage α) : Prop where
  bit : ∀ i, v.readStorageBit i = (v.values i).isSome
  words : v.stored_bitset.length = (v.values_capacity + 63) / 64
  wf : v.slots.Wf

theorem Stored.reserve (h : v.Stored) (hle : v.values_capacity ≤ new_capacity)
    (hfits : new_capacity ≤ 2^32) : (v.reserve new_capacity).Stored ∧
      (v.reserve new_capacity).slots = v.slots.reserve new_capacity := by
  have hvalues : (v.reserve new_capacity).values = v.values := by
    refine funext fun j => ?_
    show moveWords v.values v.stored_bitset 0 (fun _ => none) j = v.values j
    rw [moveWords_apply, Nat.sub_zero, ← readStorageBit_eq, h.bit]
    cases hj : v.values j
    · rw [if_neg (by simp)]
    · rw [if_pos ⟨Nat.zero_le j, rfl⟩]
  have hids : (range' v.values_capacity (new_capacity - v.values_capacity)).map toU32 =
      range' v.values_capacity (new_capacity - v.values_capacity) := by
    refine (map_congr_left fun i hi => ?_).trans (map_id _)
    have := mem_range'_1.mp hi
    exact Nat.mod_eq_of_lt (by omega)
  have hslots : (v.reserve new_capacity).slots = v.slots.reserve new_capacity := by
    unfold slots SlotVector.reserve
    rw [hvalues]
    unfold SlotStorage.reserve
    rw [hids]
  have hwords := h.words
  refine ⟨⟨fun i => ?_, ?_, hslots ▸ h.wf.reserve hle⟩, hslots⟩
  · rw [hvalues, ← h.bit, readStorageBit_eq, readStorageBit_eq]
    show (getD (take _ (v.stored_bitset ++ replicate _ 0#64)) _ 0).getLsbD _ = _
    rw [getD_eq_getElem?_getD, getD_eq_getElem?_getD]
    rcases Nat.lt_or_ge (i / 64) v.stored_bitset.length with hlt | hge
    · rw [getElem?_take_of_lt (by omega), getElem?_append_left hlt]
    · -- The words that are added have no bit.
      rw [getElem?_eq_none hge, getElem?_take, getElem?_append_right hge, getElem?_replicate]
      split_ifs <;> rfl
  · show (take _ (v.stored_bitset ++ replicate _ 0#64)).length = (new_capacity + 63) / 64
    rw [length_take, length_append, length_replicate]
    omega

/-- An insertion for which the storage need not grow beyond the ids. -/
def Fits (v : SlotStorage α) : Prop := v.free_list = [] → v.values_capacity * 2 < 2^32

theorem Stored.insert (h : v.Stored) (hcap : v.values_capacity < 2^32) (hfits : v.Fits) (x : α) :
    ∃ id v', v.insert x = (id, v') ∧ v'.Stored ∧ v'.values_capacity < 2^32 ∧ v.values id = none ∧
      v'.values = update v.values id (some x) := by
  obtain ⟨w, hw, hstored, hlt, hslots⟩ : ∃ w : SlotStorage α, (if v.free_list.isEmpty then
      v.reserve (if v.values_capacity ≠ 0 then v.values_capacity * 2 else 1) else v) = w ∧ w.Stored ∧
      w.values_capacity < 2^32 ∧
      (if v.slots.free_list.isEmpty then v.slots.reserve
        (if v.slots.values_capacity ≠ 0 then v.slots.values_capacity * 2 else 1) else v.slots) = w.slots := by
    show ∃ w : SlotStorage α, _ ∧ _ ∧ _ ∧ (if v.free_list.isEmpty then v.slots.reserve
      (if v.values_capacity ≠ 0 then v.values_capacity * 2 else 1) else v.slots) = w.slots
    split_ifs with hempty hzero
    · have hdouble := hfits (List.isEmpty_iff.mp hempty)
      obtain ⟨hstored, hslots⟩ := h.reserve (by omega : v.values_capacity ≤ v.values_capacity * 2) (by omega)
      exact ⟨_, rfl, hstored, hdouble, hslots.symm⟩
    · obtain ⟨hstored, hslots⟩ := h.reserve (by omega : v.values_capacity ≤ 1) (by decide)
      exact ⟨_, rfl, hstored, (by decide : 1 < 2^32), hslots.symm⟩
    · exact ⟨v, rfl, h, hcap, rfl⟩
  -- The slot vector that is stored chooses the same id.
  obtain ⟨id, s, hs, hwf, hnone, hvalues⟩ := h.wf.insert x
  unfold SlotVector.insert SlotVector.freeValueIndex at hs
  rw [hslots] at hs
  obtain ⟨hid, rfl⟩ := Prod.mk.inj hs
  have hid : w.free_list.headD 0 = id := hid
  refine ⟨id, { w with
    values := update w.values id (some x), free_list := w.free_list.tail }.setStorageBit id,
    ?_, ⟨fun i => ?_, ?_, ?_⟩, hlt, hnone, ?_⟩
  · unfold SlotStorage.insert freeValueIndex
    rw [hw]
    dsimp only
    rw [hid]
  · have hid : id < w.values_capacity := hwf.stored id x (by rw [hvalues, update_self])
    have hwords := hstored.words
    refine (readStorageBit_setStorageBit (by dsimp only; omega)).trans ?_
    show (decide (i = id) || w.readStorageBit i) = (update w.values id (some x) i).isSome
    rw [hstored.bit]
    rcases eq_or_ne i id with rfl | hne
    · rw [update_self, decide_eq_true rfl]
      rfl
    · rw [update_of_ne hne, decide_eq_false hne]
      rfl
  · exact (length_modify ..).trans hstored.words
  · rw [← hid]
    exact hwf
  · rw [← hid] at hvalues ⊢
    exact hvalues

theorem Stored.erase (h : v.Stored) (hx : v.values id = some x) : (v.erase id).Stored := by
  refine ⟨fun i => ?_, ?_, h.wf.erase hx⟩
  · refine readStorageBit_resetStorageBit.trans ?_
    show (!decide (i = id) && v.readStorageBit i) = (update v.values id none i).isSome
    rw [h.bit]
    rcases eq_or_ne i id with rfl | hne
    · rw [update_self, decide_eq_true rfl]
      rfl
    · rw [update_of_ne hne, decide_eq_false hne]
      rfl
  · exact (length_modify ..).trans h.words

theorem stored_new : (new : SlotStorage α).Stored := by
  have hempty : (⟨fun _ => none, 0, [], []⟩ : SlotStorage α).Stored := by
    refine ⟨fun i => ?_, by simp, nodup_nil, fun i => ?_, fun i x hx => by cases hx⟩
    · rw [readStorageBit_eq]
      simp
    · exact ⟨fun h => (not_mem_nil h).elim, fun h => absurd h.1 (Nat.not_lt_zero i)⟩
  exact (hempty.reserve (Nat.zero_le 2048) (by decide)).1

def live (v : SlotStorage α) : List ℕ := (range v.values_capacity).filter v.readStorageBit

theorem Stored.mem_free_list (h : v.Stored) : id ∈ v.free_list ↔
    id < v.values_capacity ∧ v.readStorageBit id = false := by
  rw [h.bit, Option.isSome_eq_false_iff, Option.isNone_iff_eq_none]
  exact h.wf.free id

theorem Stored.size_eq (h : v.Stored) : v.size = v.live.length := by
  have hperm : v.free_list.Perm ((range v.values_capacity).filter fun i => !v.readStorageBit i) := by
    refine (perm_ext_iff_of_nodup h.wf.nodup (nodup_range.filter _)).mpr fun i => ?_
    rw [mem_filter, mem_range, Bool.not_eq_true', ← h.mem_free_list]
    rfl
  have hsum := length_eq_length_filter_add (l := range v.values_capacity) v.readStorageBit
  rw [length_range] at hsum
  unfold size live
  rw [hperm.length_eq]
  omega

theorem visitFrom_advance (hfits : v.values_capacity < 2^32)
    (hn : slot + n = v.values_capacity) (hturns : n < turns) :
    v.visitFrom v.values_capacity turns (v.advanceToValid slot) =
      some ((range' slot n).filter v.readStorageBit) := by
  have hcap : toU32 v.values_capacity = v.values_capacity := Nat.mod_eq_of_lt hfits
  induction n generalizing slot turns with
  | zero =>
    rw [advanceToValid, if_neg (by omega)]
    obtain ⟨turns, rfl⟩ := Nat.exists_eq_add_of_lt hturns
    rw [visitFrom, if_pos (by omega)]
    rfl
  | succ n ih =>
    rw [range'_succ, advanceToValid]
    cases hbit : v.readStorageBit slot
    · rw [if_pos ⟨by omega, rfl⟩, filter_cons_of_neg (by rw [hbit]; decide)]
      exact ih (by omega) (by omega)
    · obtain ⟨turns, rfl⟩ := Nat.exists_eq_succ_of_ne_zero (Nat.ne_zero_of_lt hturns)
      have hnext : toU32 (slot + 1) = slot + 1 := Nat.mod_eq_of_lt (by omega)
      rw [if_neg (by simp), filter_cons_of_pos hbit, visitFrom, if_neg (by omega), hnext,
        ih (by omega) (by omega)]
      rfl

theorem visits_eq (hfits : v.values_capacity < 2^32) (hturns : v.values_capacity < turns) :
    v.visits turns = some v.live := by
  have hcap : toU32 v.values_capacity = v.values_capacity := Nat.mod_eq_of_lt hfits
  have hend : v.advanceToValid v.values_capacity = v.values_capacity := by
    rw [advanceToValid, if_neg (by omega)]
  unfold visits live
  rw [hcap, hend, visitFrom_advance hfits (Nat.zero_add _) hturns, range_eq_range']

/-! ## Runs -/

inductive Op (α : Type)
  | insert (value : α)
  | erase (id : ℕ)

/-- The storage after an operation, and the map from ids to values. -/
def step (s : SlotStorage α × (ℕ → Option α)) : Op α → SlotStorage α × (ℕ → Option α)
  | .insert value =>
    ((s.1.insert value).2, update s.2 (s.1.insert value).1 (some value))
  | .erase id => (s.1.erase id, update s.2 id none)

/-- Ids that are erased are live, and the storage has fewer slots than there are ids. -/
def Allowed (s : SlotStorage α × (ℕ → Option α)) : Op α → Prop
  | .insert _ => s.1.Fits
  | .erase id => s.2 id ≠ none

/-- The storage after some values are inserted. -/
def filled : ℕ → SlotStorage Unit
  | 0 => new
  | n + 1 => ((filled n).insert ()).2

theorem filled_spec (n : ℕ) : (∃ k, (filled n).values_capacity = 2^k) ∧
    (filled n).free_list.length + n = (filled n).values_capacity ∧
    ((filled n).values_capacity = 2048 ∨ (filled n).values_capacity < 2 * n) := by
  induction n with
  | zero => exact ⟨⟨11, rfl⟩, by simp [filled, new, SlotStorage.reserve], .inl rfl⟩
  | succ n ih =>
    obtain ⟨⟨k, hk⟩, hlength, hcap⟩ := ih
    rw [filled]
    generalize filled n = v at *
    unfold insert freeValueIndex setStorageBit
    dsimp only
    split_ifs with hempty hzero
    · have hnone : v.free_list = [] := List.isEmpty_iff.mp hempty
      rw [hnone, length_nil] at hlength
      unfold SlotStorage.reserve
      simp only [hnone, append_nil, length_tail, length_map, length_range']
      exact ⟨⟨k + 1, by omega⟩, by omega, by omega⟩
    · exact absurd hzero (by have := Nat.two_pow_pos k; omega)
    · have hpos : v.free_list.length ≠ 0 := fun h => hempty (by simpa using h)
      rw [length_tail]
      exact ⟨⟨k, hk⟩, by omega, by omega⟩

theorem visits_filled (hn : n = 2^31 + 1) :
    (filled n).size = n ∧ ∀ turns, (filled n).visits (turns + 1) = some [] := by
  obtain ⟨⟨k, hk⟩, hlength, hcap⟩ := filled_spec n
  have hlow : 31 < k := (Nat.pow_lt_pow_iff_right (a := 2) (by decide)).mp (by omega)
  have hhigh : k < 33 := (Nat.pow_lt_pow_iff_right (a := 2) (by decide)).mp (by omega)
  obtain rfl : k = 32 := by omega
  have hzero : toU32 (filled n).values_capacity = 0 := by rw [hk]; decide
  have hadvance : (filled n).advanceToValid 0 = 0 := by
    rw [advanceToValid, if_neg (by omega)]
  refine ⟨?_, fun turns => ?_⟩
  · unfold size
    omega
  · unfold visits
    rw [hzero, hadvance, visitFrom, if_pos rfl]

end SlotStorage

end ShadPS4.Common
