import ShadPS4.Common.BitArray

/-!
# What the operations of a `BitArray` mean

Each operation on a range is specified bit by bit, and the iterator by the set of bits: the ranges it
visits are maximal runs of ones, in order.
-/

namespace ShadPS4.Common

open BitVec (getLsbD_not getLsbD_zero getLsbD_and eq_of_getLsbD_eq)
open Nat (mod_lt)

variable {first i k start stop : ℕ} {w : BitVec 64}

namespace BitArray

variable {words : ℕ}

variable (a : BitArray words)

def bit (i : ℕ) : Bool := (a.word (i / bitsPerWord)).getLsbD (i % bitsPerWord)

/-! ## Words -/

theorem word_eq (hj : j < words) : a.word j = a.data[j] := by
  simp [word, Vector.getD, hj]

theorem word_setWord (hi : i < words) (value : BitVec 64) (j : ℕ) :
    (a.setWord i value).word j = if j = i then value else a.word j := by
  unfold word setWord
  simp only [Vector.getD]
  by_cases h : i = j
  · subst h
    simp [hi]
  · simp [h, Ne.symm h]

theorem word_setWords (value : ℕ → BitVec 64)
    (h : first + count ≤ words) (j : ℕ) : (a.setWords value first count).word j =
      if first ≤ j ∧ j < first + count then value j else a.word j := by
  induction count generalizing a first with
  | zero =>
    rw [if_neg (by omega)]
    rfl
  | succ count ih =>
    unfold setWords
    rw [ih _ (by omega), word_setWord _ (by omega)]
    by_cases hj : j = first
    · subst hj
      rw [if_neg (by omega), if_pos rfl, if_pos ⟨by omega, by omega⟩]
    · rw [if_neg hj]
      by_cases hin : first + 1 ≤ j ∧ j < first + 1 + count
      · rw [if_pos hin, if_pos ⟨by omega, by omega⟩]
      · rw [if_neg hin, if_neg fun hc => hin ⟨by omega, by omega⟩]

theorem word_span (h : first < last) (hlast : last < words)
    (u v : BitVec 64) (value : ℕ → BitVec 64) (j : ℕ) :
    (((a.setWord first u).setWords value (first + 1) (last - (first + 1))).setWord last v).word j =
      if j = first then u else if j = last then v
      else if first < j ∧ j < last then value j else a.word j := by
  rw [word_setWord _ hlast, word_setWords _ _ (by omega), word_setWord _ (by omega)]
  by_cases hj : j = last
  · rw [if_pos hj, if_neg (by omega), if_pos hj]
  · rw [if_neg hj, if_neg hj]
    by_cases hf : j = first
    · rw [if_pos hf, if_neg (by omega), if_pos hf]
    · rw [if_neg hf, if_neg hf]
      by_cases hin : first < j ∧ j < last
      · rw [if_pos hin, if_pos ⟨by omega, by omega⟩]
      · rw [if_neg hin, if_neg fun hc => hin ⟨by omega, by omega⟩]

theorem word_span_last (h : first < last) (hlast : last < words)
    (u : BitVec 64) (value : ℕ → BitVec 64) :
    ((a.setWord first u).setWords value (first + 1) (last - (first + 1))).word last = a.word last := by
  rw [word_setWords _ _ (by omega), if_neg (by omega), word_setWord _ (by omega), if_neg (by omega)]

theorem getLsbD_lowMask (hn : n < 64) (k : ℕ) : (lowMask n).getLsbD k = decide (k < n) := by
  have hpow : 2^n < 2^64 := Nat.pow_lt_pow_right (by omega) hn
  have hpos : 0 < 2^n := Nat.two_pow_pos n
  have hnat : (lowMask n).toNat = 2^n - 1 := by
    unfold lowMask
    rw [BitVec.toNat_sub, BitVec.toNat_shiftLeft, Nat.shiftLeft_eq]
    simp only [BitVec.toNat_ofNat, Nat.one_mod]
    omega
  rw [BitVec.getLsbD, hnat, Nat.testBit_two_pow_sub_one]

theorem getLsbD_startMask (start : ℕ) (hk : k < 64) : (startMask start).getLsbD k = decide (start % 64 ≤ k) := by
  unfold startMask bitsPerWord
  rw [getLsbD_not, getLsbD_lowMask (mod_lt _ (by omega)), decide_eq_true hk,
    Bool.true_and, ← decide_not, decide_eq_decide]
  omega

theorem getLsbD_endMask (stop : ℕ) (hk : k < 64) : (endMask stop).getLsbD k = decide (k ≤ (stop - 1) % 64) := by
  unfold endMask bitsPerWord
  dsimp only
  split_ifs with h
  · rw [getLsbD_not]
    simp [hk, h]
    omega
  · rw [getLsbD_lowMask (by omega)]
    simp [Nat.lt_succ_iff]

/-! ## Ranges of bits -/

theorem bit_clear (i : ℕ) : (clear : BitArray words).bit i = false := by
  have hzero : (clear : BitArray words).word (i / bitsPerWord) = 0 := by
    unfold word clear
    by_cases hi : i / bitsPerWord < words <;> simp [Vector.getD, hi]
  unfold bit
  rw [hzero]
  exact getLsbD_zero

theorem bit_fill (hi : i < words * bitsPerWord) : (fill : BitArray words).bit i = true := by
  unfold bitsPerWord at hi
  have hword : i / 64 < words := by omega
  have hbit : i % 64 < 64 := by omega
  have hones : (fill : BitArray words).word (i / 64) = BitVec.allOnes 64 := by
    unfold word fill
    simp [Vector.getD, hword]
  unfold bit bitsPerWord
  rw [hones, BitVec.getLsbD_allOnes, decide_eq_true hbit]

theorem bit_edit (base : BitArray words) (h : start < stop) (hstop : stop ≤ words * 64) (g : ℕ → Bool)
    (hone : ∀ k < 64, one.getLsbD k = if start % 64 ≤ k ∧ k ≤ (stop - 1) % 64
      then g (start / 64 * 64 + k) else (base.word (start / 64)).getLsbD k)
    (hu : ∀ k < 64, u.getLsbD k = if start % 64 ≤ k
      then g (start / 64 * 64 + k) else (base.word (start / 64)).getLsbD k)
    (hv : start / 64 < (stop - 1) / 64 → ∀ k < 64, v.getLsbD k = if k ≤ (stop - 1) % 64
      then g ((stop - 1) / 64 * 64 + k) else (base.word ((stop - 1) / 64)).getLsbD k)
    (hvalue : ∀ j, ∀ k < 64, (value j).getLsbD k = g (j * 64 + k)) (i : ℕ) :
    bit (if start / 64 = (stop - 1) / 64 then base.setWord (start / 64) one
      else ((base.setWord (start / 64) u).setWords value (start / 64 + 1)
        ((stop - 1) / 64 - (start / 64 + 1))).setWord ((stop - 1) / 64) v) i =
      if start ≤ i ∧ i < stop then g i else base.bit i := by
  have hk : i % 64 < 64 := mod_lt _ (by omega)
  have hi : i / 64 * 64 + i % 64 = i := by omega
  unfold bit bitsPerWord
  split_ifs with hwords hin hin
  · have hj : i / 64 = start / 64 := by omega
    rw [word_setWord _ (by omega), if_pos hj, hone _ hk, if_pos (by omega), ← hj, hi]
  · rw [word_setWord _ (by omega)]
    split_ifs with hj
    · rw [hone _ hk, if_neg (by omega), hj]
    · rfl
  · rw [word_span _ (by omega) (by omega)]
    split_ifs with hfirst hlast hbetween
    · rw [hu _ hk, if_pos (by omega), ← hfirst, hi]
    · rw [hv (by omega) _ hk, if_pos (by omega), ← hlast, hi]
    · rw [hvalue _ _ hk, hi]
    · omega
  · rw [word_span _ (by omega) (by omega)]
    split_ifs with hfirst hlast hbetween
    · rw [hu _ hk, if_neg (by omega), hfirst]
    · rw [hv (by omega) _ hk, if_neg (by omega), hlast]
    · omega
    · rfl

theorem bit_setRange (hstop : stop ≤ words * bitsPerWord)
    (i : ℕ) : (a.setRange start stop).bit i = if start ≤ i ∧ i < stop then true else a.bit i := by
  unfold setRange
  by_cases hempty : start ≥ stop ∨ stop > words * bitsPerWord
  · rw [if_pos hempty, if_neg (by omega)]
  · rw [if_neg hempty]
    unfold bitsPerWord at hempty hstop ⊢
    have hor : ∀ (w mask : BitVec 64) (p : Prop) [Decidable p] (k : ℕ), mask.getLsbD k = decide p →
        (w ||| mask).getLsbD k = if p then true else w.getLsbD k := by
      intro w mask p _ k hmask
      rw [BitVec.getLsbD_or, hmask]
      split_ifs with hp <;> simp [hp]
    refine bit_edit a (by omega) hstop (fun _ => true) (fun k hk => hor _ _ _ k ?_)
      (fun k hk => hor _ _ _ k (getLsbD_startMask _ hk)) (fun hlt k hk => ?_) (fun j k hk => ?_) i
    · rw [getLsbD_and, getLsbD_startMask _ hk, getLsbD_endMask _ hk, Bool.decide_and]
    · rw [word_span_last _ hlt (by omega)]
      exact hor _ _ _ k (getLsbD_endMask _ hk)
    · rw [getLsbD_not]
      simp [hk]

theorem bit_unsetRange (hstop : stop ≤ words * bitsPerWord)
    (i : ℕ) : (a.unsetRange start stop).bit i = if start ≤ i ∧ i < stop then false else a.bit i := by
  unfold unsetRange
  by_cases hempty : start ≥ stop ∨ stop > words * bitsPerWord
  · rw [if_pos hempty, if_neg (by omega)]
  · rw [if_neg hempty]
    unfold bitsPerWord at hempty hstop ⊢
    have hand : ∀ (w mask : BitVec 64) (p : Prop) [Decidable p] (k : ℕ), mask.getLsbD k = !decide p →
        (w &&& mask).getLsbD k = if p then false else w.getLsbD k := by
      intro w mask p _ k hmask
      rw [getLsbD_and, hmask]
      split_ifs with hp <;> simp [hp]
    have hstart : ∀ k, (lowMask (start % 64)).getLsbD k = !decide (start % 64 ≤ k) := by
      intro k
      rw [getLsbD_lowMask (mod_lt _ (by omega)), ← decide_not, decide_eq_decide]
      omega
    -- The mask of the end is the complement of that of the other operations.
    have hend : ∀ k < 64, (if (stop - 1) % 64 = 64 - 1 then 0#64
        else ~~~ lowMask ((stop - 1) % 64 + 1)).getLsbD k = !decide (k ≤ (stop - 1) % 64) := by
      intro k hk
      rw [← getLsbD_endMask stop hk]
      unfold endMask bitsPerWord
      dsimp only
      split_ifs
      · rw [getLsbD_not]
        simp [hk]
      · simp [hk]
    refine bit_edit a (by omega) hstop (fun _ => false) (fun k hk => hand _ _ _ k ?_)
      (fun k hk => hand _ _ _ k (hstart k)) (fun hlt k hk => ?_) (fun j k hk => ?_) i
    · rw [BitVec.getLsbD_or, hstart, hend k hk, Bool.decide_and, Bool.not_and]
    · rw [word_span_last _ hlt (by omega)]
      exact hand _ _ _ k (hend k hk)
    · exact getLsbD_zero

theorem bit_ofRange (other : BitArray words) (hstop : stop ≤ words * bitsPerWord)
    (i : ℕ) : (ofRange other start stop).bit i = if start ≤ i ∧ i < stop then other.bit i else false := by
  unfold ofRange
  by_cases hempty : start ≥ stop ∨ stop > words * bitsPerWord
  · rw [if_pos hempty, if_neg (by omega), bit_clear]
  · rw [if_neg hempty, ← @bit_clear words i]
    have hzero : ∀ (j k : ℕ), k < 64 → ((clear : BitArray words).word j).getLsbD k = false := by
      intro j k hk
      have hbit := @bit_clear words (j * 64 + k)
      unfold bit bitsPerWord at hbit
      rwa [show (j * 64 + k) / 64 = j by omega, show (j * 64 + k) % 64 = k by omega] at hbit
    have hbit : ∀ (j k : ℕ), k < 64 → (other.word j).getLsbD k = other.bit (j * 64 + k) := by
      intro j k hk
      unfold bit bitsPerWord
      rw [show (j * 64 + k) / 64 = j by omega, show (j * 64 + k) % 64 = k by omega]
    have hand : ∀ (mask : BitVec 64) (p : Prop) [Decidable p] (j k : ℕ), k < 64 →
        mask.getLsbD k = decide p → (other.word j &&& mask).getLsbD k =
          if p then other.bit (j * 64 + k) else ((clear : BitArray words).word j).getLsbD k := by
      intro mask p _ j k hk hmask
      rw [getLsbD_and, hmask, hbit j k hk, hzero j k hk]
      split_ifs with hp <;> simp [hp]
    refine bit_edit clear (by omega) hstop other.bit (fun k hk => hand _ _ _ k hk ?_)
      (fun k hk => hand _ _ _ k hk (getLsbD_startMask _ hk))
      (fun hlt k hk => hand _ _ _ k hk (getLsbD_endMask _ hk)) (fun j k hk => hbit j k hk) i
    rw [getLsbD_and, getLsbD_startMask _ hk, getLsbD_endMask _ hk, Bool.decide_and]

theorem getLsbD_word (j : ℕ) (hk : k < 64) : (a.word j).getLsbD k = a.bit (j * 64 + k) := by
  unfold bit bitsPerWord
  rw [show (j * 64 + k) / 64 = j by omega, show (j * 64 + k) % 64 = k by omega]

theorem exists_of_word_ne_zero (h : w ≠ 0#64) : ∃ k < 64, w.getLsbD k = true := by
  by_contra hall
  push Not at hall
  exact h (eq_of_getLsbD_eq fun k hk => by simpa using hall k hk)

theorem foldl_or_eq_zero (ws : List (BitVec 64)) (w : BitVec 64) :
    ws.foldl (· ||| ·) w = 0#64 ↔ w = 0#64 ∧ ∀ x ∈ ws, x = 0#64 := by
  induction ws generalizing w with
  | nil => simp
  | cons x rest ih =>
    rw [List.foldl_cons, ih, BitVec.or_eq_zero_iff]
    simp [and_assoc]

theorem none_iff : a.none = true ↔ ∀ j < words, a.word j = 0#64 := by
  unfold none
  rw [beq_iff_eq, ← Vector.foldl_toList, foldl_or_eq_zero]
  simp only [true_and, Vector.mem_toList_iff]
  refine ⟨fun h j hj => ?_, fun h x hx => ?_⟩
  · rw [word_eq a hj]
    exact h _ (Vector.getElem_mem hj)
  · obtain ⟨j, hj, rfl⟩ := Vector.getElem_of_mem hx
    rw [← word_eq a hj]
    exact h j hj

theorem any_iff : a.any = true ↔ ∃ i < words * bitsPerWord, a.bit i = true := by
  unfold any bitsPerWord
  rw [Bool.not_eq_true', ← Bool.not_eq_true, none_iff]
  push Not
  refine ⟨fun h => ?_, fun h => ?_⟩
  · obtain ⟨j, hj, hword⟩ := h
    obtain ⟨k, hk, hbit⟩ := exists_of_word_ne_zero hword
    exact ⟨j * 64 + k, by omega, by rwa [← getLsbD_word _ _ hk]⟩
  · obtain ⟨i, hi, hbit⟩ := h
    refine ⟨i / 64, by omega, fun hzero => ?_⟩
    unfold bit bitsPerWord at hbit
    rw [hzero] at hbit
    simp at hbit

/-! ## The iterator -/

theorem countrZero_spec (h : w ≠ 0#64) : countrZero w < 64 ∧
    w.getLsbD (countrZero w) = true ∧ ∀ k < countrZero w, w.getLsbD k = false := by
  have hbefore : ∀ k < countrZero w, w.getLsbD k = false := fun k hk =>
    firstFrom_before (p := fun i => w.getLsbD i) (Nat.zero_le k) hk
  have hlt : countrZero w < 64 := by
    obtain ⟨k, hk, hbit⟩ := exists_of_word_ne_zero h
    by_contra hge
    rw [hbefore k (by omega)] at hbit
    simp at hbit
  refine ⟨hlt, ?_, hbefore⟩
  unfold countrZero at hlt ⊢
  exact firstFrom_spec (p := fun i => w.getLsbD i) (by omega)

theorem countrOne_spec (w : BitVec 64) : countrOne w ≤ 64 ∧
    (countrOne w < 64 → w.getLsbD (countrOne w) = false) ∧ ∀ k < countrOne w, w.getLsbD k = true := by
  refine ⟨?_, fun hlt => ?_, fun k hk => ?_⟩
  · have := (firstFrom_bounds (fun i => !w.getLsbD i) 0 64).2
    unfold countrOne
    omega
  · unfold countrOne at hlt ⊢
    have hspec := firstFrom_spec (p := fun i => !w.getLsbD i) (lt_of_lt_of_eq hlt (Nat.zero_add _).symm)
    simpa using hspec
  · have hbefore := firstFrom_before (p := fun i => !w.getLsbD i) (Nat.zero_le k) hk
    simpa using hbefore

theorem findEndBit_spec (hfirst : first ≤ words) :
    first * 64 ≤ a.findEndBit first ∧ a.findEndBit first ≤ words * 64 ∧
      (∀ i, first * 64 ≤ i → i < a.findEndBit first → a.bit i = true) ∧
      (a.findEndBit first < words * 64 → a.bit (a.findEndBit first) = false) := by
  have hbounds := firstFrom_bounds (fun i => a.word i != ~~~ 0#64) first (words - first)
  have hones : ∀ i, first * 64 ≤ i →
      i / 64 < firstFrom (fun i => a.word i != ~~~ 0#64) first (words - first) → a.bit i = true := by
    intro i hi hlt
    have hword := firstFrom_before (p := fun i => a.word i != ~~~ 0#64) (by omega) hlt
    rw [bne_eq_false_iff_eq] at hword
    have hk : i % 64 < 64 := mod_lt _ (by omega)
    unfold bit bitsPerWord
    rw [hword, getLsbD_not]
    simp [hk]
  have hspec : firstFrom (fun i => a.word i != ~~~ 0#64) first (words - first) < words →
      (a.word (firstFrom (fun i => a.word i != ~~~ 0#64) first (words - first)) != ~~~ 0#64) = true :=
    fun hlt => firstFrom_spec (p := fun i => a.word i != ~~~ 0#64) (by omega)
  unfold findEndBit bitsPerWord
  dsimp only
  generalize firstFrom (fun i => a.word i != ~~~ 0#64) first (words - first) = found at *
  split_ifs with hfound
  · obtain ⟨hle, hnext, hrun⟩ := countrOne_spec (a.word found)
    -- The word is not all ones, so the run ends in it.
    have hlt : countrOne (a.word found) < 64 := by
      have hword := hspec hfound
      rw [bne_iff_ne] at hword
      rcases Nat.lt_or_eq_of_le hle with hlt | heq
      · exact hlt
      · refine absurd (eq_of_getLsbD_eq fun k hk => ?_) hword
        rw [hrun k (by omega), getLsbD_not]
        simp [hk]
    refine ⟨by omega, by omega, fun i hi hlt' => ?_, fun _ => ?_⟩
    · rcases Nat.lt_or_ge (i / 64) found with hword | hword
      · exact hones i hi hword
      · have hsame : i = found * 64 + i % 64 := by omega
        rw [hsame, ← getLsbD_word _ _ (mod_lt _ (by omega))]
        exact hrun _ (by omega)
    · rw [← getLsbD_word _ _ hlt]
      exact hnext hlt
  · exact ⟨by omega, Nat.le_refl _, fun i hi hlt => hones i hi (by omega), fun h => by omega⟩

/-- What `FirstRangeFrom` returns: the next run of ones from a bit on. -/
structure NextRun (a : BitArray words) (start : ℕ) (range : ℕ × ℕ) : Prop where
  start_le : start ≤ range.1
  pos : range.1 < range.2
  le_size : range.2 ≤ words * bitsPerWord
  before : ∀ i, start ≤ i → i < range.1 → a.bit i = false
  ones : ∀ i, range.1 ≤ i → i < range.2 → a.bit i = true
  maximal : range.2 < words * bitsPerWord → a.bit range.2 = false

theorem wordBits_spec (low : ℕ)
    (hindex : index < words) (hw : w ≠ 0#64) (hmasked : ∀ k < 64, w.getLsbD k =
      if low ≤ k then a.bit (index * 64 + k) else false) : NextRun a (index * 64 + low) (a.wordBits index w) := by
  obtain ⟨hzlt, hzbit, hzeros⟩ := countrZero_spec hw
  have hlow : low ≤ countrZero w := by
    by_contra hlt
    rw [hmasked _ hzlt, if_neg (by omega)] at hzbit
    simp at hzbit
  obtain ⟨hole, honext, hones⟩ := countrOne_spec (w >>> countrZero w)
  -- The bits of the shifted word are those behind the zeros.
  have hshift : ∀ k, countrZero w + k < 64 →
      (w >>> countrZero w).getLsbD k = a.bit (index * 64 + (countrZero w + k)) := by
    intro k hk
    rw [BitVec.getLsbD_ushiftRight, hmasked _ hk, if_pos (by omega)]
  have hfit : countrZero w + countrOne (w >>> countrZero w) ≤ 64 := by
    by_contra hgt
    have hbit := hones (64 - countrZero w) (by omega)
    rw [BitVec.getLsbD_ushiftRight, BitVec.getLsbD_of_ge _ _ (by omega)] at hbit
    simp at hbit
  have hpos : 0 < countrOne (w >>> countrZero w) := by
    by_contra hzero
    have hbit := honext (by omega)
    rw [show countrOne (w >>> countrZero w) = 0 by omega, BitVec.getLsbD_ushiftRight] at hbit
    rw [Nat.add_zero, hzbit] at hbit
    simp at hbit
  have hbefore : ∀ i, index * 64 + low ≤ i → i < index * 64 + countrZero w → a.bit i = false := by
    intro i hi hlt
    have hzero := hzeros (i - index * 64) (by omega)
    rw [hmasked _ (by omega), if_pos (by omega)] at hzero
    rwa [show index * 64 + (i - index * 64) = i by omega] at hzero
  have hrun : ∀ i, index * 64 + countrZero w ≤ i →
      i < index * 64 + countrZero w + countrOne (w >>> countrZero w) → a.bit i = true := by
    intro i hi hlt
    have hbit := hones (i - index * 64 - countrZero w) (by omega)
    rw [hshift _ (by omega)] at hbit
    rwa [show index * 64 + (countrZero w + (i - index * 64 - countrZero w)) = i by omega] at hbit
  unfold wordBits bitsPerWord
  dsimp only
  split_ifs with hinside
  · refine ⟨by dsimp only; omega, by dsimp only; omega, by unfold bitsPerWord; dsimp only; omega,
      hbefore, hrun, fun _ => ?_⟩
    have hbit := honext (by omega)
    rw [hshift _ (by omega)] at hbit
    rwa [← Nat.add_assoc] at hbit
  · -- The run goes on in the next word.
    obtain ⟨hge, hle, hmore, hlast⟩ := a.findEndBit_spec (show index + 1 ≤ words by omega)
    refine ⟨by dsimp only; omega, by dsimp only; omega, hle, hbefore, fun i hi hlt => ?_, hlast⟩
    rcases Nat.lt_or_ge i ((index + 1) * 64) with hin | hout
    · exact hrun i hi (by omega)
    · exact hmore i hout hlt

/-- No bit is set from `start` on. -/
def NoMore (start : ℕ) : Prop :=
  ∀ i, start ≤ i → i < words * bitsPerWord → a.bit i = false

theorem firstRangeFrom_spec (start : ℕ) :
    (a.firstRangeFrom start = (words * bitsPerWord, words * bitsPerWord) ∧ a.NoMore start) ∨
      NextRun a start (a.firstRangeFrom start) := by
  unfold firstRangeFrom
  by_cases hend : start ≥ words * bitsPerWord
  · rw [if_pos hend]
    exact .inl ⟨rfl, fun i hi hlt => by omega⟩
  rw [if_neg hend]
  unfold bitsPerWord at hend ⊢
  dsimp only
  have hmasked : ∀ k < 64, (a.word (start / 64) &&& ~~~ lowMask (start % 64)).getLsbD k =
      if start % 64 ≤ k then a.bit (start / 64 * 64 + k) else false := by
    intro k hk
    have hmask := getLsbD_startMask start hk
    unfold startMask bitsPerWord at hmask
    rw [getLsbD_and, hmask, getLsbD_word _ _ hk]
    split_ifs with hle <;> simp [hle]
  by_cases hfirst : a.word (start / 64) &&& ~~~ lowMask (start % 64) ≠ 0
  · rw [if_pos hfirst]
    have hrun := a.wordBits_spec (start % 64) (show start / 64 < words by omega) hfirst hmasked
    rw [show start / 64 * 64 + start % 64 = start by omega] at hrun
    exact .inr hrun
  rw [if_neg hfirst]
  rw [not_not] at hfirst
  -- The rest of the first word is zero, and so are the words up to the one found.
  have hrest : ∀ i, start ≤ i → i / 64 = start / 64 → a.bit i = false := by
    intro i hi hword
    have hbit := hmasked (i % 64) (mod_lt _ (by omega))
    rw [hfirst, if_pos (by omega), show start / 64 * 64 + i % 64 = i by omega] at hbit
    rw [← hbit]
    exact getLsbD_zero
  have hbounds := firstFrom_bounds (fun i => a.word i != 0) (start / 64 + 1) (words - (start / 64 + 1))
  have hzeros : ∀ i, start ≤ i → i / 64 <
      firstFrom (fun i => a.word i != 0) (start / 64 + 1) (words - (start / 64 + 1)) →
      a.bit i = false := by
    intro i hi hlt
    rcases Nat.lt_or_ge (start / 64) (i / 64) with hword | hword
    · have hzero := firstFrom_before (p := fun i => a.word i != 0) hword hlt
      rw [bne_eq_false_iff_eq] at hzero
      unfold bit bitsPerWord
      rw [hzero]
      exact getLsbD_zero
    · exact hrest i hi (by omega)
  have hspec : firstFrom (fun i => a.word i != 0) (start / 64 + 1) (words - (start / 64 + 1)) < words →
      (a.word (firstFrom (fun i => a.word i != 0) (start / 64 + 1) (words - (start / 64 + 1))) != 0) =
        true :=
    fun hlt => firstFrom_spec (p := fun i => a.word i != 0) (by omega)
  generalize firstFrom (fun i => a.word i != 0) (start / 64 + 1) (words - (start / 64 + 1)) = found at *
  split_ifs with hfound
  · have hword := hspec hfound
    rw [bne_iff_ne] at hword
    have hrun := a.wordBits_spec 0 hfound hword fun k hk => by
      rw [if_pos (Nat.zero_le _), getLsbD_word _ _ hk]
    have hge := hrun.start_le
    refine .inr ⟨by omega, hrun.pos, hrun.le_size, fun i hi hlt => ?_, hrun.ones, hrun.maximal⟩
    rcases Nat.lt_or_ge (i / 64) found with hearly | hlate
    · exact hzeros i hi hearly
    · exact hrun.before i (by omega) hlt
  · exact .inl ⟨rfl, fun i hi hlt => hzeros i hi (by unfold bitsPerWord at hlt; omega)⟩

/-- What the iterator visits from a range on: runs of ones in order, with every bit from `start` on. -/
structure Visits (a : BitArray words) (start : ℕ) (ranges : List (ℕ × ℕ)) : Prop where
  inside : ∀ r ∈ ranges, start ≤ r.1 ∧ r.1 < r.2 ∧ r.2 ≤ words * bitsPerWord
  ordered : ranges.Pairwise fun r r' => r.2 ≤ r'.1
  bits : ∀ i, start ≤ i → i < words * bitsPerWord →
    (a.bit i = true ↔ ∃ r ∈ ranges, r.1 ≤ i ∧ i < r.2)

theorem rangesFrom_visits (hfuel : words * bitsPerWord < fuel + start) :
    Visits a start (a.rangesFrom fuel (a.firstRangeFrom start)) := by
  induction fuel generalizing start with
  | zero => exact ⟨by simp [rangesFrom], by simp [rangesFrom], fun i hi hlt => by omega⟩
  | succ fuel ih =>
    unfold rangesFrom
    rcases a.firstRangeFrom_spec start with ⟨heq, hnone⟩ | hrun
    · rw [if_pos heq]
      refine ⟨by simp, by simp, fun i hi hlt => ?_⟩
      simp [hnone i hi hlt]
    · have hpos := hrun.pos
      have hle := hrun.le_size
      have hstart := hrun.start_le
      rw [if_neg fun heq => by rw [heq] at hpos; simp at hpos]
      have hnext : Visits a (a.firstRangeFrom start).2
          (a.rangesFrom fuel (a.firstRangeFrom (a.firstRangeFrom start).2)) := ih (by omega)
      refine ⟨fun r hr => ?_, ?_, fun i hi hlt => ?_⟩
      · rcases List.mem_cons.mp hr with rfl | hr
        · exact ⟨hstart, hpos, hle⟩
        · have := hnext.inside r hr
          omega
      · exact List.pairwise_cons.mpr ⟨fun r hr => (hnext.inside r hr).1, hnext.ordered⟩
      · simp only [List.mem_cons, exists_eq_or_imp]
        rcases Nat.lt_or_ge i (a.firstRangeFrom start).2 with hbefore | hafter
        · -- The bits before the end of the run are those of the run.
          rcases Nat.lt_or_ge i (a.firstRangeFrom start).1 with hzero | hone
          · rw [hrun.before i hi hzero]
            refine ⟨by simp, fun h => ?_⟩
            rcases h with h | ⟨r, hr, h⟩
            · omega
            · have := (hnext.inside r hr).1
              omega
          · rw [hrun.ones i hone hbefore]
            simp [hone, hbefore]
        · rw [hnext.bits i hafter hlt]
          refine ⟨.inr, fun h => ?_⟩
          rcases h with h | h
          · omega
          · exact h

theorem ranges_visits : Visits a 0 a.ranges := by
  exact a.rangesFrom_visits (by omega)

/-! ## The last range -/

theorem get_eq (idx : ℕ) : a.get idx = a.bit idx := by
  have hlt : idx % 64 < 64 := mod_lt _ (by decide)
  unfold get bit
  simp only [bitsPerWord]
  generalize a.word (idx / 64) = w
  cases hbit : w.getLsbD (idx % 64) with
  | false =>
    have hzero : w &&& 1#64 <<< (idx % 64) = 0#64 := by
      apply eq_of_getLsbD_eq
      intro k hk
      rcases Nat.lt_trichotomy k (idx % 64) with h | h | h
      · simp [h]
      · simp [h, hbit]
      · have hone : (1#64).getLsbD (k - idx % 64) = false := by
          rw [BitVec.getLsbD_one]
          simp only [Bool.and_eq_false_iff, decide_eq_false_iff_not]
          omega
        simp [hone]
    simp [hzero]
  | true =>
    have hset : (w &&& 1#64 <<< (idx % 64)).getLsbD (idx % 64) = true := by simp [hbit, hlt]
    simp only [bne_iff_ne, ne_eq]
    intro h
    rw [h] at hset
    simp at hset

theorem countlZero_spec (h : w ≠ 0#64) : countlZero w < 64 ∧ w.getLsbD (63 - countlZero w) = true ∧
      ∀ k < 64, 63 - countlZero w < k → w.getLsbD k = false := by
  have hbefore : ∀ k < 64, 63 - k < countlZero w → w.getLsbD k = false := by
    intro k hk hlt
    have := firstFrom_before (p := fun i => w.getLsbD (63 - i)) (Nat.zero_le _) hlt
    rwa [show 63 - (63 - k) = k by omega] at this
  have hlt : countlZero w < 64 := by
    obtain ⟨k, hk, hbit⟩ := exists_of_word_ne_zero h
    by_contra hge
    rw [hbefore k hk (by omega)] at hbit
    simp at hbit
  refine ⟨hlt, ?_, fun k hk hlow => hbefore k hk (by omega)⟩
  unfold countlZero at hlt ⊢
  exact firstFrom_spec (p := fun i => w.getLsbD (63 - i)) (by omega)

theorem lastWord_spec (test : BitVec 64 → Bool) (count : ℕ) : a.lastWord test count ≤ count ∧
      (0 < a.lastWord test count → test (a.word (a.lastWord test count - 1)) = true) ∧
      ∀ j, a.lastWord test count ≤ j → j < count → test (a.word j) = false := by
  induction count with
  | zero => exact ⟨Nat.le_refl _, fun h => absurd h (by simp [lastWord]), fun j _ hj => by omega⟩
  | succ count ih =>
    unfold lastWord
    split_ifs with htest
    · exact ⟨Nat.le_refl _, fun _ => htest, fun j h hj => by omega⟩
    · refine ⟨by omega, ih.2.1, fun j h hj => ?_⟩
      rcases Nat.eq_or_lt_of_le (Nat.lt_succ_iff.mp hj) with rfl | hlt
      · simpa using htest
      · exact ih.2.2 j h hlt

theorem lastRange_eq (hwords : 0 < words) : a.lastRange =
    if a.word (words - 1) ≠ 0#64 then a.lastWordBits words (a.word (words - 1))
    else if a.lastWord (· != 0#64) (words - 1) > 0 then
      a.lastWordBits (a.lastWord (· != 0#64) (words - 1)) (a.word (a.lastWord (· != 0#64) (words - 1) - 1))
    else (0, 0) := by
  have hpos : words * bitsPerWord ≠ 0 := Nat.mul_ne_zero (by omega) (by decide)
  have hword : (words * bitsPerWord - 1) / bitsPerWord + 1 = words := by
    unfold bitsPerWord
    omega
  have hend : ¬ (words * bitsPerWord - 1) % bitsPerWord < bitsPerWord - 1 := by
    unfold bitsPerWord
    omega
  unfold lastRange lastRangeFrom
  dsimp only
  rw [if_neg hpos, if_neg (Nat.lt_irrefl _), if_neg hend, hword]
  rfl

theorem lastWordBits_snd (index : ℕ) (w : BitVec 64) :
    (a.lastWordBits index w).2 = index * 64 - countlZero w := by
  unfold lastWordBits
  dsimp only
  split <;> rfl

theorem lastRange_spec {a : BitArray words} (h : a.any = true) : 0 < a.lastRange.2 ∧
    a.lastRange.2 ≤ words * bitsPerWord ∧ a.bit (a.lastRange.2 - 1) = true ∧
      ∀ i, a.lastRange.2 ≤ i → i < words * bitsPerWord → a.bit i = false := by
  obtain ⟨i, hi, hbit⟩ := a.any_iff.mp h
  simp only [bitsPerWord] at hi ⊢
  -- The last word that has a bit, whichever of the two searches finds it.
  obtain ⟨found, hpos, hle, hne, hafter, heq⟩ : ∃ found, 0 < found ∧ found ≤ words ∧
      a.word (found - 1) ≠ 0#64 ∧ (∀ j, found ≤ j → j < words → a.word j = 0#64) ∧
      a.lastRange = a.lastWordBits found (a.word (found - 1)) := by
    rw [a.lastRange_eq (by omega)]
    split_ifs with hlast hfound
    · exact ⟨words, by omega, Nat.le_refl _, hlast, fun j h1 h2 => by omega, rfl⟩
    · obtain ⟨hle, htest, hzero⟩ := a.lastWord_spec (· != 0#64) (words - 1)
      refine ⟨_, hfound, by omega, by simpa using htest hfound, fun j h1 h2 => ?_, rfl⟩
      rcases Nat.lt_or_ge j (words - 1) with hlt | hge
      · simpa using hzero j h1 hlt
      · rw [show j = words - 1 by omega]
        simpa using hlast
    · obtain ⟨hle, -, hzero⟩ := a.lastWord_spec (· != 0#64) (words - 1)
      have hw : a.word (i / 64) = 0#64 := by
        rcases Nat.lt_or_ge (i / 64) (words - 1) with hlt | hge
        · simpa using hzero (i / 64) (by omega) hlt
        · rw [show i / 64 = words - 1 by omega]
          simpa using hlast
      unfold bit at hbit
      simp [bitsPerWord, hw] at hbit
  obtain ⟨hlt, hone, hzero⟩ := countlZero_spec hne
  have hsnd : a.lastRange.2 = found * 64 - countlZero (a.word (found - 1)) := by
    rw [heq, lastWordBits_snd]
  have hbits : ∀ k < 64, (a.word (found - 1)).getLsbD k = a.bit ((found - 1) * 64 + k) :=
    fun k hk => a.getLsbD_word _ hk
  refine ⟨by omega, by omega, ?_, fun j h1 h2 => ?_⟩
  · rw [hbits _ (by omega)] at hone
    rw [← hone]
    congr 1
    omega
  · rcases Nat.lt_or_ge j (found * 64) with hin | hout
    · have := hzero (j % 64) (by omega) (by omega)
      rw [hbits _ (by omega)] at this
      rw [← this]
      congr 1
      omega
    · unfold bit
      simp only [bitsPerWord]
      rw [hafter (j / 64) (by omega) (by omega)]
      simp

theorem ext_bit {a b : BitArray words} (h : ∀ i < words * bitsPerWord, a.bit i = b.bit i) : a = b := by
  have hdata : a.data = b.data := by
    apply Vector.ext
    intro j hj
    rw [← a.word_eq hj, ← b.word_eq hj]
    apply eq_of_getLsbD_eq
    intro k hk
    rw [a.getLsbD_word j hk, b.getLsbD_word j hk]
    apply h
    unfold bitsPerWord
    omega
  cases a
  cases b
  simpa using hdata

theorem bit_not (hi : i < words * bitsPerWord) : a.not.bit i = !a.bit i := by
  have hword : i / bitsPerWord < words := by
    unfold bitsPerWord at *
    omega
  have hlt : i % bitsPerWord < 64 := mod_lt _ (by decide)
  unfold bit
  rw [word_eq _ hword, word_eq _ hword]
  simp [not, hlt]

theorem bit_xor (a b : BitArray words) (hi : i < words * bitsPerWord) : (a.xor b).bit i = (a.bit i ^^ b.bit i) := by
  have hword : i / bitsPerWord < words := by
    unfold bitsPerWord at *
    omega
  unfold bit
  rw [word_eq _ hword, word_eq _ hword, word_eq _ hword]
  simp [xor]

theorem xor_none_iff {a b : BitArray words} : (a.xor b).none = true ↔ a = b := by
  have hany := (a.xor b).any_iff
  constructor
  · intro h
    apply ext_bit
    intro i hi
    by_contra hne
    have : (a.xor b).any = true := hany.mpr ⟨i, hi, by
      rw [bit_xor a b hi]
      simpa using hne⟩
    unfold any at this
    rw [h] at this
    exact absurd this (by decide)
  · rintro rfl
    by_contra hne
    obtain ⟨i, hi, hbit⟩ := hany.mp (by simpa [any] using hne)
    rw [bit_xor a a hi] at hbit
    simp at hbit

theorem bit_change (enable : Bool) (start stop : ℕ)
    (hne : (if enable then a.setRange start stop else a.unsetRange start stop).bit i ≠ a.bit i) :
    a.bit i = !enable := by
  by_cases hstop : stop ≤ words * bitsPerWord
  · cases enable with
    | true =>
      simp only [if_true, bit_setRange a hstop] at hne
      split_ifs at hne
      · simpa using hne
      · exact absurd rfl hne
    | false =>
      simp only [Bool.false_eq_true, if_false, bit_unsetRange a hstop] at hne
      split_ifs at hne
      · simpa using hne
      · exact absurd rfl hne
  · unfold setRange unsetRange at hne
    simp only [gt_iff_lt, Nat.lt_of_not_le hstop, or_true, if_true, ite_self] at hne
    exact absurd rfl hne

end BitArray

end ShadPS4.Common
