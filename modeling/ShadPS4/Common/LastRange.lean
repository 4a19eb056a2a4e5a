import ShadPS4.Common.BitArrayBuilds

/-!
# `LastRangeFrom` with `BIT_ARRAY_USE_AVX`

`LastRangeFrom` returns the last run of ones below a bit. Its `find_start_bit` goes down over words that are all
ones.
-/

namespace ShadPS4.Common

namespace BitArray

variable {words : ℕ}

section

variable (a : BitArray words)

/-- `find_start_bit` of `LastRangeFrom`: the vector loop compares with `all_zero`. -/
def findStartBitAvx (word : ℕ) : ℕ :=
  a.findStartBit (a.skipVectorsDown 0#64 word)

/-- `word_bits` of `LastRangeFrom`. -/
def lastWordBitsAvx (index : ℕ) (word : BitVec 64) : ℕ × ℕ :=
  let empty_bits := countlZero word
  let ones_count := countlOne (word <<< empty_bits)
  let end_bit := index * bitsPerWord - empty_bits
  if empty_bits + ones_count < bitsPerWord then (end_bit - ones_count, end_bit)
  else (a.findStartBitAvx (index - 1), end_bit)

def lastRangeFromAvx (stop : ℕ) : ℕ × ℕ :=
  if stop = 0 then (0, 0)
  else
    let stop := if stop > words * bitsPerWord then words * bitsPerWord else stop
    let end_word := (stop - 1) / bitsPerWord + 1
    let end_bit := (stop - 1) % bitsPerWord
    let masked_last :=
      if end_bit < bitsPerWord - 1 then a.word (end_word - 1) &&& lowMask (end_bit + 1)
      else a.word (end_word - 1)
    if masked_last ≠ 0 then a.lastWordBitsAvx end_word masked_last
    else
      let word := a.skipVectorsDown 0#64 (end_word - 1)
      let found := a.lastWord (· != 0#64) word
      if found > 0 then a.lastWordBitsAvx found (a.word (found - 1)) else (0, 0)

/-- The maximal run of ones below a bit that has the highest bit there. -/
structure LastRun (a : BitArray words) (stop : ℕ) (run : ℕ × ℕ) : Prop where
  pos : run.1 < run.2
  le_stop : run.2 ≤ stop
  ones : ∀ i, run.1 ≤ i → i < run.2 → a.bit i = true
  behind : ∀ i, run.2 ≤ i → i < stop → a.bit i = false
  before : 0 < run.1 → a.bit (run.1 - 1) = false

/-- What `LastRangeFrom` should return: the last run, or `{0, 0}` if there is no bit. -/
def IsLast (stop : ℕ) (range : ℕ × ℕ) : Prop :=
  LastRun a stop range ∨ (∀ i < stop, a.bit i = false) ∧ range = (0, 0)

/-- The last run below a bit is one of words `[w, e)` that starts at the low bit of a word, ends in it, and
has four words of zeros below. -/
def ZerosBelow (stop : ℕ) : Prop :=
  ∃ w e, 4 ≤ w ∧ w * 64 < e ∧ e ≤ (w + 1) * 64 ∧ LastRun a stop (w * 64, e) ∧
    ∀ i, (w - 4) * 64 ≤ i → i < w * 64 → a.bit i = false

/-! ## The words of a run -/

theorem word_eq_zero_iff (j : ℕ) :
    a.word j = 0#64 ↔ ∀ i, j * 64 ≤ i → i < (j + 1) * 64 → a.bit i = false := by
  constructor
  · intro h i hle hlt
    unfold bit bitsPerWord
    rw [show i / 64 = j by omega, h]
    exact BitVec.getLsbD_zero
  · intro h
    apply BitVec.eq_of_getLsbD_eq
    intro k hk
    rw [a.getLsbD_word j hk, h _ (by omega) (by omega)]
    exact BitVec.getLsbD_zero.symm

theorem bit_of_word_ones {a : BitArray words} {j : ℕ} (h : a.word j = ~~~ 0#64) {i : ℕ}
    (hle : j * 64 ≤ i) (hlt : i < (j + 1) * 64) : a.bit i = true := by
  have hk : i % 64 < 64 := Nat.mod_lt _ (by decide)
  unfold bit bitsPerWord
  rw [show i / 64 = j by omega, h, BitVec.getLsbD_not]
  simp [hk]

theorem countlOne_spec (w : BitVec 64) : countlOne w ≤ 64 ∧
    (countlOne w < 64 → w.getLsbD (63 - countlOne w) = false) ∧
      ∀ k < 64, 63 < k + countlOne w → w.getLsbD k = true := by
  refine ⟨?_, fun hlt => ?_, fun k hk hlow => ?_⟩
  · have := (firstFrom_bounds (fun i => !w.getLsbD (63 - i)) 0 64).2
    unfold countlOne
    omega
  · unfold countlOne at hlt ⊢
    have hspec := firstFrom_spec (p := fun i => !w.getLsbD (63 - i)) (lt_of_lt_of_eq hlt (Nat.zero_add _).symm)
    simpa using hspec
  · have hbefore : (fun i => !w.getLsbD (63 - i)) (63 - k) = false :=
      firstFrom_before (Nat.zero_le _) (show 63 - k < countlOne w by omega)
    simpa [show 63 - (63 - k) = k by omega] using hbefore

theorem findStartBit_spec (word : ℕ) : a.findStartBit word ≤ word * 64 ∧
      (∀ i, a.findStartBit word ≤ i → i < word * 64 → a.bit i = true) ∧
      (0 < a.findStartBit word → a.bit (a.findStartBit word - 1) = false) := by
  obtain ⟨hle, htest, hafter⟩ := a.lastWord_spec (· != ~~~ 0#64) word
  unfold findStartBit bitsPerWord
  dsimp only
  generalize a.lastWord (· != ~~~ 0#64) word = found at *
  have hones : ∀ i, found * 64 ≤ i → i < word * 64 → a.bit i = true := by
    intro i hi hlt
    have hword := hafter (i / 64) (by omega) (by omega)
    exact bit_of_word_ones (bne_eq_false_iff_eq.mp hword) (by omega) (by omega)
  split_ifs with hfound
  · obtain ⟨hcount, hnext, hrun⟩ := countlOne_spec (a.word (found - 1))
    -- The word is not all ones, so the run starts in it.
    have hlt : countlOne (a.word (found - 1)) < 64 := by
      have hword := htest hfound
      rw [bne_iff_ne] at hword
      rcases Nat.lt_or_eq_of_le hcount with hlt | heq
      · exact hlt
      · refine absurd (BitVec.eq_of_getLsbD_eq fun k hk => ?_) hword
        rw [hrun k hk (by omega), BitVec.getLsbD_not]
        simp [hk]
    refine ⟨by omega, fun i hi hi' => ?_, fun hpos => ?_⟩
    · rcases Nat.lt_or_ge i (found * 64) with hin | hout
      · have hbit := hrun (i - (found - 1) * 64) (by omega) (by omega)
        rw [getLsbD_word _ _ (by omega)] at hbit
        rwa [show (found - 1) * 64 + (i - (found - 1) * 64) = i by omega] at hbit
      · exact hones i hout hi'
    · have hbit := hnext hlt
      rw [getLsbD_word _ _ (by omega)] at hbit
      rwa [show found * 64 - countlOne (a.word (found - 1)) - 1 =
        (found - 1) * 64 + (63 - countlOne (a.word (found - 1))) by omega]
  · exact ⟨Nat.zero_le _, fun i hi hlt => hones i (by omega) hlt, fun h => absurd h (by decide)⟩

end

/-! ## The range of a word -/

theorem LastRun.unique (h : LastRun a stop run) (h' : LastRun a stop run') : run = run' := by
  have hpos := h.pos
  have hpos' := h'.pos
  have hstop := h.le_stop
  have hstop' := h'.le_stop
  have hend : run.2 = run'.2 := by
    rcases Nat.lt_trichotomy run.2 run'.2 with hlt | heq | hgt
    · have hzero := h.behind (run'.2 - 1) (by omega) (by omega)
      rw [h'.ones _ (by omega) (by omega)] at hzero
      cases hzero
    · exact heq
    · have hzero := h'.behind (run.2 - 1) (by omega) (by omega)
      rw [h.ones _ (by omega) (by omega)] at hzero
      cases hzero
  have hstart : run.1 = run'.1 := by
    rcases Nat.lt_trichotomy run.1 run'.1 with hlt | heq | hgt
    · have hzero := h'.before (by omega)
      rw [h.ones _ (by omega) (by omega)] at hzero
      cases hzero
    · exact heq
    · have hzero := h.before (by omega)
      rw [h'.ones _ (by omega) (by omega)] at hzero
      cases hzero
  exact Prod.ext hstart hend

/-- A word that `word_bits` is called for: the last one with a bit below `stop`, without the bits from there
on. -/
structure LastWord (a : BitArray words) (stop index : ℕ) (word : BitVec 64) : Prop where
  pos : 0 < index
  ne_zero : word ≠ 0#64
  masked : ∀ k < 64, word.getLsbD k =
    if (index - 1) * 64 + k < stop then a.bit ((index - 1) * 64 + k) else false
  behind : ∀ i, index * 64 ≤ i → i < stop → a.bit i = false

variable {a : BitArray words} {stop index : ℕ} {word : BitVec 64}

theorem LastWord.end_spec (h : LastWord a stop index word) :
    (index - 1) * 64 < index * 64 - countlZero word ∧ index * 64 - countlZero word ≤ stop ∧
      a.bit (index * 64 - countlZero word - 1) = true ∧
      ∀ i, index * 64 - countlZero word ≤ i → i < stop → a.bit i = false := by
  obtain ⟨hlt, hone, hzero⟩ := countlZero_spec h.ne_zero
  have hpos := h.pos
  rw [h.masked _ (by omega)] at hone
  split_ifs at hone with hstop
  refine ⟨by omega, by omega, ?_, fun i hle hi => ?_⟩
  · rw [← hone]
    congr 1
    omega
  · rcases Nat.lt_or_ge i (index * 64) with hin | hout
    · have hbit := hzero (i - (index - 1) * 64) (by omega) (by omega)
      rw [h.masked _ (by omega), if_pos (by omega)] at hbit
      rwa [show (index - 1) * 64 + (i - (index - 1) * 64) = i by omega] at hbit
    · exact h.behind i hout hi

theorem LastWord.ones_spec (h : LastWord a stop index word) (hz : countlZero word = z)
    (hn : countlOne (word <<< z) = n) : 0 < n ∧ z + n ≤ 64 ∧
      (∀ i, index * 64 - z - n ≤ i → i < index * 64 - z → a.bit i = true) ∧
      (z + n < 64 → a.bit (index * 64 - z - n - 1) = false) := by
  obtain ⟨hend, hstop, hlast, -⟩ := h.end_spec
  obtain ⟨hle, hnext, hones⟩ := countlOne_spec (word <<< z)
  have hlt : z < 64 := hz ▸ (countlZero_spec h.ne_zero).1
  rw [hz] at hend hstop hlast
  rw [hn] at hle hnext hones
  -- The bits of the shifted word are those below the zeros.
  have hshift : ∀ k < 64, z ≤ k → (word <<< z).getLsbD k = a.bit ((index - 1) * 64 + (k - z)) := by
    intro k hk hge
    have hin : (index - 1) * 64 + (k - z) < stop := by omega
    rw [BitVec.getLsbD_shiftLeft, h.masked _ (by omega), if_pos hin]
    simp [hk, hge]
  have hlow : ∀ k < z, (word <<< z).getLsbD k = false := by
    intro k hk
    simp [hk]
  have hcount : 0 < n := by
    by_contra hzero
    obtain rfl : n = 0 := by omega
    have hbit := hnext (by decide)
    rw [hshift _ (by omega) (by omega),
      show (index - 1) * 64 + (63 - 0 - z) = index * 64 - z - 1 by omega, hlast] at hbit
    cases hbit
  have hfit : z + n ≤ 64 := by
    by_contra hgt
    have hbit := hones (z - 1) (by omega) (by omega)
    rw [hlow _ (by omega)] at hbit
    cases hbit
  refine ⟨hcount, hfit, fun i hi hlt => ?_, fun hinside => ?_⟩
  · have hbit := hones (i - (index - 1) * 64 + z) (by omega) (by omega)
    rw [hshift _ (by omega) (by omega)] at hbit
    rwa [show (index - 1) * 64 + (i - (index - 1) * 64 + z - z) = i by omega] at hbit
  · have hbit := hnext (by omega)
    rw [hshift _ (by omega) (by omega)] at hbit
    rwa [show (index - 1) * 64 + (63 - n - z) = index * 64 - z - n - 1 by omega] at hbit

theorem LastWord.lastRun (h : LastWord a stop index word) : LastRun a stop (a.lastWordBits index word) := by
  obtain ⟨hend, hstop, -, hbehind⟩ := h.end_spec
  obtain ⟨hcount, hfit, hones, hinside⟩ := h.ones_spec rfl rfl
  unfold lastWordBits bitsPerWord
  dsimp only
  split_ifs with hword
  · exact ⟨by dsimp only; omega, hstop, hones, hbehind, fun _ => hinside hword⟩
  · -- The run goes on in the word before.
    obtain ⟨hle, hmore, hfirst⟩ := a.findStartBit_spec (index - 1)
    refine ⟨by dsimp only; omega, hstop, fun i hi hlt => ?_, hbehind, hfirst⟩
    rcases Nat.lt_or_ge i ((index - 1) * 64) with hout | hin
    · exact hmore i hi hout
    · exact hones i (by omega) hlt

section

variable (a : BitArray words)

theorem skipVectorsDown_of_ne (value : BitVec 64)
    (h : 4 ≤ w → a.vectorEq value (w - 4) = false) : a.skipVectorsDown value w = w := by
  unfold skipVectorsDown
  split
  · rename_i w
    have hvector : a.vectorEq value w = false := h (by omega)
    rw [if_neg (by rw [hvector]; decide)]
  · rfl

theorem skipVectorsDown_le (value : BitVec 64) (w : ℕ) : a.skipVectorsDown value w ≤ w ∧
      (4 ≤ w → a.vectorEq value (w - 4) = true → a.skipVectorsDown value w ≤ w - 4) := by
  fun_induction skipVectorsDown a value w with
  | case1 w hvector ih => exact ⟨by omega, fun _ _ => by omega⟩
  | case2 w hvector => exact ⟨Nat.le_refl _, fun _ h => absurd h hvector⟩
  | case3 w hw => exact ⟨Nat.le_refl _, fun h _ => (hw (w - 4) (by omega)).elim⟩

theorem lastWord_skipVectorsDown (value : BitVec 64) (w : ℕ) :
    a.lastWord (· != value) (a.skipVectorsDown value w) = a.lastWord (· != value) w := by
  fun_induction skipVectorsDown a value w with
  | case1 w hvector ih =>
    have hword := (a.vectorEq_iff value w).mp hvector
    have hstep : ∀ j, w ≤ j → j < w + 4 → a.lastWord (· != value) (j + 1) = a.lastWord (· != value) j := by
      intro j hle hlt
      rw [lastWord, hword j hle hlt, if_neg (by simp)]
    rw [ih]
    calc a.lastWord (· != value) w = a.lastWord (· != value) (w + 1) :=
          (hstep w (by omega) (by omega)).symm
      _ = a.lastWord (· != value) (w + 2) := (hstep (w + 1) (by omega) (by omega)).symm
      _ = a.lastWord (· != value) (w + 3) := (hstep (w + 2) (by omega) (by omega)).symm
      _ = a.lastWord (· != value) (w + 4) := (hstep (w + 3) (by omega) (by omega)).symm
  | case2 => rfl
  | case3 => rfl

theorem vectorEq_zero_iff (w : ℕ) : a.vectorEq 0#64 w = true ↔
    ∀ i, w * 64 ≤ i → i < (w + 4) * 64 → a.bit i = false := by
  rw [vectorEq_iff]
  constructor
  · intro h i hle hlt
    exact (a.word_eq_zero_iff (i / 64)).mp (h _ (by omega) (by omega)) i (by omega) (by omega)
  · intro h j hle hlt
    exact (a.word_eq_zero_iff j).mpr fun i hi hi' => h i (by omega) (by omega)

end

/-! ## The two builds -/

theorem LastWord.avx_iff (h : LastWord a stop index word) :
    a.lastWordBitsAvx index word = a.lastWordBits index word ↔ ¬ ZerosBelow a stop := by
  have hrun := h.lastRun
  obtain ⟨hend, -, -, -⟩ := h.end_spec
  obtain ⟨hcount, hfit, -, hinside⟩ := h.ones_spec rfl rfl
  unfold lastWordBits bitsPerWord at hrun
  unfold lastWordBitsAvx lastWordBits bitsPerWord
  dsimp only at hrun ⊢
  split_ifs at hrun ⊢ with hword
  · -- The run starts inside of the word.
    refine iff_of_true rfl ?_
    rintro ⟨w, e, -, -, -, hlast, -⟩
    have hstart := congrArg Prod.fst (hrun.unique hlast)
    omega
  · obtain ⟨hle, hones, -⟩ := a.findStartBit_spec (index - 1)
    obtain ⟨hskip, hvector⟩ := a.skipVectorsDown_le 0#64 (index - 1)
    constructor
    · rintro heq ⟨w, e, hfour, hlt, hlast, hlastRun, hzeros⟩
      obtain ⟨hstart, hstop⟩ := Prod.mk.inj (hrun.unique hlastRun)
      obtain rfl : w = index - 1 := by omega
      -- The vector of zeros is skipped, so that the start found is below the run.
      have hskipped := hvector hfour ((a.vectorEq_zero_iff _).mpr fun i hi hi' =>
        hzeros i (by omega) (by omega))
      have hfound := (a.findStartBit_spec (a.skipVectorsDown 0#64 (index - 1))).1
      have hfirst := congrArg Prod.fst heq
      unfold findStartBitAvx at hfirst
      omega
    · intro hnot
      have hstay : a.skipVectorsDown 0#64 (index - 1) = index - 1 := by
        refine a.skipVectorsDown_of_ne 0#64 fun hfour => ?_
        by_contra hzero
        rw [Bool.not_eq_false, vectorEq_zero_iff] at hzero
        refine hnot ⟨index - 1, _, hfour, hend, by omega, ?_, fun i hi hi' =>
          hzero i (by omega) (by omega)⟩
        -- The bit below the word is a zero, so the run starts at the word.
        have hstart : a.findStartBit (index - 1) = (index - 1) * 64 := by
          by_contra hne
          have hone := hones ((index - 1) * 64 - 1) (by omega) (by omega)
          rw [hzero _ (by omega) (by omega)] at hone
          cases hone
        rwa [hstart] at hrun
      unfold findStartBitAvx
      rw [hstay]

variable (a : BitArray words)

theorem lastRun_min_iff (stop : ℕ) (run : ℕ × ℕ) :
    LastRun a (min stop (words * bitsPerWord)) run ↔ LastRun a stop run := by
  constructor
  · intro h
    refine ⟨h.pos, le_trans h.le_stop (min_le_left _ _), h.ones, fun i hle hlt => ?_, h.before⟩
    rcases Nat.lt_or_ge i (words * bitsPerWord) with hin | hout
    · exact h.behind i hle (lt_min hlt hin)
    · exact a.bit_of_size_le hout
  · intro h
    have hsize : run.2 ≤ words * bitsPerWord := by
      by_contra hgt
      have hone := h.ones (run.2 - 1) (by have := h.pos; omega) (by omega)
      rw [a.bit_of_size_le (by omega)] at hone
      cases hone
    exact ⟨h.pos, le_min h.le_stop hsize, h.ones,
      fun i hle hlt => h.behind i hle (lt_of_lt_of_le hlt (min_le_left _ _)), h.before⟩

theorem zerosBelow_min_iff (stop : ℕ) :
    ZerosBelow a (min stop (words * bitsPerWord)) ↔ ZerosBelow a stop := by
  unfold ZerosBelow
  simp only [lastRun_min_iff]

theorem getLsbD_masked_last (hpos : 0 < stop) (hk : k < 64) :
    (if (stop - 1) % 64 < 64 - 1 then a.word ((stop - 1) / 64) &&& lowMask ((stop - 1) % 64 + 1)
      else a.word ((stop - 1) / 64)).getLsbD k =
      if (stop - 1) / 64 * 64 + k < stop then a.bit ((stop - 1) / 64 * 64 + k) else false := by
  split_ifs with hlow hin hin
  · rw [BitVec.getLsbD_and, getLsbD_lowMask (by omega), getLsbD_word _ _ hk,
      decide_eq_true (by omega), Bool.and_true]
  · rw [BitVec.getLsbD_and, getLsbD_lowMask (by omega), decide_eq_false (by omega), Bool.and_false]
  · exact getLsbD_word _ _ hk
  · omega

theorem lastRangeFrom_cases (stop : ℕ) :
    ((∀ i < stop, a.bit i = false) ∧ a.lastRangeFrom stop = (0, 0) ∧ a.lastRangeFromAvx stop = (0, 0)) ∨
    ∃ index word, LastWord a (min stop (words * bitsPerWord)) index word ∧
      a.lastRangeFrom stop = a.lastWordBits index word ∧ a.lastRangeFromAvx stop = a.lastWordBitsAvx index word := by
  have hmin : (if stop > words * bitsPerWord then words * bitsPerWord else stop) =
      min stop (words * bitsPerWord) := by
    split_ifs <;> omega
  have hnone : (∀ i < min stop (words * bitsPerWord), a.bit i = false) → ∀ i < stop, a.bit i = false := by
    intro h i hi
    rcases Nat.lt_or_ge i (words * bitsPerWord) with hin | hout
    · exact h i (lt_min hi hin)
    · exact a.bit_of_size_le hout
  rcases Nat.eq_zero_or_pos stop with rfl | hstop
  · exact .inl ⟨fun i hi => by omega, rfl, rfl⟩
  unfold lastRangeFrom lastRangeFromAvx
  dsimp only
  rw [if_neg hstop.ne', if_neg hstop.ne', hmin, Nat.add_sub_cancel]
  rcases Nat.eq_zero_or_pos words with rfl | hwords
  · -- There is no word.
    have hempty : ∀ j, a.word j = 0#64 := fun j =>
      (a.word_eq_zero_iff j).mpr fun i _ _ => a.bit_of_size_le (by omega)
    refine .inl ⟨fun i _ => a.bit_of_size_le (by omega), ?_, ?_⟩
    · simp [hempty, lastWord]
    · simp [hempty, lastWord, skipVectorsDown]
  have hlast : 0 < min stop (words * bitsPerWord) :=
    lt_min hstop (Nat.mul_pos hwords (by decide))
  have hmasked : ∀ k < 64, _ := fun k hk => a.getLsbD_masked_last hlast (k := k) hk
  unfold bitsPerWord at *
  generalize min stop (words * 64) = last at *
  generalize (if (last - 1) % 64 < 64 - 1 then
    a.word ((last - 1) / 64) &&& lowMask ((last - 1) % 64 + 1) else a.word ((last - 1) / 64)) = w at *
  rw [a.lastWord_skipVectorsDown 0#64]
  by_cases hw : w ≠ 0
  · rw [if_pos hw, if_pos hw]
    exact .inr ⟨(last - 1) / 64 + 1, w, ⟨Nat.succ_pos _, hw, hmasked, fun i hi hlt => by omega⟩,
      rfl, rfl⟩
  rw [if_neg hw, if_neg hw]
  rw [not_not] at hw
  obtain ⟨hle, htest, hafter⟩ := a.lastWord_spec (· != 0#64) ((last - 1) / 64)
  generalize a.lastWord (· != 0#64) ((last - 1) / 64) = found at *
  -- The words behind the one found are zero below `last`.
  have hzeros : ∀ i, found * 64 ≤ i → i < last → a.bit i = false := by
    intro i hi hlt
    rcases Nat.lt_or_ge (i / 64) ((last - 1) / 64) with hin | hout
    · have hzero := hafter (i / 64) (by omega) hin
      rw [bne_eq_false_iff_eq] at hzero
      exact (a.word_eq_zero_iff _).mp hzero i (by omega) (by omega)
    · have hbit := hmasked (i % 64) (Nat.mod_lt _ (by decide))
      rw [hw, if_pos (by omega), show (last - 1) / 64 * 64 + i % 64 = i by omega] at hbit
      rw [← hbit]
      exact BitVec.getLsbD_zero
  by_cases hfound : found > 0
  · rw [if_pos hfound, if_pos hfound]
    refine .inr ⟨found, _, ⟨hfound, by simpa using htest hfound, fun k hk => ?_, hzeros⟩, rfl, rfl⟩
    rw [if_pos (by omega), getLsbD_word _ _ hk]
  · rw [if_neg hfound, if_neg hfound]
    exact .inl ⟨hnone fun i hi => hzeros i (by omega) hi, rfl, rfl⟩

theorem lastRangeFrom_isLast (stop : ℕ) : IsLast a stop (a.lastRangeFrom stop) := by
  rcases a.lastRangeFrom_cases stop with ⟨hnone, heq, -⟩ | ⟨index, word, hword, heq, -⟩
  · exact .inr ⟨hnone, heq⟩
  · left
    rw [heq, ← lastRun_min_iff]
    exact hword.lastRun

/-- The vector build returns what the scalar one does, the last run below `stop`, exactly if there are no
zeros below that run that its vector loop takes for ones. -/
theorem lastRangeFromAvx_iff (a : BitArray words) (stop : ℕ) :
    a.lastRangeFromAvx stop = a.lastRangeFrom stop ∧ IsLast a stop (a.lastRangeFromAvx stop) ↔
      ¬ ZerosBelow a stop := by
  have hlast := a.lastRangeFrom_isLast stop
  have hsame : a.lastRangeFromAvx stop = a.lastRangeFrom stop ∧
      IsLast a stop (a.lastRangeFromAvx stop) ↔ a.lastRangeFromAvx stop = a.lastRangeFrom stop :=
    ⟨And.left, fun heq => ⟨heq, by rwa [heq]⟩⟩
  rw [hsame]
  rcases a.lastRangeFrom_cases stop with ⟨hnone, heq, heq'⟩ | ⟨index, word, hword, heq, heq'⟩
  · refine iff_of_true (heq'.trans heq.symm) ?_
    rintro ⟨w, e, -, hlt, -, hrun, -⟩
    have hzero := hnone (w * 64) (lt_of_lt_of_le hlt hrun.le_stop)
    rw [hrun.ones _ (Nat.le_refl _) hlt] at hzero
    cases hzero
  · rw [heq, heq', hword.avx_iff, zerosBelow_min_iff]

def zerosBelowSample : BitArray 6 := clear.setWord 5 (BitVec.allOnes 64)

/-- The sixth word is the last run. The vector build takes the four words below for a part of it. -/
theorem lastRange_sample : zerosBelowSample.lastRangeFrom 384 = (320, 384) ∧
    zerosBelowSample.lastRangeFromAvx 384 = (64, 384) ∧
    IsLast zerosBelowSample 384 (320, 384) ∧ ¬ IsLast zerosBelowSample 384 (64, 384) := by
  have hscalar : zerosBelowSample.lastRangeFrom 384 = (320, 384) := by decide
  refine ⟨hscalar, by decide, hscalar ▸ zerosBelowSample.lastRangeFrom_isLast 384, ?_⟩
  rintro (hrun | ⟨-, heq⟩)
  · have hone := hrun.ones 64 (by decide) (by decide)
    exact absurd hone (by decide)
  · exact absurd heq (by decide)

end BitArray

end ShadPS4.Common
