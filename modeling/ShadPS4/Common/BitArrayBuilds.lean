import Mathlib.Order.Bounds.Basic
import ShadPS4.Common.BitArraySpec

/-!
# `BitArray` with `BIT_ARRAY_USE_AVX`

With `BIT_ARRAY_USE_AVX` the loops over words take four words at a time as long as there are four, and leave the
rest to the loops of the other build.
-/

namespace ShadPS4.Common

variable {start : ℕ} {range : ℕ × ℕ}

namespace BitArray

variable {words : ℕ}

section

variable (a : BitArray words)

/-- The words of a vector at a word are all equal to a value: `_mm256_cmpeq_epi64` with a constant vector,
and `_mm256_testz_si256` for zero. -/
def vectorEq (value : BitVec 64) (i : ℕ) : Bool :=
  a.word i == value && a.word (i + 1) == value && a.word (i + 2) == value && a.word (i + 3) == value

/-- The loops that replace words from `first` on: four at a time, and then one by one. -/
def setWordsAvx (a : BitArray words) (value : ℕ → BitVec 64) (first : ℕ) : ℕ → BitArray words
  | count + 4 => (a.setWords value first 4).setWordsAvx value (first + 4) count
  | count => a.setWords value first count

/-- The loop that goes up from `word` over vectors made of a value. -/
def skipVectors (a : BitArray words) (value : BitVec 64) (word : ℕ) : ℕ → ℕ
  | count + 4 => if a.vectorEq value word then a.skipVectors value (word + 4) count else word
  | _ => word

/-- The loop that goes down from a word over vectors made of a value. -/
def skipVectorsDown (a : BitArray words) (value : BitVec 64) : ℕ → ℕ
  | word + 4 => if a.vectorEq value word then a.skipVectorsDown value word else word + 4
  | word => word

def ofRangeAvx (other : BitArray words) (start stop : ℕ) : BitArray words :=
  if start ≥ stop ∨ stop > words * bitsPerWord then clear
  else
    let first_word := start / bitsPerWord
    let last_word := (stop - 1) / bitsPerWord
    if first_word = last_word then
      clear.setWord first_word (other.word first_word &&& (startMask start &&& endMask stop))
    else
      let copied := (clear.setWord first_word (other.word first_word &&& startMask start)).setWordsAvx
        other.word (first_word + 1) (last_word - (first_word + 1))
      copied.setWord last_word (other.word last_word &&& endMask stop)

def setRangeAvx (start stop : ℕ) : BitArray words :=
  if start ≥ stop ∨ stop > words * bitsPerWord then a
  else
    let first_word := start / bitsPerWord
    let last_word := (stop - 1) / bitsPerWord
    if first_word = last_word then
      a.setWord first_word (a.word first_word ||| (startMask start &&& endMask stop))
    else
      let filled := (a.setWord first_word (a.word first_word ||| startMask start)).setWordsAvx
        (fun _ => ~~~ 0#64) (first_word + 1) (last_word - (first_word + 1))
      filled.setWord last_word (filled.word last_word ||| endMask stop)

/-- `UnsetRange`, with its own masks. -/
def unsetRangeAvx (start stop : ℕ) : BitArray words :=
  if start ≥ stop ∨ stop > words * bitsPerWord then a
  else
    let first_word := start / bitsPerWord
    let last_word := (stop - 1) / bitsPerWord
    let end_bit := (stop - 1) % bitsPerWord
    let start_mask := lowMask (start % bitsPerWord)
    let end_mask := if end_bit = bitsPerWord - 1 then 0#64 else ~~~ lowMask (end_bit + 1)
    if first_word = last_word then
      a.setWord first_word (a.word first_word &&& (start_mask ||| end_mask))
    else
      let cleared := (a.setWord first_word (a.word first_word &&& start_mask)).setWordsAvx
        (fun _ => 0#64) (first_word + 1) (last_word - (first_word + 1))
      cleared.setWord last_word (cleared.word last_word &&& end_mask)

/-- `find_end_bit` of `FirstRangeFrom`. -/
def findEndBitAvx (word : ℕ) : ℕ :=
  a.findEndBit (a.skipVectors (~~~ 0#64) word (words - word))

/-- `word_bits` of `FirstRangeFrom`. -/
def wordBitsAvx (index : ℕ) (word : BitVec 64) : ℕ × ℕ :=
  let empty_bits := countrZero word
  let ones_count := countrOne (word >>> empty_bits)
  let start_bit := index * bitsPerWord + empty_bits
  if ones_count + empty_bits < bitsPerWord then (start_bit, start_bit + ones_count)
  else (start_bit, a.findEndBitAvx (index + 1))

def firstRangeFromAvx (start : ℕ) : ℕ × ℕ :=
  if start ≥ words * bitsPerWord then (words * bitsPerWord, words * bitsPerWord)
  else
    let start_word := start / bitsPerWord
    let masked_first := a.word start_word &&& ~~~ lowMask (start % bitsPerWord)
    if masked_first ≠ 0 then a.wordBitsAvx start_word masked_first
    else
      let word := a.skipVectors 0#64 (start_word + 1) (words - (start_word + 1))
      let found := firstFrom (fun i => a.word i != 0) word (words - word)
      if found < words then a.wordBitsAvx found (a.word found)
      else (words * bitsPerWord, words * bitsPerWord)

/-! ## The vector loops -/

theorem setWords_add (value : ℕ → BitVec 64) (first m n : ℕ) :
    a.setWords value first (m + n) = (a.setWords value first m).setWords value (first + m) n := by
  induction m generalizing a first with
  | zero => rw [Nat.zero_add, Nat.add_zero]; rfl
  | succ m ih =>
    have hsucc : ∀ count, a.setWords value first (count + 1) =
        (a.setWord first (value first)).setWords value (first + 1) count := fun _ => rfl
    rw [show m + 1 + n = m + n + 1 by omega, hsucc, hsucc, ih,
      show first + 1 + m = first + (m + 1) by omega]

theorem setWordsAvx_eq (value : ℕ → BitVec 64) (first count : ℕ) :
    a.setWordsAvx value first count = a.setWords value first count := by
  fun_induction setWordsAvx a value first count with
  | case1 a first count ih =>
    rw [ih, ← setWords_add]
    congr 1
    omega
  | case2 => rfl

theorem vectorEq_iff (value : BitVec 64) (i : ℕ) :
    a.vectorEq value i = true ↔ ∀ j, i ≤ j → j < i + 4 → a.word j = value := by
  unfold vectorEq
  simp only [Bool.and_eq_true, beq_iff_eq]
  constructor
  · rintro ⟨⟨⟨h0, h1⟩, h2⟩, h3⟩ j hle hlt
    obtain rfl | rfl | rfl | rfl : j = i ∨ j = i + 1 ∨ j = i + 2 ∨ j = i + 3 := by omega
    · exact h0
    · exact h1
    · exact h2
    · exact h3
  · intro h
    exact ⟨⟨⟨h i (by omega) (by omega), h _ (by omega) (by omega)⟩, h _ (by omega) (by omega)⟩,
      h _ (by omega) (by omega)⟩

theorem skipVectors_spec (value : BitVec 64) (word count : ℕ) :
    word ≤ a.skipVectors value word count ∧ a.skipVectors value word count ≤ word + count ∧
      ∀ j, word ≤ j → j < a.skipVectors value word count → a.word j = value := by
  fun_induction skipVectors a value word count with
  | case1 word count hvector ih =>
    refine ⟨by omega, by omega, fun j hle hlt => ?_⟩
    rcases Nat.lt_or_ge j (word + 4) with hin | hout
    · exact (a.vectorEq_iff value word).mp hvector j hle hin
    · exact ih.2.2 j hout hlt
  | case2 => exact ⟨Nat.le_refl _, by omega, fun j _ _ => by omega⟩
  | case3 => exact ⟨Nat.le_refl _, by omega, fun j _ _ => by omega⟩

theorem firstFrom_skip (hle : start ≤ next) (hstop : next ≤ stop) (h : ∀ i, start ≤ i → i < next → p i = false) :
    firstFrom p next (stop - next) = firstFrom p start (stop - start) := by
  obtain ⟨k, rfl⟩ := Nat.exists_eq_add_of_le hle
  induction k generalizing start with
  | zero => rfl
  | succ k ih =>
    obtain ⟨n, hn⟩ : ∃ n, stop - start = n + 1 := ⟨stop - start - 1, by omega⟩
    rw [hn, firstFrom, if_neg (by rw [h start (Nat.le_refl _) (by omega)]; decide),
      show start + (k + 1) = start + 1 + k by omega,
      ih (by omega) (by omega) fun i hi hlt => h i (by omega) (by omega)]
    congr 1
    omega

theorem firstFrom_skipVectors (value : BitVec 64) {word : ℕ} (hword : word ≤ words) :
    let next := a.skipVectors value word (words - word)
    firstFrom (fun i => a.word i != value) next (words - next) =
      firstFrom (fun i => a.word i != value) word (words - word) := by
  obtain ⟨hle, hstop, hskipped⟩ := a.skipVectors_spec value word (words - word)
  refine firstFrom_skip hle (by omega) fun i hi hlt => ?_
  rw [hskipped i hi hlt]
  exact bne_self_eq_false value

theorem ofRangeAvx_eq (other : BitArray words) (start stop : ℕ) :
    ofRangeAvx other start stop = ofRange other start stop := by
  unfold ofRangeAvx ofRange
  simp only [setWordsAvx_eq]

theorem setRangeAvx_eq (start stop : ℕ) : a.setRangeAvx start stop = a.setRange start stop := by
  unfold setRangeAvx setRange
  simp only [setWordsAvx_eq]

theorem unsetRangeAvx_eq (start stop : ℕ) :
    a.unsetRangeAvx start stop = a.unsetRange start stop := by
  unfold unsetRangeAvx unsetRange
  simp only [setWordsAvx_eq]

theorem findEndBitAvx_eq {word : ℕ} (hword : word ≤ words) :
    a.findEndBitAvx word = a.findEndBit word := by
  unfold findEndBitAvx findEndBit
  rw [a.firstFrom_skipVectors (~~~ 0#64) hword]

theorem wordBitsAvx_eq {index : ℕ} (hindex : index < words) (word : BitVec 64) :
    a.wordBitsAvx index word = a.wordBits index word := by
  unfold wordBitsAvx wordBits
  rw [a.findEndBitAvx_eq hindex]

theorem firstRangeFromAvx_eq (start : ℕ) :
    a.firstRangeFromAvx start = a.firstRangeFrom start := by
  unfold firstRangeFromAvx firstRangeFrom
  by_cases hend : start ≥ words * bitsPerWord
  · rw [if_pos hend, if_pos hend]
  · rw [if_neg hend, if_neg hend]
    have hstart : start / bitsPerWord < words := by
      unfold bitsPerWord at hend ⊢
      omega
    have hnext : start / bitsPerWord + 1 ≤ words := hstart
    have hsearch : firstFrom (fun i => a.word i != 0)
        (a.skipVectors 0#64 (start / bitsPerWord + 1) (words - (start / bitsPerWord + 1)))
        (words - a.skipVectors 0#64 (start / bitsPerWord + 1) (words - (start / bitsPerWord + 1))) =
          firstFrom (fun i => a.word i != 0) (start / bitsPerWord + 1)
            (words - (start / bitsPerWord + 1)) :=
      a.firstFrom_skipVectors 0#64 hnext
    dsimp only
    rw [a.wordBitsAvx_eq hstart, hsearch]
    congr 1
    split
    · rename_i hfound
      exact a.wordBitsAvx_eq hfound _
    · rfl

end

inductive Build where
  | scalar
  | avx

namespace Build

def ofRange : Build → BitArray words → ℕ → ℕ → BitArray words
  | scalar => BitArray.ofRange
  | avx => ofRangeAvx

def setRange : Build → BitArray words → ℕ → ℕ → BitArray words
  | scalar => BitArray.setRange
  | avx => setRangeAvx

def unsetRange : Build → BitArray words → ℕ → ℕ → BitArray words
  | scalar => BitArray.unsetRange
  | avx => unsetRangeAvx

def firstRangeFrom : Build → BitArray words → ℕ → ℕ × ℕ
  | scalar => BitArray.firstRangeFrom
  | avx => firstRangeFromAvx

/-- The loop `for (it = …; it != end(); ++it)` from an iterator with a range on ends, and it visits some
ranges. -/
inductive Iterates (build : Build) (a : BitArray words) : ℕ × ℕ → List (ℕ × ℕ) → Prop
  | done : Iterates build a (build.firstRangeFrom a (words * bitsPerWord)) []
  | next {range : ℕ × ℕ} {ranges : List (ℕ × ℕ)} :
      range ≠ build.firstRangeFrom a (words * bitsPerWord) →
      Iterates build a (build.firstRangeFrom a range.2) ranges →
      Iterates build a range (range :: ranges)

variable (build : Build)

@[simp] theorem ofRange_eq (other : BitArray words) (start stop : ℕ) :
    build.ofRange other start stop = BitArray.ofRange other start stop := by
  cases build with
  | scalar => rfl
  | avx => exact ofRangeAvx_eq other start stop

@[simp] theorem setRange_eq (a : BitArray words) (start stop : ℕ) :
    build.setRange a start stop = a.setRange start stop := by
  cases build with
  | scalar => rfl
  | avx => exact setRangeAvx_eq a start stop

@[simp] theorem unsetRange_eq (a : BitArray words) (start stop : ℕ) :
    build.unsetRange a start stop = a.unsetRange start stop := by
  cases build with
  | scalar => rfl
  | avx => exact unsetRangeAvx_eq a start stop

@[simp] theorem firstRangeFrom_eq (a : BitArray words) (start : ℕ) :
    build.firstRangeFrom a start = a.firstRangeFrom start := by
  cases build with
  | scalar => rfl
  | avx => exact firstRangeFromAvx_eq a start

end Build

/-! ## The maximal runs -/

structure MaximalRun (a : BitArray words) (run : ℕ × ℕ) : Prop where
  pos : run.1 < run.2
  le_size : run.2 ≤ words * bitsPerWord
  ones : ∀ i, run.1 ≤ i → i < run.2 → a.bit i = true
  before : 0 < run.1 → a.bit (run.1 - 1) = false
  behind : run.2 < words * bitsPerWord → a.bit run.2 = false

/-- The loop that goes down from a bit while the bit before it is set. -/
def runStart (a : BitArray words) : ℕ → ℕ
  | 0 => 0
  | i + 1 => if a.bit i then a.runStart i else i + 1

theorem runStart_spec (a : BitArray words) (i : ℕ) : a.runStart i ≤ i ∧
    (∀ j, a.runStart i ≤ j → j < i → a.bit j = true) ∧ (0 < a.runStart i → a.bit (a.runStart i - 1) = false) := by
  induction i with
  | zero => exact ⟨Nat.le_refl _, fun j _ hj => by omega, fun h => absurd h (by simp [runStart])⟩
  | succ i ih =>
    obtain ⟨hle, hones, hzero⟩ := ih
    unfold runStart
    split_ifs with hbit
    · refine ⟨by omega, fun j hj hlt => ?_, hzero⟩
      rcases Nat.eq_or_lt_of_le (Nat.lt_succ_iff.mp hlt) with rfl | hlt
      · exact hbit
      · exact hones j hj hlt
    · exact ⟨Nat.le_refl _, fun j hj hlt => by omega, fun _ => by simpa using hbit⟩

theorem NextRun.exists_maximalRun
    (h : NextRun a start range) : ∃ run, MaximalRun a run ∧ run.1 ≤ range.1 ∧ range = (max start run.1, run.2) := by
  obtain ⟨hle, hones, hzero⟩ := a.runStart_spec range.1
  have hpos := h.pos
  have hstart := h.start_le
  refine ⟨(a.runStart range.1, range.2),
    ⟨by dsimp only; omega, h.le_size, fun i hi hlt => ?_, hzero, h.maximal⟩, hle, ?_⟩
  · rcases Nat.lt_or_ge i range.1 with hbefore | hin
    · exact hones i hi hbefore
    · exact h.ones i hin hlt
  · -- The bits between `start` and the range are zeros.
    refine Prod.ext ?_ rfl
    rcases Nat.lt_or_ge start range.1 with hlt | hge
    · have hlast : a.runStart range.1 = range.1 := by
        by_contra hne
        have hone := hones (range.1 - 1) (by omega) (by omega)
        rw [h.before _ (by omega) (by omega)] at hone
        cases hone
      omega
    · omega

theorem NextRun.maximalRun
    (h : NextRun a start range) (hstart : start = 0 ∨ a.bit start = false) : MaximalRun a range := by
  refine ⟨h.pos, h.le_size, h.ones, fun hpos => h.before _ ?_ (by omega), h.maximal⟩
  rcases hstart with rfl | hzero
  · omega
  · have hne : start ≠ range.1 := by
      rintro rfl
      rw [h.ones _ (Nat.le_refl _) h.pos] at hzero
      cases hzero
    have := h.start_le
    omega

theorem NextRun.maximalRun_iff (h : NextRun a start range) (hmax : MaximalRun a range) (run : ℕ × ℕ) :
    MaximalRun a run ∧ start ≤ run.1 ↔ run = range ∨ MaximalRun a run ∧ range.2 ≤ run.1 := by
  constructor
  · rintro ⟨hrun, hle⟩
    have hpos := hrun.pos
    have hone := hrun.ones _ (Nat.le_refl _) hpos
    rcases Nat.lt_or_ge run.1 range.2 with hlt | hge
    · left
      have hfirst : run.1 = range.1 := by
        rcases Nat.lt_trichotomy run.1 range.1 with hbefore | heq | hafter
        · rw [h.before _ hle hbefore] at hone
          cases hone
        · exact heq
        · have hzero := hrun.before (by omega)
          rw [h.ones _ (by omega) (by omega)] at hzero
          cases hzero
      have hlast : run.2 = range.2 := by
        rcases Nat.lt_trichotomy run.2 range.2 with hless | heq | hmore
        · have hzero := hrun.behind (Nat.lt_of_lt_of_le hless h.le_size)
          rw [h.ones _ (by omega) hless] at hzero
          cases hzero
        · exact heq
        · have hzero := h.maximal (Nat.lt_of_lt_of_le hmore hrun.le_size)
          rw [hrun.ones _ (by omega) hmore] at hzero
          cases hzero
      exact Prod.ext hfirst hlast
    · exact .inr ⟨hrun, hge⟩
  · rintro (rfl | ⟨hrun, hle⟩)
    · exact ⟨hmax, h.start_le⟩
    · exact ⟨hrun, by have := h.start_le; have := h.pos; omega⟩

theorem bit_of_size_le (a : BitArray words) (h : words * bitsPerWord ≤ i) : a.bit i = false := by
  have hword : ¬ i / bitsPerWord < words := by
    unfold bitsPerWord at h ⊢
    omega
  unfold bit word
  simp [Vector.getD, hword]

theorem NextRun.bit_snd {a : BitArray words} (h : NextRun a start range) : a.bit range.2 = false := by
  rcases Nat.lt_or_ge range.2 (words * bitsPerWord) with hlt | hge
  · exact h.maximal hlt
  · exact a.bit_of_size_le hge

theorem firstRangeFrom_size (a : BitArray words) :
    a.firstRangeFrom (words * bitsPerWord) = (words * bitsPerWord, words * bitsPerWord) := by
  unfold firstRangeFrom
  rw [if_pos (Nat.le_refl _)]

theorem exists_iterates (build : Build) (a : BitArray words)
    (hleft : words * bitsPerWord ≤ left + start) (hstart : start = 0 ∨ a.bit start = false) :
    ∃ ranges, build.Iterates a (build.firstRangeFrom a start) ranges ∧
      (∀ run, run ∈ ranges ↔ MaximalRun a run ∧ start ≤ run.1) ∧ ranges.Pairwise fun run run' => run.2 < run'.1 := by
  induction left generalizing start with
  | zero =>
    have hend : build.firstRangeFrom a start = build.firstRangeFrom a (words * bitsPerWord) := by
      rw [build.firstRangeFrom_eq, build.firstRangeFrom_eq, firstRangeFrom_size]
      unfold BitArray.firstRangeFrom
      rw [if_pos (show words * bitsPerWord ≤ start by omega)]
    rw [hend]
    refine ⟨[], .done, fun run => ?_, .nil⟩
    simp only [List.not_mem_nil, false_iff]
    rintro ⟨hrun, hle⟩
    have := hrun.pos
    have := hrun.le_size
    omega
  | succ left ih =>
    rcases a.firstRangeFrom_spec start with ⟨heq, hnone⟩ | hrun
    · have hend : build.firstRangeFrom a start = build.firstRangeFrom a (words * bitsPerWord) := by
        rw [build.firstRangeFrom_eq, build.firstRangeFrom_eq, firstRangeFrom_size, heq]
      rw [hend]
      refine ⟨[], .done, fun run => ?_, .nil⟩
      simp only [List.not_mem_nil, false_iff]
      rintro ⟨hrun, hle⟩
      have hpos := hrun.pos
      have hbit := hnone run.1 hle (Nat.lt_of_lt_of_le hpos hrun.le_size)
      rw [hrun.ones _ (Nat.le_refl _) hpos] at hbit
      cases hbit
    · rw [← build.firstRangeFrom_eq] at hrun
      generalize build.firstRangeFrom a start = range at hrun
      have hpos := hrun.pos
      have hle := hrun.start_le
      obtain ⟨ranges, hiterates, hmem, hordered⟩ :=
        ih (show words * bitsPerWord ≤ left + range.2 by omega) (.inr hrun.bit_snd)
      have hne : range ≠ build.firstRangeFrom a (words * bitsPerWord) := by
        rw [build.firstRangeFrom_eq, firstRangeFrom_size]
        rintro rfl
        exact Nat.lt_irrefl _ hpos
      refine ⟨range :: ranges, .next hne hiterates, fun run => ?_, ?_⟩
      · rw [List.mem_cons, hmem, hrun.maximalRun_iff (hrun.maximalRun hstart)]
      · refine List.pairwise_cons.mpr ⟨fun run hin => ?_, hordered⟩
        obtain ⟨hmax, hge⟩ := (hmem run).mp hin
        -- The bit behind the range is a zero, and the run starts with a one.
        have hnot : range.2 ≠ run.1 := by
          intro heq
          have hzero := hrun.bit_snd
          rw [heq, hmax.ones _ (Nat.le_refl _) hmax.pos] at hzero
          cases hzero
        omega

/-! ## The operations of a build -/

/-- What the operations on ranges and the iterator mean, by the set of bits. -/
structure Build.Meaning (build : Build) (a other : BitArray words) : Prop where
  set_range : ∀ {start stop : ℕ}, start ≤ stop → stop ≤ words * bitsPerWord → ∀ i,
    (build.setRange a start stop).bit i = if start ≤ i ∧ i < stop then true else a.bit i
  unset_range : ∀ {start stop : ℕ}, start ≤ stop → stop ≤ words * bitsPerWord → ∀ i,
    (build.unsetRange a start stop).bit i = if start ≤ i ∧ i < stop then false else a.bit i
  of_range : ∀ {start stop : ℕ}, start ≤ stop → stop ≤ words * bitsPerWord → ∀ i,
    (build.ofRange other start stop).bit i = if start ≤ i ∧ i < stop then other.bit i else false
  first_none : ∀ {start : ℕ}, a.NoMore start →
    build.firstRangeFrom a start = (words * bitsPerWord, words * bitsPerWord)
  first_run : ∀ {start i : ℕ}, IsLeast {i | start ≤ i ∧ i < words * bitsPerWord ∧ a.bit i = true} i →
    ∃ run, MaximalRun a run ∧ run.1 ≤ i ∧ i < run.2 ∧
      build.firstRangeFrom a start = (max start run.1, run.2)
  iterates : ∃ ranges, build.Iterates a (build.firstRangeFrom a 0) ranges ∧
    (∀ run, run ∈ ranges ↔ MaximalRun a run) ∧ ranges.Pairwise fun run run' => run.2 < run'.1

/-- The operations have this meaning in both builds, for every array. -/
theorem Build.ranges_spec (build : Build) (a other : BitArray words) : build.Meaning a other := by
  constructor
  case set_range =>
    intro start stop _ hstop i
    rw [build.setRange_eq, bit_setRange a hstop]
  case unset_range =>
    intro start stop _ hstop i
    rw [build.unsetRange_eq, bit_unsetRange a hstop]
  case of_range =>
    intro start stop _ hstop i
    rw [build.ofRange_eq, bit_ofRange other hstop]
  case first_none =>
    intro start hnone
    rw [build.firstRangeFrom_eq]
    rcases a.firstRangeFrom_spec start with ⟨heq, -⟩ | hrun
    · exact heq
    · have hzero := hnone _ hrun.start_le (Nat.lt_of_lt_of_le hrun.pos hrun.le_size)
      rw [hrun.ones _ (Nat.le_refl _) hrun.pos] at hzero
      cases hzero
  case first_run =>
    rintro start i ⟨⟨hle, hlt, hbit⟩, hleast⟩
    rw [build.firstRangeFrom_eq]
    rcases a.firstRangeFrom_spec start with ⟨-, hnone⟩ | hrun
    · rw [hnone i hle hlt] at hbit
      cases hbit
    · obtain ⟨run, hmax, hstart, heq⟩ := hrun.exists_maximalRun
      refine ⟨run, hmax, ?_, ?_, heq⟩
      · -- No bit from `start` on is before the range.
        have hge : ¬ i < (a.firstRangeFrom start).1 := by
          intro hbefore
          rw [hrun.before i hle hbefore] at hbit
          cases hbit
        omega
      · have hfirst := hleast ⟨hrun.start_le, Nat.lt_of_lt_of_le hrun.pos hrun.le_size,
          hrun.ones _ (Nat.le_refl _) hrun.pos⟩
        have hpos := hrun.pos
        have hlast : (a.firstRangeFrom start).2 = run.2 := by rw [heq]
        omega
  case iterates =>
    obtain ⟨ranges, hiterates, hmem, hordered⟩ :=
      exists_iterates build a (show words * bitsPerWord ≤ words * bitsPerWord + 0 from Nat.le_refl _)
        (.inl rfl)
    refine ⟨ranges, hiterates, fun run => ?_, hordered⟩
    rw [hmem run, and_iff_left (Nat.zero_le _)]

/-- The ranges that the iterator visits are set in another array. What comes out is the union of both. -/
theorem Build.setRanges_union (build : Build) (a b : BitArray words) :
    ∃ ranges, build.Iterates a (build.firstRangeFrom a 0) ranges ∧
      ∀ i < words * bitsPerWord, (ranges.foldl (fun c run => build.setRange c run.1 run.2) b).bit i = (a.bit i || b.bit i) := by
  obtain ⟨ranges, hiterates, hmem, -⟩ := exists_iterates build a
    (show words * bitsPerWord ≤ words * bitsPerWord + 0 from Nat.le_refl _) (.inl rfl)
  refine ⟨ranges, hiterates, fun i hi => ?_⟩
  have hfold (runs : List (ℕ × ℕ)) (hruns : ∀ run ∈ runs, run.2 ≤ words * bitsPerWord) (b : BitArray words) :
      (runs.foldl (fun c run => build.setRange c run.1 run.2) b).bit i =
        (runs.any (fun run => run.1 ≤ i ∧ i < run.2) || b.bit i) := by
    induction runs generalizing b with
    | nil => rfl
    | cons run runs ih =>
      obtain ⟨hrun, hruns⟩ := List.forall_mem_cons.mp hruns
      rw [List.foldl_cons, ih hruns, build.setRange_eq, bit_setRange b hrun, List.any_cons]
      split_ifs with hin <;> simp [hin]
  rw [hfold ranges fun run hrun => ((hmem run).mp hrun).1.le_size]
  congr 1
  cases hbit : a.bit i with
  | false =>
    refine List.any_eq_false.mpr fun run hrun hin => ?_
    obtain ⟨hle, hlt⟩ := of_decide_eq_true hin
    rw [((hmem run).mp hrun).1.ones i hle hlt] at hbit
    cases hbit
  | true =>
    rcases a.firstRangeFrom_spec i with ⟨-, hnone⟩ | hrun
    · rw [hnone i (Nat.le_refl _) hi] at hbit
      cases hbit
    obtain ⟨run, hmax, hle, heq⟩ := hrun.exists_maximalRun
    have hfirst : ¬ i < (a.firstRangeFrom i).1 := by
      intro hbefore
      rw [hrun.before i (Nat.le_refl _) hbefore] at hbit
      cases hbit
    have hend : (a.firstRangeFrom i).2 = run.2 := by rw [heq]
    have hpos := hrun.pos
    have hstart := hrun.start_le
    exact List.any_eq_true.mpr ⟨run, (hmem run).mpr ⟨hmax, Nat.zero_le _⟩, decide_eq_true (by omega)⟩

end BitArray

end ShadPS4.Common
