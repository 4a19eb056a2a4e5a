import ShadPS4.Lib.Search

/-!
# `BitArray`

A bit set in words of 64 bits, with operations on ranges of bits and an iterator over the maximal
ranges of ones. The number of words is a parameter. What an operation means is said bit by bit
(`BitArray.bit`).
-/

namespace ShadPS4.Common

def bitsPerWord : ℕ := 64

/-- `BitArray<N>` with `N = 64 * words`. -/
structure BitArray (words : ℕ) where
  data : Vector (BitVec 64) words

namespace BitArray

variable {words : ℕ}

def size (_ : BitArray words) : ℕ := words * bitsPerWord

variable (a : BitArray words)

def word (i : ℕ) : BitVec 64 := a.data.getD i 0

def setWord (i : ℕ) (value : BitVec 64) : BitArray words :=
  ⟨a.data.setIfInBounds i value⟩

/-- The loop that replaces words from `first` on. -/
def setWords (a : BitArray words) (value : ℕ → BitVec 64) (first : ℕ) : ℕ → BitArray words
  | 0 => a
  | count + 1 => (a.setWord first (value first)).setWords value (first + 1) count

/-- All bits are zero, as after `data{}` and `Clear`. -/
def clear : BitArray words := ⟨Vector.replicate words 0⟩

/-- `Fill`: all bits are one. -/
def fill : BitArray words := ⟨Vector.replicate words (BitVec.allOnes 64)⟩

/-- The low bits of a word: `(1 << n) - 1`. -/
def lowMask (n : ℕ) : BitVec 64 := (1#64 <<< n) - 1#64

/-- `start_mask` of `SetRange`. -/
def startMask (start : ℕ) : BitVec 64 := ~~~ lowMask (start % bitsPerWord)

/-- `end_mask` of `SetRange`. -/
def endMask (stop : ℕ) : BitVec 64 :=
  let end_bit := (stop - 1) % bitsPerWord
  if end_bit = bitsPerWord - 1 then ~~~ 0#64 else lowMask (end_bit + 1)

def ofRange (other : BitArray words) (start stop : ℕ) : BitArray words :=
  if start ≥ stop ∨ stop > words * bitsPerWord then clear
  else
    let first_word := start / bitsPerWord
    let last_word := (stop - 1) / bitsPerWord
    if first_word = last_word then
      clear.setWord first_word (other.word first_word &&& (startMask start &&& endMask stop))
    else
      let copied := (clear.setWord first_word (other.word first_word &&& startMask start)).setWords
        other.word (first_word + 1) (last_word - (first_word + 1))
      copied.setWord last_word (other.word last_word &&& endMask stop)

def setRange (start stop : ℕ) : BitArray words :=
  if start ≥ stop ∨ stop > words * bitsPerWord then a
  else
    let first_word := start / bitsPerWord
    let last_word := (stop - 1) / bitsPerWord
    if first_word = last_word then
      a.setWord first_word (a.word first_word ||| (startMask start &&& endMask stop))
    else
      let filled := (a.setWord first_word (a.word first_word ||| startMask start)).setWords
        (fun _ => ~~~ 0#64) (first_word + 1) (last_word - (first_word + 1))
      filled.setWord last_word (filled.word last_word ||| endMask stop)

/-- `UnsetRange`, with its own masks. -/
def unsetRange (start stop : ℕ) : BitArray words :=
  if start ≥ stop ∨ stop > words * bitsPerWord then a
  else
    let first_word := start / bitsPerWord
    let last_word := (stop - 1) / bitsPerWord
    let end_bit := (stop - 1) % bitsPerWord
    let start_mask := lowMask (start % bitsPerWord)
    let end_mask := if end_bit = bitsPerWord - 1 then 0#64 else ~~~ lowMask (end_bit + 1)
    if first_word = last_word then
      a.setWord first_word (a.word first_word &&& (start_mask ||| end_mask))
    else
      let cleared := (a.setWord first_word (a.word first_word &&& start_mask)).setWords
        (fun _ => 0#64) (first_word + 1) (last_word - (first_word + 1))
      cleared.setWord last_word (cleared.word last_word &&& end_mask)

def none : Bool := a.data.foldl (· ||| ·) 0#64 == 0#64

def get (idx : ℕ) : Bool :=
  (a.word (idx / bitsPerWord) &&& 1#64 <<< (idx % bitsPerWord)) != 0#64

def any : Bool := !a.none

/-- `operator^`. -/
def xor (a b : BitArray words) : BitArray words := ⟨a.data.zipWith (· ^^^ ·) b.data⟩

/-- `operator~`. -/
def not : BitArray words := ⟨a.data.map (~~~ ·)⟩

def countrZero (word : BitVec 64) : ℕ := firstFrom (fun i => word.getLsbD i) 0 64

def countrOne (word : BitVec 64) : ℕ := firstFrom (fun i => !word.getLsbD i) 0 64

/-- `find_end_bit` of `FirstRangeFrom`. -/
def findEndBit (word : ℕ) : ℕ :=
  let found := firstFrom (fun i => a.word i != ~~~ 0#64) word (words - word)
  if found < words then found * bitsPerWord + countrOne (a.word found) else words * bitsPerWord

/-- `word_bits` of `FirstRangeFrom`. -/
def wordBits (index : ℕ) (word : BitVec 64) : ℕ × ℕ :=
  let empty_bits := countrZero word
  let ones_count := countrOne (word >>> empty_bits)
  let start_bit := index * bitsPerWord + empty_bits
  if ones_count + empty_bits < bitsPerWord then (start_bit, start_bit + ones_count)
  else (start_bit, a.findEndBit (index + 1))

def firstRangeFrom (start : ℕ) : ℕ × ℕ :=
  if start ≥ words * bitsPerWord then (words * bitsPerWord, words * bitsPerWord)
  else
    let start_word := start / bitsPerWord
    let masked_first := a.word start_word &&& ~~~ lowMask (start % bitsPerWord)
    if masked_first ≠ 0 then a.wordBits start_word masked_first
    else
      let found := firstFrom (fun i => a.word i != 0) (start_word + 1) (words - (start_word + 1))
      if found < words then a.wordBits found (a.word found)
      else (words * bitsPerWord, words * bitsPerWord)

def firstRange : ℕ × ℕ := a.firstRangeFrom 0

def countlZero (word : BitVec 64) : ℕ := firstFrom (fun i => word.getLsbD (63 - i)) 0 64

def countlOne (word : BitVec 64) : ℕ := firstFrom (fun i => !word.getLsbD (63 - i)) 0 64

/-- The loop that counts `word` down while the word before it fails a test. -/
def lastWord (a : BitArray words) (test : BitVec 64 → Bool) : ℕ → ℕ
  | 0 => 0
  | word + 1 => if test (a.word word) then word + 1 else a.lastWord test word

/-- `find_start_bit` of `LastRangeFrom`. -/
def findStartBit (word : ℕ) : ℕ :=
  let found := a.lastWord (· != ~~~ 0#64) word
  if found > 0 then found * bitsPerWord - countlOne (a.word (found - 1)) else 0

/-- `word_bits` of `LastRangeFrom`. -/
def lastWordBits (index : ℕ) (word : BitVec 64) : ℕ × ℕ :=
  let empty_bits := countlZero word
  let ones_count := countlOne (word <<< empty_bits)
  let end_bit := index * bitsPerWord - empty_bits
  if empty_bits + ones_count < bitsPerWord then (end_bit - ones_count, end_bit)
  else (a.findStartBit (index - 1), end_bit)

def lastRangeFrom (stop : ℕ) : ℕ × ℕ :=
  if stop = 0 then (0, 0)
  else
    let stop := if stop > words * bitsPerWord then words * bitsPerWord else stop
    let end_word := (stop - 1) / bitsPerWord + 1
    let end_bit := (stop - 1) % bitsPerWord
    let masked_last :=
      if end_bit < bitsPerWord - 1 then a.word (end_word - 1) &&& lowMask (end_bit + 1)
      else a.word (end_word - 1)
    if masked_last ≠ 0 then a.lastWordBits end_word masked_last
    else
      let found := a.lastWord (· != 0#64) (end_word - 1)
      if found > 0 then a.lastWordBits found (a.word (found - 1)) else (0, 0)

def lastRange : ℕ × ℕ := a.lastRangeFrom (words * bitsPerWord)

/-- The iterator from a range on, until it equals `end()`. -/
def rangesFrom (a : BitArray words) : ℕ → ℕ × ℕ → List (ℕ × ℕ)
  | 0, _ => []
  | fuel + 1, range =>
    if range = (words * bitsPerWord, words * bitsPerWord) then []
    else range :: a.rangesFrom fuel (a.firstRangeFrom range.2)

/-- The ranges that the iterator visits. Every range has a bit, and they do not overlap. -/
def ranges : List (ℕ × ℕ) :=
  a.rangesFrom (words * bitsPerWord + 1) (a.firstRangeFrom 0)

end BitArray

end ShadPS4.Common
