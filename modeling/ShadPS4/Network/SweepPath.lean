import Mathlib.Data.List.Basic
import Mathlib.Data.List.Flatten
import ShadPS4.Lib.Turns

/-!
# `sceHttpUriSweepPath`

The path is written into the buffer segment by segment, and a segment `../` cuts the buffer behind the last slash but
one.
-/

namespace ShadPS4.Http

open List

def slash : UInt8 := 47

def dot : UInt8 := 46

/-! ## The buffer -/

/-- `memcpy` to an index of a buffer. There is no result where it would write outside. -/
def copyTo (dst : List UInt8) (pos : ℕ) (bytes : List UInt8) : Option (List UInt8) :=
  if pos + bytes.length ≤ dst.length then some (dst.take pos ++ bytes ++ dst.drop (pos + bytes.length)) else none

/-- The string at an index, if it has a terminator. -/
def cString (bytes : List UInt8) (pos : ℕ) : Option (List UInt8) :=
  if 0 ∈ bytes.drop pos then some ((bytes.drop pos).takeWhile (· ≠ 0)) else none

/-- `strrchr` of a slash. -/
def lastSlash (s : List UInt8) : Option ℕ := (s.reverse.idxOf? slash).map (s.length - 1 - ·)

/-- Whether bytes begin with others, which are compared up to the first difference. -/
def startsWith : List UInt8 → List UInt8 → Option Bool
  | _, [] => some true
  | [], _ => none
  | b :: bytes, c :: rest => if b = c then startsWith bytes rest else some false

/-! ## The function -/

/-- The `../` of the loop. -/
def cutSegment (dst : List UInt8) (segmentEnd : ℕ) : Option (List UInt8 × ℕ) :=
  if segmentEnd = 0 then some (dst, 0)
  else do
    let dst ← copyTo dst segmentEnd [0]
    let prevSlash ← lastSlash (← cString dst 0)
    let dst ← copyTo dst (prevSlash + 1) [0]
    some (dst, prevSlash)

/-- The copy of a segment. -/
def copySegment (src : List UInt8) (srcSize : ℕ) (dst : List UInt8) (srcPos segmentEnd : ℕ) :
    Option (List UInt8 × ℕ) := do
  let remaining := srcSize - srcPos - 1
  let copyLen := ((← cString src srcPos).idxOf? slash).elim remaining fun next => min (next + 1) remaining
  if src.length < srcPos + copyLen then none
  let dst ← copyTo dst (segmentEnd + 1) ((src.drop srcPos).take copyLen)
  let dst ← copyTo dst (segmentEnd + copyLen + 1) [0]
  some (dst, copyLen)

/-- The loop over the segments. -/
def sweepLoop (src : List UInt8) (srcSize : ℕ) : ℕ → List UInt8 → ℕ → ℕ → Option (List UInt8)
  | 0, _, _, _ => none
  | turns + 1, dst, srcPos, segmentEnd =>
    if srcPos < srcSize - 1 then do
      if ← startsWith (src.drop srcPos) [dot, slash] then
        sweepLoop src srcSize turns dst (srcPos + 2) segmentEnd
      else if ← startsWith (src.drop srcPos) [dot, dot, slash] then
        let (dst, segmentEnd) ← cutSegment dst segmentEnd
        sweepLoop src srcSize turns dst (srcPos + 3) segmentEnd
      else
        let (dst, copyLen) ← copySegment src srcSize dst srcPos segmentEnd
        sweepLoop src srcSize turns dst (srcPos + copyLen) (segmentEnd + copyLen)
    else some dst

/-- On buffers that are not null. -/
def sceHttpUriSweepPath (turns : ℕ) (dst src : List UInt8) (srcSize : ℕ) : Option (List UInt8) :=
  if srcSize = 0 then some dst
  else do
    if (← src[0]?) ≠ slash then
      if src.length < srcSize - 1 then none
      copyTo (← copyTo dst 0 (src.take (srcSize - 1))) (srcSize - 1) [0]
    else
      let dst ← copyTo (← copyTo dst 0 [slash]) 1 [0]
      if srcSize - 1 ≤ 1 then some dst else sweepLoop src srcSize turns dst 1 0

/-! ## The stack of segments -/

/-- A segment `./` is dropped, and `../` removes the last segment that was kept. -/
def keep (kept : List (List UInt8)) (segment : List UInt8) : List (List UInt8) :=
  if segment = [dot] then kept else if segment = [dot, dot] then kept.dropLast else kept ++ [segment]

def joined (segments : List (List UInt8)) : List UInt8 := (segments.map (· ++ [slash])).flatten

/-- Bytes without a slash and without a terminator. -/
def Plain (name : List UInt8) : Prop := slash ∉ name ∧ 0 ∉ name

theorem joined_append (a b : List (List UInt8)) : joined (a ++ b) = joined a ++ joined b := by
  unfold joined
  rw [map_append, flatten_append]

theorem joined_cons (a : List UInt8) (b : List (List UInt8)) : joined (a :: b) = a ++ slash :: joined b := by
  simp [joined]

theorem zero_not_mem_joined (h : ∀ n ∈ kept, Plain n) : 0 ∉ joined kept := by
  induction kept with
  | nil => exact not_mem_nil
  | cons n kept ih =>
    rw [joined_cons, mem_append, mem_cons]
    rintro (hin | hin | hin)
    · exact (h n mem_cons_self).2 hin
    · cases hin
    · exact ih (fun n hn => h n (mem_cons_of_mem _ hn)) hin

variable {P : List UInt8 → Prop}

theorem forall_keep (h : ∀ n ∈ kept, P n) (hname : name ≠ [dot] → name ≠ [dot, dot] → P name) :
    ∀ n ∈ keep kept name, P n := by
  unfold keep
  split_ifs with hone htwo
  · exact h
  · exact fun n hn => h n (dropLast_subset _ hn)
  · intro n hin
    rcases mem_append.mp hin with hin | hin
    · exact h n hin
    · exact mem_singleton.mp hin ▸ hname hone htwo

theorem forall_foldl_keep (segments kept : List (List UInt8)) (h : ∀ n ∈ kept, P n)
    (hsegments : ∀ n ∈ segments, n ≠ [dot] → n ≠ [dot, dot] → P n) : ∀ n ∈ segments.foldl keep kept, P n := by
  induction segments generalizing kept with
  | nil => exact h
  | cons name segments ih =>
    obtain ⟨hname, hsegments⟩ := forall_mem_cons.mp hsegments
    exact ih _ (forall_keep h hname) hsegments

/-- Segments that were kept are kept again. -/
theorem foldl_keep_eq (h : ∀ n ∈ segments, n ≠ [dot] ∧ n ≠ [dot, dot]) (kept : List (List UInt8)) :
    segments.foldl keep kept = kept ++ segments := by
  induction segments generalizing kept with
  | nil => exact (append_nil kept).symm
  | cons n segments ih =>
    obtain ⟨h1, h2⟩ := h n mem_cons_self
    rw [foldl_cons, ih fun n hn => h n (mem_cons_of_mem _ hn), keep, if_neg h1, if_neg h2, append_assoc]
    rfl

/-- Every path is a list of segments and what follows the last slash. -/
theorem exists_segments (s : List UInt8) (h : 0 ∉ s) :
    ∃ segments last, s = joined segments ++ last ∧ (∀ n ∈ segments, Plain n) ∧ Plain last := by
  induction s with
  | nil => exact ⟨[], [], rfl, nofun, not_mem_nil, not_mem_nil⟩
  | cons b s ih =>
    obtain ⟨hb, hs⟩ := not_or.mp (mem_cons.not.mp h)
    obtain ⟨segments, last, rfl, hsegments, hlast⟩ := ih hs
    by_cases hslash : b = slash
    · refine ⟨[] :: segments, last, by rw [joined_cons, hslash]; rfl, ?_, hlast⟩
      exact forall_mem_cons.mpr ⟨⟨not_mem_nil, not_mem_nil⟩, hsegments⟩
    · have hplain {n : List UInt8} (hn : Plain n) : Plain (b :: n) :=
        ⟨mem_cons.not.mpr (not_or.mpr ⟨Ne.symm hslash, hn.1⟩), mem_cons.not.mpr (not_or.mpr ⟨hb, hn.2⟩)⟩
      cases segments with
      | nil => exact ⟨[], b :: last, rfl, nofun, hplain hlast⟩
      | cons n segments =>
        obtain ⟨hn, hsegments⟩ := forall_mem_cons.mp hsegments
        exact ⟨(b :: n) :: segments, last, by rw [joined_cons, joined_cons]; rfl,
          forall_mem_cons.mpr ⟨hplain hn, hsegments⟩, hlast⟩

/-! ## The loop -/

theorem copyTo_append (a b c : List UInt8) (h : d.length = b.length) :
    copyTo (a ++ (b ++ c)) a.length d = some (a ++ (d ++ c)) := by
  unfold copyTo
  rw [if_pos (by rw [length_append, length_append]; omega), take_left, h, ← append_assoc a b, ← length_append, drop_left,
    append_assoc]

theorem cString_append (a b c : List UInt8) (h : 0 ∉ b) : cString (a ++ (b ++ 0 :: c)) a.length = some b := by
  unfold cString
  rw [drop_left, if_pos (mem_append_right b mem_cons_self), takeWhile_append_of_pos, takeWhile_cons_of_neg (by simp),
    append_nil]
  exact fun x hx => decide_eq_true fun h0 => h (h0 ▸ hx)

/-- A segment `n` that ends with `e` is compared with a pattern that ends with a slash. -/
theorem startsWith_spec {e : UInt8} (rest : List UInt8) (hn : slash ∉ n) (he : e ∉ p) :
    startsWith (n ++ e :: rest) (p ++ [slash]) = some (decide (n = p ∧ e = slash)) := by
  induction p generalizing n with
  | nil =>
    cases n with
    | nil => by_cases h : e = slash <;> simp [startsWith, h]
    | cons a n => simp [startsWith, Ne.symm (ne_of_not_mem_cons hn)]
  | cons c p ih =>
    cases n with
    | nil => simp [startsWith, ne_of_not_mem_cons he]
    | cons a n =>
      by_cases h : a = c
      · simp [startsWith, h, ih (not_mem_of_not_mem_cons hn) (not_mem_of_not_mem_cons he)]
      · simp [startsWith, h]

theorem idxOf?_slash (n rest : List UInt8) (hn : slash ∉ n) : (n ++ slash :: rest).idxOf? slash = some n.length := by
  induction n with
  | nil => simp [idxOf?_cons]
  | cons a n ih =>
    rw [cons_append, idxOf?_cons, ih (not_mem_of_not_mem_cons hn), if_neg (by simpa using (ne_of_not_mem_cons hn).symm)]
    rfl

theorem lastSlash_append (a n : List UInt8) (hn : slash ∉ n) : lastSlash (a ++ slash :: n) = some a.length := by
  unfold lastSlash
  rw [reverse_append, reverse_cons, append_assoc, singleton_append, idxOf?_slash _ _ (by simpa using hn)]
  simp

theorem slash_cons_joined (kept : List (List UInt8)) :
    ∃ a, slash :: joined kept = a ++ [slash] ∧ a.length = (joined kept).length := by
  rcases eq_nil_or_concat kept with rfl | ⟨kept, n, rfl⟩
  · exact ⟨[], rfl, rfl⟩
  · rw [concat_eq_append, joined_append, show joined [n] = n ++ [slash] from joined_cons n []]
    refine ⟨slash :: (joined kept ++ n), ?_, ?_⟩
    · exact congrArg _ (append_assoc _ n _).symm
    · simp [Nat.add_assoc]

/-- `../` removes the last of the segments in the buffer. -/
theorem cutSegment_spec (hkept : ∀ n ∈ kept, Plain n) (rest : List UInt8) :
    ∃ rest', rest'.length + (joined kept.dropLast).length = rest.length + (joined kept).length ∧
      cutSegment (slash :: (joined kept ++ 0 :: rest)) (joined kept).length =
        some (slash :: (joined kept.dropLast ++ 0 :: rest'), (joined kept.dropLast).length) := by
  rcases eq_nil_or_concat kept with rfl | ⟨kept, n, rfl⟩
  · exact ⟨rest, rfl, rfl⟩
  · have hn := hkept n (by simp)
    have hzero : 0 ∉ joined kept := zero_not_mem_joined fun n hn => hkept n (by simp [hn])
    obtain ⟨x, rest', hx⟩ : ∃ x rest', n ++ 0 :: 0 :: rest = x :: rest' := exists_cons_of_ne_nil (by simp)
    obtain ⟨a, ha, hlength⟩ := slash_cons_joined kept
    have hcut := copyTo_append (slash :: (joined kept ++ n)) [slash] (0 :: rest) (d := [0]) rfl
    have hstring := cString_append [] (slash :: (joined kept ++ n)) (0 :: rest) (by simp [hzero, hn.2, slash])
    have hlast : lastSlash (slash :: (joined kept ++ n)) = some (joined kept).length := by
      rw [← cons_append, ha, append_assoc, singleton_append, lastSlash_append _ _ hn.1, hlength]
    have hend := copyTo_append (slash :: joined kept) [x] rest' (d := [0]) rfl
    have hjoined : joined (kept ++ [n]) = joined kept ++ n ++ [slash] := by simp [joined]
    rw [concat_eq_append, dropLast_concat, hjoined]
    refine ⟨rest', ?_, ?_⟩
    · have := congrArg length hx
      simp only [length_append, length_cons, length_nil] at this ⊢
      omega
    · unfold cutSegment
      rw [if_neg (by simp)]
      simp only [Option.bind_eq_bind, Option.bind_eq_some_iff]
      refine ⟨_, ?_, _, hstring, _, hlast, _, ?_, rfl⟩
      · simpa [Nat.add_assoc] using hcut
      · rw [singleton_append, ← hx] at hend
        simpa using hend

/-- Bytes of the source are copied behind the segments in the buffer. -/
theorem copySegment_spec {src : List UInt8} (kept : List (List UInt8)) (rest : List UInt8) (hsrc : src = before ++ (piece ++ ending))
    (hcopy : (cString src before.length).map (fun s => (s.idxOf? slash).elim (src.length - before.length - 1) fun next =>
      min (next + 1) (src.length - before.length - 1)) = some piece.length)
    (hlength : piece.length ≤ rest.length) :
    ∃ rest', rest'.length + piece.length = rest.length ∧
      copySegment src src.length (slash :: (joined kept ++ 0 :: rest)) before.length (joined kept).length =
        some (slash :: (joined kept ++ (piece ++ 0 :: rest')), piece.length) := by
  obtain ⟨s, hs, hcopy⟩ := Option.map_eq_some_iff.mp hcopy
  obtain ⟨b, x, rest', hb, hsplit⟩ : ∃ b x c, b.length = piece.length ∧ 0 :: rest = b ++ x :: c := by
    obtain ⟨x, c, hx⟩ := exists_cons_of_ne_nil (l := (0 :: rest).drop piece.length) (by
      rw [ne_eq, drop_eq_nil_iff, length_cons]; omega)
    exact ⟨(0 :: rest).take piece.length, x, c, by rw [length_take, length_cons]; omega, by rw [← hx, take_append_drop]⟩
  have hpiece := copyTo_append (slash :: joined kept) b (x :: rest') (d := piece) hb.symm
  have hzero := copyTo_append (slash :: (joined kept ++ piece)) [x] rest' (d := [0]) rfl
  refine ⟨rest', ?_, ?_⟩
  · have := congrArg length hsplit
    simp only [length_append, length_cons] at this
    omega
  · unfold copySegment
    rw [hs]
    dsimp only [Option.bind_eq_bind, Option.bind_some]
    rw [hcopy, if_neg (by rw [hsrc]; simp)]
    have htake : (src.drop before.length).take piece.length = piece := by rw [hsrc, drop_left, take_left]
    rw [htake, hsplit]
    have hfirst : copyTo (slash :: (joined kept ++ (b ++ x :: rest'))) ((joined kept).length + 1) piece = some _ := hpiece
    have hsecond : copyTo (slash :: (joined kept ++ (piece ++ x :: rest'))) ((joined kept).length + piece.length + 1) [0] =
        some (slash :: (joined kept ++ (piece ++ 0 :: rest'))) := by
      simpa using hzero
    rw [hfirst]
    exact congrArg (Option.bind · _) hsecond

/-- A turn of the loop, at a segment `n` that ends with `e`. -/
theorem sweepLoop_step {src : List UInt8} (hsrc : src = before ++ (n ++ e :: ending)) (hn : slash ∉ n) (he : e ≠ dot)
    (hpos : before.length < src.length - 1) (turns : ℕ) (dst : List UInt8) (segmentEnd : ℕ) :
    sweepLoop src src.length (turns + 1) dst before.length segmentEnd =
      if n = [dot] ∧ e = slash then sweepLoop src src.length turns dst (before.length + 2) segmentEnd
      else if n = [dot, dot] ∧ e = slash then
        (cutSegment dst segmentEnd).bind fun r => sweepLoop src src.length turns r.1 (before.length + 3) r.2
      else (copySegment src src.length dst before.length segmentEnd).bind fun r =>
        sweepLoop src src.length turns r.1 (before.length + r.2) (segmentEnd + r.2) := by
  have hdrop : src.drop before.length = n ++ e :: ending := by rw [hsrc, drop_left]
  have hone : startsWith _ [dot, slash] = _ := startsWith_spec (p := [dot]) ending hn (by simpa using he)
  have htwo : startsWith _ [dot, dot, slash] = _ := startsWith_spec (p := [dot, dot]) ending hn (by simpa using he)
  rw [sweepLoop, if_pos hpos, hdrop]
  simp only [Option.bind_eq_bind, hone, htwo, Option.bind_some, decide_eq_true_eq]

/-- The loop from a place of the source on. -/
theorem sweepLoop_spec (src : List UInt8) {last : List UInt8} (hlast : Plain last) (segments : List (List UInt8)) :
    ∀ kept before rest, (∀ n ∈ segments, Plain n) → (∀ n ∈ kept, Plain n) →
      src = before ++ (joined segments ++ (last ++ [0])) → (joined kept).length < before.length →
      rest.length + (joined kept).length + 2 = src.length →
      ∃ rest', Returns (fun turns => sweepLoop src src.length turns (slash :: (joined kept ++ 0 :: rest)) before.length
        (joined kept).length) (slash :: (joined (segments.foldl keep kept) ++ (last ++ 0 :: rest'))) := by
  induction segments with
  | nil =>
    intro kept before rest _ hkept hsrc hpos hrest
    have hlen := congrArg length hsrc
    simp only [joined, map_nil, flatten_nil, nil_append, length_append, length_singleton] at hlen
    by_cases hnil : last = []
    · subst hnil
      refine ⟨rest, .step (fun turns => ?_) (.pure _)⟩
      rw [sweepLoop, if_neg (by rw [hlen]; simp)]
      rfl
    · have hpositive := length_pos_iff.mpr hnil
      have hstring : cString src before.length = some last := by
        rw [hsrc]
        exact cString_append before last [] hlast.2
      obtain ⟨rest', hrest', hcopy⟩ := copySegment_spec kept rest (show src = before ++ (last ++ [0]) from hsrc)
        (by rw [hstring, Option.map_some, idxOf?_eq_none_iff.mpr hlast.1, hlen]; simp) (by omega)
      refine ⟨rest', .step (fun turns => ?_) (.step (f := fun turns => sweepLoop src src.length turns
        (slash :: (joined kept ++ (last ++ 0 :: rest'))) (before.length + last.length)
        ((joined kept).length + last.length)) (fun turns => ?_) (.pure _))⟩
      · rw [sweepLoop_step hsrc hlast.1 (by decide) (by omega), if_neg (by simp [slash]),
          if_neg (by simp [slash]), hcopy]
        rfl
      · rw [sweepLoop, if_neg (by omega)]
        rfl
  | cons n segments ih =>
    intro kept before rest hsegments hkept hsrc hpos hrest
    obtain ⟨hn, hsegments⟩ := forall_mem_cons.mp hsegments
    have hsrc' : src = before ++ (n ++ slash :: (joined segments ++ (last ++ [0]))) := by
      rw [hsrc, joined_cons, append_assoc]
      rfl
    have hlen := congrArg length hsrc'
    simp only [length_append, length_cons, length_nil] at hlen
    have hstep := sweepLoop_step hsrc' hn.1 (by decide) (by omega)
    have hlonger : before.length < (before ++ (n ++ [slash])).length := by simp
    have hsrc'' : src = (before ++ (n ++ [slash])) ++ (joined segments ++ (last ++ [0])) := by rw [hsrc']; simp
    rw [foldl_cons]
    have hkept' := forall_keep hkept fun _ _ => hn
    unfold keep at hkept' ⊢
    split_ifs at hkept' ⊢ with hone htwo
    · obtain ⟨rest', hreturns⟩ := ih kept _ rest hsegments hkept hsrc'' (by omega) hrest
      refine ⟨rest', .step (fun turns => ?_) hreturns⟩
      rw [hstep, if_pos ⟨hone, rfl⟩, hone]
      simp
    · obtain ⟨rest1, hrest1, hcut⟩ := cutSegment_spec hkept rest
      have hless : (joined kept.dropLast).length ≤ (joined kept).length :=
        ((dropLast_sublist kept).map (· ++ [slash])).flatten.length_le
      obtain ⟨rest', hreturns⟩ := ih _ _ rest1 hsegments hkept' hsrc'' (by omega) (by omega)
      refine ⟨rest', .step (fun turns => ?_) hreturns⟩
      rw [hstep, if_neg (fun h => hone h.1), if_pos ⟨htwo, rfl⟩, hcut, htwo]
      simp
    · have hstring : cString src before.length = some (n ++ slash :: (joined segments ++ last)) := by
        have hplain : 0 ∉ joined (n :: segments) := zero_not_mem_joined (forall_mem_cons.mpr ⟨hn, hsegments⟩)
        have hall := cString_append before (joined (n :: segments) ++ last) [] (by simp [hplain, hlast.2])
        rw [joined_cons] at hall
        simpa [hsrc'] using hall
      obtain ⟨rest1, hrest1, hcopy⟩ := copySegment_spec kept rest
        (show src = before ++ ((n ++ [slash]) ++ (joined segments ++ (last ++ [0]))) by rw [hsrc'']; simp)
        (by rw [hstring, Option.map_some, idxOf?_slash _ _ hn.1, Option.elim_some, length_append, length_singleton,
          Nat.min_eq_left (by omega)])
        (by rw [length_append, length_singleton]; omega)
      have hjoined : joined (kept ++ [n]) = joined kept ++ (n ++ [slash]) := by rw [joined_append, joined_cons]; rfl
      have hlen' := congrArg length hjoined
      simp only [length_append, length_singleton] at hlen' hrest1
      obtain ⟨rest', hreturns⟩ := ih (kept ++ [n]) _ rest1 hsegments hkept' hsrc''
        (by simp only [length_append, length_singleton]; omega) (by omega)
      refine ⟨rest', .step (fun turns => ?_) hreturns⟩
      rw [hstep, if_neg (fun h => hone h.1), if_neg (fun h => htwo h.1), hcopy, hjoined]
      simp

/-- What is left of segments, and of what follows the last slash. -/
def sweptPath (segments : List (List UInt8)) (last : List UInt8) : List UInt8 :=
  slash :: (joined (segments.foldl keep []) ++ last)

/-- Into every buffer that is as long as the path the function writes another one, and it writes nothing outside. -/
def Sweeps (s swept : List UInt8) : Prop :=
  ∀ dst : List UInt8, dst.length = s.length + 1 → ∃ rest,
    Returns (fun turns => sceHttpUriSweepPath turns dst (s ++ [0]) (s.length + 1)) (swept ++ 0 :: rest)

theorem sweeps_path (hsegments : ∀ n ∈ segments, Plain n) (hlast : Plain last) :
    Sweeps (slash :: (joined segments ++ last)) (sweptPath segments last) := by
  intro dst hdst
  obtain ⟨d, d', rest, rfl⟩ : ∃ d d' rest, dst = d :: d' :: rest := by
    rcases dst with _ | ⟨d, _ | ⟨d', rest⟩⟩
    · cases hdst
    · cases hdst
    · exact ⟨d, d', rest, rfl⟩
  have hfirst : copyTo (d :: d' :: rest) 0 [slash] = _ := copyTo_append [] [d] (d' :: rest) (d := [slash]) rfl
  have hsecond : copyTo (slash :: d' :: rest) 1 [0] = _ := copyTo_append [slash] [d'] rest (d := [0]) rfl
  have hlength : (slash :: (joined segments ++ last)).length + 1 = (slash :: (joined segments ++ last) ++ [0]).length := by
    rw [length_append]
    rfl
  have hrun (turns : ℕ) : sceHttpUriSweepPath turns (d :: d' :: rest) (slash :: (joined segments ++ last) ++ [0])
      ((slash :: (joined segments ++ last)).length + 1) =
      if (joined segments ++ last).length = 0 then some (slash :: 0 :: rest)
      else sweepLoop (slash :: (joined segments ++ last) ++ [0]) ((slash :: (joined segments ++ last)).length + 1) turns
        (slash :: 0 :: rest) 1 0 := by
    unfold sceHttpUriSweepPath
    simp [hfirst, hsecond]
  by_cases hnil : (joined segments ++ last).length = 0
  · obtain ⟨hjoined, rfl⟩ := append_eq_nil_iff.mp (length_eq_zero_iff.mp hnil)
    obtain rfl : segments = [] := by
      rcases segments with _ | ⟨n, segments⟩
      · rfl
      · simp [joined_cons] at hjoined
    exact ⟨rest, 0, fun turns _ => (hrun turns).trans (if_pos hnil)⟩
  · obtain ⟨rest', hreturns⟩ := sweepLoop_spec (slash :: (joined segments ++ last) ++ [0]) hlast segments [] [slash]
      rest hsegments nofun (by simp) Nat.one_pos (by
        rw [← hlength, ← hdst]
        rfl)
    refine ⟨rest', ?_⟩
    simp only [hrun, if_neg hnil]
    rw [hlength, show sweptPath segments last ++ 0 :: rest' = slash :: (joined _ ++ (last ++ 0 :: rest')) by
      rw [sweptPath, cons_append, append_assoc]]
    exact hreturns

/-- Every absolute path is segments that end with a slash, and a last part. The function writes what the stack of the
segments leaves of it, and leaves that alone when it is called again. -/
theorem sceHttpUriSweepPath_spec (s : List UInt8) (habsolute : s.head? = some slash) (hzero : 0 ∉ s) :
    ∃ segments last, s = slash :: (joined segments ++ last) ∧ (∀ n ∈ segments, slash ∉ n) ∧ slash ∉ last ∧
      Sweeps s (sweptPath segments last) ∧ Sweeps (sweptPath segments last) (sweptPath segments last) := by
  obtain ⟨t, rfl⟩ := head?_eq_some_iff.mp habsolute
  obtain ⟨segments, last, rfl, hsegments, hlast⟩ := exists_segments t fun hin => hzero (mem_cons_of_mem _ hin)
  refine ⟨segments, last, rfl, fun n hn => (hsegments n hn).1, hlast.1, sweeps_path hsegments hlast, ?_⟩
  have hagain := sweeps_path (forall_foldl_keep segments [] nofun fun n hn _ _ => hsegments n hn) hlast
  rw [sweptPath, foldl_keep_eq (forall_foldl_keep segments [] nofun fun _ _ => And.intro)] at hagain
  exact hagain

/-- `/a/../b` -/
theorem sceHttpUriSweepPath_spec_sample : ∃ segments last, ([47, 97, 47, 46, 46, 47, 98] : List UInt8) =
    slash :: (joined segments ++ last) ∧ Sweeps [47, 97, 47, 46, 46, 47, 98] (sweptPath segments last) := by
  obtain ⟨segments, last, hs, -, -, hsweeps, -⟩ := sceHttpUriSweepPath_spec [47, 97, 47, 46, 46, 47, 98] rfl (by decide)
  exact ⟨segments, last, hs, hsweeps⟩

end ShadPS4.Http
