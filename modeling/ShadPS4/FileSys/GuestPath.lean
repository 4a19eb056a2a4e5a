import Mathlib.Data.List.DropRight
import Mathlib.Data.List.Infix
import ShadPS4.Lib.Path

/-!
# Guest paths

`SanitizeGuestPath` replaces two slashes by one and goes on behind the slash that it left, so a run of `k` slashes
becomes one of `(k + 1) / 2`.
-/

namespace ShadPS4.FileSys

open List
open Option (some.inj)

variable {s : Text}

def doubleSlash : Text := ['/', '/']

def tripleSlash : Text := ['/', '/', '/']

def toLower (input : Text) : Text := input.map Char.toLower

variable (path : Text)

def removeTrailingSlashes : Text := path.rdropWhile (· = '/')

/-- `std::string::find` of two slashes from an index on. -/
def findDoubleSlash (s : Text) (pos : ℕ) : Option ℕ :=
  ((s.drop pos).tails.findIdx? fun t => doubleSlash.isPrefixOf t).map (pos + ·)

/-- The loop that replaces two slashes by one; each turn makes the string shorter. -/
def replaceLoop : ℕ → Text → ℕ → Text
  | 0, s, _ => s
  | fuel + 1, s, pos =>
    match findDoubleSlash s pos with
    | none => s
    | some found => replaceLoop fuel (s.take found ++ '/' :: s.drop (found + 2)) (found + 1)

def correctedPath : Text := replaceLoop path.length path 0

def sanitizeGuestPath : Option Text :=
  if path.length > 255 then none else some (correctedPath path)

/-! ## What the loop computes -/

/-- Two slashes become one, from the left to the right. -/
def collapse : Text → Text
  | [] => []
  | [c] => [c]
  | c :: d :: rest => if c = '/' ∧ d = '/' then '/' :: collapse rest else c :: collapse (d :: rest)

theorem collapse_slashes (rest : Text) : collapse ('/' :: '/' :: rest) = '/' :: collapse rest := rfl

theorem collapse_cons (h : ¬ (c = '/' ∧ d = '/')) (rest : Text) :
    collapse (c :: d :: rest) = c :: collapse (d :: rest) := if_neg h

theorem collapse_induction {p : Text → Prop} (nil : p []) (one : ∀ c, p [c])
    (slashes : ∀ rest, p rest → p ('/' :: '/' :: rest))
    (other : ∀ c d rest, ¬ (c = '/' ∧ d = '/') → p (d :: rest) → p (c :: d :: rest)) : ∀ s, p s
  | [] => nil
  | [c] => one c
  | c :: d :: rest => by
    by_cases h : c = '/' ∧ d = '/'
    · obtain ⟨rfl, rfl⟩ := h
      exact slashes rest (collapse_induction nil one slashes other rest)
    · exact other c d rest h (collapse_induction nil one slashes other (d :: rest))

theorem head?_collapse (s : Text) : (collapse s).head? = s.head? := by
  induction s using collapse_induction with
  | nil => rfl
  | one c => rfl
  | slashes rest ih => rfl
  | other c d rest h ih => rw [collapse_cons h, head?_cons, head?_cons]

theorem length_collapse_le (s : Text) : (collapse s).length ≤ s.length := by
  induction s using collapse_induction with
  | nil => exact Nat.le_refl 0
  | one c => exact Nat.le_refl 1
  | slashes rest ih =>
    rw [collapse_slashes]
    simp only [length_cons]
    omega
  | other c d rest h ih =>
    rw [collapse_cons h]
    simp only [length_cons] at ih ⊢
    omega

theorem doubleSlash_prefix_cons_iff : doubleSlash <+: c :: rest ↔ c = '/' ∧ rest.head? = some '/' := by
  unfold doubleSlash
  cases rest with
  | nil => simp [cons_prefix_cons]
  | cons d rest => simp [cons_prefix_cons, eq_comm]

theorem tripleSlash_prefix_cons_iff : tripleSlash <+: c :: rest ↔ c = '/' ∧ doubleSlash <+: rest := by
  unfold tripleSlash doubleSlash
  rw [cons_prefix_cons, eq_comm]

theorem collapse_eq_self (h : ¬ doubleSlash <:+: s) : collapse s = s := by
  induction s using collapse_induction with
  | nil => rfl
  | one c => rfl
  | slashes rest ih =>
    refine absurd (List.infix_cons_iff.mpr (.inl ?_)) h
    rw [doubleSlash_prefix_cons_iff]
    exact ⟨rfl, rfl⟩
  | other c d rest hslash ih =>
    rw [collapse_cons hslash, ih fun hinfix => h (List.infix_cons_iff.mpr (.inr hinfix))]

theorem length_collapse_lt (h : doubleSlash <:+: s) : (collapse s).length < s.length := by
  induction s using collapse_induction with
  | nil => simp [doubleSlash] at h
  | one c => simp [doubleSlash, infix_cons_iff] at h
  | slashes rest ih =>
    have := length_collapse_le rest
    rw [collapse_slashes]
    simp only [length_cons]
    omega
  | other c d rest hslash ih =>
    rw [collapse_cons hslash]
    rcases List.infix_cons_iff.mp h with hprefix | hinfix
    · obtain ⟨hc, hd⟩ := doubleSlash_prefix_cons_iff.mp hprefix
      exact absurd ⟨hc, some.inj hd⟩ hslash
    · simpa using ih hinfix

theorem doubleSlash_infix_collapse_iff : doubleSlash <:+: collapse s ↔ tripleSlash <:+: s := by
  induction s using collapse_induction with
  | nil => simp [collapse, doubleSlash, tripleSlash]
  | one c => simp [collapse, doubleSlash, tripleSlash, infix_cons_iff]
  | slashes rest ih =>
    rw [collapse_slashes, infix_cons_iff, infix_cons_iff, infix_cons_iff, ih,
      doubleSlash_prefix_cons_iff, tripleSlash_prefix_cons_iff, tripleSlash_prefix_cons_iff,
      doubleSlash_prefix_cons_iff, head?_collapse]
    constructor
    · rintro (⟨-, hhead⟩ | hinfix)
      · exact .inl ⟨rfl, rfl, hhead⟩
      · exact .inr (.inr hinfix)
    · rintro (⟨-, -, hhead⟩ | ⟨-, hprefix⟩ | hinfix)
      · exact .inl ⟨rfl, hhead⟩
      · -- Two slashes behind the first one start with a slash too.
        obtain ⟨t, rfl⟩ := hprefix
        exact .inl ⟨rfl, rfl⟩
      · exact .inr hinfix
  | other c d rest hslash ih =>
    have htriple : tripleSlash <:+: c :: d :: rest ↔
        (c = '/' ∧ d = '/' ∧ rest.head? = some '/') ∨ tripleSlash <:+: d :: rest := by
      rw [infix_cons_iff, tripleSlash_prefix_cons_iff, doubleSlash_prefix_cons_iff]
    rw [collapse_cons hslash, infix_cons_iff, ih, doubleSlash_prefix_cons_iff, head?_collapse, htriple]
    constructor
    · rintro (⟨hc, hd⟩ | hinfix)
      · exact absurd ⟨hc, some.inj hd⟩ hslash
      · exact .inr hinfix
    · rintro (⟨hc, hd, -⟩ | hinfix)
      · exact absurd ⟨hc, hd⟩ hslash
      · exact .inr hinfix

theorem collapse_collapse_iff : collapse (collapse s) = collapse s ↔ ¬ tripleSlash <:+: s := by
  rw [← doubleSlash_infix_collapse_iff]
  constructor
  · intro heq hinfix
    have := length_collapse_lt hinfix
    rw [heq] at this
    omega
  · exact collapse_eq_self

theorem collapse_of_findIdx? (rest : Text) :
    (rest.tails.findIdx? (fun t => doubleSlash.isPrefixOf t) = none → collapse rest = rest) ∧
      ∀ k, rest.tails.findIdx? (fun t => doubleSlash.isPrefixOf t) = some k →
        ∃ a b, rest = a ++ '/' :: '/' :: b ∧ a.length = k ∧ collapse rest = a ++ '/' :: collapse b := by
  induction rest using collapse_induction with
  | nil => exact ⟨fun _ => rfl, fun k h => by simp [doubleSlash] at h⟩
  | one c => exact ⟨fun _ => rfl, fun k h => by simp [doubleSlash, findIdx?_cons] at h⟩
  | slashes rest ih =>
    have hfirst : (('/' :: '/' :: rest).tails.findIdx? fun t => doubleSlash.isPrefixOf t) = some 0 := by
      simp [findIdx?_cons, doubleSlash]
    rw [hfirst]
    refine ⟨nofun, fun k h => ⟨[], rest, rfl, ?_, rfl⟩⟩
    exact some.inj h
  | other c d rest hslash ih =>
    have hnot : doubleSlash.isPrefixOf (c :: d :: rest) = false := by
      rw [Bool.eq_false_iff, ne_eq, isPrefixOf_iff_prefix, doubleSlash_prefix_cons_iff]
      exact fun h => hslash ⟨h.1, some.inj h.2⟩
    rw [tails_cons, findIdx?_cons, hnot, collapse_cons hslash]
    obtain ⟨hnone, hsome⟩ := ih
    constructor
    · intro h
      rw [hnone (by simpa using h)]
    · intro k h
      obtain ⟨j, hj, rfl⟩ := Option.map_eq_some_iff.mp h
      obtain ⟨a, b, heq, hlength, hcollapse⟩ := hsome j hj
      refine ⟨c :: a, b, ?_, by simp [hlength], ?_⟩
      · rw [heq]
        rfl
      · rw [hcollapse]
        rfl

theorem replaceLoop_eq (fuel : ℕ) (done rest : Text) (h : rest.length ≤ fuel) :
    replaceLoop fuel (done ++ rest) done.length = done ++ collapse rest := by
  induction fuel generalizing done rest with
  | zero =>
    obtain rfl : rest = [] := length_eq_zero_iff.mp (by omega)
    rfl
  | succ fuel ih =>
    obtain ⟨hnone, hsome⟩ := collapse_of_findIdx? rest
    rw [replaceLoop, findDoubleSlash, drop_left]
    cases hfind : rest.tails.findIdx? (fun t => doubleSlash.isPrefixOf t) with
    | none => exact congrArg (done ++ ·) (hnone hfind).symm
    | some k =>
      obtain ⟨a, b, rfl, rfl, hcollapse⟩ := hsome k hfind
      simp only [Option.map_some]
      -- The string up to the slash that is left has been done.
      have hstring : (done ++ (a ++ '/' :: '/' :: b)).take (done.length + a.length) ++
          '/' :: (done ++ (a ++ '/' :: '/' :: b)).drop (done.length + a.length + 2) =
          (done ++ (a ++ ['/'])) ++ b := by
        rw [Nat.add_assoc, take_length_add_append, drop_length_add_append, take_left, ← drop_drop, drop_left]
        simp
      have hlength : done.length + a.length + 1 = (done ++ (a ++ ['/'])).length := by
        simp [Nat.add_assoc]
      rw [hstring, hlength, ih, hcollapse]
      · simp
      · simp only [length_append, length_cons] at h
        omega

theorem correctedPath_eq : correctedPath path = collapse path :=
  replaceLoop_eq path.length [] path (Nat.le_refl _)

theorem collapse_append_slash (h : '/' ∉ a) : collapse (a ++ '/' :: t) =
      a ++ '/' :: collapse (if t.head? = some '/' then t.tail else t) := by
  induction a with
  | nil =>
    cases t with
    | nil => rfl
    | cons d t =>
      simp only [nil_append, collapse, head?_cons, tail_cons, Option.some.injEq, true_and]
      split <;> rfl
  | cons c a ih =>
    have hc : c ≠ '/' := fun he => h (he ▸ mem_cons_self)
    have hstep : ∀ s : Text, collapse (c :: s) = c :: collapse s := by
      intro s
      cases s with
      | nil => rfl
      | cons d s => exact collapse_cons (fun hslash => hc hslash.1) s
    rw [cons_append, hstep, ih fun hmem => h (mem_cons_of_mem _ hmem)]
    rfl

theorem components_collapse (s : Text) : components (collapse s) = components s := by
  induction hn : s.length using Nat.strong_induction_on generalizing s with
  | _ n ih =>
    by_cases hslash : '/' ∈ s
    · -- The names behind the first slash, or behind two, are kept by induction.
      obtain ⟨a, t, rfl, ha⟩ := eq_append_cons_of_mem hslash
      rw [length_append, length_cons] at hn
      rw [collapse_append_slash ha, components_append_slash, components_append_slash]
      congr 1
      split
      · rename_i hhead
        obtain ⟨u, rfl⟩ : ∃ u, t = '/' :: u := head?_eq_some_iff.mp hhead
        rw [length_cons] at hn
        rw [tail_cons, ih u.length (by omega) u rfl, components_slash_cons]
      · exact ih t.length (by omega) t rfl
    · rw [collapse_eq_self]
      rintro ⟨u, v, rfl⟩
      simp [doubleSlash] at hslash

end ShadPS4.FileSys
