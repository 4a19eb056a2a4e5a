import Mathlib.Data.List.Infix
import ShadPS4.Lib.Bytes

/-!
# What lies where in a byte string

`At bytes offset chunk` says that a chunk of bytes lies at an offset.
-/

namespace ShadPS4

open List

variable {chunk' : List UInt8}
variable {R : Type} {bytes chunk more : List UInt8} {offset : ℕ}

def At (bytes : List UInt8) (offset : ℕ) (chunk : List UInt8) : Prop := chunk <+: bytes.drop offset

theorem At.of_eq (h : chunk = bytes) : At bytes 0 chunk := by
  subst h
  exact prefix_rfl

theorem At.intro (front chunk back : List UInt8) : At (front ++ (chunk ++ back)) front.length chunk := by
  unfold At
  rw [drop_left]
  exact prefix_append chunk back

theorem At.append_left (h : At bytes offset chunk) (front : List UInt8) :
    At (front ++ bytes) (front.length + offset) chunk := by
  unfold At at h ⊢
  rwa [← drop_drop, drop_left]

theorem At.left (h : At bytes offset (chunk ++ chunk')) : At bytes offset chunk :=
  (prefix_append _ _).trans h

theorem At.right (h : At bytes offset (chunk ++ chunk')) : At bytes (offset + chunk.length) chunk' := by
  unfold At at h ⊢
  obtain ⟨rest, hrest⟩ := h
  rw [← drop_drop, ← hrest, append_assoc, drop_left]
  exact prefix_append _ _

theorem At.trans {o : ℕ} (h : At bytes offset chunk) (h' : At chunk o chunk') : At bytes (offset + o) chunk' := by
  unfold At at h h' ⊢
  rw [← drop_drop]
  exact h'.trans (h.drop o)

theorem At.getElem? (h : At bytes offset chunk) {i : ℕ} (hi : i < chunk.length) : bytes[offset + i]? = chunk[i]? := by
  obtain ⟨rest, hrest⟩ := h
  rw [← getElem?_drop, ← hrest, getElem?_append_left hi]

theorem At.length_le (h : At bytes offset chunk) (hne : chunk ≠ []) : offset + chunk.length ≤ bytes.length := by
  have hlength := List.IsPrefix.length_le h
  have hpos := length_pos_iff.mpr hne
  rw [length_drop] at hlength
  omega

theorem At.flatMap {α : Type} {f : α → List UInt8} {size : ℕ} {xs : List α}
    (hsize : ∀ x, (f x).length = size) {i : ℕ} {x : α} (hx : xs[i]? = some x) :
    At (xs.flatMap f) (size * i) (f x) := by
  induction xs generalizing i with
  | nil => cases hx
  | cons y ys ih =>
    cases i with
    | zero =>
      obtain rfl := Option.some.inj hx
      exact prefix_append _ _
    | succ i =>
      have hrest := (ih hx).append_left (f y)
      rwa [hsize, show size + size * i = size * (i + 1) by rw [Nat.mul_succ, Nat.add_comm]] at hrest

/-- The low bytes of a word, from the low byte up. -/
def leBytes (value count : ℕ) : List UInt8 := (range count).map (leByte value)

@[simp] theorem length_leBytes (value count : ℕ) : (leBytes value count).length = count := by
  simp [leBytes]

theorem At.read {value count : ℕ} (h : At bytes offset (leBytes value count)) (hcount : 0 < count) :
    read (R := R) bytes offset count = .ok (value % 2^(8 * count)) := by
  have hne : leBytes value count ≠ [] := by
    apply length_pos_iff.mp
    rwa [length_leBytes]
  have hin := h.length_le hne
  rw [length_leBytes] at hin
  rw [read_eq hin, leRead_of_leByte]
  intro i hi
  rw [h.getElem? (by rwa [length_leBytes])]
  unfold leBytes
  rw [getElem?_map, getElem?_range hi]
  rfl

/-- The block of `count` bytes at `offset`. -/
def readBlock (bytes : List UInt8) (offset count : ℕ) : Except (Stop R) (List UInt8) :=
  (range count).mapM fun i => fetch bytes (offset + i)

theorem At.readBlock (h : At bytes offset chunk) : readBlock (R := R) bytes offset chunk.length = .ok chunk := by
  apply mapM_eq_ok.mpr
  rw [forall₂_iff_get]
  refine ⟨length_range, fun i hi hi' => ?_⟩
  rw [get_eq_getElem, getElem_range, get_eq_getElem]
  unfold fetch
  rw [h.getElem? hi', getElem?_eq_getElem hi']

/-- The string that a list of bytes is read as: what comes before its first zero. -/
def cString (bytes : List UInt8) : List UInt8 := bytes.takeWhile (· ≠ 0)

/-- The string at an offset, whose terminator must lie in the byte string. -/
def readString (bytes : List UInt8) (offset : ℕ) : Except (Stop R) (List UInt8) :=
  if 0 ∈ bytes.drop offset then .ok (cString (bytes.drop offset)) else .error .fault

theorem cString_of_not_mem (h : 0 ∉ bytes) : cString bytes = bytes := by
  induction bytes with
  | nil => rfl
  | cons byte rest ih =>
    rw [mem_cons, not_or] at h
    unfold cString at ih ⊢
    rw [takeWhile_cons_of_pos (by simpa using Ne.symm h.1), ih h.2]

theorem cString_append (h : 0 ∈ bytes) : cString (bytes ++ more) = cString bytes := by
  induction bytes with
  | nil => exact absurd h not_mem_nil
  | cons byte rest ih =>
    unfold cString at ih ⊢
    by_cases hbyte : byte = 0
    · subst hbyte
      rfl
    · have hrest : 0 ∈ rest := (mem_cons.mp h).resolve_left (Ne.symm hbyte)
      rw [cons_append, takeWhile_cons_of_pos (by simpa using hbyte),
        takeWhile_cons_of_pos (by simpa using hbyte), ih hrest]

theorem cString_concat (bytes : List UInt8) : cString (bytes ++ [0]) = cString bytes := by
  induction bytes with
  | nil => rfl
  | cons byte rest ih =>
    unfold cString at ih ⊢
    by_cases hbyte : byte = 0
    · subst hbyte
      rfl
    · rw [cons_append, takeWhile_cons_of_pos (by simpa using hbyte),
        takeWhile_cons_of_pos (by simpa using hbyte), ih]

theorem At.readString (h : At bytes offset chunk) (hzero : 0 ∈ chunk) :
    readString (R := R) bytes offset = .ok (cString chunk) := by
  obtain ⟨rest, hrest⟩ := h
  unfold ShadPS4.readString
  rw [← hrest, if_pos (mem_append_left _ hzero), cString_append hzero]

end ShadPS4
