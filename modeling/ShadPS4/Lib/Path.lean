import Mathlib.Data.List.Basic

/-!
# Paths of a file system

A model of `std::filesystem::path` with `/` as the only separator. A path is absolute or not and has elements; a
slash at the end is an empty last element, as in the iteration over a path.
-/

namespace ShadPS4

open List

/-- A string of the source, as its characters. -/
abbrev Text := List Char

instance : LawfulBEq Text := inferInstance

/-- The name of the parent directory. -/
def dotdot : Text := ['.', '.']

/-- The names in a string, between its slashes. -/
def components (s : Text) : List Text := (s.splitOn '/').filter (· ≠ [])

/-- A `std::filesystem::path`. -/
structure Path where
  absolute : Bool := false
  elements : List Text := []
deriving DecidableEq

namespace Path

def ofText (s : Text) : Path where
  absolute := s.head? = some '/'
  elements := components s ++
    if components s ≠ [] ∧ s.getLast? = some '/' then [[]] else []

variable (p : Path)

def empty : Bool := !p.absolute && p.elements.isEmpty

def withoutSlash : List Text :=
  if p.elements.getLast? = some [] then p.elements.dropLast else p.elements

/-- `path::operator/`: an absolute path replaces what it is joined to. -/
def append (p q : Path) : Path :=
  if q.absolute then q
  else { p with
    elements := p.withoutSlash ++
      if q.elements = [] ∧ p.elements ≠ [] then [[]] else q.elements }

def filename : Text := p.elements.getLast?.getD []

def ofName (name : Text) : Path := { elements := [name] }

def extensionOf (name : Text) : Text :=
  let tail := name.reverse.takeWhile (· ≠ '.')
  if name = ['.'] ∨ name = dotdot ∨ tail.length + 1 ≥ name.length then [] else '.' :: tail.reverse

def extension : Text := extensionOf p.filename

def withFilename (name : Text) : Path :=
  { p with elements := p.elements.dropLast ++ [name] }

/-- `path::replace_extension` without an argument: the extension is removed. -/
def removeExtension : Path :=
  p.withFilename (p.filename.take (p.filename.length - p.extension.length))

/-- `path::operator+=`: the string is put behind the last element. -/
def concat (suffix : Text) : Path := p.withFilename (p.filename ++ suffix)

/-- The elements that an iteration over the path gives. -/
def parts : List Text := if p.absolute then ['/'] :: p.elements else p.elements

/-- The names of the path: its elements without empty ones. -/
def names : List Text := p.elements.filter (· ≠ [])

/-- The path is the root, up to a function on names, followed by names that do not lead up. -/
def Under (fold : Text → Text) (root p : Path) : Prop :=
  p.absolute = root.absolute ∧
    ∃ rest, p.names.map fold = root.names.map fold ++ rest ∧ dotdot ∉ rest

end Path

variable {name s : Text} {p q : Path}

/-- A name: a string without slashes that is not empty and none of the two special ones. -/
def IsName (name : Text) : Prop := name ≠ [] ∧ '/' ∉ name ∧ name ≠ ['.'] ∧ name ≠ dotdot

@[simp] theorem components_nil : components [] = [] := rfl

theorem components_append_slash (s t : Text) : components (s ++ '/' :: t) = components s ++ components t := by
  unfold components
  rw [splitOn_append_cons_self, filter_append]

theorem components_slash_cons (t : Text) : components ('/' :: t) = components t :=
  components_append_slash [] t

theorem components_of_no_slash (hne : s ≠ []) (h : '/' ∉ s) : components s = [s] := by
  unfold components
  rw [splitOn_eq_singleton h]
  simp [hne]

theorem IsName.components (h : IsName name) : ShadPS4.components name = [name] :=
  components_of_no_slash h.1 h.2.1

theorem ne_nil_of_mem_components (h : name ∈ components s) : name ≠ [] := by
  simpa using (mem_filter.mp h).2

theorem not_mem_of_mem_splitOn {piece : Text} (h : piece ∈ s.splitOn '/') : '/' ∉ piece := by
  induction s generalizing piece with
  | nil =>
    rw [splitOn_nil, mem_singleton] at h
    simp [h]
  | cons c s ih =>
    rw [splitOn_cons_eq_if_modifyHead] at h
    cases hc : c == '/' with
    | true =>
      rw [hc, if_pos rfl] at h
      rcases mem_cons.mp h with rfl | h
      · simp
      · exact ih h
    | false =>
      rw [hc, if_neg (by decide)] at h
      obtain ⟨first, rest, hsplit⟩ := exists_cons_of_ne_nil (splitOn_ne_nil '/' s)
      rw [hsplit, modifyHead_cons] at h
      rcases mem_cons.mp h with rfl | h
      · intro hmem
        rcases mem_cons.mp hmem with heq | hmem
        · rw [← heq] at hc
          simp at hc
        · exact ih (by rw [hsplit]; exact mem_cons_self) hmem
      · exact ih (by rw [hsplit]; exact mem_cons_of_mem _ h)

theorem not_mem_of_mem_components (h : name ∈ components s) : '/' ∉ name := by
  exact not_mem_of_mem_splitOn (mem_filter.mp h).1

namespace Path

theorem names_ofText (s : Text) : (ofText s).names = components s := by
  have hall : (components s).filter (· ≠ []) = components s := by
    rw [filter_eq_self]
    intro name hmem
    simpa using ne_nil_of_mem_components hmem
  unfold names ofText
  rw [filter_append, hall]
  split <;> simp

theorem names_withoutSlash (p : Path) : p.withoutSlash.filter (· ≠ []) = p.names := by
  unfold withoutSlash names
  split
  · rename_i hlast
    conv_rhs => rw [← dropLast_append_getLast? [] hlast, filter_append]
    simp
  · rfl

theorem names_append (h : q.absolute = false) : (p.append q).names = p.names ++ q.names := by
  unfold append
  rw [if_neg (by rw [h]; decide)]
  show filter (· ≠ []) _ = _
  rw [filter_append, names_withoutSlash]
  split
  · rename_i hempty
    unfold names
    rw [hempty.1]
    rfl
  · rfl

theorem absolute_append (h : q.absolute = false) : (p.append q).absolute = p.absolute := by
  unfold append
  rw [if_neg (by rw [h]; decide)]

theorem under_append (fold : Text → Text) (p : Path) (h : q.absolute = false)
    (hup : dotdot ∉ q.names.map fold) : Under fold p (p.append q) := by
  refine ⟨absolute_append h, q.names.map fold, ?_, hup⟩
  rw [names_append h, map_append]

theorem under_refl (fold : Text → Text) (p : Path) : Under fold p p :=
  ⟨rfl, [], by simp, by simp⟩

/-- A path that is under a root is so up to a function, if no other name becomes the one that leads
up. -/
theorem Under.map {fold : Text → Text} {root : Path} (h : Under (fun name => name) root p)
    (hfold : ∀ name, fold name = dotdot → name = dotdot) : Under fold root p := by
  obtain ⟨habs, rest, hnames, hup⟩ := h
  rw [map_id', map_id'] at hnames
  refine ⟨habs, rest.map fold, by rw [hnames, map_append], fun hmem => ?_⟩
  obtain ⟨name, hname, heq⟩ := mem_map.mp hmem
  rw [hfold name heq] at hname
  exact hup hname

theorem filename_append_ofName (p : Path) (name : Text) : (p.append (ofName name)).filename = name := by
  unfold append filename ofName
  simp

end Path

end ShadPS4
