import ShadPS4.FileSys.GuestPath

/-!
# The overlay of a mount

A mount has a stack of backends: overlays first, and the base at the end. `MntPoints` looks a guest path up in the
mount table and asks the backends of the mount about the rest of the path.
-/

namespace ShadPS4.FileSys

inductive FileAccessMode where
  | read
  | write
  | readWrite
  | append
  | readAppend
  | create
deriving DecidableEq

structure DirEntry where
  name : Text
  is_directory : Bool := false
  size : ℕ := 0

/-- `IBackend`: what a layer answers about paths relative to its mount. -/
structure IBackend (m : Type → Type) (F : Type) where
  exists_ : Text → m Bool
  isDirectory : Text → m Bool
  open_ : Text → FileAccessMode → m (Option F)
  openDir : Text → m (Option (List DirEntry))
  rootHostPath : Option Path

structure MntPair (B : Type) where
  host_path : Path
  mount : Text
  read_only : Bool
  backends : List B

def getMount {B : Type} (m_mnt_pairs : List (MntPair B)) (guest_path : Text) : Option (MntPair B) :=
  m_mnt_pairs.find? fun mount =>
    guest_path = mount.mount ∨ (mount.mount ++ ['/']).isPrefixOf guest_path

def relativeToMount {B : Type} (corrected : Text) (mount : MntPair B) : Text :=
  if corrected.length ≤ mount.mount.length + 1 then [] else corrected.drop (mount.mount.length + 1)

/-- The mount of a guest path that has a backend, and the corrected path. -/
def locate {B : Type} (m_mnt_pairs : List (MntPair B)) (guest_path : Text) : Option (MntPair B × Text) :=
  match sanitizeGuestPath guest_path with
  | none => none
  | some corrected =>
    match getMount m_mnt_pairs corrected with
    | none => none
    | some mount => if mount.backends = [] then none else some (mount, corrected)

def entryRel (rel leaf : Text) : Text := if rel = [] then leaf else rel ++ '/' :: leaf

theorem getMount_spec (h : getMount m_mnt_pairs path = some mount) :
    mount ∈ m_mnt_pairs ∧ (path = mount.mount ∨ ∃ rest, path = mount.mount ++ '/' :: rest) := by
  refine ⟨List.mem_of_find?_eq_some h, ?_⟩
  have hfound := List.find?_some h
  simp only [decide_eq_true_eq, List.isPrefixOf_iff_prefix] at hfound
  rcases hfound with heq | ⟨rest, hrest⟩
  · exact .inl heq
  · exact .inr ⟨rest, by rw [← hrest, List.append_assoc]; rfl⟩

theorem relativeToMount_append (mount : MntPair B) (rest : Text) :
    relativeToMount (mount.mount ++ '/' :: rest) mount = rest := by
  have hdrop : (mount.mount ++ '/' :: rest).drop (mount.mount.length + 1) = rest := by
    rw [← List.drop_drop, List.drop_left]
    rfl
  unfold relativeToMount
  split
  · rename_i hle
    rw [List.length_append, List.length_cons] at hle
    exact (List.length_eq_zero_iff.mp (by omega)).symm
  · exact hdrop

theorem components_of_getMount (h : getMount m_mnt_pairs path = some mount) :
    components path = components mount.mount ++ components (relativeToMount path mount) := by
  rcases (getMount_spec h).2 with rfl | ⟨rest, rfl⟩
  · rw [relativeToMount, if_pos (Nat.le_succ _), components_nil, List.append_nil]
  · rw [relativeToMount_append, components_append_slash]

theorem components_entryRel (rel : Text) (h : IsName name) :
    components (entryRel rel name) = components rel ++ [name] := by
  unfold entryRel
  split
  · rename_i hrel
    rw [hrel, h.components]
    rfl
  · rw [components_append_slash, h.components]

theorem locate_spec (h : locate m_mnt_pairs guest_path = some (mount, corrected)) :
    guest_path.length ≤ 255 ∧ corrected = collapse guest_path ∧
      getMount m_mnt_pairs corrected = some mount ∧ mount.backends ≠ [] := by
  unfold locate sanitizeGuestPath at h
  by_cases hlength : guest_path.length > 255
  · rw [if_pos hlength] at h
    cases h
  · rw [if_neg hlength, correctedPath_eq] at h
    simp only at h
    cases hmount : getMount m_mnt_pairs (collapse guest_path) with
    | none => simp [hmount] at h
    | some found =>
      rw [hmount] at h
      obtain ⟨hne, heq⟩ := Option.ite_none_left_eq_some.mp h
      obtain ⟨rfl, rfl⟩ := Prod.mk.inj (Option.some.inj heq)
      exact ⟨by omega, rfl, hmount, hne⟩

/-! ## The loops over the backends -/

/-- The key by which names are compared where directories are merged. -/
def emitKey (needs_case_insensitive_search : Bool) (name : Text) : Text :=
  if needs_case_insensitive_search then toLower name else name

section Stack

variable {m : Type → Type} [Monad m] {F : Type}

/-- The loop of `MntPoints::Exists`. -/
def existsIn (rel : Text) : List (IBackend m F) → m Bool
  | [] => pure false
  | backend :: rest => do
    if ← backend.exists_ rel then pure true else existsIn rel rest

/-- The loop of `MntPoints::IsDirectory`. -/
def isDirectoryIn (rel : Text) : List (IBackend m F) → m Bool
  | [] => pure false
  | backend :: rest => do
    if ← backend.exists_ rel then backend.isDirectory rel else isDirectoryIn rel rest

def existsAs (directory : Bool) (rel : Text) (backend : IBackend m F) : m Bool := do
  if ← backend.exists_ rel then
    let is_dir ← backend.isDirectory rel
    pure (is_dir == directory)
  else pure false

/-- The loop of `MntPoints::Open`. -/
def openIn (rel : Text) (mode : FileAccessMode) : List (IBackend m F) → m (Option F)
  | [] => pure none
  | backend :: rest => do
    if ← existsAs false rel backend then backend.open_ rel mode else openIn rel mode rest

/-- The variables of the loop of `MntPoints::OpenDir`. -/
structure Merge where
  found : Bool := false
  seen : List Text := []
  entries : List DirEntry := []

variable (needs_case_insensitive_search : Bool)

/-- The loop over the entries of one directory. -/
def mergeEntry (state : Merge) (entry : DirEntry) : Merge :=
  let key := emitKey needs_case_insensitive_search entry.name
  if key ∈ state.seen then state
  else { state with seen := state.seen ++ [key], entries := state.entries ++ [entry] }

/-- The loop body of `MntPoints::OpenDir`. -/
def mergeBackend (rel : Text) (state : Merge)
    (backend : IBackend m F) : m Merge := do
  if ← existsAs true rel backend then
    match ← backend.openDir rel with
    | none => pure { state with found := true }
    | some entries =>
      pure (entries.foldl (mergeEntry needs_case_insensitive_search) { state with found := true })
  else pure state

/-- The loop of `MntPoints::OpenDir`. -/
def openDirIn (rel : Text) (backends : List (IBackend m F)) :
    m (Option (List DirEntry)) := do
  let state ← backends.foldlM (mergeBackend needs_case_insensitive_search rel) {}
  pure (if state.found then some state.entries else none)

/-- `resolve` of `MntPoints::IterateDirectory`: the host path of an entry, and whether it is a
directory. -/
def resolveLeaf (base_host : Path) (rel leaf : Text) : List (IBackend m F) → m (Option (Path × Bool))
  | [] => pure none
  | backend :: rest => do
    if ← backend.exists_ (entryRel rel leaf) then
      let is_dir ← backend.isDirectory (entryRel rel leaf)
      let host := match backend.rootHostPath with
        | some root =>
          if rel = [] then root.append (.ofText leaf)
          else (root.append (.ofText rel)).append (.ofText leaf)
        | none => base_host.append (.ofText leaf)
      pure (some (host, is_dir))
    else resolveLeaf base_host rel leaf rest

/-- The variables of `MntPoints::IterateDirectory`. -/
structure Iteration where
  emitted : List Text := []
  calls : List (Path × Bool)

def emitEntry
    (resolve : Text → m (Option (Path × Bool))) (state : Iteration) (entry : DirEntry) : m Iteration := do
  match ← resolve entry.name with
  | none => pure state
  | some hit => pure {
      emitted := state.emitted ++ [emitKey needs_case_insensitive_search entry.name]
      calls := state.calls ++ [(hit.1, !hit.2)] }

/-- An entry of an overlay is reported, unless one with its key was. -/
def emitNewEntry
    (resolve : Text → m (Option (Path × Bool))) (state : Iteration) (entry : DirEntry) : m Iteration :=
  if emitKey needs_case_insensitive_search entry.name ∈ state.emitted then pure state
  else emitEntry needs_case_insensitive_search resolve state entry

/-- The directory of a backend is reported with a loop body. -/
def emitDirectory (rel : Text) (body : Iteration → DirEntry → m Iteration) (state : Iteration)
    (backend : IBackend m F) : m Iteration := do
  match ← backend.openDir rel with
  | none => pure state
  | some entries => entries.foldlM body state

/-- `base_host` of `MntPoints::IterateDirectory`. -/
def baseHost (corrected rel : Text) (base_backend : IBackend m F) : Path :=
  match base_backend.rootHostPath with
  | some root => if rel = [] then root else root.append (.ofText rel)
  | none => .ofText corrected

/-- `MntPoints::IterateDirectory` for a mount, as the calls of the callback. -/
def iterateIn (corrected rel : Text)
    (backends : List (IBackend m F)) : m (List (Path × Bool)) :=
  match backends.getLast? with
  | none => pure []
  | some base_backend => do
    let base_host := baseHost corrected rel base_backend
    let resolve := fun leaf => resolveLeaf base_host rel leaf backends
    let state : Iteration := {
      calls := [(base_host.append (.ofName ['.']), false), (base_host.append (.ofName dotdot), false)] }
    let state ← emitDirectory rel (emitEntry needs_case_insensitive_search resolve) state base_backend
    let state ← backends.dropLast.reverse.foldlM
      (emitDirectory rel (emitNewEntry needs_case_insensitive_search resolve)) state
    pure state.calls

namespace MntPoints

variable (m_mnt_pairs : List (MntPair (IBackend m F)))

def exists_ (guest_path : Text) : m Bool :=
  match locate m_mnt_pairs guest_path with
  | none => pure false
  | some (mount, corrected) => existsIn (relativeToMount corrected mount) mount.backends

def isDirectory (guest_path : Text) : m Bool :=
  match locate m_mnt_pairs guest_path with
  | none => pure false
  | some (mount, corrected) => isDirectoryIn (relativeToMount corrected mount) mount.backends

def open_ (guest_path : Text) (mode : FileAccessMode) : m (Option F) :=
  match locate m_mnt_pairs guest_path with
  | none => pure none
  | some (mount, corrected) =>
    if mode ≠ .read ∧ mount.read_only then pure none
    else if mode = .create then
      match mount.backends.getLast? with
      | none => pure none
      | some base => base.open_ (relativeToMount corrected mount) mode
    else openIn (relativeToMount corrected mount) mode mount.backends

/-- `MntPoints::OpenDir`, as the entries of the merged directory. -/
def openDir (needs_case_insensitive_search : Bool) (guest_path : Text) : m (Option (List DirEntry)) :=
  match locate m_mnt_pairs guest_path with
  | none => pure none
  | some (mount, corrected) =>
    openDirIn needs_case_insensitive_search (relativeToMount corrected mount) mount.backends

/-- `MntPoints::IterateDirectory`, as the calls of the callback. -/
def iterateDirectory (needs_case_insensitive_search : Bool) (guest_directory : Text) : m (List (Path × Bool)) :=
  match locate m_mnt_pairs guest_directory with
  | none => pure []
  | some (mount, corrected) =>
    iterateIn needs_case_insensitive_search corrected (relativeToMount corrected mount)
      mount.backends

end MntPoints

end Stack

end ShadPS4.FileSys
