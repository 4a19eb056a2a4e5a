import ShadPS4.FileSys.Overlay

/-!
# Host paths

A mount of the host is a `HostFsBackend`, which joins a relative path to its root.
-/

namespace ShadPS4.FileSys

/-- What the file system of the host answers during a call. -/
structure HostFs where
  exists_ : Path → Bool
  isDirectory : Path → Bool
  isRegularFile : Path → Bool
  isOpen : Path → FileAccessMode → Bool
  fileSize : Path → ℕ
  /-- the file names that `std::filesystem::directory_iterator` gives; it can fail -/
  list : Path → Option (List Text)
  /-- the contents of a `.zar` archive, if it is one; a file is opened without a host path -/
  archive : Path → Option (IBackend Id (Option Path))

structure HostFsBackend where
  m_root : Path
  m_read_only : Bool
  m_case_cache : List (Text × Path) := []

/-- A backend of a mount: the index of a backend of the host, or an archive. -/
inductive Backend where
  | host (id : ℕ)
  | archive (contents : IBackend Id (Option Path))

/-- The backends of the host, and the paths that they gave. -/
structure Store where
  objects : List HostFsBackend := []
  resolved : List Path := []

/-! ## `HostFsBackend` -/

/-- The loop of `ResolveCaseInsensitive`: `current` is the path found for the names in `lowered`. -/
def caseLoop (fs : HostFs) : List Text → Path → Text → List (Text × Path) → Option Path × List (Text × Path)
  | [], current, _, cache => (some current, cache)
  | part :: rest, current, lowered, cache =>
    if part = [] ∨ part = ['.'] then caseLoop fs rest current lowered cache
    else
      let lowered := (if lowered = [] then [] else lowered ++ ['/']) ++ toLower part
      match cache.lookup lowered with
      | some found => caseLoop fs rest found lowered cache
      | none =>
        let candidate := current.append (.ofText part)
        if fs.exists_ candidate then
          caseLoop fs rest candidate lowered (cache ++ [(lowered, candidate)])
        else
          match ((fs.list current).getD []).find? fun name => toLower name = toLower part with
          | some name =>
            let found := current.append (.ofName name)
            caseLoop fs rest found lowered (cache ++ [(lowered, found)])
          | none => (none, cache)

/-- `HostFsBackend::Resolve` with `ResolveCaseInsensitive`. -/
def HostFsBackend.resolve (needs_case_insensitive_search : Bool) (fs : HostFs)
    (backend : HostFsBackend) (rel_path : Text) : Path × HostFsBackend :=
  if rel_path = [] then (backend.m_root, backend)
  else
    let direct := backend.m_root.append (.ofText rel_path)
    if needs_case_insensitive_search = false ∨ fs.exists_ direct then (direct, backend)
    else
      let (found, cache) :=
        caseLoop fs (Path.ofText rel_path).parts backend.m_root [] backend.m_case_cache
      (found.getD direct, { backend with m_case_cache := cache })

section Host

variable (needs_case_insensitive_search : Bool) (fs : HostFs)

/-- `Resolve` of the object with an index. -/
def resolveObject (id : ℕ) (rel_path : Text) : StateM Store Path := fun store =>
  match store.objects[id]? with
  | none => ({}, store)
  | some backend =>
    let (path, backend) := backend.resolve needs_case_insensitive_search fs rel_path
    (path, { objects := store.objects.set id backend, resolved := store.resolved ++ [path] })

/-- The entries that `HostDirectory` gives. -/
def hostEntries (path : Path) : List DirEntry :=
  ((fs.list path).getD []).map fun name =>
    let entry := path.append (.ofName name)
    { name
      is_directory := fs.isDirectory entry
      size := if fs.isDirectory entry then 0 else fs.fileSize entry }

/-- The operations of `HostFsBackend`. -/
def hostBackend (id : ℕ) (backend : HostFsBackend) : IBackend (StateM Store) (Option Path) where
  exists_ rel_path := do
    let path ← resolveObject needs_case_insensitive_search fs id rel_path
    pure (fs.exists_ path)
  isDirectory rel_path := do
    let path ← resolveObject needs_case_insensitive_search fs id rel_path
    pure (fs.isDirectory path)
  open_ rel_path mode :=
    if mode ≠ .read ∧ backend.m_read_only then pure none
    else do
      let path ← resolveObject needs_case_insensitive_search fs id rel_path
      pure (if mode ≠ .create ∧ fs.isRegularFile path = false then none
        else if fs.isOpen path mode then some (some path) else none)
  openDir rel_path := do
    let path ← resolveObject needs_case_insensitive_search fs id rel_path
    pure (if fs.isDirectory path then some (hostEntries fs path) else none)
  rootHostPath := some backend.m_root

/-- The operations of `ZArchiveBackend`: they do not touch the store. -/
def archiveBackend (contents : IBackend Id (Option Path)) : IBackend (StateM Store) (Option Path) where
  exists_ rel_path := pure (contents.exists_ rel_path)
  isDirectory rel_path := pure (contents.isDirectory rel_path)
  open_ rel_path mode := pure (contents.open_ rel_path mode)
  openDir rel_path := pure (contents.openDir rel_path)
  rootHostPath := none

def Backend.operations (objects : List HostFsBackend) : Backend → IBackend (StateM Store) (Option Path)
  | .host id => hostBackend needs_case_insensitive_search fs id ((objects[id]?).getD ⟨{}, true, []⟩)
  | .archive contents => archiveBackend contents

def MntPair.operations (objects : List HostFsBackend) (pair : MntPair Backend) :
    MntPair (IBackend (StateM Store) (Option Path)) where
  host_path := pair.host_path
  mount := pair.mount
  read_only := pair.read_only
  backends := pair.backends.map (Backend.operations needs_case_insensitive_search fs objects)

end Host

/-! ## `GetHostPath` -/

def overlayPath (base : Path) (suffix : Text) : Path :=
  (if base.extension = ".zar".toList then base.removeExtension else base).concat suffix

def elementPath (element : Text) : Path := { elements := if element = [] then [] else [element] }

/-- The first loop of `search`: from a path up to one that exists or that is in the cache. -/
def climb (fs : HostFs) (path_cache : List (Path × Path)) (absolute : Bool) :
    List Text → List Text → Option (Path × List Text)
  | [], path_parts =>
    if absolute = false then some ({}, path_parts)
    else if fs.exists_ { absolute := true } then some ({ absolute := true }, path_parts)
    else match path_cache.lookup { absolute := true } with
      | some found => some (found, path_parts)
      | none => none
  | element :: rest, path_parts =>
    let current_path : Path := { absolute, elements := (element :: rest).reverse }
    if fs.exists_ current_path then some (current_path, path_parts)
    else match path_cache.lookup current_path with
      | some found => some (found, path_parts)
      | none => climb fs path_cache absolute rest (element :: path_parts)

/-- The second loop of `search`: down again, with names as they are in their directories. -/
def descend (fs : HostFs) : List Text → Path → Path → List (Path × Path) → Option (Option Path) × List (Path × Path)
  | [], current_path, _, path_cache => (some (some current_path), path_cache)
  | part :: rest, current_path, guest_path, path_cache =>
    let guest := guest_path.append (elementPath part)
    if fs.exists_ (current_path.append (elementPath part)) then
      let current := current_path.append (elementPath part)
      descend fs rest current guest ((guest, current) :: path_cache)
    else match fs.list current_path with
      | none => (none, path_cache)
      | some names =>
        match names.find? fun name => toLower name = toLower part with
        | none => (some none, path_cache)
        | some name =>
          let current := current_path.append (elementPath name)
          descend fs rest current guest ((guest, current) :: path_cache)

variable (fs : HostFs)

/-- `search` of `GetHostPath`. -/
def search (host_path : Path) (path_cache : List (Path × Path)) :
    Option (Option Path) × List (Path × Path) :=
  match climb fs path_cache host_path.absolute host_path.elements.reverse [] with
  | none => (none, path_cache)
  | some (current_path, path_parts) =>
    if current_path.empty then (some (some current_path), path_cache)
    else descend fs path_parts current_path current_path path_cache

/-- Searches for the paths in turn; the first that is found is the result. -/
def searchAll (fs : HostFs) (otherwise : Path) : List Path → List (Path × Path) → Option Path × List (Path × Path)
  | [], path_cache => (some otherwise, path_cache)
  | path :: rest, path_cache =>
    match search fs path path_cache with
    | (none, path_cache) => (none, path_cache)
    | (some (some found), path_cache) => (some found, path_cache)
    | (some none, path_cache) => searchAll fs otherwise rest path_cache

inductive HostPathType where
  | default_
  | base
  | patch
  | mod
deriving DecidableEq

/-- What `GetHostPath` leaves: the path that it returns, if it does, the read-only flag that it stores,
and its cache. -/
structure HostPathResult where
  path : Option Path
  /-- the flag, if a mount was found -/
  is_read_only : Option Bool := none
  path_cache : List (Path × Path)

/-- The updates of a mount are next to it, in one of two places. -/
def patchPath (host_path : Path) : Path :=
  if fs.exists_ (overlayPath host_path "-UPDATE".toList) then
    overlayPath host_path "-UPDATE".toList
  else overlayPath host_path "-patch".toList

/-- The path is below one of the two mount points with overlays. -/
def startsWithApp (corrected_path : Text) : Bool :=
  "/app0".toList.isPrefixOf corrected_path || "/hostapp".toList.isPrefixOf corrected_path

def hostBacked (mount : MntPair Backend) : Bool :=
  match mount.backends.getLast? with
  | none => true
  | some (.host _) => true
  | some (.archive _) => false

/-- The part of `GetHostPath` behind the mount point. -/
def hostPathIn (needs_case_insensitive_search : Bool) (fs : HostFs) (ignore_game_patches : Bool)
    (mount : MntPair Backend) (path_cache : List (Path × Path)) (corrected_path : Text)
    (path_type : HostPathType) : Option Path × List (Path × Path) :=
  let rel_path := Path.ofText (corrected_path.drop (mount.mount.length + 1))
  let host_path := mount.host_path.append rel_path
  let patch_path := (patchPath fs mount.host_path).append rel_path
  let mods_path := (overlayPath mount.host_path "-mods".toList).append rel_path
  if path_type = .mod then (some mods_path, path_cache)
  else if path_type = .patch then (some patch_path, path_cache)
  else if startsWithApp corrected_path ∧ path_type ≠ .base ∧ fs.exists_ mods_path then
    (some mods_path, path_cache)
  else if startsWithApp corrected_path ∧ path_type ≠ .base ∧ ignore_game_patches = false ∧
      fs.exists_ patch_path then
    (some patch_path, path_cache)
  else if needs_case_insensitive_search = false ∨ hostBacked mount = false then
    (some host_path, path_cache)
  else
    searchAll fs host_path
      ((if startsWithApp corrected_path ∧ path_type ≠ .base then [mods_path] else []) ++
        (if path_type ≠ .base ∧ ignore_game_patches = false then [patch_path] else []) ++ [host_path])
      path_cache

def getHostPath (needs_case_insensitive_search : Bool) (fs : HostFs) (ignore_game_patches : Bool)
    (m_mnt_pairs : List (MntPair Backend)) (path_cache : List (Path × Path)) (path : Text)
    (path_type : HostPathType) : HostPathResult :=
  let corrected_path := correctedPath path
  if path.length > 255 then { path := some {}, path_cache }
  else match getMount m_mnt_pairs corrected_path with
    | none => { path := some {}, path_cache }
    | some mount =>
      if removeTrailingSlashes corrected_path = mount.mount then
        { path := some (match path_type with
            | .mod => overlayPath mount.host_path "-mods".toList
            | .patch => patchPath fs mount.host_path
            | _ => mount.host_path)
          is_read_only := some mount.read_only
          path_cache }
      else if mount.mount.length + 1 > corrected_path.length then
        { path := none, is_read_only := some mount.read_only, path_cache }
      else
        let (result, path_cache) := hostPathIn needs_case_insensitive_search fs ignore_game_patches
          mount path_cache corrected_path path_type
        { path := result, is_read_only := some mount.read_only, path_cache }

def tryZar (zar : Path) : Option Backend :=
  if fs.isRegularFile zar ∧ zar.extension = ".zar".toList then (fs.archive zar).map .archive else none

/-- `make_backend` of `Mount`: a new object for a folder, or an archive. -/
def makeBackend (objects : List HostFsBackend) (path : Path) (read_only : Bool) :
    Option (Backend × List HostFsBackend) :=
  if fs.isDirectory path then
    some (.host objects.length, objects ++ [{ m_root := path, m_read_only := read_only }])
  else match tryZar fs path with
    | some backend => some (backend, objects)
    | none => (tryZar fs (path.concat ".zar".toList)).map fun backend => (backend, objects)

def probeOverlay (fs : HostFs) (host_folder : Path) (objects : List HostFsBackend) :
    List Text → List Backend × List HostFsBackend
  | [] => ([], objects)
  | suffix :: rest =>
    match makeBackend fs objects (overlayPath host_folder suffix) true with
    | some (backend, objects) => ([backend], objects)
    | none => probeOverlay fs host_folder objects rest

def makeOverlays (ignore_game_patches : Bool) (host_folder : Path)
    (guest_folder_sanitized : Text) (objects : List HostFsBackend) : List Backend × List HostFsBackend :=
  if guest_folder_sanitized = "/app0".toList ∨ guest_folder_sanitized = "/hostapp".toList then
    let (mods, objects) := probeOverlay fs host_folder objects ["-mods".toList]
    let (patch, objects) := if ignore_game_patches then ([], objects)
      else probeOverlay fs host_folder objects ["-UPDATE".toList, "-patch".toList]
    (mods ++ patch, objects)
  else ([], objects)

/-- The members of `MntPoints`, and the backends of the host. -/
structure MntState where
  m_mnt_pairs : List (MntPair Backend) := []
  path_cache : List (Path × Path) := []
  objects : List HostFsBackend := []

/-- `MntPoints::Mount`: an assertion fails if there is no base. -/
def mountFolder (ignore_game_patches : Bool) (state : MntState) (host_folder : Path)
    (guest_folder : Text) (read_only : Bool) : Option MntState :=
  let guest_folder_sanitized := removeTrailingSlashes guest_folder
  let (overlays, objects) :=
    makeOverlays fs ignore_game_patches host_folder guest_folder_sanitized state.objects
  match makeBackend fs objects host_folder read_only with
  | none => none
  | some (base, objects) => some { state with
      m_mnt_pairs := state.m_mnt_pairs ++
        [{ host_path := host_folder, mount := guest_folder_sanitized, read_only,
           backends := overlays ++ [base] }]
      objects }

def unmount (state : MntState) (guest_folder : Text) : MntState :=
  { state with
    m_mnt_pairs := state.m_mnt_pairs.filter fun pair =>
      pair.mount ≠ removeTrailingSlashes guest_folder }

end ShadPS4.FileSys
