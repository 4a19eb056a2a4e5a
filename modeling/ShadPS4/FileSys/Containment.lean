import ShadPS4.FileSys.HostFsSpec

/-!
# Host paths stay under their mount

`MntState.step` is a call on the mount table, with whatever the file system of the host answers during it, and
`MntState.Reachable` are the states of all runs.
-/

namespace ShadPS4.FileSys

open List
open Option (some.inj)

variable {host_folder root : Path} {ignore_game_patches : Bool}

/-! ## Calls -/

/-- What a call depends on besides its arguments. -/
structure CallEnv where
  fs : HostFs
  ignore_game_patches : Bool

/-- A question about a guest path. -/
inductive Query where
  | getHostPath (path_type : HostPathType)
  | exists_
  | isDirectory
  | open_ (mode : FileAccessMode)
  | openDir

inductive Call where
  | mount (host_folder : Path) (guest_folder : Text) (read_only : Bool)
  | unmount (guest_folder : Text)
  | unmountAll
  | query (query : Query) (guest_path : Text)
  | iterateDirectory (guest_directory : Text)

section Calls

variable (needs_case_insensitive_search : Bool) (env : CallEnv) (state : MntState)

/-- A computation with the backends of the mounts: the state behind it and the paths that were
resolved. -/
def withBackends {α : Type} (x : List (MntPair (IBackend (StateM Store) (Option Path))) → StateM Store α) :
    MntState × List Path :=
  let store := (x (state.m_mnt_pairs.map
    (MntPair.operations needs_case_insensitive_search env.fs state.objects))
    { objects := state.objects }).2
  ({ state with objects := store.objects }, store.resolved)

/-- A question: the state behind it and the host paths that it gave. -/
def answer (guest_path : Text) : Query → MntState × List Path
  | .getHostPath path_type =>
    let result := getHostPath needs_case_insensitive_search env.fs env.ignore_game_patches
      state.m_mnt_pairs state.path_cache guest_path path_type
    ({ state with path_cache := result.path_cache }, result.path.toList)
  | .exists_ =>
    withBackends needs_case_insensitive_search env state fun pairs =>
      MntPoints.exists_ pairs guest_path
  | .isDirectory =>
    withBackends needs_case_insensitive_search env state fun pairs =>
      MntPoints.isDirectory pairs guest_path
  | .open_ mode =>
    withBackends needs_case_insensitive_search env state fun pairs =>
      MntPoints.open_ pairs guest_path mode
  | .openDir =>
    withBackends needs_case_insensitive_search env state fun pairs =>
      MntPoints.openDir pairs needs_case_insensitive_search guest_path

/-- The state behind a call; there is none if an assertion fails. -/
def MntState.step : Call → Option MntState
  | .mount host_folder guest_folder read_only =>
    mountFolder env.fs env.ignore_game_patches state host_folder guest_folder read_only
  | .unmount guest_folder => some (FileSys.unmount state guest_folder)
  | .unmountAll => some { state with m_mnt_pairs := [] }
  | .query query guest_path =>
    some (answer needs_case_insensitive_search env state guest_path query).1
  | .iterateDirectory guest_directory =>
    some (withBackends needs_case_insensitive_search env state fun pairs =>
      MntPoints.iterateDirectory pairs needs_case_insensitive_search guest_directory).1

end Calls

/-- The states of the runs from an empty mount table. -/
inductive MntState.Reachable (needs : Bool) : MntState → Prop where
  | init : Reachable needs {}
  | step {state state' : MntState} (h : Reachable needs state) (env : CallEnv) (call : Call)
      (hstep : state.step needs env call = some state') : Reachable needs state'

/-! ## What the calls keep -/

/-- The folders of a mount: its own and those of its overlays. -/
def MntPair.roots {B : Type} (pair : MntPair B) : List Path :=
  [pair.host_path, overlayPath pair.host_path "-mods".toList,
    overlayPath pair.host_path "-UPDATE".toList, overlayPath pair.host_path "-patch".toList]

/-- The caches are right, and the backends of a mount are in its folders. -/
structure MntState.Inv (state : MntState) : Prop where
  path_cache : CacheOk state.path_cache
  objects : ∀ backend ∈ state.objects, backend.CacheOk
  roots : ∀ pair ∈ state.m_mnt_pairs, ∀ id, Backend.host id ∈ pair.backends →
    ∃ root ∈ pair.roots, (state.objects.map HostFsBackend.m_root)[id]? = some root

/-- The objects have their roots and right caches, and what was resolved has a property. -/
def StoreInv (roots : List Path) (P : Path → Prop) (store : Store) : Prop :=
  store.objects.map HostFsBackend.m_root = roots ∧ (∀ backend ∈ store.objects, backend.CacheOk) ∧
    ∀ p ∈ store.resolved, P p

section Keep

variable {roots : List Path} {P : Path → Prop} {needs : Bool} {fs : HostFs}

theorem resolveObject_keeps {id : ℕ} {rel_path : Text} (hP : ∀ root, roots[id]? = some root → ∀ p,
      (LeadsDown rel_path → Path.Under (fun name => name) root p) → P p) :
    Keeps (StoreInv roots P) (resolveObject needs fs id rel_path) := by
  rintro store ⟨hroots, hcaches, hresolved⟩
  unfold resolveObject
  split
  · exact ⟨hroots, hcaches, hresolved⟩
  · rename_i backend hget
    obtain ⟨hroot, hcache, hunder⟩ :=
      HostFsBackend.resolve_spec needs fs
        (hcaches backend (mem_of_getElem? hget)) rel_path
    have hget_root : roots[id]? = some backend.m_root := by
      rw [← hroots, getElem?_map, hget]
      rfl
    refine ⟨?_, fun other hother => ?_, fun p hp => ?_⟩
    · show (store.objects.set id _).map HostFsBackend.m_root = roots
      obtain ⟨hlt, heq⟩ := List.getElem?_eq_some_iff.mp hget_root
      rw [map_set, hroots, hroot, ← heq, set_getElem_self]
    · rcases mem_or_eq_of_mem_set hother with hmem | rfl
      · exact hcaches other hmem
      · exact hcache
    · rcases mem_append.mp hp with hp | hp
      · exact hresolved p hp
      · rw [mem_singleton.mp hp]
        exact hP _ hget_root _ hunder

/-- The operations of a backend keep an invariant at a path. -/
structure IBackend.KeepsAt {σ F : Type} (I : σ → Prop) (rel : Text)
    (backend : IBackend (StateM σ) F) : Prop where
  exists_ : Keeps I (backend.exists_ rel)
  isDirectory : Keeps I (backend.isDirectory rel)
  open_ : ∀ mode, Keeps I (backend.open_ rel mode)
  openDir : Keeps I (backend.openDir rel)

theorem operations_keepsAt {rel : Text} (objects : List HostFsBackend) {backend : Backend}
    (hP : ∀ id, backend = .host id → ∀ root, roots[id]? = some root → ∀ p,
      (LeadsDown rel → Path.Under (fun name => name) root p) → P p) :
    (backend.operations needs fs objects).KeepsAt (StoreInv roots P) rel := by
  cases backend with
  | host id =>
    have hresolve : Keeps (StoreInv roots P) (resolveObject needs fs id rel) :=
      resolveObject_keeps (hP id rfl)
    constructor
    case exists_ => exact hresolve.bind fun _ => Keeps.pure _
    case isDirectory => exact hresolve.bind fun _ => Keeps.pure _
    case open_ =>
      intro mode
      exact Keeps.ite (Keeps.pure _) (hresolve.bind fun _ => Keeps.pure _)
    case openDir => exact hresolve.bind fun _ => Keeps.pure _
  | archive contents =>
    exact ⟨Keeps.pure _, Keeps.pure _, fun _ => Keeps.pure _, Keeps.pure _⟩

end Keep

section Loops

variable {σ F : Type} {I : σ → Prop} {rel : Text} {bs : List (IBackend (StateM σ) F)}

theorem existsIn_keeps (h : ∀ b ∈ bs, b.KeepsAt I rel) : Keeps I (existsIn rel bs) := by
  induction bs with
  | nil => exact Keeps.pure _
  | cons b bs ih =>
    refine (h b (by simp)).exists_.bind fun found => Keeps.ite (Keeps.pure _) ?_
    exact ih fun b' hb' => h b' (mem_cons_of_mem _ hb')

theorem isDirectoryIn_keeps (h : ∀ b ∈ bs, b.KeepsAt I rel) : Keeps I (isDirectoryIn rel bs) := by
  induction bs with
  | nil => exact Keeps.pure _
  | cons b bs ih =>
    refine (h b (by simp)).exists_.bind fun found => Keeps.ite (h b (by simp)).isDirectory ?_
    exact ih fun b' hb' => h b' (mem_cons_of_mem _ hb')

theorem existsAs_keeps (h : b.KeepsAt I rel) (directory : Bool) : Keeps I (existsAs directory rel b) :=
  h.exists_.bind fun _ => Keeps.ite (h.isDirectory.bind fun _ => Keeps.pure _) (Keeps.pure _)

theorem openIn_keeps (h : ∀ b ∈ bs, b.KeepsAt I rel) (mode : FileAccessMode) : Keeps I (openIn rel mode bs) := by
  induction bs with
  | nil => exact Keeps.pure _
  | cons b bs ih =>
    refine (existsAs_keeps (h b (by simp)) false).bind fun found =>
      Keeps.ite ((h b (by simp)).open_ mode) ?_
    exact ih fun b' hb' => h b' (mem_cons_of_mem _ hb')

theorem openDirIn_keeps (h : ∀ b ∈ bs, b.KeepsAt I rel) (needs : Bool) : Keeps I (openDirIn needs rel bs) := by
  refine Keeps.bind (Keeps.foldlM (fun state b hb => ?_) _) fun _ => Keeps.pure _
  refine (existsAs_keeps (h b hb) true).bind fun found => Keeps.ite ?_ (Keeps.pure _)
  refine (h b hb).openDir.bind fun entries => ?_
  cases entries <;> exact Keeps.pure _

theorem iterateIn_keeps (h : ∀ b ∈ bs, ∀ rel, b.KeepsAt I rel) (needs : Bool) (corrected : Text) :
    Keeps I (iterateIn needs corrected rel bs) := by
  have hresolve : ∀ (base_host : Path) (leaf : Text) (bs' : List (IBackend (StateM σ) F)),
      (∀ b ∈ bs', b ∈ bs) → Keeps I (resolveLeaf base_host rel leaf bs') := by
    intro base_host leaf bs' hsub
    induction bs' with
    | nil => exact Keeps.pure _
    | cons b bs' ih =>
      have hb := h b (hsub b (by simp)) (entryRel rel leaf)
      refine hb.exists_.bind fun found => Keeps.ite ?_ ?_
      · exact hb.isDirectory.bind fun _ => Keeps.pure _
      · exact ih fun b' hb' => hsub b' (mem_cons_of_mem _ hb')
  have hemit : ∀ (base_host : Path) (state : Iteration) (entry : DirEntry),
      Keeps I (emitEntry needs (fun leaf => resolveLeaf base_host rel leaf bs) state entry) := by
    intro base_host state entry
    refine (hresolve base_host entry.name bs fun _ hb => hb).bind fun hit => ?_
    cases hit <;> exact Keeps.pure _
  have hdirectory : ∀ (body : Iteration → DirEntry → StateM σ Iteration),
      (∀ state entry, Keeps I (body state entry)) → ∀ b ∈ bs, ∀ state,
      Keeps I (emitDirectory rel body state b) := by
    intro body hbody b hb state
    refine (h b hb rel).openDir.bind fun entries => ?_
    cases entries with
    | none => exact Keeps.pure _
    | some entries => exact Keeps.foldlM (fun state entry _ => hbody state entry) _
  unfold iterateIn
  split
  · exact Keeps.pure _
  · rename_i base hbase
    refine (hdirectory _ (hemit _) base (mem_of_getLast? hbase) _).bind fun state => ?_
    refine (Keeps.foldlM (fun state b hb => ?_) _).bind fun _ => Keeps.pure _
    refine hdirectory _ (fun state entry => ?_) b (mem_of_mem_dropLast (mem_reverse.mp hb)) state
    exact Keeps.ite (Keeps.pure _) (hemit _ state entry)

end Loops

/-! ## The mounts with their operations -/

theorem locate_operations
    (h : locate (pairs.map (MntPair.operations needs fs objects)) guest_path = some (mount, corrected)) :
    ∃ pair, locate pairs guest_path = some (pair, corrected) ∧ mount = pair.operations needs fs objects := by
  unfold locate at h ⊢
  split at h
  · cases h
  · rename_i c hsanitize
    have hget : getMount (pairs.map (MntPair.operations needs fs objects)) c =
        (getMount pairs c).map (MntPair.operations needs fs objects) := by
      unfold getMount
      rw [find?_map]
      rfl
    rw [hget] at h
    cases hpair : getMount pairs c with
    | none => simp [hpair] at h
    | some pair =>
      rw [hpair] at h
      obtain ⟨hne, heq⟩ := Option.ite_none_left_eq_some.mp h
      obtain ⟨rfl, rfl⟩ := Prod.mk.inj (some.inj heq)
      refine ⟨pair, ?_, rfl⟩
      have hbackends : pair.backends ≠ [] := fun hnil => hne (by
        unfold MntPair.operations
        rw [hnil]
        rfl)
      exact if_neg hbackends

/-- The backends of the mount of a guest path keep an invariant at what is behind the mount point. -/
def KeptAt {σ F : Type} (I : σ → Prop) (pairs : List (MntPair (IBackend (StateM σ) F))) (guest_path : Text) : Prop :=
  ∀ mount corrected, locate pairs guest_path = some (mount, corrected) →
    ∀ b ∈ mount.backends, b.KeepsAt I (relativeToMount corrected mount)

section Operations

variable {σ F : Type} {I : σ → Prop} {pairs : List (MntPair (IBackend (StateM σ) F))}
  {guest_path : Text}

theorem MntPoints.exists_keeps (h : KeptAt I pairs guest_path) : Keeps I (MntPoints.exists_ pairs guest_path) := by
  unfold MntPoints.exists_
  split
  · exact Keeps.pure _
  · rename_i mount corrected hlocate
    exact existsIn_keeps (h mount corrected hlocate)

theorem MntPoints.isDirectory_keeps (h : KeptAt I pairs guest_path) :
    Keeps I (MntPoints.isDirectory pairs guest_path) := by
  unfold MntPoints.isDirectory
  split
  · exact Keeps.pure _
  · rename_i mount corrected hlocate
    exact isDirectoryIn_keeps (h mount corrected hlocate)

theorem MntPoints.open_keeps (h : KeptAt I pairs guest_path) (mode : FileAccessMode) :
    Keeps I (MntPoints.open_ pairs guest_path mode) := by
  unfold MntPoints.open_
  split
  · exact Keeps.pure _
  · rename_i mount corrected hlocate
    have hkept := h mount corrected hlocate
    refine Keeps.ite (Keeps.pure _) ?_
    -- A file is created in the base, and looked for in all backends otherwise.
    refine Keeps.ite ?_ (openIn_keeps hkept mode)
    split
    · exact Keeps.pure _
    · rename_i base hbase
      exact (hkept base (mem_of_getLast? hbase)).open_ mode

theorem MntPoints.openDir_keeps (h : KeptAt I pairs guest_path) (needs : Bool) :
    Keeps I (MntPoints.openDir pairs needs guest_path) := by
  unfold MntPoints.openDir
  split
  · exact Keeps.pure _
  · rename_i mount corrected hlocate
    exact openDirIn_keeps (h mount corrected hlocate) needs

theorem MntPoints.iterateDirectory_keeps
    (h : ∀ mount ∈ pairs, ∀ b ∈ mount.backends, ∀ rel, b.KeepsAt I rel) (needs : Bool) :
    Keeps I (MntPoints.iterateDirectory pairs needs guest_path) := by
  unfold MntPoints.iterateDirectory
  split
  · exact Keeps.pure _
  · rename_i mount corrected hlocate
    obtain ⟨-, -, hget, -⟩ := locate_spec hlocate
    exact iterateIn_keeps (h mount (getMount_spec hget).1) needs corrected

end Operations

section Answer

variable {needs : Bool} {env : CallEnv} {state : MntState}

theorem withBackends_spec  (hinv : state.Inv) (hx : Keeps (StoreInv (state.objects.map HostFsBackend.m_root) P)
      (x (state.m_mnt_pairs.map (MntPair.operations needs env.fs state.objects)))) :
    (withBackends needs env state x).1.Inv ∧ ∀ p ∈ (withBackends needs env state x).2, P p := by
  obtain ⟨hroots, hcaches, hresolved⟩ :=
    hx { objects := state.objects } ⟨rfl, hinv.objects, fun p hp => absurd hp not_mem_nil⟩
  refine ⟨⟨hinv.path_cache, hcaches, fun pair hpair id hid => ?_⟩, hresolved⟩
  obtain ⟨root, hmem, hroot⟩ := hinv.roots pair hpair id hid
  exact ⟨root, hmem, by rw [← hroot, ← hroots]; rfl⟩

theorem operations_keepsAt_all {roots : List Path} :
    ∀ mount ∈ state.m_mnt_pairs.map (MntPair.operations needs env.fs state.objects),
      ∀ b ∈ mount.backends, ∀ rel, b.KeepsAt (StoreInv roots fun _ => True) rel := by
  intro mount hmount b hb rel
  obtain ⟨pair, -, rfl⟩ := mem_map.mp hmount
  obtain ⟨backend, -, rfl⟩ := mem_map.mp hb
  exact operations_keepsAt state.objects fun id _ root _ p _ => trivial

theorem operations_keptAt (hinv : state.Inv) {guest_path : Text} {P : Path → Prop}
    (hP : ∀ pair corrected, locate state.m_mnt_pairs guest_path = some (pair, corrected) →
      ∀ root ∈ pair.roots, ∀ p, (LeadsDown (relativeToMount corrected pair) →
        Path.Under (fun name => name) root p) → P p) : KeptAt (StoreInv (state.objects.map HostFsBackend.m_root) P)
      (state.m_mnt_pairs.map (MntPair.operations needs env.fs state.objects)) guest_path := by
  intro mount corrected hlocate b hb
  obtain ⟨pair, hpair, rfl⟩ := locate_operations hlocate
  obtain ⟨backend, hbackend, rfl⟩ := mem_map.mp hb
  refine operations_keepsAt state.objects fun id hid root hroot p hp => ?_
  obtain ⟨-, -, hget, -⟩ := locate_spec hpair
  -- The object of the backend has one of the folders of the mount as its root.
  obtain ⟨root', hmem, hroot'⟩ := hinv.roots pair (getMount_spec hget).1 id (hid ▸ hbackend)
  obtain rfl : root' = root := some.inj (hroot'.symm.trans hroot)
  exact hP pair corrected hpair root' hmem p hp

end Answer

/-! ## Mounting -/

/-- Objects with right caches were added, and the backends are in the folders. -/
structure Added (objects objects' : List HostFsBackend) (backends : List Backend)
    (roots : List Path) : Prop where
  isPrefix : objects <+: objects'
  caches : (∀ backend ∈ objects, backend.CacheOk) → ∀ backend ∈ objects', backend.CacheOk
  mem_roots : ∀ id, Backend.host id ∈ backends →
    ∃ root ∈ roots, (objects'.map HostFsBackend.m_root)[id]? = some root

section Mount

variable {objects objects' objects'' : List HostFsBackend} {roots : List Path}

theorem root_of_isPrefix (h : objects <+: objects') {id : ℕ}
    (hroot : (objects.map HostFsBackend.m_root)[id]? = some root) :
    (objects'.map HostFsBackend.m_root)[id]? = some root := by
  obtain ⟨added, rfl⟩ := h
  obtain ⟨hlt, -⟩ := List.getElem?_eq_some_iff.mp hroot
  rw [map_append, getElem?_append_left hlt, hroot]

theorem Added.none : Added objects objects [] roots :=
  ⟨prefix_rfl, fun h => h, fun _ hid => absurd hid not_mem_nil⟩

theorem Added.append (h : Added objects objects' backends roots)
    (h' : Added objects' objects'' backends' roots) : Added objects objects'' (backends ++ backends') roots := by
  refine ⟨h.isPrefix.trans h'.isPrefix, fun hcaches => h'.caches (h.caches hcaches),
    fun id hid => ?_⟩
  rcases mem_append.mp hid with hid | hid
  · obtain ⟨root, hmem, hroot⟩ := h.mem_roots id hid
    exact ⟨root, hmem, root_of_isPrefix h'.isPrefix hroot⟩
  · exact h'.mem_roots id hid

theorem tryZar_ne {fs : HostFs} {zar : Path} {id : ℕ} : tryZar fs zar ≠ some (.host id) := by
  unfold tryZar
  split
  · cases fs.archive zar <;> simp
  · simp

theorem makeBackend_added
    (hpath : path ∈ roots) (h : makeBackend fs objects path read_only = some (backend, objects')) :
    Added objects objects' [backend] roots := by
  unfold makeBackend at h
  split at h
  · obtain ⟨rfl, rfl⟩ := Prod.mk.inj (some.inj h)
    refine ⟨prefix_append _ _, fun hcaches other hother => ?_, fun id hid => ?_⟩
    · rcases mem_append.mp hother with hother | hother
      · exact hcaches other hother
      · rw [mem_singleton.mp hother]
        exact fun entry hentry => absurd hentry not_mem_nil
    · obtain rfl : id = objects.length := by simpa using hid
      exact ⟨path, hpath, by simp⟩
  · -- An archive adds no object.
    have harchive : ∀ zar, tryZar fs zar = some backend → objects = objects' →
        Added objects objects' [backend] roots := by
      rintro zar hzar rfl
      refine ⟨prefix_rfl, fun hcaches => hcaches, fun id hid => ?_⟩
      rw [← mem_singleton.mp hid] at hzar
      exact absurd hzar tryZar_ne
    split at h
    · rename_i found hfound
      obtain ⟨rfl, rfl⟩ := Prod.mk.inj (some.inj h)
      exact harchive path hfound rfl
    · obtain ⟨found, hfound, heq⟩ := Option.map_eq_some_iff.mp h
      obtain ⟨rfl, rfl⟩ := Prod.mk.inj heq
      exact harchive _ hfound rfl

theorem probeOverlay_added (hroots : ∀ suffix ∈ suffixes, overlayPath host_folder suffix ∈ roots) :
    Added objects (probeOverlay fs host_folder objects suffixes).2
      (probeOverlay fs host_folder objects suffixes).1 roots := by
  induction suffixes with
  | nil => exact Added.none
  | cons suffix rest ih =>
    unfold probeOverlay
    split
    · rename_i backend objects' hmake
      exact makeBackend_added (hroots suffix (by simp)) hmake
    · exact ih fun other hother => hroots other (mem_cons_of_mem _ hother)

theorem makeOverlays_added (fs : HostFs) (ignore_game_patches : Bool) (guest_folder_sanitized : Text)
    (hroots : ∀ suffix ∈ ["-mods".toList, "-UPDATE".toList, "-patch".toList],
      overlayPath host_folder suffix ∈ roots) : Added objects
      (makeOverlays fs ignore_game_patches host_folder guest_folder_sanitized objects).2
      (makeOverlays fs ignore_game_patches host_folder guest_folder_sanitized objects).1 roots := by
  unfold makeOverlays
  split
  · have hmods : Added objects (probeOverlay fs host_folder objects ["-mods".toList]).2
        (probeOverlay fs host_folder objects ["-mods".toList]).1 roots :=
      probeOverlay_added fun suffix hsuffix => hroots suffix (by
        rw [mem_singleton.mp hsuffix]
        simp)
    cases ignore_game_patches with
    | true => exact hmods.append Added.none
    | false => exact hmods.append (probeOverlay_added fun suffix hsuffix =>
        hroots suffix (mem_cons_of_mem _ hsuffix))
  · exact Added.none

theorem mountFolder_inv (hinv : state.Inv)
    (h : mountFolder fs ignore_game_patches state host_folder guest_folder read_only = some state') : state'.Inv := by
  unfold mountFolder at h
  simp only at h
  split at h
  · cases h
  · rename_i base objects' hbase
    obtain rfl := some.inj h
    have hsuffixes : ∀ suffix ∈ ["-mods".toList, "-UPDATE".toList, "-patch".toList],
        overlayPath host_folder suffix ∈ [host_folder, overlayPath host_folder "-mods".toList,
          overlayPath host_folder "-UPDATE".toList, overlayPath host_folder "-patch".toList] :=
      fun suffix hsuffix => mem_cons_of_mem _ (mem_map_of_mem hsuffix)
    -- The overlays and the base are in the folders of the mount.
    have hadded := (makeOverlays_added fs ignore_game_patches (removeTrailingSlashes guest_folder)
      hsuffixes).append (makeBackend_added mem_cons_self hbase)
    refine ⟨hinv.path_cache, hadded.caches hinv.objects, fun pair hpair id hid => ?_⟩
    rcases mem_append.mp hpair with hpair | hpair
    · obtain ⟨root, hmem, hroot⟩ := hinv.roots pair hpair id hid
      exact ⟨root, hmem, root_of_isPrefix hadded.isPrefix hroot⟩
    · obtain rfl := mem_singleton.mp hpair
      exact hadded.mem_roots id hid

end Mount

/-! ## `GetHostPath` -/

/-- The path is under a folder of the mount, where names are compared as the host does. -/
def UnderMount {B : Type} (needs : Bool) (mount : MntPair B) (p : Path) : Prop :=
  ∃ root ∈ mount.roots, Path.Under (emitKey needs) root p

theorem eq_dotdot_of_emitKey (h : emitKey needs name = dotdot) : name = dotdot := by
  unfold emitKey at h
  split at h
  · exact toLower_eq_dotdot_iff.mp h
  · exact h

theorem under_of_sameCase (h : SameCase p q)
    (hunder : Path.Under (emitKey true) root p) : Path.Under (emitKey true) root q := by
  obtain ⟨habs, rest, hnames, hup⟩ := hunder
  refine ⟨h.1 ▸ habs, rest, ?_, hup⟩
  rw [← hnames]
  exact h.2.symm

theorem leadsDown_relativeToMount (hget : getMount m_mnt_pairs corrected = some mount)
    (hslash : ¬ doubleSlash <:+: corrected) (hup : dotdot ∉ components corrected) :
    LeadsDown (relativeToMount corrected mount) := by
  constructor
  · rcases (getMount_spec hget).2 with heq | ⟨rest, rfl⟩
    · rw [relativeToMount, if_pos (by rw [heq]; omega)]
      simp
    · rw [relativeToMount_append]
      intro hhead
      obtain ⟨t, rfl⟩ := head?_eq_some_iff.mp hhead
      exact hslash ⟨mount.mount, t, by simp [doubleSlash]⟩
  · intro hmem
    rw [components_of_getMount hget] at hup
    exact hup (mem_append_right _ hmem)

theorem patchPath_mem_roots (fs : HostFs) (mount : MntPair B) : patchPath fs mount.host_path ∈ mount.roots := by
  unfold patchPath MntPair.roots
  split <;> simp

theorem underMount_append
    (hroot : root ∈ mount.roots) (h : LeadsDown rel) : UnderMount needs mount (root.append (.ofText rel)) := by
  refine ⟨root, hroot, Path.under_append (emitKey needs) root (by simpa [Path.ofText] using h.1) ?_⟩
  rw [Path.names_ofText]
  intro hmem
  obtain ⟨name, hname, heq⟩ := mem_map.mp hmem
  rw [eq_dotdot_of_emitKey heq] at hname
  exact h.2 hname

theorem hostPathIn_spec  (hcache : CacheOk path_cache) :
    CacheOk (hostPathIn needs fs ignore_game_patches mount path_cache corrected_path path_type).2 ∧
      (LeadsDown (corrected_path.drop (mount.mount.length + 1)) → ∀ p,
        (hostPathIn needs fs ignore_game_patches mount path_cache corrected_path path_type).1 =
          some p → p = {} ∨ UnderMount needs mount p) := by
  set rel := corrected_path.drop (mount.mount.length + 1) with hrel
  have hhost : LeadsDown rel → UnderMount needs mount (mount.host_path.append (.ofText rel)) :=
    underMount_append (by simp [MntPair.roots])
  have hpatch : LeadsDown rel → UnderMount needs mount ((patchPath fs mount.host_path).append (.ofText rel)) :=
    underMount_append (patchPath_mem_roots fs mount)
  have hmods : LeadsDown rel → UnderMount needs mount
      ((overlayPath mount.host_path "-mods".toList).append (.ofText rel)) :=
    underMount_append (by simp [MntPair.roots])
  -- A path that is joined is returned as it is.
  have hjoined : ∀ joined : Path, (LeadsDown rel → UnderMount needs mount joined) →
      CacheOk path_cache ∧ (LeadsDown rel → ∀ p, some joined = some p →
        p = {} ∨ UnderMount needs mount p) := by
    refine fun joined hunder => ⟨hcache, fun hdown p hp => .inr ?_⟩
    rw [← some.inj hp]
    exact hunder hdown
  unfold hostPathIn
  simp only [← hrel]
  split
  · exact hjoined _ hmods
  split
  · exact hjoined _ hpatch
  split
  · exact hjoined _ hmods
  split
  · exact hjoined _ hpatch
  split
  · exact hjoined _ hhost
  · rename_i hsensitive
    obtain rfl : needs = true := by
      rw [← Bool.not_eq_false]
      exact fun he => hsensitive (.inl he)
    generalize hpaths : (_ ++ [mount.host_path.append (.ofText rel)] : List Path) = paths
    rcases hsearch : searchAll fs (mount.host_path.append (.ofText rel)) paths path_cache with ⟨result, cache⟩
    obtain ⟨hcache', hresult⟩ := searchAll_spec hcache hsearch
    refine ⟨hcache', fun hdown p hp => ?_⟩
    rcases hresult p hp with rfl | hempty | ⟨path, hmem, hsame⟩
    · exact .inr (hhost hdown)
    · exact .inl hempty
    · -- Each path that is searched for is under a folder of the mount.
      have hunder : UnderMount true mount path := by
        rw [← hpaths, mem_append, mem_append, mem_ite_nil_right,
          mem_ite_nil_right, mem_singleton, mem_singleton, mem_singleton] at hmem
        rcases hmem with (⟨-, rfl⟩ | ⟨-, rfl⟩) | rfl
        · exact hmods hdown
        · exact hpatch hdown
        · exact hhost hdown
      obtain ⟨root, hroot, hpath⟩ := hunder
      exact .inr ⟨root, hroot, under_of_sameCase hsame hpath⟩

theorem getHostPath_spec  (hcache : CacheOk path_cache) :
    CacheOk (getHostPath needs fs ignore_game_patches m_mnt_pairs path_cache path path_type).path_cache ∧
      (¬ doubleSlash <:+: correctedPath path → dotdot ∉ components path → ∀ p,
        (getHostPath needs fs ignore_game_patches m_mnt_pairs path_cache path path_type).path =
          some p → p = {} ∨ ∃ mount, getMount m_mnt_pairs (correctedPath path) = some mount ∧
            UnderMount needs mount p) := by
  unfold getHostPath
  simp only
  split
  · exact ⟨hcache, fun _ _ p hp => .inl (some.inj hp).symm⟩
  split
  · exact ⟨hcache, fun _ _ p hp => .inl (some.inj hp).symm⟩
  rename_i mount hget
  have hself : ∀ root ∈ mount.roots, UnderMount needs mount root := fun root hroot =>
    ⟨root, hroot, Path.under_refl _ _⟩
  split
  · -- The path is the mount point.
    refine ⟨hcache, fun _ _ p hp => .inr ⟨mount, hget, ?_⟩⟩
    obtain rfl := some.inj hp
    cases path_type
    case default_ => exact hself _ (by simp [MntPair.roots])
    case base => exact hself _ (by simp [MntPair.roots])
    case patch => exact hself _ (patchPath_mem_roots fs mount)
    case mod => exact hself _ (by simp [MntPair.roots])
  split
  · exact ⟨hcache, fun _ _ p hp => by cases hp⟩
  · rename_i hlength
    obtain ⟨hcache', hunder⟩ := hostPathIn_spec hcache
    refine ⟨hcache', fun hslash hup p hp => ?_⟩
    rw [← components_collapse, ← correctedPath_eq] at hup
    have hdown := leadsDown_relativeToMount hget hslash hup
    -- A path of this length has something behind the mount point.
    obtain ⟨rest, hrest⟩ : ∃ rest, correctedPath path = mount.mount ++ '/' :: rest := by
      refine (getMount_spec hget).2.resolve_left fun heq => hlength ?_
      rw [heq]
      omega
    have hdrop : (correctedPath path).drop (mount.mount.length + 1) = relativeToMount (correctedPath path) mount := by
      rw [hrest, relativeToMount_append, ← drop_drop, drop_left]
      rfl
    rcases hunder (hdrop ▸ hdown) p hp with hempty | hmount
    · exact .inl hempty
    · exact .inr ⟨mount, hget, hmount⟩

/-! ## Runs -/

/-- The path is empty, or under a folder of the mount of the guest path. -/
def Contained (needs : Bool) (state : MntState) (guest_path : Text) (p : Path) : Prop :=
  p = {} ∨ ∃ mount, getMount state.m_mnt_pairs (correctedPath guest_path) = some mount ∧
    UnderMount needs mount p

theorem answer_spec (hinv : state.Inv) (env : CallEnv)
    (query : Query) (guest_path : Text) : (answer needs env state guest_path query).1.Inv ∧
      (¬ doubleSlash <:+: correctedPath guest_path → dotdot ∉ components guest_path →
        ∀ p ∈ (answer needs env state guest_path query).2, Contained needs state guest_path p) := by
  -- What is asked of the paths, where the guest path is as it should be.
  have hkept : KeptAt (StoreInv (state.objects.map HostFsBackend.m_root) fun p =>
      ¬ doubleSlash <:+: correctedPath guest_path → dotdot ∉ components guest_path →
        Contained needs state guest_path p)
      (state.m_mnt_pairs.map (MntPair.operations needs env.fs state.objects)) guest_path := by
    refine operations_keptAt hinv fun pair corrected hlocate root hroot p hp hslash hup => ?_
    obtain ⟨-, hcorrected, hget, -⟩ := locate_spec hlocate
    rw [← correctedPath_eq] at hcorrected
    obtain rfl := hcorrected
    rw [← components_collapse, ← correctedPath_eq] at hup
    refine .inr ⟨pair, hget, root, hroot, ?_⟩
    exact (hp (leadsDown_relativeToMount hget hslash hup)).map fun _ => eq_dotdot_of_emitKey
  have hstore : ∀ {α : Type} (x : List (MntPair (IBackend (StateM Store) (Option Path))) → StateM Store α),
      (∀ {I : Store → Prop} {pairs}, KeptAt I pairs guest_path → Keeps I (x pairs)) →
      (withBackends needs env state x).1.Inv ∧
        (¬ doubleSlash <:+: correctedPath guest_path → dotdot ∉ components guest_path →
          ∀ p ∈ (withBackends needs env state x).2, Contained needs state guest_path p) := by
    intro α x hx
    obtain ⟨hinv', hresolved⟩ := withBackends_spec hinv (hx hkept)
    exact ⟨hinv', fun hslash hup p hp => hresolved p hp hslash hup⟩
  cases query with
  | getHostPath path_type =>
    obtain ⟨hcache, hpath⟩ := getHostPath_spec hinv.path_cache
    exact ⟨⟨hcache, hinv.objects, hinv.roots⟩, fun hslash hup p hp =>
      hpath hslash hup p (Option.mem_toList.mp hp)⟩
  | exists_ => exact hstore _ fun h => MntPoints.exists_keeps h
  | isDirectory => exact hstore _ fun h => MntPoints.isDirectory_keeps h
  | open_ mode => exact hstore _ fun h => MntPoints.open_keeps h mode
  | openDir => exact hstore _ fun h => MntPoints.openDir_keeps h needs

theorem MntState.Inv.step {needs : Bool} {env : CallEnv} {state state' : MntState} {call : Call}
    (hinv : state.Inv) (h : state.step needs env call = some state') : state'.Inv := by
  cases call with
  | mount host_folder guest_folder read_only => exact mountFolder_inv hinv h
  | unmount guest_folder =>
    obtain rfl := some.inj h
    exact ⟨hinv.path_cache, hinv.objects, fun pair hpair =>
      hinv.roots pair (mem_of_mem_filter hpair)⟩
  | unmountAll =>
    obtain rfl := some.inj h
    exact ⟨hinv.path_cache, hinv.objects, nofun⟩
  | query query guest_path =>
    obtain rfl := some.inj h
    exact (answer_spec hinv env query guest_path).1
  | iterateDirectory guest_directory =>
    obtain rfl := some.inj h
    exact (withBackends_spec hinv (MntPoints.iterateDirectory_keeps operations_keepsAt_all needs)).1

theorem MntState.Reachable.inv {needs : Bool} {state : MntState} (h : state.Reachable needs) : state.Inv := by
  induction h with
  | init => exact ⟨nofun, nofun, nofun⟩
  | step _ env call hstep ih => exact ih.step hstep

/-- What is expected of a question about a guest path. -/
structure Safe (needs : Bool) (env : CallEnv) (state : MntState) (guest_path : Text)
    (query : Query) : Prop where
  contained : ∀ p ∈ (answer needs env state guest_path query).2, Contained needs state guest_path p
  idempotent : ∀ corrected, sanitizeGuestPath guest_path = some corrected →
    sanitizeGuestPath corrected = some corrected
  single : ∀ corrected, sanitizeGuestPath guest_path = some corrected →
    ¬ doubleSlash <:+: corrected
  relative : ∀ corrected, sanitizeGuestPath guest_path = some corrected → ∀ mount,
    getMount state.m_mnt_pairs corrected = some mount →
    (relativeToMount corrected mount).head? ≠ some '/'

/-- A file system in which everything exists and is a directory without entries. -/
def HostFs.sample : HostFs where
  exists_ _ := true
  isDirectory _ := true
  isRegularFile _ := false
  isOpen _ _ := false
  fileSize _ := 0
  list _ := some []
  archive _ := none

/-- The calls on it, without updates of games. -/
def CallEnv.sample : CallEnv where
  fs := HostFs.sample
  ignore_game_patches := true

/-- The folder of a game, mounted. -/
def MntState.sample : MntState where
  m_mnt_pairs := [{
    host_path := .ofText "/games/G".toList
    mount := "/app0".toList
    read_only := false
    backends := [.host 0, .host 1] }]
  objects := [
    { m_root := .ofText "/games/G-mods".toList, m_read_only := true },
    { m_root := .ofText "/games/G".toList, m_read_only := false }]

theorem MntState.reachable_sample : MntState.sample.Reachable true :=
  .step .init CallEnv.sample (.mount (.ofText "/games/G".toList) "/app0".toList false) (by rfl)

end ShadPS4.FileSys
