import ShadPS4.FileSys.OverlaySpec
import ShadPS4.Lib.Registry

/-!
# One tree for a mount

`Consistent` says that the operations of `MntPoints` on a guest path present one tree: a path is a file or a
directory if it exists, a directory lists exactly the names in it as what they are, and `iterateDirectory` reports
the same entries.
-/

namespace ShadPS4.FileSys

open List
open Option (some.inj bind_eq_some_iff)

section Stack

variable {F : Type} {needs : Bool} {m_mnt_pairs : List (MntPair (IBackend Id F))}
  {guest_path corrected : Text} {mount : MntPair (IBackend Id F)}

/-! ## The entries of a directory -/

/-- The entries that `OpenDir` lists. -/
def listing (needs : Bool) (m_mnt_pairs : List (MntPair (IBackend Id F))) (guest_path : Text) : List DirEntry :=
  Option.getD (MntPoints.openDir (m := Id) m_mnt_pairs needs guest_path) []

/-- The overlay presents one tree at a guest path, which is `rel` in its mount: `entryRel rel name` is
the path of a name in it. -/
structure Consistent (needs : Bool) (m_mnt_pairs : List (MntPair (IBackend Id F)))
    (guest_path : Text) (mount : MntPair (IBackend Id F)) (rel : Text) : Prop where
  open_iff : Option.isSome (MntPoints.open_ (m := Id) m_mnt_pairs guest_path .read) = true ↔
    MntPoints.exists_ m_mnt_pairs guest_path = true ∧
      ¬ MntPoints.isDirectory m_mnt_pairs guest_path = true
  openDir_iff : Option.isSome (MntPoints.openDir (m := Id) m_mnt_pairs needs guest_path) = true ↔
    MntPoints.isDirectory m_mnt_pairs guest_path = true
  nodup : ((listing needs m_mnt_pairs guest_path).map DirEntry.name).Nodup
  listed_iff : ∀ name, IsName name →
    (name ∈ (listing needs m_mnt_pairs guest_path).map DirEntry.name ↔
      hasIn (entryRel rel name) mount.backends = true)
  is_directory_eq : ∀ entry ∈ listing needs m_mnt_pairs guest_path,
    entry.is_directory = hasDirIn (entryRel rel entry.name) mount.backends
  iterate : ∃ (base_host : Path) (calls : List (Path × Bool)),
    MntPoints.iterateDirectory m_mnt_pairs needs guest_path =
      (base_host.append (.ofName ['.']), false) :: (base_host.append (.ofName dotdot), false) ::
        calls ∧
    (calls.map fun call : Path × Bool => (call.1.filename, !call.2)).Perm
      ((listing needs m_mnt_pairs guest_path).map fun entry => (entry.name, entry.is_directory))

/-- The backends that have the path agree on whether it is a directory. -/
def AgreeAt (bs : List (IBackend Id F)) (rel : Text) : Prop :=
  ∀ b ∈ bs, ∀ b' ∈ bs, b.has rel = true → b'.has rel = true → b.hasDir rel = b'.hasDir rel

/-- Names in the directory that differ in their case only are the same. -/
def CaseDistinct (bs : List (IBackend Id F)) (rel : Text) : Prop :=
  ∀ name name', IsName name → IsName name' → hasIn (entryRel rel name) bs = true →
    hasIn (entryRel rel name') bs = true → toLower name = toLower name' → name = name'

variable {bs : List (IBackend Id F)} {rel : Text}

theorem getD_openDirIn (htrees : ∀ b ∈ bs, b.IsTree) :
    Option.getD (openDirIn (m := Id) needs rel bs) [] = newEntries needs [] (listed rel bs) := by
  rw [openDirIn_eq needs htrees]
  split
  · rfl
  · rename_i hnone
    -- No backend lists anything then.
    have hempty : listed rel bs = [] := by
      rw [listed, flatMap_eq_nil_iff]
      intro b hb
      have hdir : b.hasDir rel = false := by
        rw [any_eq_true] at hnone
        exact Bool.eq_false_iff.mpr fun hdir => hnone ⟨b, hb, hdir⟩
      have hsome := (htrees b hb).entries?_isSome rel
      rw [hdir, Option.isSome_eq_false_iff, Option.isNone_iff_eq_none] at hsome
      rw [hsome]
      rfl
    rw [hempty]
    rfl

theorem openDirIn_isSome_iff (htrees : ∀ b ∈ bs, b.IsTree) :
    Option.isSome (openDirIn (m := Id) needs rel bs) = true ↔ ∃ b ∈ bs, b.hasDir rel = true := by
  rw [openDirIn_eq needs htrees, ← any_eq_true]
  split <;> simp_all

theorem CaseDistinct.name_eq (htrees : ∀ b ∈ bs, b.IsTree)
    (h : needs = true → CaseDistinct bs rel) (hentry : entry ∈ listed rel bs)
    (hname : IsName name) (hhas : hasIn (entryRel rel name) bs = true)
    (hkey : emitKey needs entry.name = emitKey needs name) : entry.name = name := by
  have hentry_name := isName_of_mem_listed htrees hentry
  cases needs with
  | false => exact hkey
  | true =>
    exact h rfl entry.name name hentry_name hname
      ((mem_names_listed_iff htrees hentry_name).mp (mem_map_of_mem hentry)) hhas hkey

theorem mem_names_merged_iff (htrees : ∀ b ∈ bs, b.IsTree)
    (h : needs = true → CaseDistinct bs rel) (hname : IsName name) :
    name ∈ (newEntries needs [] (listed rel bs)).map DirEntry.name ↔ hasIn (entryRel rel name) bs = true := by
  constructor
  · intro hmem
    obtain ⟨entry, hentry, rfl⟩ := mem_map.mp hmem
    exact (mem_names_listed_iff htrees hname).mp (mem_map_of_mem (mem_of_mem_newEntries hentry))
  · intro hhas
    exact mem_names_newEntries (fun entry hentry hkey => CaseDistinct.name_eq htrees h hentry hname hhas hkey)
      ((mem_names_listed_iff htrees hname).mpr hhas) not_mem_nil

/-- The entries of the base, and of the overlays from the back those that are new. -/
def iterated (needs : Bool) (rel : Text) (base : IBackend Id F) (bs : List (IBackend Id F)) : List DirEntry :=
  (base.entries? rel).getD [] ++ newEntries needs (keysOf needs ((base.entries? rel).getD []))
    (listed rel bs.dropLast.reverse)

theorem mem_listed_iff (hbase : bs.getLast? = some base) :
    entry ∈ listed rel bs ↔ entry ∈ (base.entries? rel).getD [] ∨ entry ∈ listed rel bs.dropLast.reverse := by
  have hsplit : bs = bs.dropLast ++ [base] := (dropLast_append_getLast? base hbase).symm
  unfold listed
  conv_lhs => rw [hsplit]
  rw [mem_flatMap, mem_flatMap]
  constructor
  · rintro ⟨b, hb, hentry⟩
    rcases mem_append.mp hb with hb | hb
    · exact .inr ⟨b, mem_reverse.mpr hb, hentry⟩
    · rw [mem_singleton.mp hb] at hentry
      exact .inl hentry
  · rintro (hentry | ⟨b, hb, hentry⟩)
    · exact ⟨base, by simp, hentry⟩
    · exact ⟨b, mem_append_left _ (mem_reverse.mp hb), hentry⟩

theorem nodup_names_iterated (htrees : ∀ b ∈ bs, b.IsTree)
    (hbase : bs.getLast? = some base) : ((iterated needs rel base bs).map DirEntry.name).Nodup := by
  unfold iterated
  rw [map_append, nodup_append]
  refine ⟨?_, nodup_names_of_nodup_keysOf (nodup_keysOf_newEntries _ _ _), ?_⟩
  · cases hentries : base.entries? rel with
    | none => exact nodup_nil
    | some entries => exact (htrees base (mem_of_getLast? hbase)).nodup rel entries hentries
  · rintro name hname name' hname' rfl
    obtain ⟨entry, hentry, heq⟩ := mem_map.mp hname
    obtain ⟨entry', hentry', heq'⟩ := mem_map.mp hname'
    refine (mem_newEntries_iff.mp hentry').1 (mem_map.mpr ⟨entry, hentry, ?_⟩)
    rw [heq, heq']

theorem mem_names_iterated_iff (htrees : ∀ b ∈ bs, b.IsTree) (h : needs = true → CaseDistinct bs rel)
    (hbase : bs.getLast? = some base) (hname : IsName name) :
    name ∈ (iterated needs rel base bs).map DirEntry.name ↔ hasIn (entryRel rel name) bs = true := by
  rw [← mem_names_listed_iff htrees hname]
  unfold iterated
  rw [map_append, mem_append]
  constructor
  · rintro (hmem | hmem)
    · obtain ⟨entry, hentry, rfl⟩ := mem_map.mp hmem
      exact mem_map_of_mem ((mem_listed_iff hbase).mpr (.inl hentry))
    · obtain ⟨entry, hentry, rfl⟩ := mem_map.mp hmem
      exact mem_map_of_mem ((mem_listed_iff hbase).mpr (.inr (mem_of_mem_newEntries hentry)))
  · intro hmem
    have hhas := (mem_names_listed_iff htrees hname).mp hmem
    obtain ⟨entry, hentry, rfl⟩ := mem_map.mp hmem
    by_cases hseen : emitKey needs entry.name ∈ keysOf needs ((base.entries? rel).getD [])
    · -- The base has an entry with the key, so with the name.
      obtain ⟨first, hfirst, hkey⟩ := mem_map.mp hseen
      refine .inl (mem_map.mpr ⟨first, hfirst, ?_⟩)
      exact CaseDistinct.name_eq htrees h ((mem_listed_iff hbase).mpr (.inl hfirst)) hname hhas hkey
    · rcases (mem_listed_iff hbase).mp hentry with hbase_entry | hoverlay
      · exact absurd (mem_map_of_mem hbase_entry) hseen
      · refine .inr (mem_names_newEntries (fun other hother hkey => ?_) (mem_map_of_mem hoverlay) hseen)
        exact CaseDistinct.name_eq htrees h ((mem_listed_iff hbase).mpr (.inr hother)) hname hhas hkey

theorem perm_of_mem_iff {xs ys : List DirEntry} (hxs : (xs.map DirEntry.name).Nodup)
    (hys : (ys.map DirEntry.name).Nodup) (hx : ∀ entry ∈ xs, IsName entry.name) (hy : ∀ entry ∈ ys, IsName entry.name)
    (h : ∀ name, IsName name → (name ∈ xs.map DirEntry.name ↔ name ∈ ys.map DirEntry.name)) :
    (xs.map DirEntry.name).Perm (ys.map DirEntry.name) := by
  rw [perm_ext_iff_of_nodup hxs hys]
  intro name
  constructor
  · intro hmem
    obtain ⟨entry, hentry, rfl⟩ := mem_map.mp hmem
    exact (h _ (hx entry hentry)).mp hmem
  · intro hmem
    obtain ⟨entry, hentry, rfl⟩ := mem_map.mp hmem
    exact (h _ (hy entry hentry)).mpr hmem

def nameAt (rel : Text) (bs : List (IBackend Id F)) (name : Text) : Text × Bool :=
  (name, hasDirIn (entryRel rel name) bs)

theorem map_reportOf (base_host : Path) (htrees : ∀ b ∈ bs, b.IsTree) {xs : List DirEntry}
    (h : ∀ entry ∈ xs, entry ∈ listed rel bs) :
    ((xs.map (reportOf base_host rel bs)).map fun call : Path × Bool => (call.1.filename, !call.2)) =
      (xs.map DirEntry.name).map (nameAt rel bs) := by
  rw [map_map, map_map]
  refine map_congr_left fun entry hentry => ?_
  have hname := isName_of_mem_listed htrees (h entry hentry)
  have hhas := (mem_names_listed_iff htrees hname).mp (mem_map_of_mem (h entry hentry))
  show (Path.filename (hostAt base_host rel bs entry.name), _) = _
  rw [(resolveLeaf_spec hname hhas).2]
  exact Prod.ext rfl (Bool.not_not _)

theorem map_kind (rel : Text) {xs : List DirEntry}
    (h : ∀ entry ∈ xs, entry.is_directory = hasDirIn (entryRel rel entry.name) bs) :
    (xs.map fun entry => (entry.name, entry.is_directory)) = (xs.map DirEntry.name).map (nameAt rel bs) := by
  rw [map_map]
  exact map_congr_left fun entry hentry => Prod.ext rfl (h entry hentry)

/-! ## The exact condition -/

section

variable (h : locate m_mnt_pairs guest_path = some (mount, corrected))

include h

theorem exists_eq :
    MntPoints.exists_ m_mnt_pairs guest_path = hasIn (relativeToMount corrected mount) mount.backends := by
  unfold MntPoints.exists_
  rw [h]
  rfl

theorem isDirectory_eq :
    MntPoints.isDirectory m_mnt_pairs guest_path = hasDirIn (relativeToMount corrected mount) mount.backends := by
  unfold MntPoints.isDirectory
  rw [h]
  rfl

theorem open_eq : MntPoints.open_ (m := Id) m_mnt_pairs guest_path .read =
      openIn (relativeToMount corrected mount) .read mount.backends := by
  unfold MntPoints.open_
  rw [h]
  rfl

theorem openDir_eq : MntPoints.openDir (m := Id) m_mnt_pairs needs guest_path =
      openDirIn needs (relativeToMount corrected mount) mount.backends := by
  unfold MntPoints.openDir
  rw [h]

theorem iterateDirectory_eq : MntPoints.iterateDirectory (m := Id) m_mnt_pairs needs guest_path =
      iterateIn needs corrected (relativeToMount corrected mount) mount.backends := by
  unfold MntPoints.iterateDirectory
  rw [h]

theorem exists_base : ∃ base, mount.backends.getLast? = some base := by
  unfold locate at h
  split at h
  · cases h
  · split at h
    · cases h
    · obtain ⟨hne, heq⟩ := Option.ite_none_left_eq_some.mp h
      obtain ⟨rfl, -⟩ := Prod.mk.inj (some.inj heq)
      exact ⟨_, getLast?_eq_some_getLast hne⟩

end

theorem AgreeAt.hasDirIn_eq (h : AgreeAt bs rel) (hb : b ∈ bs)
    (hhas : b.has rel = true) : hasDirIn rel bs = b.hasDir rel := by
  obtain ⟨first, hfirst⟩ := exists_owner? (hasIn_iff.mpr ⟨b, hb, hhas⟩)
  obtain ⟨hmem, hfirst_has⟩ := owner?_spec hfirst
  rw [FileSys.hasDirIn_eq, hfirst]
  exact h first hmem b hb hfirst_has hhas

theorem hasIn_of_hasDirIn (h : hasDirIn rel bs = true) : hasIn rel bs = true := by
  rw [hasDirIn_eq] at h
  cases howner : owner? rel bs with
  | none => simp [howner] at h
  | some b =>
    obtain ⟨hmem, hhas⟩ := owner?_spec howner
    exact hasIn_iff.mpr ⟨b, hmem, hhas⟩

theorem Consistent.agreeAt (hlocate : locate m_mnt_pairs guest_path = some (mount, corrected))
    (htrees : ∀ b ∈ mount.backends, b.IsTree)
    (h : Consistent needs m_mnt_pairs guest_path mount (relativeToMount corrected mount)) :
    AgreeAt mount.backends (relativeToMount corrected mount) := by
  have hopen := h.open_iff
  rw [open_eq hlocate, exists_eq hlocate, isDirectory_eq hlocate] at hopen
  have hfile : (openIn (relativeToMount corrected mount) .read mount.backends : Option F).isSome =
      true ↔ _ := openIn_isSome_iff htrees
  have hdir := h.openDir_iff
  rw [openDir_eq hlocate, isDirectory_eq hlocate, openDirIn_isSome_iff htrees] at hdir
  -- Each backend that has the path has it as the overlay does.
  have hsame : ∀ b ∈ mount.backends, b.has (relativeToMount corrected mount) = true →
      b.hasDir (relativeToMount corrected mount) =
        hasDirIn (relativeToMount corrected mount) mount.backends := by
    intro b hb hhas
    cases hb_dir : b.hasDir (relativeToMount corrected mount) with
    | true => exact (hdir.mp ⟨b, hb, hb_dir⟩).symm
    | false =>
      have hnot := (hopen.mp (hfile.mpr ⟨b, hb, hhas, hb_dir⟩)).2
      exact (Bool.eq_false_iff.mpr hnot).symm
  intro b hb b' hb' hhas hhas'
  rw [hsame b hb hhas, hsame b' hb' hhas']

theorem Consistent.caseDistinct (hlocate : locate m_mnt_pairs guest_path = some (mount, corrected))
    (htrees : ∀ b ∈ mount.backends, b.IsTree)
    (h : Consistent true m_mnt_pairs guest_path mount (relativeToMount corrected mount)) :
    CaseDistinct mount.backends (relativeToMount corrected mount) := by
  have hlisting : listing true m_mnt_pairs guest_path =
      newEntries true [] (listed (relativeToMount corrected mount) mount.backends) := by
    unfold listing
    rw [openDir_eq hlocate, getD_openDirIn htrees]
  intro name name' hname hname' hhas hhas' hkey
  obtain ⟨entry, hentry, rfl⟩ := mem_map.mp ((h.listed_iff name hname).mpr hhas)
  obtain ⟨entry', hentry', rfl⟩ := mem_map.mp ((h.listed_iff name' hname').mpr hhas')
  rw [hlisting] at hentry hentry'
  have hnodup := nodup_keysOf_newEntries true [] (listed (relativeToMount corrected mount) mount.backends)
  rw [inj_on_of_nodup_map hnodup hentry hentry' hkey]

end Stack

section Stack

variable {F : Type} {m_mnt_pairs : List (MntPair (IBackend Id F))}
  {guest_path corrected : Text} {mount : MntPair (IBackend Id F)}

end Stack

/-! ## A concrete tree -/

inductive FileTree (F : Type) where
  | file (contents : F)
  | directory (entries : List (Text × FileTree F))

namespace FileTree

variable {F : Type}

def entries? : FileTree F → Option (List (Text × FileTree F))
  | file _ => none
  | directory entries => some entries

def file? : FileTree F → Option F
  | file contents => some contents
  | directory _ => none

def walk (tree : FileTree F) : List Text → Option (FileTree F)
  | [] => some tree
  | name :: rest => tree.entries?.bind fun entries =>
    (entries.lookup name).bind fun child => child.walk rest

/-- The names in every directory are names, and are not repeated. -/
inductive WF : FileTree F → Prop
  | file (contents : F) : WF (.file contents)
  /-- A directory with distinct names and well-formed entries is well formed. -/
  | directory (entries : List (Text × FileTree F)) (nodup : (entries.map Prod.fst).Nodup)
    (isName : ∀ entry ∈ entries, IsName entry.1) (wf : ∀ entry ∈ entries, WF entry.2) :
    WF (.directory entries)

def dirEntry (entry : Text × FileTree F) : DirEntry where
  name := entry.1
  is_directory := entry.2.entries?.isSome

def backend (tree : FileTree F) (root : Option Path) : IBackend Id F where
  exists_ rel := (tree.walk (components rel)).isSome
  isDirectory rel := ((tree.walk (components rel)).bind entries?).isSome
  open_ rel _ := (tree.walk (components rel)).bind file?
  openDir rel := ((tree.walk (components rel)).bind entries?).map fun entries => entries.map dirEntry
  rootHostPath := root

theorem walk_append (tree : FileTree F) (xs ys : List Text) :
    tree.walk (xs ++ ys) = (tree.walk xs).bind fun t => t.walk ys := by
  induction xs generalizing tree with
  | nil => rfl
  | cons name rest ih =>
    rw [cons_append, walk, walk]
    cases tree.entries? with
    | none => rfl
    | some entries =>
      simp only [Option.bind_some]
      cases entries.lookup name with
      | none => rfl
      | some child => exact ih child

variable {tree : FileTree F}

theorem entries?_eq_some_iff {entries : List (Text × FileTree F)} :
    tree.entries? = some entries ↔ tree = .directory entries := by
  cases tree with
  | file contents => exact ⟨nofun, nofun⟩
  | directory es => exact ⟨fun h => congrArg _ (some.inj h), fun h => by cases h; rfl⟩

theorem WF.of_walk (h : tree.WF) {names : List Text} {t : FileTree F}
    (ht : tree.walk names = some t) : t.WF := by
  induction names generalizing tree with
  | nil =>
    obtain rfl := some.inj ht
    exact h
  | cons name rest ih =>
    cases h with
    | file contents => cases ht
    | directory entries nodup isName wf =>
      obtain ⟨_, hentries, hchildren⟩ := bind_eq_some_iff.mp ht
      obtain rfl := some.inj hentries
      obtain ⟨child, hchild, hrest⟩ := bind_eq_some_iff.mp hchildren
      exact ih (wf _ ((lookup_eq_some_iff nodup).mp hchild)) hrest

theorem WF.of_entries (h : tree.WF) {names : List Text}
    {entries : List (Text × FileTree F)} (hentries : (tree.walk names).bind entries? = some entries) :
    (entries.map Prod.fst).Nodup ∧ ∀ entry ∈ entries, IsName entry.1 := by
  obtain ⟨t, ht, heq⟩ := bind_eq_some_iff.mp hentries
  have hwf := h.of_walk ht
  rw [entries?_eq_some_iff.mp heq] at hwf
  cases hwf with
  | directory _ nodup isName _ => exact ⟨nodup, isName⟩

theorem walk_concat (tree : FileTree F) (names : List Text) (name : Text) : tree.walk (names ++ [name]) =
      ((tree.walk names).bind entries?).bind fun entries => entries.lookup name := by
  rw [walk_append, Option.bind_assoc]
  congr 1
  funext t
  show (t.entries?.bind fun entries => (entries.lookup name).bind some) = _
  simp

theorem isTree_backend (h : tree.WF) (root : Option Path) : (tree.backend root).IsTree := by
  have hentries : ∀ {rel : Text} {entries : List DirEntry}, (tree.backend root).entries? rel = some entries → ∃ es,
        (tree.walk (components rel)).bind FileTree.entries? = some es ∧ es.map dirEntry = entries :=
    fun h => Option.map_eq_some_iff.mp h
  have hnames : ∀ es : List (Text × FileTree F), (es.map dirEntry).map DirEntry.name = es.map Prod.fst := fun es => by
    rw [map_map]
    rfl
  constructor
  case has_of_hasDir =>
    intro rel hdir
    obtain ⟨es, hes⟩ := Option.isSome_iff_exists.mp hdir
    obtain ⟨t, ht, -⟩ := bind_eq_some_iff.mp hes
    exact Option.isSome_iff_exists.mpr ⟨t, ht⟩
  case file?_isSome =>
    intro rel
    show ((tree.walk (components rel)).bind FileTree.file?).isSome = ((tree.walk (components rel)).isSome &&
        !((tree.walk (components rel)).bind FileTree.entries?).isSome)
    cases tree.walk (components rel) with
    | none => rfl
    | some t => cases t <;> rfl
  case entries?_isSome =>
    intro rel
    exact Option.isSome_map
  case nodup =>
    intro rel entries hrel
    obtain ⟨es, hes, rfl⟩ := hentries hrel
    rw [hnames]
    exact (h.of_entries hes).1
  case isName =>
    intro rel entries hrel entry hentry
    obtain ⟨es, hes, rfl⟩ := hentries hrel
    obtain ⟨e, he, rfl⟩ := mem_map.mp hentry
    exact (h.of_entries hes).2 e he
  case has_iff =>
    intro rel name hname
    show (tree.walk (components (entryRel rel name))).isSome = true ↔ _
    rw [components_entryRel rel hname, walk_concat, Option.isSome_iff_exists]
    constructor
    · rintro ⟨child, hchild⟩
      obtain ⟨es, hes, hlookup⟩ := bind_eq_some_iff.mp hchild
      refine ⟨es.map dirEntry, Option.map_eq_some_iff.mpr ⟨es, hes, rfl⟩, ?_⟩
      rw [hnames]
      exact mem_map.mpr ⟨_, (lookup_eq_some_iff (h.of_entries hes).1).mp hlookup, rfl⟩
    · rintro ⟨entries, hrel, hmem⟩
      obtain ⟨es, hes, rfl⟩ := hentries hrel
      rw [hnames] at hmem
      obtain ⟨⟨_, child⟩, he, rfl⟩ := mem_map.mp hmem
      refine ⟨child, bind_eq_some_iff.mpr ⟨es, hes, ?_⟩⟩
      exact (lookup_eq_some_iff (h.of_entries hes).1).mpr he
  case is_directory_eq =>
    intro rel entries hrel entry hentry
    obtain ⟨es, hes, rfl⟩ := hentries hrel
    obtain ⟨⟨name, child⟩, he, rfl⟩ := mem_map.mp hentry
    have hname := (h.of_entries hes).2 _ he
    have hchild : tree.walk (components (entryRel rel name)) = some child := by
      rw [components_entryRel rel hname, walk_concat, hes, Option.bind_some]
      exact (lookup_eq_some_iff (h.of_entries hes).1).mpr he
    show child.entries?.isSome = ((tree.walk (components (entryRel rel name))).bind FileTree.entries?).isSome
    rw [hchild]
    rfl
  case congr =>
    intro rel rel' heq
    show _ = (tree.walk (components rel')).isSome ∧
      _ = ((tree.walk (components rel')).bind FileTree.entries?).isSome
    rw [← heq]
    exact ⟨rfl, rfl⟩

end FileTree

/-- A mount at `/app0` whose overlay and base are trees. -/
def treeMount (overlay base : FileTree ℕ) : MntPair (IBackend Id ℕ) where
  host_path := .ofText "/games/G".toList
  mount := "/app0".toList
  read_only := true
  backends := [overlay.backend (some (.ofText "/games/G-mods".toList)),
    base.backend (some (.ofText "/games/G".toList))]

/-- A directory with one entry `a`. -/
def onlyA (a : FileTree ℕ) : FileTree ℕ := .directory [(['a'], a)]

theorem wf_onlyA (h : a.WF) : (onlyA a).WF := by
  refine .directory _ (by simp) (fun entry hentry => ?_) fun entry hentry => ?_
  · rw [mem_singleton.mp hentry]
    show IsName ['a']
    exact ⟨by decide, by decide, by decide, by decide⟩
  · rw [mem_singleton.mp hentry]
    exact h

theorem isTree_of_mem_treeMount (ho : overlay.WF) (hb : base.WF) :
    ∀ b ∈ (treeMount overlay base).backends, b.IsTree := by
  intro b hmem
  rcases mem_pair.mp hmem with rfl | rfl
  · exact FileTree.isTree_backend ho _
  · exact FileTree.isTree_backend hb _

end ShadPS4.FileSys
