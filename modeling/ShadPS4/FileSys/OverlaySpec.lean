import Mathlib.Data.List.Nodup
import Mathlib.Data.List.Perm.Basic
import ShadPS4.FileSys.Overlay

/-!
# What an overlay of file trees presents

A backend that is a tree of files answers always the same, in `Id`; `IBackend.IsTree` is what its answers have to
do with each other.
-/

namespace ShadPS4.FileSys

open List

variable {needs : Bool} {seen : List Text} {xs : List DirEntry} {entry : DirEntry}

section Tree

variable {F : Type} (b : IBackend Id F) (rel : Text)

def IBackend.has : Bool := b.exists_ rel

def IBackend.hasDir : Bool := b.isDirectory rel

def IBackend.file? : Option F := b.open_ rel .read

def IBackend.entries? : Option (List DirEntry) := b.openDir rel

end Tree

/-- The backend shows one tree of files: its answers about a path and about the names in a directory
belong together. -/
structure IBackend.IsTree {F : Type} (b : IBackend Id F) : Prop where
  has_of_hasDir : ∀ rel, b.hasDir rel = true → b.has rel = true
  file?_isSome : ∀ rel, (b.file? rel).isSome = (b.has rel && !b.hasDir rel)
  entries?_isSome : ∀ rel, (b.entries? rel).isSome = b.hasDir rel
  nodup : ∀ rel entries, b.entries? rel = some entries → (entries.map DirEntry.name).Nodup
  isName : ∀ rel entries, b.entries? rel = some entries → ∀ entry ∈ entries, IsName entry.name
  has_iff : ∀ rel name, IsName name → (b.has (entryRel rel name) = true ↔
    ∃ entries, b.entries? rel = some entries ∧ name ∈ entries.map DirEntry.name)
  is_directory_eq : ∀ rel entries, b.entries? rel = some entries → ∀ entry ∈ entries,
    entry.is_directory = b.hasDir (entryRel rel entry.name)
  congr : ∀ rel rel', components rel = components rel' →
    b.has rel = b.has rel' ∧ b.hasDir rel = b.hasDir rel'

section Stack

variable {F : Type} {bs : List (IBackend Id F)} {rel : Text}

def hasIn (rel : Text) (bs : List (IBackend Id F)) : Bool := existsIn rel bs

def hasDirIn (rel : Text) (bs : List (IBackend Id F)) : Bool := isDirectoryIn rel bs

theorem hasIn_iff : hasIn rel bs = true ↔ ∃ b ∈ bs, b.has rel = true := by
  induction bs with
  | nil => exact ⟨nofun, fun ⟨_, hmem, _⟩ => absurd hmem not_mem_nil⟩
  | cons b bs ih =>
    have hstep : hasIn rel (b :: bs) = if b.has rel = true then true else hasIn rel bs := rfl
    rw [hstep]
    split <;> simp_all

/-- The first backend that has the path. -/
def owner? (rel : Text) (bs : List (IBackend Id F)) : Option (IBackend Id F) :=
  bs.find? fun b => b.has rel

theorem hasDirIn_eq : hasDirIn rel bs = ((owner? rel bs).map (·.hasDir rel)).getD false := by
  induction bs with
  | nil => rfl
  | cons b bs ih =>
    have hstep : hasDirIn rel (b :: bs) =
        if b.has rel = true then b.hasDir rel else hasDirIn rel bs := rfl
    unfold owner? at ih ⊢
    rw [hstep, find?_cons, ih]
    cases b.has rel <;> rfl

theorem owner?_spec (h : owner? rel bs = some b) : b ∈ bs ∧ b.has rel = true := by
  unfold owner? at h
  exact ⟨mem_of_find?_eq_some h, by simpa using find?_some h⟩

theorem exists_owner? (h : hasIn rel bs = true) : ∃ b, owner? rel bs = some b := by
  obtain ⟨b, hmem, hb⟩ := hasIn_iff.mp h
  exact Option.isSome_iff_exists.mp (find?_isSome.mpr ⟨b, hmem, hb⟩)

theorem openIn_isSome_iff (htrees : ∀ b ∈ bs, b.IsTree) : (openIn rel .read bs : Option F).isSome = true ↔
      ∃ b ∈ bs, b.has rel = true ∧ b.hasDir rel = false := by
  induction bs with
  | nil => exact ⟨nofun, fun ⟨_, hmem, _⟩ => absurd hmem not_mem_nil⟩
  | cons b bs ih =>
    have hstep : (openIn rel .read (b :: bs) : Option F) =
        if (if b.has rel = true then b.hasDir rel == false else false) = true then b.file? rel
        else openIn rel .read bs := rfl
    have hfile := (htrees b (by simp)).file?_isSome rel
    cases hex : b.has rel <;> cases hdir : b.hasDir rel <;> simp_all

/-! ## Directories that are merged -/

/-- The entries that the backends list, in their order. -/
def listed (rel : Text) (bs : List (IBackend Id F)) : List DirEntry :=
  bs.flatMap fun b => (b.entries? rel).getD []

/-- The entries with a new key, each key once. -/
def newEntries (needs : Bool) : List Text → List DirEntry → List DirEntry
  | _, [] => []
  | seen, entry :: rest =>
    if emitKey needs entry.name ∈ seen then newEntries needs seen rest
    else entry :: newEntries needs (seen ++ [emitKey needs entry.name]) rest

def keysOf (needs : Bool) (entries : List DirEntry) : List Text :=
  entries.map fun entry => emitKey needs entry.name

theorem newEntries_append (needs : Bool) (seen : List Text) (xs ys : List DirEntry) :
    newEntries needs seen (xs ++ ys) = newEntries needs seen xs ++
      newEntries needs (seen ++ keysOf needs (newEntries needs seen xs)) ys := by
  induction xs generalizing seen with
  | nil => simp [newEntries, keysOf]
  | cons entry rest ih =>
    rw [cons_append, newEntries, newEntries]
    split
    · exact ih seen
    · rw [ih, cons_append]
      simp [keysOf]

theorem foldl_mergeEntry (needs : Bool) (state : Merge) (entries : List DirEntry) :
    entries.foldl (mergeEntry needs) state = { state with
      seen := state.seen ++ keysOf needs (newEntries needs state.seen entries)
      entries := state.entries ++ newEntries needs state.seen entries } := by
  induction entries generalizing state with
  | nil => simp [newEntries, keysOf]
  | cons entry rest ih =>
    rw [foldl_cons, ih, mergeEntry, newEntries]
    split
    · rfl
    · simp [keysOf]

theorem mem_newEntries_iff : entry ∈ newEntries needs seen xs ↔ emitKey needs entry.name ∉ seen ∧
      xs.find? (fun x => emitKey needs x.name = emitKey needs entry.name) = some entry := by
  induction xs generalizing seen with
  | nil => simp [newEntries]
  | cons x rest ih =>
    rw [newEntries, find?_cons]
    by_cases hkey : emitKey needs x.name = emitKey needs entry.name
    · rw [decide_eq_true hkey]
      simp only [Option.some.injEq]
      split
      · rename_i hseen
        rw [ih]
        rw [hkey] at hseen
        exact ⟨fun h => absurd hseen h.1, fun h => absurd hseen h.1⟩
      · rename_i hseen
        rw [mem_cons, ih, ← hkey]
        constructor
        · rintro (rfl | ⟨hnot, -⟩)
          · exact ⟨hseen, rfl⟩
          · simp at hnot
        · rintro ⟨-, rfl⟩
          exact .inl rfl
    · rw [decide_eq_false hkey]
      split
      · exact ih
      · have hne : entry ≠ x := fun he => hkey (he ▸ rfl)
        rw [mem_cons, ih, mem_append, mem_singleton]
        simp [hne, Ne.symm hkey]

theorem nodup_keysOf_newEntries (needs : Bool) (seen : List Text) (xs : List DirEntry) :
    (keysOf needs (newEntries needs seen xs)).Nodup := by
  induction xs generalizing seen with
  | nil => exact nodup_nil
  | cons x rest ih =>
    rw [newEntries]
    split
    · exact ih seen
    · refine nodup_cons.mpr ⟨fun hmem => ?_, ih _⟩
      obtain ⟨entry, hentry, heq⟩ := mem_map.mp hmem
      have hnew := (mem_newEntries_iff.mp hentry).1
      rw [heq] at hnew
      simp at hnew

theorem nodup_names_of_nodup_keysOf (h : (keysOf needs xs).Nodup) : (xs.map DirEntry.name).Nodup := by
  have hkeys : keysOf needs xs = (xs.map DirEntry.name).map (emitKey needs) := by
    rw [map_map]
    rfl
  rw [hkeys] at h
  exact h.of_map _

theorem mergeBackend_eq (needs : Bool) (state : Merge) (htree : b.IsTree) :
    mergeBackend needs rel state b = (if b.hasDir rel = true then
      ((b.entries? rel).getD []).foldl (mergeEntry needs) { state with found := true }
      else state : Merge) := by
  have hstep : (mergeBackend needs rel state b : Merge) =
      if (if b.has rel = true then b.hasDir rel == true else false) = true then
        (b.entries? rel).elim { state with found := true } fun entries =>
          entries.foldl (mergeEntry needs) { state with found := true }
      else state := by
    unfold mergeBackend IBackend.entries?
    cases b.openDir rel <;> rfl
  refine Eq.trans hstep ?_
  have hhas := htree.has_of_hasDir rel
  cases hdir : b.hasDir rel with
  | false => cases b.has rel <;> simp
  | true =>
    rw [hhas hdir]
    cases hentries : b.entries? rel with
    | none => simp
    | some entries => simp

theorem foldlM_mergeBackend (needs : Bool) (state : Merge) (htrees : ∀ b ∈ bs, b.IsTree) :
    (bs.foldlM (mergeBackend needs rel) state : Id Merge) = ({
      found := state.found || bs.any (·.hasDir rel)
      seen := state.seen ++ keysOf needs (newEntries needs state.seen (listed rel bs))
      entries := state.entries ++ newEntries needs state.seen (listed rel bs) } : Merge) := by
  induction bs generalizing state with
  | nil => simp [listed, newEntries, keysOf, pure]
  | cons b bs ih =>
    have htree := htrees b (by simp)
    have hsome := htree.entries?_isSome rel
    have hlisted : listed rel (b :: bs) = (b.entries? rel).getD [] ++ listed rel bs := rfl
    rw [foldlM_cons, mergeBackend_eq needs state htree, hlisted, newEntries_append]
    show foldlM (mergeBackend needs rel) _ bs = _
    rw [ih _ fun b' hb' => htrees b' (mem_cons_of_mem _ hb')]
    cases hdir : b.hasDir rel with
    | true =>
      simp only [if_true, foldl_mergeEntry, keysOf, map_append, append_assoc,
        Bool.true_or, any_cons, hdir, Bool.or_true]
    | false =>
      rw [hdir, Option.isSome_eq_false_iff, Option.isNone_iff_eq_none] at hsome
      simp [hsome, newEntries, keysOf, hdir]

theorem openDirIn_eq (needs : Bool) (htrees : ∀ b ∈ bs, b.IsTree) : openDirIn needs rel bs =
      (if bs.any (·.hasDir rel) = true then some (newEntries needs [] (listed rel bs)) else none :
        Option (List DirEntry)) := by
  have hstep : (openDirIn needs rel bs : Option (List DirEntry)) =
      if (bs.foldlM (mergeBackend needs rel) {} : Id Merge).found = true then
        some (bs.foldlM (mergeBackend needs rel) {} : Id Merge).entries else none := rfl
  refine Eq.trans hstep ?_
  rw [foldlM_mergeBackend needs {} htrees]
  rfl

/-! ## The names in a directory -/

theorem mem_names_listed_iff (htrees : ∀ b ∈ bs, b.IsTree) (hname : IsName name) :
    name ∈ (listed rel bs).map DirEntry.name ↔ hasIn (entryRel rel name) bs = true := by
  rw [hasIn_iff, mem_map]
  constructor
  · rintro ⟨entry, hentry, rfl⟩
    obtain ⟨b, hb, hmem⟩ := mem_flatMap.mp hentry
    refine ⟨b, hb, ((htrees b hb).has_iff rel entry.name hname).mpr ?_⟩
    cases hentries : b.entries? rel with
    | none => simp [hentries] at hmem
    | some entries =>
      rw [hentries] at hmem
      exact ⟨entries, rfl, mem_map_of_mem hmem⟩
  · rintro ⟨b, hb, hhas⟩
    obtain ⟨entries, hentries, hmem⟩ := ((htrees b hb).has_iff rel name hname).mp hhas
    obtain ⟨entry, hentry, rfl⟩ := mem_map.mp hmem
    refine ⟨entry, mem_flatMap.mpr ⟨b, hb, ?_⟩, rfl⟩
    rw [hentries]
    exact hentry

theorem isName_of_mem_listed (htrees : ∀ b ∈ bs, b.IsTree) (h : entry ∈ listed rel bs) : IsName entry.name := by
  obtain ⟨b, hb, hmem⟩ := mem_flatMap.mp h
  cases hentries : b.entries? rel with
  | none => simp [hentries] at hmem
  | some entries =>
    rw [hentries] at hmem
    exact (htrees b hb).isName rel entries hentries entry hmem

theorem mem_of_mem_newEntries (h : entry ∈ newEntries needs seen xs) : entry ∈ xs :=
  mem_of_find?_eq_some (mem_newEntries_iff.mp h).2

theorem mem_names_newEntries (hinj : ∀ entry ∈ xs, emitKey needs entry.name = emitKey needs name → entry.name = name)
    (hmem : name ∈ xs.map DirEntry.name) (hseen : emitKey needs name ∉ seen) :
    name ∈ (newEntries needs seen xs).map DirEntry.name := by
  obtain ⟨entry, hentry, rfl⟩ := mem_map.mp hmem
  obtain ⟨first, hfirst⟩ : ∃ first,
      xs.find? (fun x => emitKey needs x.name = emitKey needs entry.name) = some first :=
    Option.isSome_iff_exists.mp (find?_isSome.mpr ⟨entry, hentry, by simp⟩)
  have hkey : emitKey needs first.name = emitKey needs entry.name := by
    simpa using find?_some hfirst
  rw [← hkey] at hfirst hseen
  refine mem_map.mpr ⟨first, mem_newEntries_iff.mpr ⟨hseen, hfirst⟩, ?_⟩
  exact hinj first (mem_of_find?_eq_some hfirst) hkey

theorem is_directory_of_mem_newEntries (htrees : ∀ b ∈ bs, b.IsTree) (h : entry ∈ newEntries needs [] (listed rel bs)) :
    entry.is_directory = hasDirIn (entryRel rel entry.name) bs := by
  have hname := isName_of_mem_listed htrees (mem_of_mem_newEntries h)
  have hfirst := (mem_newEntries_iff.mp h).2
  unfold listed at hfirst
  rw [find?_flatMap, findSome?_eq_some_iff] at hfirst
  obtain ⟨before, b, after, rfl, hb, hnone⟩ := hfirst
  have htree := htrees b (by simp)
  -- The entry is from the first backend with an entry of its name.
  obtain ⟨entries, hentries⟩ : ∃ entries, b.entries? rel = some entries := by
    cases hcase : b.entries? rel with
    | none => simp [hcase] at hb
    | some entries => exact ⟨entries, rfl⟩
  rw [hentries] at hb
  have hmem : entry ∈ entries := mem_of_find?_eq_some hb
  have howner : owner? (entryRel rel entry.name) (before ++ b :: after) = some b := by
    unfold owner?
    rw [find?_append, find?_eq_none.mpr, Option.none_or, find?_cons_of_pos]
    · exact (htree.has_iff rel entry.name hname).mpr ⟨entries, hentries, mem_map_of_mem hmem⟩
    · intro b' hb' hhas
      obtain ⟨entries', hentries', hmem'⟩ :=
        ((htrees b' (by simp [hb'])).has_iff rel entry.name hname).mp hhas
      obtain ⟨entry', hentry', heq⟩ := mem_map.mp hmem'
      have := hnone b' hb'
      rw [hentries', find?_eq_none] at this
      exact this entry' hentry' (by simp [heq])
  rw [hasDirIn_eq, howner]
  exact htree.is_directory_eq rel entries hentries entry hmem

/-! ## The entries that are iterated -/

/-- The host path under which an entry is reported. -/
def hostAt (base_host : Path) (rel : Text) (bs : List (IBackend Id F)) (leaf : Text) : Path :=
  Option.getD (Option.map Prod.fst (resolveLeaf base_host rel leaf bs)) {}

theorem resolveLeaf_spec (hname : IsName leaf)
    (h : hasIn (entryRel rel leaf) bs = true) : resolveLeaf base_host rel leaf bs =
        (some (hostAt base_host rel bs leaf, hasDirIn (entryRel rel leaf) bs) : Option (Path × Bool)) ∧
      (hostAt base_host rel bs leaf).filename = leaf := by
  have hleaf : Path.ofText leaf = .ofName leaf := by
    unfold Path.ofText Path.ofName
    rw [hname.components, if_neg]
    · congr 1
      rw [decide_eq_false_iff_not]
      exact fun hhead => hname.2.1 (mem_of_head? hhead)
    · exact fun hlast => hname.2.1 (mem_of_getLast? hlast.2)
  induction bs with
  | nil =>
    obtain ⟨b, hmem, -⟩ := hasIn_iff.mp h
    exact absurd hmem not_mem_nil
  | cons b bs ih =>
    have hdir : hasDirIn (entryRel rel leaf) (b :: bs) = if b.has (entryRel rel leaf) = true then
        b.hasDir (entryRel rel leaf) else hasDirIn (entryRel rel leaf) bs := rfl
    cases hex : b.has (entryRel rel leaf) with
    | true =>
      have hresolve : (resolveLeaf base_host rel leaf (b :: bs) : Option (Path × Bool)) =
          if b.has (entryRel rel leaf) = true then
            some (b.rootHostPath.elim (base_host.append (.ofText leaf)) fun root =>
              if rel = [] then root.append (.ofText leaf)
              else (root.append (.ofText rel)).append (.ofText leaf), b.hasDir (entryRel rel leaf))
          else resolveLeaf base_host rel leaf bs := by
        rw [resolveLeaf]
        cases b.rootHostPath <;> rfl
      unfold hostAt
      rw [show (resolveLeaf base_host rel leaf (b :: bs) : Option (Path × Bool)) = _ from hresolve,
        hdir, hex, if_pos rfl, if_pos rfl, hleaf]
      refine ⟨rfl, ?_⟩
      cases b.rootHostPath with
      | none => exact Path.filename_append_ofName _ _
      | some root =>
        show Path.filename (if _ then _ else _) = _
        split <;> exact Path.filename_append_ofName _ _
    | false =>
      have hrest : resolveLeaf base_host rel leaf (b :: bs) = resolveLeaf base_host rel leaf bs := by
        have hresolve : (resolveLeaf base_host rel leaf (b :: bs) : Option (Path × Bool)) =
            if b.has (entryRel rel leaf) = true then _ else resolveLeaf base_host rel leaf bs := rfl
        rw [hex] at hresolve
        exact hresolve
      have hhas : hasIn (entryRel rel leaf) bs = true := by
        obtain ⟨b', hmem, hb'⟩ := hasIn_iff.mp h
        rcases mem_cons.mp hmem with rfl | hmem
        · rw [hex] at hb'
          exact absurd hb' (by decide)
        · exact hasIn_iff.mpr ⟨b', hmem, hb'⟩
      unfold hostAt
      rw [hdir, hex, hrest]
      exact ih hhas

def reportOf (base_host : Path) (rel : Text) (bs : List (IBackend Id F)) (entry : DirEntry) : Path × Bool :=
  (hostAt base_host rel bs entry.name, !hasDirIn (entryRel rel entry.name) bs)

variable (needs : Bool)

/-- The state after some entries were reported. -/
def Iteration.report (base_host : Path) (rel : Text) (bs : List (IBackend Id F))
    (state : Iteration) (entries : List DirEntry) : Iteration where
  emitted := state.emitted ++ keysOf needs entries
  calls := state.calls ++ entries.map (reportOf base_host rel bs)

theorem emitEntry_eq (base_host : Path) (state : Iteration)
    (hname : IsName entry.name) (h : hasIn (entryRel rel entry.name) bs = true) :
    emitEntry needs (fun leaf => resolveLeaf base_host rel leaf bs) state entry =
      (state.report needs base_host rel bs [entry] : Iteration) := by
  have hstep : (emitEntry needs (fun leaf => resolveLeaf base_host rel leaf bs) state entry : Iteration) =
      match (resolveLeaf base_host rel entry.name bs : Option (Path × Bool)) with
      | none => state
      | some hit => {
        emitted := state.emitted ++ [emitKey needs entry.name]
        calls := state.calls ++ [(hit.1, !hit.2)] } := rfl
  refine Eq.trans hstep ?_
  rw [(resolveLeaf_spec hname h).1]
  rfl

theorem foldlM_emitEntry (base_host : Path) (state : Iteration)
    (h : ∀ entry ∈ entries, IsName entry.name ∧ hasIn (entryRel rel entry.name) bs = true) :
    (entries.foldlM (emitEntry needs fun leaf => resolveLeaf base_host rel leaf bs) state :
      Id Iteration) = (state.report needs base_host rel bs entries : Iteration) := by
  induction entries generalizing state with
  | nil => simp [Iteration.report, keysOf, pure]
  | cons entry rest ih =>
    obtain ⟨hname, hhas⟩ := h entry (by simp)
    rw [foldlM_cons, emitEntry_eq needs base_host state hname hhas]
    refine Eq.trans (ih _ fun e he => h e (mem_cons_of_mem _ he)) ?_
    simp [Iteration.report, keysOf]

theorem foldlM_emitNewEntry (base_host : Path) (state : Iteration)
    (h : ∀ entry ∈ entries, IsName entry.name ∧ hasIn (entryRel rel entry.name) bs = true) :
    (entries.foldlM (emitNewEntry needs fun leaf => resolveLeaf base_host rel leaf bs) state : Id Iteration) =
      (state.report needs base_host rel bs (newEntries needs state.emitted entries) : Iteration) := by
  induction entries generalizing state with
  | nil => simp [Iteration.report, keysOf, newEntries, pure]
  | cons entry rest ih =>
    obtain ⟨hname, hhas⟩ := h entry (by simp)
    have ih := fun state => ih state fun e he => h e (mem_cons_of_mem _ he)
    rw [foldlM_cons, emitNewEntry, newEntries]
    split
    · exact ih state
    · rw [emitEntry_eq needs base_host state hname hhas]
      refine Eq.trans (ih _) ?_
      simp [Iteration.report, keysOf]

theorem foldlM_emitDirectory (base_host : Path) (state : Iteration) (h : ∀ entry ∈ listed rel overlays,
      IsName entry.name ∧ hasIn (entryRel rel entry.name) bs = true) : (overlays.foldlM (emitDirectory rel
      (emitNewEntry needs fun leaf => resolveLeaf base_host rel leaf bs)) state : Id Iteration) =
      (state.report needs base_host rel bs (newEntries needs state.emitted (listed rel overlays)) : Iteration) := by
  induction overlays generalizing state with
  | nil => simp [Iteration.report, keysOf, newEntries, listed, pure]
  | cons b overlays ih =>
    have hlisted : listed rel (b :: overlays) = (b.entries? rel).getD [] ++ listed rel overlays := rfl
    rw [hlisted] at h ⊢
    have ih := fun state => ih state fun e he => h e (mem_append_right _ he)
    have hstep : (emitDirectory rel (emitNewEntry needs fun leaf => resolveLeaf base_host rel leaf bs)
        state b : Iteration) = state.report needs base_host rel bs
          (newEntries needs state.emitted ((b.entries? rel).getD [])) := by
      cases hentries : b.entries? rel with
      | none =>
        unfold emitDirectory
        rw [show b.openDir rel = none from hentries]
        simp [Iteration.report, keysOf, newEntries]
        rfl
      | some entries =>
        unfold emitDirectory
        rw [show b.openDir rel = some entries from hentries]
        rw [hentries] at h
        exact foldlM_emitNewEntry needs base_host state fun e he => h e (mem_append_left _ he)
    rw [foldlM_cons, hstep, newEntries_append]
    refine Eq.trans (ih _) ?_
    simp [Iteration.report, keysOf]

theorem iterateIn_eq (corrected : Text) (htrees : ∀ b ∈ bs, b.IsTree)
    (hbase : bs.getLast? = some base) : iterateIn needs corrected rel bs =
      ((((baseHost corrected rel base).append (.ofName ['.']), false) ::
        ((baseHost corrected rel base).append (.ofName dotdot), false) ::
        ((base.entries? rel).getD [] ++ newEntries needs (keysOf needs ((base.entries? rel).getD []))
          (listed rel bs.dropLast.reverse)).map (reportOf (baseHost corrected rel base) rel bs)) :
        List (Path × Bool)) := by
  -- Whatever a backend lists exists in the overlay.
  have hlisted : ∀ b ∈ bs, ∀ entry ∈ (b.entries? rel).getD [],
      IsName entry.name ∧ hasIn (entryRel rel entry.name) bs = true := by
    intro b hb entry hentry
    have hmem : entry ∈ listed rel bs := mem_flatMap.mpr ⟨b, hb, hentry⟩
    have hname := isName_of_mem_listed htrees hmem
    exact ⟨hname, (mem_names_listed_iff htrees hname).mp (mem_map_of_mem hmem)⟩
  have hbase_mem : base ∈ bs := mem_of_getLast? hbase
  have hoverlays : ∀ entry ∈ listed rel bs.dropLast.reverse,
      IsName entry.name ∧ hasIn (entryRel rel entry.name) bs = true := by
    intro entry hentry
    obtain ⟨b, hb, hmem⟩ := mem_flatMap.mp hentry
    exact hlisted b (mem_of_mem_dropLast (mem_reverse.mp hb)) entry hmem
  generalize hhost : baseHost corrected rel base = base_host
  have hfirst : ∀ state : Iteration,
      (emitDirectory rel (emitEntry needs fun leaf => resolveLeaf base_host rel leaf bs) state base :
        Iteration) = state.report needs base_host rel bs ((base.entries? rel).getD []) := by
    intro state
    have hall := hlisted base hbase_mem
    unfold emitDirectory
    cases hentries : base.entries? rel with
    | none =>
      rw [show base.openDir rel = none from hentries]
      simp [Iteration.report, keysOf]
      rfl
    | some entries =>
      rw [show base.openDir rel = some entries from hentries]
      rw [hentries] at hall
      exact foldlM_emitEntry needs base_host state hall
  have hstep : (iterateIn needs corrected rel bs : List (Path × Bool)) = Iteration.calls (bs.dropLast.reverse.foldlM
        (emitDirectory rel (emitNewEntry needs fun leaf => resolveLeaf base_host rel leaf bs))
        (emitDirectory rel (emitEntry needs fun leaf => resolveLeaf base_host rel leaf bs) {
          calls := [(base_host.append (.ofName ['.']), false),
            (base_host.append (.ofName dotdot), false)] } base : Iteration) : Id Iteration) := by
    unfold iterateIn
    rw [hbase]
    subst hhost
    rfl
  refine Eq.trans hstep ?_
  rw [hfirst, foldlM_emitDirectory needs base_host _ hoverlays]
  simp [Iteration.report]

end Stack

end ShadPS4.FileSys
