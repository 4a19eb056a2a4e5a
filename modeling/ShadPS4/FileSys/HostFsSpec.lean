import ShadPS4.FileSys.HostFs
import ShadPS4.Lib.Keeps
import ShadPS4.Lib.Registry

/-!
# Where host paths lead

The caches say where a path was found by its names in lower case. What they keep has the same names as asked for,
up to case (`SameCase`, `CaseCached`), whatever was asked for before.
-/

namespace ShadPS4.FileSys

open List
open Option (some.inj)

variable {lowered part s : Text} {path_cache path_cache' : List (Path × Path)} {fs : HostFs}
  {parts : List Text} {current root : Path}

theorem toLower_char_eq_iff (hd : d = '/' ∨ d = '.') : c.toLower = d ↔ c = d := by
  constructor
  · intro h
    unfold Char.toLower at h
    split at h
    · rename_i hupper
      -- A capital letter becomes a letter.
      have hval : (c.val + ('a'.val - 'A'.val)).toNat = d.val.toNat := by rw [← h]
      rw [UInt32.toNat_add] at hval
      have hlow : 65 ≤ c.val.toNat := UInt32.le_iff_toNat_le.mp hupper.1
      have hhigh : c.val.toNat ≤ 90 := UInt32.le_iff_toNat_le.mp hupper.2
      have hshift : ('a'.val - 'A'.val).toNat = 32 := rfl
      rcases hd with rfl | rfl
      · have : ('/' : Char).val.toNat = 47 := rfl
        omega
      · have : ('.' : Char).val.toNat = 46 := rfl
        omega
    · exact h
  · rintro rfl
    rcases hd with rfl | rfl <;> rfl

theorem toLower_eq_nil_iff : toLower s = [] ↔ s = [] := map_eq_nil_iff

theorem slash_mem_toLower_iff : '/' ∈ toLower s ↔ '/' ∈ s := by
  unfold toLower
  rw [mem_map]
  constructor
  · rintro ⟨c, hc, heq⟩
    rw [(toLower_char_eq_iff (.inl rfl)).mp heq] at hc
    exact hc
  · intro h
    exact ⟨'/', h, rfl⟩

theorem toLower_eq_dotdot_iff : toLower s = dotdot ↔ s = dotdot := by
  constructor
  · intro h
    obtain ⟨c, t, rfl, hc, ht⟩ := map_eq_cons_iff.mp h
    obtain ⟨d, u, rfl, hd, hu⟩ := map_eq_cons_iff.mp ht
    rw [List.map_eq_nil_iff.mp hu, (toLower_char_eq_iff (.inr rfl)).mp hc, (toLower_char_eq_iff (.inr rfl)).mp hd]
    rfl
  · rintro rfl
    rfl

theorem dotdot_mem_map_toLower_iff {names : List Text} : dotdot ∈ names.map toLower ↔ dotdot ∈ names := by
  rw [mem_map]
  constructor
  · rintro ⟨name, hname, heq⟩
    rw [toLower_eq_dotdot_iff.mp heq] at hname
    exact hname
  · intro h
    exact ⟨dotdot, h, rfl⟩

/-! ## Paths with the same names up to case -/

def SameCase (p q : Path) : Prop :=
  p.absolute = q.absolute ∧ p.names.map toLower = q.names.map toLower

def CacheOk (path_cache : List (Path × Path)) : Prop :=
  ∀ entry ∈ path_cache, SameCase entry.1 entry.2

theorem CacheOk.lookup (h : CacheOk path_cache) (hfound : path_cache.lookup p = some found) : SameCase p found :=
  h _ (mem_of_lookup hfound)

def nonempty (elements : List Text) : List Text := elements.filter (· ≠ [])

theorem names_append_elementPath (p : Path) (element : Text) :
    (p.append (elementPath element)).names = p.names ++ nonempty [element] := by
  rw [Path.names_append rfl]
  unfold elementPath nonempty Path.names
  split
  · rename_i h
    rw [h]
    rfl
  · rfl

theorem map_nonempty_congr (h : toLower a = toLower b) : (nonempty [a]).map toLower = (nonempty [b]).map toLower := by
  have hnil : a = [] ↔ b = [] := by rw [← toLower_eq_nil_iff, h, toLower_eq_nil_iff]
  unfold nonempty
  by_cases ha : a = []
  · rw [ha, hnil.mp ha]
  · rw [filter_cons_of_pos (by simpa using ha),
      filter_cons_of_pos (by simpa [← hnil] using ha)]
    exact congrArg (· :: []) h

theorem climb_spec (hcache : CacheOk path_cache)
    (h : climb fs path_cache absolute rev path_parts = some (current, parts)) : current.absolute = absolute ∧
      (current.names ++ nonempty parts).map toLower = (nonempty (rev.reverse ++ path_parts)).map toLower := by
  induction rev generalizing path_parts with
  | nil =>
    unfold climb at h
    split at h
    · rename_i hrel
      obtain ⟨rfl, rfl⟩ := Prod.mk.inj (some.inj h)
      exact ⟨hrel.symm, rfl⟩
    · rename_i habs
      rw [Bool.not_eq_false] at habs
      subst habs
      split at h
      · obtain ⟨rfl, rfl⟩ := Prod.mk.inj (some.inj h)
        exact ⟨rfl, rfl⟩
      · split at h
        · rename_i found hfound
          obtain ⟨rfl, rfl⟩ := Prod.mk.inj (some.inj h)
          obtain ⟨habs, hnames⟩ := hcache.lookup hfound
          refine ⟨habs.symm, ?_⟩
          rw [map_append, ← hnames]
          rfl
        · cases h
  | cons element rest ih =>
    have hsplit : nonempty ((element :: rest).reverse ++ path_parts) =
        nonempty ((element :: rest).reverse) ++ nonempty path_parts := filter_append _ _
    unfold climb at h
    simp only at h
    split at h
    · obtain ⟨rfl, rfl⟩ := Prod.mk.inj (some.inj h)
      exact ⟨rfl, by rw [hsplit]; rfl⟩
    · split at h
      · rename_i found hfound
        obtain ⟨rfl, rfl⟩ := Prod.mk.inj (some.inj h)
        obtain ⟨habs, hnames⟩ := hcache.lookup hfound
        refine ⟨habs.symm, ?_⟩
        rw [hsplit, map_append, ← hnames, ← map_append]
        rfl
      · obtain ⟨habs, hnames⟩ := ih h
        refine ⟨habs, ?_⟩
        rw [hnames, reverse_cons, append_assoc, singleton_append]

theorem descend_spec (hcache : CacheOk path_cache) (hsame : SameCase guest current)
    (h : descend fs parts current guest path_cache = (result, path_cache')) :
    CacheOk path_cache' ∧ ∀ p, result = some (some p) → p.absolute = current.absolute ∧
      p.names.map toLower = (current.names ++ nonempty parts).map toLower := by
  induction parts generalizing current guest path_cache with
  | nil =>
    obtain ⟨rfl, rfl⟩ := Prod.mk.inj h
    refine ⟨hcache, fun p hp => ?_⟩
    obtain rfl := some.inj (some.inj hp)
    exact ⟨rfl, by simp [nonempty]⟩
  | cons part rest ih =>
    have hsplit : nonempty (part :: rest) = nonempty [part] ++ nonempty rest :=
      filter_append [part] rest
    -- One element further down, under a name with the same lower case.
    have hstep : ∀ name, toLower name = toLower part →
        descend fs rest (current.append (elementPath name)) (guest.append (elementPath part))
          ((guest.append (elementPath part), current.append (elementPath name)) :: path_cache) =
          (result, path_cache') →
        CacheOk path_cache' ∧ ∀ p, result = some (some p) → p.absolute = current.absolute ∧
          p.names.map toLower = (current.names ++ nonempty (part :: rest)).map toLower := by
      intro name hname hrest
      have hlower := map_nonempty_congr hname
      have hnext : SameCase (guest.append (elementPath part)) (current.append (elementPath name)) := by
        refine ⟨?_, ?_⟩
        · rw [Path.absolute_append rfl, Path.absolute_append rfl, hsame.1]
        · rw [names_append_elementPath, names_append_elementPath, map_append, map_append, hsame.2, hlower]
      obtain ⟨hcache', hresult⟩ := ih (forall_mem_cons.mpr ⟨hnext, hcache⟩) hnext hrest
      refine ⟨hcache', fun p hp => ?_⟩
      obtain ⟨habs, hnames⟩ := hresult p hp
      refine ⟨habs.trans (Path.absolute_append rfl), ?_⟩
      rw [hnames, names_append_elementPath, hsplit]
      simp only [map_append, hlower, append_assoc]
    unfold descend at h
    split at h
    · exact hstep part rfl h
    · split at h
      · obtain ⟨rfl, rfl⟩ := Prod.mk.inj h
        exact ⟨hcache, nofun⟩
      · split at h
        · obtain ⟨rfl, rfl⟩ := Prod.mk.inj h
          exact ⟨hcache, nofun⟩
        · rename_i name hfind
          exact hstep name (by simpa using find?_some hfind) h

theorem search_spec (hcache : CacheOk path_cache) (h : search fs host_path path_cache = (result, path_cache')) :
    CacheOk path_cache' ∧ ∀ p, result = some (some p) → p = {} ∨ SameCase host_path p := by
  unfold search at h
  split at h
  · obtain ⟨rfl, rfl⟩ := Prod.mk.inj h
    exact ⟨hcache, nofun⟩
  · rename_i current parts hclimb
    obtain ⟨habs, hnames⟩ := climb_spec hcache hclimb
    rw [append_nil, reverse_reverse] at hnames
    split at h
    · rename_i hempty
      obtain ⟨rfl, rfl⟩ := Prod.mk.inj h
      unfold Path.empty at hempty
      obtain ⟨a, es⟩ := current
      simp_all
    · obtain ⟨hcache', hresult⟩ := descend_spec hcache ⟨rfl, rfl⟩ h
      refine ⟨hcache', fun p hp => .inr ?_⟩
      obtain ⟨hp_abs, hp_names⟩ := hresult p hp
      exact ⟨by rw [hp_abs, habs], by rw [hp_names, hnames]; rfl⟩

theorem searchAll_spec (hcache : CacheOk path_cache)
    (h : searchAll fs otherwise paths path_cache = (result, path_cache')) :
    CacheOk path_cache' ∧ ∀ p, result = some p → p = otherwise ∨ p = {} ∨ ∃ path ∈ paths, SameCase path p := by
  induction paths generalizing path_cache with
  | nil =>
    obtain ⟨rfl, rfl⟩ := Prod.mk.inj h
    exact ⟨hcache, fun p hp => .inl (some.inj hp).symm⟩
  | cons path rest ih =>
    unfold searchAll at h
    split at h
    · rename_i cache hsearch
      obtain ⟨rfl, rfl⟩ := Prod.mk.inj h
      exact ⟨(search_spec hcache hsearch).1, nofun⟩
    · rename_i found cache hsearch
      obtain ⟨rfl, rfl⟩ := Prod.mk.inj h
      obtain ⟨hcache', hresult⟩ := search_spec hcache hsearch
      refine ⟨hcache', fun p hp => .inr ?_⟩
      obtain rfl := some.inj hp
      rcases hresult _ rfl with hempty | hsame
      · exact .inl hempty
      · exact .inr ⟨path, by simp, hsame⟩
    · rename_i cache hsearch
      obtain ⟨hcache', hresult⟩ := ih (search_spec hcache hsearch).1 h
      refine ⟨hcache', fun p hp => ?_⟩
      rcases hresult p hp with heq | hempty | ⟨found, hmem, hsame⟩
      · exact .inl heq
      · exact .inr (.inl hempty)
      · exact .inr (.inr ⟨found, mem_cons_of_mem _ hmem, hsame⟩)

/-! ## Paths found name by name -/

/-- One more name behind names in lower case. -/
def addLowered (lowered part : Text) : Text :=
  (if lowered = [] then [] else lowered ++ ['/']) ++ toLower part

/-- The names of some elements in lower case, behind others. -/
def loweredOf : Text → List Text → Text
  | lowered, [] => lowered
  | lowered, part :: rest =>
    if part = [] ∨ part = ['.'] then loweredOf lowered rest
    else loweredOf (addLowered lowered part) rest

/-- The path is the root followed by the names, up to case. -/
def FoundAt (root : Path) (lowered : Text) (p : Path) : Prop :=
  p.absolute = root.absolute ∧
    ∃ rest, p.names = root.names ++ rest ∧ rest.map toLower = components lowered

/-- What the cache has for names in lower case is found there, unless an absolute path was asked for. -/
def CaseCached (root : Path) (lowered : Text) (p : Path) : Prop :=
  lowered.head? = some '/' ∨ FoundAt root lowered p

theorem components_addLowered (lowered : Text) (hne : part ≠ []) (h : '/' ∉ part) :
    components (addLowered lowered part) = components lowered ++ [toLower part] := by
  have hpart : components (toLower part) = [toLower part] :=
    components_of_no_slash (fun he => hne (toLower_eq_nil_iff.mp he))
      fun hmem => h (slash_mem_toLower_iff.mp hmem)
  unfold addLowered
  split
  · rename_i hnil
    rw [hnil, nil_append, hpart]
    rfl
  · rw [append_assoc, singleton_append, components_append_slash, hpart]

theorem head?_addLowered (h : lowered.head? = some '/') : (addLowered lowered part).head? = some '/' := by
  obtain ⟨t, rfl⟩ := head?_eq_some_iff.mp h
  rfl

theorem head?_addLowered_ne (hlowered : lowered.head? ≠ some '/')
    (h : '/' ∉ part) : (addLowered lowered part).head? ≠ some '/' := by
  unfold addLowered
  split
  · rw [nil_append]
    exact fun hhead => h (slash_mem_toLower_iff.mp (mem_of_head? hhead))
  · rename_i hnil
    cases lowered with
    | nil => exact absurd rfl hnil
    | cons c t => exact hlowered

theorem CaseCached.step (h : CaseCached root lowered current) (hne : part ≠ []) (hslash : '/' ∉ part)
    (habs : q.absolute = false) (hq : q.names.map toLower = [toLower part]) :
    CaseCached root (addLowered lowered part) (current.append q) := by
  rcases h with hhead | ⟨hroot, rest, hnames, hlower⟩
  · exact .inl (head?_addLowered hhead)
  · refine .inr ⟨(Path.absolute_append habs).trans hroot, rest ++ q.names, ?_, ?_⟩
    · rw [Path.names_append habs, hnames, append_assoc]
    · rw [map_append, hlower, hq, components_addLowered lowered hne hslash]

theorem caseLoop_cons (fs : HostFs) (rest : List Text) (current : Path) (lowered : Text)
    (cache : List (Text × Path)) (h : ¬ (part = [] ∨ part = ['.'])) :
    caseLoop fs (part :: rest) current lowered cache = (none, cache) ∨
      (∃ found, (addLowered lowered part, found) ∈ cache ∧ caseLoop fs (part :: rest) current lowered cache =
          caseLoop fs rest found (addLowered lowered part) cache) ∨
      ∃ q, (q = .ofText part ∨ ∃ name, toLower name = toLower part ∧ q = .ofName name) ∧
        caseLoop fs (part :: rest) current lowered cache =
          caseLoop fs rest (current.append q) (addLowered lowered part)
            (cache ++ [(addLowered lowered part, current.append q)]) := by
  rw [caseLoop, if_neg h]
  dsimp only [addLowered]
  cases hfound : cache.lookup _ with
  | some found => exact .inr (.inl ⟨found, mem_of_lookup hfound, rfl⟩)
  | none =>
    dsimp only
    split
    · exact .inr (.inr ⟨_, .inl rfl, rfl⟩)
    · cases hname : find? _ _ with
      | some name => exact .inr (.inr ⟨_, .inr ⟨name, by simpa using find?_some hname, rfl⟩, rfl⟩)
      | none => exact .inl rfl

theorem names_of_part {q : Path} (hne : part ≠ []) (hslash : '/' ∉ part)
    (h : q = .ofText part ∨ ∃ name, toLower name = toLower part ∧ q = .ofName name) :
    q.absolute = false ∧ q.names.map toLower = [toLower part] := by
  rcases h with rfl | ⟨name, hname, rfl⟩
  · refine ⟨?_, by rw [Path.names_ofText, components_of_no_slash hne hslash]; rfl⟩
    unfold Path.ofText
    simp only [decide_eq_false_iff_not]
    exact fun hhead => hslash (mem_of_head? hhead)
  · have hname_ne : name ≠ [] := by
      rintro rfl
      exact hne (toLower_eq_nil_iff.mp hname.symm)
    refine ⟨rfl, ?_⟩
    unfold Path.ofName Path.names
    rw [filter_cons_of_pos (by simpa using hname_ne)]
    exact congrArg (· :: []) hname

theorem caseLoop_spec (hcache : ∀ entry ∈ cache, CaseCached root entry.1 entry.2)
    (hcurrent : CaseCached root lowered current) (hparts : ∀ part ∈ parts, '/' ∉ part)
    (h : caseLoop fs parts current lowered cache = (result, cache')) :
    (∀ entry ∈ cache', CaseCached root entry.1 entry.2) ∧
      ∀ p, result = some p → CaseCached root (loweredOf lowered parts) p := by
  induction parts generalizing current lowered cache with
  | nil =>
    obtain ⟨rfl, rfl⟩ := Prod.mk.inj h
    refine ⟨hcache, fun p hp => ?_⟩
    obtain rfl := some.inj hp
    exact hcurrent
  | cons part rest ih =>
    have hrest : ∀ part ∈ rest, '/' ∉ part := fun p hp => hparts p (mem_cons_of_mem _ hp)
    rw [loweredOf]
    split
    · rename_i hskip
      rw [caseLoop, if_pos hskip] at h
      exact ih hcache hcurrent hrest h
    · rename_i hpart
      have hne : part ≠ [] := fun he => hpart (.inl he)
      have hslash := hparts part (by simp)
      rcases caseLoop_cons fs rest current lowered cache hpart with hnone | ⟨found, hmem, heq⟩ | ⟨q, hq, heq⟩
      · rw [hnone] at h
        obtain ⟨rfl, rfl⟩ := Prod.mk.inj h
        exact ⟨hcache, nofun⟩
      · rw [heq] at h
        exact ih hcache (hcache _ hmem) hrest h
      · rw [heq] at h
        obtain ⟨habs, hnames⟩ := names_of_part hne hslash hq
        have hnext := hcurrent.step hne hslash habs hnames
        refine ih (fun entry hentry => ?_) hnext hrest h
        rcases mem_append.mp hentry with hentry | hentry
        · exact hcache entry hentry
        · rw [mem_singleton.mp hentry]
          exact hnext

theorem not_mem_of_mem_elements (h : element ∈ (Path.ofText s).elements) : '/' ∉ element := by
  rcases mem_append.mp h with h | h
  · exact not_mem_of_mem_components h
  · split at h
    · rw [mem_singleton.mp h]
      simp
    · exact absurd h not_mem_nil

theorem caseLoop_keeps (hcache : ∀ entry ∈ cache, CaseCached root entry.1 entry.2)
    (h : caseLoop fs (Path.ofText rel_path).parts root [] cache = (result, cache')) :
    ∀ entry ∈ cache', CaseCached root entry.1 entry.2 := by
  have helements : ∀ part ∈ (Path.ofText rel_path).elements, '/' ∉ part :=
    fun part hpart => not_mem_of_mem_elements hpart
  unfold Path.parts at h
  split at h
  · -- The names of an absolute path start with a slash, so nothing is said of what is found.
    have hlowered : (addLowered [] ['/']).head? = some '/' := rfl
    rcases caseLoop_cons fs (Path.ofText rel_path).elements root [] cache
      (show ¬ (['/'] = [] ∨ ['/'] = ['.']) by decide) with
      hnone | ⟨found, -, heq⟩ | ⟨q, -, heq⟩
    · rw [hnone] at h
      obtain ⟨-, rfl⟩ := Prod.mk.inj h
      exact hcache
    · rw [heq] at h
      exact (caseLoop_spec hcache (.inl hlowered) helements h).1
    · rw [heq] at h
      refine (caseLoop_spec (fun entry hentry => ?_) (.inl hlowered) helements h).1
      rcases mem_append.mp hentry with hentry | hentry
      · exact hcache entry hentry
      · rw [mem_singleton.mp hentry]
        exact .inl hlowered
  · exact (caseLoop_spec hcache (.inr ⟨rfl, [], by simp, rfl⟩) helements h).1

theorem loweredOf_spec (hlowered : lowered.head? ≠ some '/') (hparts : ∀ part ∈ parts, '/' ∉ part) :
    (loweredOf lowered parts).head? ≠ some '/' ∧ ∀ name ∈ components (loweredOf lowered parts),
        name ∈ components lowered ∨ name ∈ parts.map toLower := by
  induction parts generalizing lowered with
  | nil => exact ⟨hlowered, fun name h => .inl h⟩
  | cons part rest ih =>
    have hrest : ∀ part ∈ rest, '/' ∉ part := fun p hp => hparts p (mem_cons_of_mem _ hp)
    rw [loweredOf]
    split
    · obtain ⟨hhead, hmem⟩ := ih hlowered hrest
      exact ⟨hhead, fun name h => (hmem name h).imp_right (mem_cons_of_mem _)⟩
    · rename_i hpart
      have hne : part ≠ [] := fun he => hpart (.inl he)
      have hslash := hparts part (by simp)
      obtain ⟨hhead, hmem⟩ := ih (head?_addLowered_ne hlowered hslash) hrest
      refine ⟨hhead, fun name h => ?_⟩
      rcases hmem name h with h | h
      · rw [components_addLowered lowered hne hslash] at h
        rcases mem_append.mp h with h | h
        · exact .inl h
        · rw [mem_singleton.mp h]
          exact .inr mem_cons_self
      · exact .inr (mem_cons_of_mem _ h)

def HostFsBackend.CacheOk (backend : HostFsBackend) : Prop :=
  ∀ entry ∈ backend.m_case_cache, CaseCached backend.m_root entry.1 entry.2

/-- A relative path that leads down: it does not start with a slash, and no name in it leads up. -/
def LeadsDown (rel_path : Text) : Prop := rel_path.head? ≠ some '/' ∧ dotdot ∉ components rel_path

theorem HostFsBackend.resolve_spec (needs : Bool) (fs : HostFs) {backend : HostFsBackend}
    (hcache : backend.CacheOk) (rel_path : Text) : (backend.resolve needs fs rel_path).2.m_root = backend.m_root ∧
      (backend.resolve needs fs rel_path).2.CacheOk ∧ (LeadsDown rel_path →
        Path.Under (fun name => name) backend.m_root (backend.resolve needs fs rel_path).1) := by
  -- A joined path is under the root.
  have hdirect : LeadsDown rel_path →
      Path.Under (fun name => name) backend.m_root (backend.m_root.append (.ofText rel_path)) := by
    rintro ⟨hhead, hup⟩
    refine Path.under_append (fun name => name) _ (by simpa [Path.ofText] using hhead) ?_
    rw [map_id', Path.names_ofText]
    exact hup
  unfold resolve
  split
  · exact ⟨rfl, hcache, fun _ => Path.under_refl _ _⟩
  · simp only
    split
    · exact ⟨rfl, hcache, hdirect⟩
    · rcases hloop : caseLoop fs (Path.ofText rel_path).parts backend.m_root []
        backend.m_case_cache with ⟨found, cache⟩
      refine ⟨rfl, caseLoop_keeps hcache hloop, fun hdown => ?_⟩
      cases found with
      | none => exact hdirect hdown
      | some p =>
        have hrel : (Path.ofText rel_path).parts = (Path.ofText rel_path).elements := by
          unfold Path.parts
          simpa [Path.ofText] using hdown.1
        have helements : ∀ part ∈ (Path.ofText rel_path).elements, '/' ∉ part :=
          fun part hpart => not_mem_of_mem_elements hpart
        rw [hrel] at hloop
        have hfound := (caseLoop_spec hcache (.inr ⟨rfl, [], by simp, rfl⟩) helements hloop).2 p rfl
        obtain ⟨hhead, hmem⟩ := loweredOf_spec (show ([] : Text).head? ≠ some '/' by decide) helements
        obtain ⟨habs, rest, hnames, hlower⟩ := hfound.resolve_left hhead
        refine ⟨habs, rest, by simpa using hnames, fun hup => ?_⟩
        -- A name that leads up would be one of the path.
        have hup_lower := dotdot_mem_map_toLower_iff.mpr hup
        rw [hlower] at hup_lower
        rcases hmem _ hup_lower with h | h
        · simp at h
        · rcases mem_append.mp (dotdot_mem_map_toLower_iff.mp h) with h | h
          · exact hdown.2 h
          · split at h
            · exact absurd (mem_singleton.mp h) (by decide)
            · exact absurd h not_mem_nil

end ShadPS4.FileSys
