import Mathlib.Data.List.Induction
import Mathlib.Data.List.Nodup
import ShadPS4.Lib.Checked

/-!
# Lists of pairs that a loop fills

A map that is filled by `emplace` and then only read is a list of pairs here, with `List.lookup`.
-/

namespace ShadPS4

open Prod (fst)

section Lookup

variable {K V : Type} [BEq K] [LawfulBEq K]

variable {pairs : List (K × V)}

theorem mem_of_lookup {k : K} {v : V} (h : pairs.lookup k = some v) : (k, v) ∈ pairs := by
  induction pairs with
  | nil => simp at h
  | cons pair rest ih =>
    obtain ⟨k', v'⟩ := pair
    rw [List.lookup_cons] at h
    by_cases hk : k = k'
    · subst hk
      simp only [beq_self_eq_true] at h
      rw [Option.some.inj h]
      exact List.mem_cons_self
    · rw [beq_false_of_ne hk] at h
      exact List.mem_cons_of_mem _ (ih h)

theorem not_mem_of_lookup {k : K} (h : pairs.lookup k = none) (v : V) : (k, v) ∉ pairs := by
  intro hmem
  rw [List.lookup_eq_none_iff] at h
  have := h (k, v) hmem
  simp at this

theorem lookup_eq_some_iff (h : (pairs.map fst).Nodup) {k : K} {v : V} :
    pairs.lookup k = some v ↔ (k, v) ∈ pairs := by
  induction pairs with
  | nil => simp
  | cons pair rest ih =>
    obtain ⟨k', v'⟩ := pair
    rw [List.map_cons, List.nodup_cons] at h
    rw [List.lookup_cons, List.mem_cons]
    by_cases hk : k = k'
    · subst hk
      have hnot : (k, v) ∉ rest := fun hmem => h.1 (List.mem_map.mpr ⟨_, hmem, rfl⟩)
      simp [hnot, eq_comm]
    · rw [beq_false_of_ne hk, ih h.2]
      simp [hk]

theorem lookup_eq_none_iff {pairs : List (K × V)} {k : K} : pairs.lookup k = none ↔ k ∉ pairs.map fst := by
  rw [List.lookup_eq_none_iff, List.mem_map]
  constructor
  · rintro h ⟨pair, hmem, rfl⟩
    simpa using h pair hmem
  · intro h pair hmem
    rw [bne_iff_ne]
    rintro rfl
    exact h ⟨pair, hmem, rfl⟩

theorem lookup_perm {pairs pairs' : List (K × V)} (hperm : pairs.Perm pairs')
    (h : (pairs.map fst).Nodup) (k : K) : pairs.lookup k = pairs'.lookup k := by
  have h' : (pairs'.map fst).Nodup := (hperm.map fst).nodup_iff.mp h
  apply Option.ext
  intro v
  rw [lookup_eq_some_iff h, lookup_eq_some_iff h', hperm.mem_iff]

end Lookup

section Loop

variable {ε α σ : Type} {f : σ → α → Except ε σ} {done : List α} {last : α} {s t : σ}

theorem foldlM_concat_ok (h : done.foldlM f s = .ok t) : (done ++ [last]).foldlM f s = f t last := by
  rw [List.foldlM_append, h]
  show [last].foldlM f t = _
  exact bind_pure _

theorem foldlM_concat_error {e : ε} (h : done.foldlM f s = .error e) : (done ++ [last]).foldlM f s = .error e := by
  rw [List.foldlM_append, h]
  rfl

end Loop

section Insert

variable {R α K V : Type} [DecidableEq K]

/-- The loop body that fills a map: an entry that is not accepted, or whose key is there already, stops
the loop with its error. -/
def insertNew (accepted : α → Prop) [DecidablePred accepted] (key : α → K) (value : α → V)
    (invalid duplicate : R) (pairs : List (K × V)) (entry : α) : Except (Stop R) (List (K × V)) := do
  failIf (¬ accepted entry) invalid
  failIf ((pairs.lookup (key entry)).isSome) duplicate
  pure (pairs ++ [(key entry, value entry)])

variable {accepted : α → Prop} [DecidablePred accepted] {key : α → K} {value : α → V}
  {invalid duplicate : R}

variable {pairs : List (K × V)}

theorem insertNew_of_not {entry : α} (h : ¬ accepted entry) :
    insertNew accepted key value invalid duplicate pairs entry = .error (.fail invalid) := by
  unfold insertNew failIf
  rw [if_pos h]
  rfl

theorem insertNew_of_mem {entry : α} (h : accepted entry)
    (hmem : key entry ∈ pairs.map fst) :
    insertNew accepted key value invalid duplicate pairs entry = .error (.fail duplicate) := by
  have hfound : (pairs.lookup (key entry)).isSome = true := by
    rw [Option.isSome_iff_ne_none, ne_eq, lookup_eq_none_iff, not_not]
    exact hmem
  unfold insertNew failIf
  rw [if_neg (not_not.mpr h), if_pos hfound]
  rfl

theorem insertNew_of_not_mem {entry : α} (h : accepted entry)
    (hmem : key entry ∉ pairs.map fst) : insertNew accepted key value invalid duplicate pairs entry =
      .ok (pairs ++ [(key entry, value entry)]) := by
  unfold insertNew failIf
  rw [if_neg (not_not.mpr h), lookup_eq_none_iff.mpr hmem]
  rfl

omit [DecidableEq K] in
theorem map_fst_pairs (entries : List α) :
    (entries.map fun entry => (key entry, value entry)).map fst = entries.map key := by
  rw [List.map_map]
  rfl

def Insertable (accepted : α → Prop) (key : α → K) (entries : List α) : Prop :=
  (∀ entry ∈ entries, accepted entry) ∧ (entries.map key).Nodup

variable (accepted) (key) (value) (invalid) (duplicate) in
/-- The loop succeeds exactly when all entries are accepted and no key is repeated, and has their pairs in their
order then. -/
theorem foldlM_insertNew_spec (entries : List α) : (Insertable accepted key entries ∧
      entries.foldlM (insertNew accepted key value invalid duplicate) [] =
        .ok (entries.map fun entry => (key entry, value entry))) ∨ ((∃ entry ∈ entries, ¬ accepted entry) ∧
      entries.foldlM (insertNew accepted key value invalid duplicate) [] = .error (.fail invalid)) ∨
    (¬ ((entries.filter (accepted ·)).map key).Nodup ∧
      entries.foldlM (insertNew accepted key value invalid duplicate) [] = .error (.fail duplicate)) := by
  induction entries using List.reverseRecOn with
  | nil => exact .inl ⟨⟨by simp, by simp⟩, rfl⟩
  | append_singleton entries last ih =>
    rcases ih with ⟨⟨hall, hnodup⟩, heq⟩ | ⟨⟨entry, hmem, hnot⟩, heq⟩ | ⟨hdup, heq⟩
    · -- All entries before the last one are in the map.
      rw [foldlM_concat_ok heq]
      by_cases hlast : accepted last
      · by_cases hmem : key last ∈ entries.map key
        · refine .inr (.inr ⟨?_, insertNew_of_mem hlast (by rwa [map_fst_pairs])⟩)
          have hfilter : (entries ++ [last]).filter (accepted ·) = entries ++ [last] := by
            rw [List.filter_eq_self]
            intro entry hentry
            rcases List.mem_append.mp hentry with hentry | hentry
            · simpa using hall entry hentry
            · rw [List.mem_singleton.mp hentry]
              simpa using hlast
          rw [hfilter, List.map_append, List.nodup_append]
          rintro ⟨-, -, hdisj⟩
          exact hdisj _ hmem (key last) (by simp) rfl
        · refine .inl ⟨⟨fun entry hentry => ?_, ?_⟩, ?_⟩
          · rcases List.mem_append.mp hentry with hentry | hentry
            · exact hall entry hentry
            · rw [List.mem_singleton.mp hentry]
              exact hlast
          · rw [List.map_append, List.nodup_append]
            refine ⟨hnodup, by simp, fun k hk k' hk' he => hmem ?_⟩
            rw [List.map_singleton, List.mem_singleton] at hk'
            exact hk' ▸ he ▸ hk
          · rw [insertNew_of_not_mem hlast (by rwa [map_fst_pairs]), List.map_append]
            rfl
      · exact .inr (.inl ⟨⟨last, by simp, hlast⟩, insertNew_of_not hlast⟩)
    · refine .inr (.inl ⟨⟨entry, List.mem_append_left _ hmem, hnot⟩, ?_⟩)
      exact foldlM_concat_error heq
    · refine .inr (.inr ⟨fun hnodup => hdup ?_, ?_⟩)
      · rw [List.filter_append, List.map_append, List.nodup_append] at hnodup
        exact hnodup.1
      · exact foldlM_concat_error heq

theorem foldlM_insertNew_eq_ok {entries : List α} {pairs : List (K × V)} :
    entries.foldlM (insertNew accepted key value invalid duplicate) [] = .ok pairs ↔
      Insertable accepted key entries ∧ pairs = entries.map fun entry => (key entry, value entry) := by
  have hspec := foldlM_insertNew_spec accepted key value invalid duplicate entries
  rcases hspec with ⟨hins, heq⟩ | ⟨⟨entry, hmem, hnot⟩, heq⟩ | ⟨hdup, heq⟩
  · rw [heq, Except.ok.injEq, eq_comm]
    exact ⟨fun h => ⟨hins, h⟩, fun h => h.2⟩
  · rw [heq]
    exact ⟨nofun, fun h => absurd (h.1.1 entry hmem) hnot⟩
  · rw [heq]
    refine ⟨nofun, fun h => absurd ?_ hdup⟩
    exact h.1.2.sublist (List.filter_sublist.map key)

omit [DecidableEq K] [DecidablePred accepted] in
theorem Insertable.perm {entries entries' : List α} (hperm : entries.Perm entries')
    (h : Insertable accepted key entries) : Insertable accepted key entries' :=
  ⟨fun entry hentry => h.1 entry (hperm.mem_iff.mpr hentry), (hperm.map key).nodup_iff.mp h.2⟩

omit [DecidableEq K] [DecidablePred accepted] in
theorem Insertable.eq_of_key_eq {entries : List α} (h : Insertable accepted key entries) {x y : α}
    (hx : x ∈ entries) (hy : y ∈ entries) (hkey : key x = key y) : x = y :=
  List.inj_on_of_nodup_map h.2 hx hy hkey

variable (value) (invalid) (duplicate) in
/-- Where the loop fails for one order of the entries, it fails for every other, with the same error
unless there are both an entry that is not accepted and two accepted ones with the same key. -/
theorem foldlM_insertNew_perm {entries entries' : List α} (hperm : entries.Perm entries')
    (h : ¬ Insertable accepted key entries) : ∃ result result',
      entries.foldlM (insertNew accepted key value invalid duplicate) [] = .error (.fail result) ∧
      entries'.foldlM (insertNew accepted key value invalid duplicate) [] = .error (.fail result') ∧
      result ∈ [invalid, duplicate] ∧ result' ∈ [invalid, duplicate] ∧
      ((∀ entry ∈ entries, accepted entry) ∨ ((entries.filter (accepted ·)).map key).Nodup → result' = result) := by
  have hsame : ((entries.filter (accepted ·)).map key).Nodup ↔ ((entries'.filter (accepted ·)).map key).Nodup :=
    ((hperm.filter _).map key).nodup_iff
  have hspec := foldlM_insertNew_spec accepted key value invalid duplicate
  rcases hspec entries with ⟨hins, -⟩ | ⟨⟨entry, hmem, hnot⟩, heq⟩ | ⟨hdup, heq⟩
  · exact absurd hins h
  · rcases hspec entries' with ⟨hins, -⟩ | ⟨-, heq'⟩ | ⟨hdup', heq'⟩
    · exact absurd (hins.perm hperm.symm) h
    · exact ⟨_, _, heq, heq', by simp, by simp, fun _ => rfl⟩
    · refine ⟨_, _, heq, heq', by simp, by simp, fun hor => ?_⟩
      rcases hor with hall | hnodup
      · exact absurd (hall entry hmem) hnot
      · exact absurd (hsame.mp hnodup) hdup'
  · rcases hspec entries' with ⟨hins, -⟩ | ⟨⟨entry, hmem, hnot⟩, heq'⟩ | ⟨-, heq'⟩
    · exact absurd (hins.perm hperm.symm) h
    · refine ⟨_, _, heq, heq', by simp, by simp, fun hor => ?_⟩
      rcases hor with hall | hnodup
      · exact absurd (hall entry (hperm.mem_iff.mpr hmem)) hnot
      · exact absurd hnodup hdup
    · exact ⟨_, _, heq, heq', by simp, by simp, fun _ => rfl⟩

end Insert

end ShadPS4
