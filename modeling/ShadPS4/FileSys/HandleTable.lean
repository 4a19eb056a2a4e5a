import Mathlib.Data.Int.Bitwise
import Mathlib.Data.List.Basic
import ShadPS4.Lib.Transition

/-!
# The table of file descriptors

The slot of a closed file stays in the table, empty, until it is used again.
-/

namespace ShadPS4.FileSys

open Function

inductive FileType
  | regular | directory | device | socket | epoll | resolver | equeue
deriving DecidableEq

/-- `HandleTable`. A `File` is an address, with the type that is there. -/
structure HandleTable where
  m_files : List (Option ℕ)
  type : ℕ → FileType

namespace HandleTable

variable {t : HandleTable} {file : ℕ}

section

variable (t : HandleTable)

/-- `CreateHandle`, with the address that `new` returns. -/
def createHandle (file : ℕ) : HandleTable × ℕ :=
  let type := update t.type file .regular
  match t.m_files.idxOf? none with
  | some index => ({ type, m_files := t.m_files.set index (some file) }, index)
  | none => ({ type, m_files := t.m_files ++ [some file] }, t.m_files.length)

/-- `DeleteHandle`. Without a slot `at` throws. -/
def deleteHandle (d : ℤ) : Option HandleTable :=
  if d < 0 ∨ t.m_files.length ≤ d then none else some { t with m_files := t.m_files.set d.toNat none }

/-- What the slot of a descriptor holds. -/
def slot (d : ℕ) : Option ℕ := t.m_files[d]?.join

def getFile (d : ℤ) : Option ℕ := if d < 0 ∨ t.m_files.length ≤ d then none else t.slot d.toNat

/-- `GetSocket`. There is no result where a null pointer is dereferenced: here nowhere. -/
def getSocket (d : ℤ) : Option (Option ℕ) :=
  if d < 0 ∨ t.m_files.length ≤ d then some none
  else match t.slot d.toNat with
    | none => some none
    | some file => some (if t.type file = .socket then some file else none)

/-- `GetEpoll` and `GetResolver`, which do not look whether the slot is empty. -/
def getOfType (type : FileType) (t : HandleTable) (d : ℤ) : Option (Option ℕ) :=
  if d < 0 ∨ t.m_files.length ≤ d then some none
  else (t.slot d.toNat).map fun file => if t.type file = type then some file else none

def getEpoll : HandleTable → ℤ → Option (Option ℕ) := getOfType .epoll

def getResolver : HandleTable → ℤ → Option (Option ℕ) := getOfType .resolver

def getFileDescriptor (file : ℕ) : ℕ := (t.m_files.idxOf? (some file)).getD 0

end

theorem slot_eq_some {d : ℕ} : t.slot d = some file ↔ t.m_files[d]? = some (some file) := Option.join_eq_some_iff

theorem slot_lt {d : ℕ} (h : t.slot d = some file) : d < t.m_files.length :=
  (List.getElem?_eq_some_iff.mp (slot_eq_some.mp h)).1

/-- The descriptor was not used, and no lower one was free. -/
theorem createHandle_spec (t : HandleTable) (file : ℕ) :
    t.slot (t.createHandle file).2 = none ∧ (∀ d < (t.createHandle file).2, t.slot d ≠ none) ∧
      (t.createHandle file).1.type = update t.type file .regular ∧
      (t.createHandle file).1.slot = update t.slot (t.createHandle file).2 (some file) := by
  unfold createHandle
  cases hfree : t.m_files.idxOf? none with
  | some index =>
    obtain ⟨hindex, hnone, hleast⟩ := List.idxOf?_eq_some_iff.mp hfree
    refine ⟨?_, fun d hd => ?_, rfl, funext fun d => ?_⟩
    · unfold slot
      rw [List.getElem?_eq_getElem hindex, hnone]
      rfl
    · unfold slot
      rw [List.getElem?_eq_getElem (Nat.lt_trans hd hindex)]
      exact hleast d hd
    · unfold slot
      dsimp only
      rcases eq_or_ne d index with rfl | hne
      · rw [update_self, List.getElem?_set_self hindex]
        rfl
      · rw [update_of_ne hne, List.getElem?_set_ne hne.symm]
  | none =>
    have hfull := List.idxOf?_eq_none_iff.mp hfree
    refine ⟨?_, fun d hd => ?_, rfl, funext fun d => ?_⟩
    · unfold slot
      rw [List.getElem?_eq_none (Nat.le_refl _)]
      rfl
    · unfold slot
      rw [List.getElem?_eq_getElem hd]
      exact fun heq => hfull (heq ▸ List.getElem_mem hd)
    · unfold slot
      dsimp only
      rcases eq_or_ne d t.m_files.length with rfl | hne
      · rw [update_self, List.getElem?_concat_length]
        rfl
      · rw [update_of_ne hne]
        rcases Nat.lt_or_gt_of_ne hne with hlt | hgt
        · rw [List.getElem?_append_left hlt]
        · rw [List.getElem?_eq_none (by simpa using Nat.succ_le_of_lt hgt), List.getElem?_eq_none (Nat.le_of_lt hgt)]

theorem deleteHandle_spec {d : ℕ} (h : t.slot d ≠ none) :
    ∃ t', t.deleteHandle d = some t' ∧ t'.type = t.type ∧ t'.slot = update t.slot d none := by
  obtain ⟨file, hfile⟩ := Option.ne_none_iff_exists'.mp h
  have hlt := slot_lt hfile
  refine ⟨_, if_neg (by omega), rfl, funext fun other => ?_⟩
  unfold slot
  dsimp only
  rw [Int.toNat_natCast]
  rcases eq_or_ne other d with rfl | hne
  · rw [update_self, List.getElem?_set_self hlt]
    rfl
  · rw [update_of_ne hne, List.getElem?_set_ne hne.symm]

/-- A live descriptor is that of its file, where no two have the same. -/
theorem getFileDescriptor_eq {d : ℕ} (h : t.slot d = some file)
    (hone : ∀ d', t.slot d' = some file → d' = d) : t.getFileDescriptor file = d := by
  have hat := slot_eq_some.mp h
  unfold getFileDescriptor
  cases hfind : t.m_files.idxOf? (some file) with
  | some index =>
    obtain ⟨hindex, heq, -⟩ := List.idxOf?_eq_some_iff.mp hfind
    exact hone index (slot_eq_some.mpr (List.getElem?_eq_some_iff.mpr ⟨hindex, heq⟩))
  | none => exact absurd (List.mem_of_getElem? hat) (List.idxOf?_eq_none_iff.mp hfind)

end HandleTable

/-- The table, and the files of the descriptors that were created and not deleted. -/
structure Handles where
  table : HandleTable
  live : ℕ → Option ℕ

namespace Handles

variable {s s' : Handles}

inductive Op
  | create (file : ℕ)
  | delete (d : ℕ)
  | assign (file : ℕ) (type : FileType)

def step (s : Handles) : Op → Option Handles
  | .create file => some
    { table := (s.table.createHandle file).1, live := update s.live (s.table.createHandle file).2 (some file) }
  | .delete d => (s.table.deleteHandle d).map fun table => { table, live := update s.live d none }
  | .assign file type => some { s with table.type := update s.table.type file type }

/-- A new file is at an address of its own, and what is deleted is live. -/
def Allowed (s : Handles) : Op → Prop
  | .create file => ∀ d, s.live d ≠ some file
  | .delete d => s.live d ≠ none
  | .assign file _ => ∃ d, s.live d = some file

/-- The slots are the live files, each of which has one descriptor. -/
structure Agrees (s : Handles) : Prop where
  slot_eq : s.table.slot = s.live
  one : ∀ d d' file, s.live d = some file → s.live d' = some file → d = d'

theorem Agrees.step (h : s.Agrees) {o : Op} (hallowed : s.Allowed o) (hstep : s.step o = some s') : s'.Agrees := by
  cases o with
  | create file =>
    obtain rfl := Option.some.inj hstep
    obtain ⟨-, -, -, hslot⟩ := HandleTable.createHandle_spec s.table file
    refine ⟨by rw [hslot, h.slot_eq], fun d d' f hd hd' => ?_⟩
    dsimp only at hd hd'
    rw [update_apply] at hd hd'
    split_ifs at hd hd' with heq heq' heq'
    · rw [heq, heq']
    · exact absurd (hd'.trans hd.symm) (hallowed d')
    · exact absurd (hd.trans hd'.symm) (hallowed d)
    · exact h.one d d' f hd hd'
  | delete d =>
    obtain ⟨table, htable, rfl⟩ := Option.map_eq_some_iff.mp hstep
    have hlive : s.table.slot d ≠ none := h.slot_eq ▸ (hallowed : s.live d ≠ none)
    obtain ⟨t', ht', -, hslot⟩ := HandleTable.deleteHandle_spec hlive
    obtain rfl := Option.some.inj (htable.symm.trans ht')
    refine ⟨by rw [hslot, h.slot_eq], fun d1 d2 f hd1 hd2 => ?_⟩
    dsimp only at hd1 hd2
    rw [update_apply] at hd1 hd2
    split_ifs at hd1 hd2
    exact h.one d1 d2 f hd1 hd2
  | assign file type =>
    obtain rfl := Option.some.inj hstep
    exact ⟨h.slot_eq, h.one⟩

/-- The file of a descriptor, when that is live. -/
def fileOf (s : Handles) (d : ℤ) : Option ℕ := if d < 0 then none else s.live d.toNat

def fileOfType (type : FileType) (s : Handles) (d : ℤ) : Option ℕ :=
  (s.fileOf d).filter fun file => s.table.type file = type

/-- A slot of the table that is empty: its descriptor was deleted, and is not used again. -/
def Closed (s : Handles) (d : ℤ) : Prop := s.fileOf d = none ∧ 0 ≤ d ∧ d < s.table.m_files.length

def noHandles : Handles := ⟨⟨[], fun _ => .regular⟩, fun _ => none⟩

theorem Agrees.fileOf_eq (h : s.Agrees) {d : ℤ} (hd : d < 0 ∨ s.table.m_files.length ≤ d) : s.fileOf d = none := by
  unfold fileOf
  split_ifs
  · rfl
  · rw [← h.slot_eq]
    unfold HandleTable.slot
    rw [List.getElem?_eq_none (by omega)]
    rfl

theorem Agrees.slot_fileOf (h : s.Agrees) {d : ℤ} (hd : ¬ (d < 0 ∨ s.table.m_files.length ≤ d)) :
    s.table.slot d.toNat = s.fileOf d := by
  unfold fileOf
  rw [h.slot_eq, if_neg (mt .inl hd)]

theorem Agrees.getOfType_iff (h : s.Agrees) (type : FileType) (d : ℤ) :
    s.table.getOfType type d = some (s.fileOfType type d) ↔ ¬ s.Closed d := by
  unfold HandleTable.getOfType fileOfType Closed
  split_ifs with hd
  · rw [h.fileOf_eq hd]
    exact iff_of_true rfl (by omega)
  · rw [h.slot_fileOf hd]
    cases s.fileOf d with
    | none => exact iff_of_false nofun (by simpa using hd)
    | some file => exact iff_of_true (by rw [Option.filter_some]; simp) nofun

/-- In every state that is reached the look-ups return the file of a live descriptor, of a socket too; those of an
epoll and of a resolver do so exactly when the slot is not empty. -/
theorem handles_run (h : Run (· = noHandles) (fun s o s' => s.step o = some s') Allowed s) :
    (∀ d, s.table.getFile d = s.fileOf d ∧ s.table.getSocket d = some (s.fileOfType .socket d) ∧
      (s.table.getEpoll d = some (s.fileOfType .epoll d) ↔ ¬ s.Closed d) ∧
      (s.table.getResolver d = some (s.fileOfType .resolver d) ↔ ¬ s.Closed d)) ∧
    (∀ file, s.live (s.table.createHandle file).2 = none ∧
      (∀ d < (s.table.createHandle file).2, s.live d ≠ none) ∧
      (s.table.createHandle file).1.slot = update s.live (s.table.createHandle file).2 (some file)) ∧
    ∀ d file, s.live d = some file → s.table.getFileDescriptor file = d := by
  have hs : s.Agrees := h.invariant (by rintro s rfl; exact ⟨rfl, nofun⟩) fun s o s' hs ho hstep => hs.step ho hstep
  refine ⟨fun d => ⟨?_, ?_, hs.getOfType_iff .epoll d, hs.getOfType_iff .resolver d⟩, fun file => ?_, fun d file hd => ?_⟩
  · unfold HandleTable.getFile
    split_ifs with hd
    · exact (hs.fileOf_eq hd).symm
    · exact hs.slot_fileOf hd
  · unfold HandleTable.getSocket fileOfType
    split_ifs with hd
    · rw [hs.fileOf_eq hd]
      rfl
    · rw [hs.slot_fileOf hd]
      cases s.fileOf d with
      | none => rfl
      | some file => rw [Option.filter_some]; simp
  · obtain ⟨hnew, hleast, -, hslot⟩ := HandleTable.createHandle_spec s.table file
    rw [hs.slot_eq] at hnew hleast hslot
    exact ⟨hnew, hleast, hslot⟩
  · exact HandleTable.getFileDescriptor_eq (hs.slot_eq ▸ hd) fun d' hd' => hs.one d' d file (hs.slot_eq ▸ hd') hd

/-- A file is opened, closed and opened again. -/
theorem handles_run_sample : ∃ s : Handles, (∀ d, s.table.getFile d = s.fileOf d) ∧ s.live 0 = some 2 := by
  refine ⟨_, fun d => ((handles_run (.step (o := .create 2) (.step (o := .delete 0) (.step (o := .create 1)
    (.start rfl) ?_ rfl) ?_ rfl) ?_ rfl)).1 d).1, rfl⟩
  · exact nofun
  · exact nofun
  · intro d
    dsimp only
    rw [update_apply, update_apply]
    split_ifs <;> exact nofun

/-- The look-up of an epoll goes through the null pointer of a descriptor that was closed. -/
theorem getEpoll_closed : ∃ s, ((noHandles.step (.create 1)).bind (Handles.step · (.delete 0))) = some s ∧
    s.live 0 = none ∧ s.table.getEpoll 0 ≠ some none :=
  ⟨_, rfl, rfl, nofun⟩

end Handles

end ShadPS4.FileSys
