import Mathlib.Data.List.Count
import ShadPS4.Kernel.Rwlock

/-!
# Runs of the locks for readers and writers

As long as a lock is given back by a thread that holds it, there is one writer or there are readers, the owner is
the writer, and the readers are counted right.
-/

namespace ShadPS4.Kernel

open Function List
open Option (some.inj)

variable {st st' : RwState} {t r : ℕ}

/-- The number of times a lock is held. -/
def heldOf (held : List (ℕ × ℕ)) (r : ℕ) : ℕ := held.countP fun e => e.2 = r

/-- The number of locks a thread holds. -/
def heldBy (held : List (ℕ × ℕ)) (t : ℕ) : ℕ := held.countP fun e => e.1 = t

/-- Only what a thread holds of a lock is changed. -/
structure SameBut (t r : ℕ) (held held' : List (ℕ × ℕ)) : Prop where
  mem : ∀ u ≠ t, ∀ q, (u, q) ∈ held' ↔ (u, q) ∈ held
  by_eq : ∀ u ≠ t, heldBy held' u = heldBy held u
  of_eq : ∀ q ≠ r, heldOf held' q = heldOf held q

theorem SameBut.refl : SameBut t r held held :=
  ⟨fun _ _ _ => Iff.rfl, fun _ _ => rfl, fun _ _ => rfl⟩

theorem SameBut.cons : SameBut t r held ((t, r) :: held) := by
  constructor
  case mem =>
    intro u hu q
    simp [hu]
  case by_eq =>
    intro u hu
    exact countP_cons_of_neg (by simpa using hu.symm)
  case of_eq =>
    intro q hq
    exact countP_cons_of_neg (by simpa using hq.symm)

theorem SameBut.symm (h : SameBut t r held held') : SameBut t r held' held :=
  ⟨fun u hu q => (h.mem u hu q).symm, fun u hu => (h.by_eq u hu).symm,
    fun q hq => (h.of_eq q hq).symm⟩

theorem SameBut.perm (h : SameBut t r held1 held) (hperm : held1.Perm held2) : SameBut t r held2 held :=
  ⟨fun u hu q => (h.mem u hu q).trans hperm.mem_iff,
    fun u hu => (h.by_eq u hu).trans (hperm.countP_eq _),
    fun q hq => (h.of_eq q hq).trans (hperm.countP_eq _)⟩

section Erase

variable {held : List (ℕ × ℕ)} (h : (t, r) ∈ held)

include h

theorem SameBut.erase : SameBut t r held (held.erase (t, r)) :=
  SameBut.cons.symm.perm (perm_cons_erase h).symm

theorem heldOf_erase : heldOf held r = heldOf (held.erase (t, r)) r + 1 := by
  have hperm := (perm_cons_erase h).countP_eq fun e : ℕ × ℕ => e.2 = r
  rw [countP_cons_of_pos (by simp)] at hperm
  exact hperm

theorem heldBy_erase : heldBy held t = heldBy (held.erase (t, r)) t + 1 := by
  have hperm := (perm_cons_erase h).countP_eq fun e : ℕ × ℕ => e.1 = t
  rw [countP_cons_of_pos (by simp)] at hperm
  exact hperm

theorem heldOf_pos : 0 < heldOf held r :=
  countP_pos_iff.mpr ⟨(t, r), h, by simp⟩

end Erase

theorem heldOf_cons : heldOf ((t, r) :: held) r = heldOf held r + 1 :=
  countP_cons_of_pos (by simp)

theorem heldBy_cons : heldBy ((t, r) :: held) t = heldBy held t + 1 :=
  countP_cons_of_pos (by simp)

theorem eq_of_heldOf (hone : heldOf held r ≤ 1) (ht : (t, r) ∈ held) (hu : (u, r) ∈ held) : u = t := by
  by_contra hne
  have hin : (u, r) ∈ held.erase (t, r) := ((SameBut.erase ht).mem u hne r).mpr hu
  have hpos := heldOf_pos hin
  have herase := heldOf_erase ht
  omega

/-! ## What is kept -/

/-- The read lock that a thread holds is not in `rdlock_count`. -/
def RwPc.owes : RwPc → ℤ
  | .rdCount _ => 1
  | .unlockRead _ => 1
  | _ => 0

/-- The thread has the inner mutex of the lock, and is not its owner. -/
def RwPc.InWindow (r : ℕ) (pc : RwPc) : Prop := pc = .wrStore r ∨ pc = .unlockWrite r

def RwState.At (st : RwState) (t : ℕ) : RwPc → Prop
  | .rdCount r => (t, r) ∈ st.reading ∧ (st.threads t).rdlock_count < 2^31 - 1
  | .wrStore r => (t, r) ∈ st.writing ∧ (st.locks r).owner ≠ some t
  | .unlock r => st.Holds t r
  | .clear r => (st.locks r).owner = some t
  | .unlockWrite r => (t, r) ∈ st.writing ∧ (st.locks r).owner ≠ some t
  | .compare r => (t, r) ∈ st.reading
  | .unlockRead r => (t, r) ∈ st.reading
  | _ => True

structure Rwlock.Kept (lock : Rwlock) (readers writers : ℕ) : Prop where
  readers_eq : lock.readers = readers
  readers_lt : readers < 2^31
  writers_eq : writers = if lock.writer_active then 1 else 0
  exclusive : lock.writer_active = true → readers = 0

/-- What holds between the steps. -/
structure RwState.Kept (st : RwState) : Prop where
  lock : ∀ r, (st.locks r).Kept (heldOf st.reading r) (heldOf st.writing r)
  count : ∀ t, (st.threads t).rdlock_count + (st.threads t).pc.owes = heldBy st.reading t
  count_lt : ∀ t, (st.threads t).rdlock_count < 2^31
  owner : ∀ t r, (st.locks r).owner = some t → (t, r) ∈ st.writing
  owned : ∀ t r, (t, r) ∈ st.writing →
    (st.locks r).owner = some t ∨ (st.threads t).pc.InWindow r
  pc : ∀ t, st.At t (st.threads t).pc

theorem RwState.At.frame (h : st.At t pc) (hthread : (st'.threads t).rdlock_count = (st.threads t).rdlock_count)
    (hreading : ∀ r, (t, r) ∈ st'.reading ↔ (t, r) ∈ st.reading)
    (hwriting : ∀ r, (t, r) ∈ st'.writing ↔ (t, r) ∈ st.writing)
    (howner : ∀ r, (st'.locks r).owner = some t ↔ (st.locks r).owner = some t) : st'.At t pc := by
  cases pc <;>
    simp only [RwState.At, RwState.Holds, ne_eq, hthread, hreading, hwriting, howner] at h ⊢ <;>
    exact h

section

variable (h : st.Kept)

include h

theorem RwState.Kept.update (t r : ℕ) (thread : RwThread) (lock : Rwlock)
    (reading writing : List (ℕ × ℕ)) (hreading : SameBut t r st.reading reading)
    (hwriting : SameBut t r st.writing writing) (hlock : lock.Kept (heldOf reading r) (heldOf writing r))
    (hcount : thread.rdlock_count + thread.pc.owes = heldBy reading t) (hlt : thread.rdlock_count < 2^31)
    (howner : ∀ u ≠ t, lock.owner = some u ↔ (st.locks r).owner = some u)
    (hself : lock.owner = some t → (t, r) ∈ writing) (hkeep : ∀ q ≠ r, (t, q) ∈ writing ↔ (t, q) ∈ st.writing)
    (howned : ∀ q, (t, q) ∈ writing → (Function.update st.locks r lock q).owner = some t ∨ thread.pc.InWindow q)
    (hat : RwState.At { st with
      threads := Function.update st.threads t thread
      locks := Function.update st.locks r lock
      reading
      writing } t thread.pc) :
    RwState.Kept { st with
      threads := Function.update st.threads t thread
      locks := Function.update st.locks r lock
      reading
      writing } := by
  have howners : ∀ u ≠ t, ∀ q, (Function.update st.locks r lock q).owner = some u ↔ (st.locks q).owner = some u := by
    intro u hu q
    rcases eq_or_ne q r with rfl | hq
    · rw [update_self]
      exact howner u hu
    · rw [update_of_ne hq]
  constructor
  case lock =>
    intro q
    show (Function.update st.locks r lock q).Kept (heldOf reading q) (heldOf writing q)
    rcases eq_or_ne q r with rfl | hq
    · rw [update_self]
      exact hlock
    · rw [update_of_ne hq, hreading.of_eq q hq, hwriting.of_eq q hq]
      exact h.lock q
  case count =>
    intro u
    show (Function.update st.threads t thread u).rdlock_count +
      (Function.update st.threads t thread u).pc.owes = heldBy reading u
    rcases eq_or_ne u t with rfl | hu
    · rw [update_self]
      exact hcount
    · rw [update_of_ne hu, hreading.by_eq u hu]
      exact h.count u
  case count_lt =>
    intro u
    show (Function.update st.threads t thread u).rdlock_count < 2^31
    rcases eq_or_ne u t with rfl | hu
    · rw [update_self]
      exact hlt
    · rw [update_of_ne hu]
      exact h.count_lt u
  case owner =>
    intro u q hown
    replace hown : (Function.update st.locks r lock q).owner = some u := hown
    rcases eq_or_ne u t with rfl | hu
    · rcases eq_or_ne q r with rfl | hq
      · rw [update_self] at hown
        exact hself hown
      · rw [update_of_ne hq] at hown
        exact (hkeep q hq).mpr (h.owner u q hown)
    · exact (hwriting.mem u hu q).mpr (h.owner u q ((howners u hu q).mp hown))
  case owned =>
    intro u q hin
    replace hin : (u, q) ∈ writing := hin
    show (Function.update st.locks r lock q).owner = some u ∨ (Function.update st.threads t thread u).pc.InWindow q
    rcases eq_or_ne u t with rfl | hu
    · rw [update_self]
      exact howned q hin
    · rw [update_of_ne hu, howners u hu q]
      exact h.owned u q ((hwriting.mem u hu q).mp hin)
  case pc =>
    intro u
    show RwState.At _ u (Function.update st.threads t thread u).pc
    rcases eq_or_ne u t with rfl | hu
    · rw [update_self]
      exact hat
    · rw [update_of_ne hu]
      apply (h.pc u).frame
      · show (Function.update st.threads t thread u).rdlock_count = _
        rw [update_of_ne hu]
      · exact hreading.mem u hu
      · exact hwriting.mem u hu
      · exact howners u hu

/-! ## The steps -/

theorem RwState.Kept.owner_of_mem (hpc : ¬ (st.threads t).pc.InWindow r)
    (hin : (t, r) ∈ st.writing) : (st.locks r).owner = some t :=
  (h.owned t r hin).resolve_right hpc

theorem RwState.Kept.of_writing (hin : (t, r) ∈ st.writing) :
    (st.locks r).writer_active = true ∧ heldOf st.writing r = 1 ∧ heldOf st.reading r = 0 := by
  have hlock := h.lock r
  have hpos := heldOf_pos hin
  have hwriters := hlock.writers_eq
  split_ifs at hwriters with hactive
  · exact ⟨hactive, hwriters, hlock.exclusive hactive⟩
  · omega

theorem RwState.Kept.writer_unique (ht : (t, r) ∈ st.writing) (hu : (u, r) ∈ st.writing) : u = t :=
  eq_of_heldOf (h.of_writing ht).2.1.le ht hu

theorem RwState.Kept.setThread {thread : RwThread} (hpc : ∀ q, ¬ (st.threads t).pc.InWindow q)
    (hcount : thread.rdlock_count + thread.pc.owes = heldBy st.reading t) (hlt : thread.rdlock_count < 2^31)
    (hat : RwState.At { st with threads := Function.update st.threads t thread } t thread.pc) :
    RwState.Kept { st with threads := Function.update st.threads t thread } := by
  have hsame : Function.update st.locks 0 (st.locks 0) = st.locks := update_eq_self 0 _
  have hupdate := h.update t 0 thread (st.locks 0) st.reading st.writing .refl .refl (h.lock 0) hcount
    hlt (fun _ _ => Iff.rfl) (h.owner t 0) (fun _ _ => Iff.rfl)
  rw [hsame] at hupdate
  exact hupdate (fun q hq => .inl (h.owner_of_mem (hpc q) hq)) hat

theorem RwState.Kept.moveTo {pc : RwPc} (hpc : ∀ q, ¬ (st.threads t).pc.InWindow q)
    (howes : pc.owes = (st.threads t).pc.owes) (hat : (st.moveTo t pc).At t pc) : (st.moveTo t pc).Kept := by
  have hcount := h.count t
  rw [← howes] at hcount
  exact h.setThread hpc hcount (h.count_lt t) hat

theorem RwState.Kept.ret {result : RwResult}
    (hpc : ∀ q, ¬ (st.threads t).pc.InWindow q) (howes : (st.threads t).pc.owes = 0) : (st.ret t result).Kept := by
  have hcount := h.count t
  rw [howes] at hcount
  exact h.setThread hpc hcount (h.count_lt t) trivial

theorem RwState.Kept.takeRead (hpc : ∀ q, ¬ (st.threads t).pc.InWindow q)
    (howes : (st.threads t).pc.owes = 0) (hactive : (st.locks r).writer_active = false)
    (hreaders : (st.locks r).readers < 2^31 - 1) (hcount : (st.threads t).rdlock_count < 2^31 - 1) :
    (st.takeRead t r).Kept := by
  obtain ⟨hreq, hrlt, hweq, -⟩ := h.lock r
  have hword : s32 ((st.locks r).readers + 1) = (st.locks r).readers + 1 :=
    s32_of_lt (by omega) (by omega)
  have hthread := h.count t
  unfold RwState.takeRead
  dsimp only
  rw [hword]
  apply h.update t r { st.threads t with pc := .rdCount r } _ _ st.writing .cons .refl
  · refine ⟨?_, ?_, hweq, fun hne => ?_⟩
    · rw [heldOf_cons]
      exact congrArg (· + 1) hreq
    · rw [heldOf_cons]
      omega
    · rw [show (st.locks r).writer_active = true from hne] at hactive
      cases hactive
  · rw [heldBy_cons]
    show (st.threads t).rdlock_count + 1 = _
    omega
  · exact h.count_lt t
  · exact fun _ _ => Iff.rfl
  · exact h.owner t r
  · exact fun _ _ => Iff.rfl
  · intro q hq
    have hown := h.owner_of_mem (hpc q) hq
    rcases eq_or_ne q r with rfl | hne
    · rw [update_self]
      exact .inl hown
    · rw [update_of_ne hne]
      exact .inl hown
  · refine ⟨mem_cons_self, ?_⟩
    show (Function.update st.threads t _ t).rdlock_count < _
    rw [update_self]
    exact hcount

theorem RwState.Kept.takeWrite (hpc : ∀ q, ¬ (st.threads t).pc.InWindow q)
    (howes : (st.threads t).pc.owes = 0) (hactive : (st.locks r).writer_active = false)
    (hreaders : (st.locks r).readers ≤ 0) : (st.takeWrite t r).Kept := by
  obtain ⟨hreq, hrlt, hweq, -⟩ := h.lock r
  have hnone : heldOf st.writing r = 0 := by simpa [hactive] using hweq
  have hnot : (st.locks r).owner ≠ some t := by
    intro hown
    have := heldOf_pos (h.owner t r hown)
    omega
  have hthread := h.count t
  rw [howes] at hthread
  apply h.update t r { st.threads t with pc := .wrStore r } { st.locks r with writer_active := true }
    st.reading ((t, r) :: st.writing) .refl .cons
  · refine ⟨hreq, hrlt, ?_, fun _ => by omega⟩
    rw [heldOf_cons, hnone]
    rfl
  · exact hthread
  · exact h.count_lt t
  · exact fun _ _ => Iff.rfl
  · exact fun _ => mem_cons_self
  · intro q hq
    simp [hq]
  · intro q hq
    rcases eq_or_ne q r with rfl | hne
    · exact .inr (.inl rfl)
    · have hin : (t, q) ∈ st.writing := by simpa [hne] using hq
      rw [update_of_ne hne]
      exact .inl (h.owner_of_mem (hpc q) hin)
  · refine ⟨mem_cons_self, ?_⟩
    show (Function.update st.locks r _ r).owner ≠ some t
    rw [update_self]
    exact hnot

theorem RwState.Kept.storeOwner (hpc : (st.threads t).pc = .wrStore r) : (st.storeOwner t r).Kept := by
  have hat := h.pc t
  have hthread := h.count t
  rw [hpc] at hat hthread
  obtain ⟨hin, -⟩ := hat
  apply h.update t r { st.threads t with pc := .idle, result := some .ok }
    { st.locks r with owner := some t } st.reading st.writing .refl .refl
  · obtain ⟨hreq, hrlt, hweq, hex⟩ := h.lock r
    exact ⟨hreq, hrlt, hweq, hex⟩
  · exact hthread
  · exact h.count_lt t
  · intro u hu
    constructor
    · intro heq
      exact absurd (some.inj heq).symm hu
    · intro hown
      exact absurd (h.writer_unique hin (h.owner u r hown)) hu
  · exact fun _ => hin
  · exact fun _ _ => Iff.rfl
  · intro q hq
    rcases eq_or_ne q r with rfl | hne
    · rw [update_self]
      exact .inl rfl
    · rw [update_of_ne hne]
      refine .inl (h.owner_of_mem ?_ hq)
      rw [hpc]
      simp [RwPc.InWindow, hne.symm]
  · trivial

theorem RwState.Kept.clearOwner (hpc : (st.threads t).pc = .clear r) : (st.clearOwner t r).Kept := by
  have hown := h.pc t
  have hthread := h.count t
  rw [hpc] at hown hthread
  apply h.update t r { st.threads t with pc := .unlockWrite r } { st.locks r with owner := none }
    st.reading st.writing .refl .refl
  · obtain ⟨hreq, hrlt, hweq, hex⟩ := h.lock r
    exact ⟨hreq, hrlt, hweq, hex⟩
  · exact hthread
  · exact h.count_lt t
  · intro u hu
    rw [hown]
    simp [hu.symm]
  · simp
  · exact fun _ _ => Iff.rfl
  · intro q hq
    rcases eq_or_ne q r with rfl | hne
    · exact .inr (.inr rfl)
    · rw [update_of_ne hne]
      refine .inl (h.owner_of_mem ?_ hq)
      rw [hpc]
      simp [RwPc.InWindow]
  · refine ⟨h.owner t r hown, ?_⟩
    simp

theorem RwState.Kept.unlockWrite (hpc : (st.threads t).pc = .unlockWrite r) : (st.unlockWrite t r).Kept := by
  have hat := h.pc t
  have hthread := h.count t
  rw [hpc] at hat hthread
  obtain ⟨hin, hnot⟩ := hat
  obtain ⟨hactive, hone, hnone⟩ := h.of_writing hin
  have herase := heldOf_erase hin
  apply h.update t r { st.threads t with pc := .idle, result := some .ok }
    { st.locks r with writer_active := false } st.reading (st.writing.erase (t, r)) .refl (.erase hin)
  · obtain ⟨hreq, hrlt, -, -⟩ := h.lock r
    refine ⟨hreq, hrlt, ?_, by simp⟩
    show heldOf (st.writing.erase (t, r)) r = 0
    omega
  · exact hthread
  · exact h.count_lt t
  · exact fun _ _ => Iff.rfl
  · exact fun hown => absurd hown hnot
  · intro q hq
    exact mem_erase_of_ne (by simpa using hq)
  · intro q hq
    rcases eq_or_ne q r with rfl | hne
    · have := heldOf_pos hq
      omega
    · rw [update_of_ne hne]
      refine .inl (h.owner_of_mem ?_ (mem_of_mem_erase hq))
      rw [hpc]
      simp [RwPc.InWindow, hne.symm]
  · trivial

theorem RwState.Kept.compareOwner (hpc : (st.threads t).pc = .compare r) : (st.compareOwner t r).Kept := by
  have hin := h.pc t
  have hthread := h.count t
  have hlt := h.count_lt t
  rw [hpc] at hin hthread
  have hread := heldOf_pos hin
  have hnone : (st.locks r).owner = none := by
    rcases hown : (st.locks r).owner with _ | u
    · rfl
    · have := (h.of_writing (h.owner u r hown)).2.2
      omega
  have howes : RwPc.owes (.compare r) = 0 := rfl
  have hword : s32 ((st.threads t).rdlock_count - 1) = (st.threads t).rdlock_count - 1 :=
    s32_of_lt (by omega) (by omega)
  unfold RwState.compareOwner
  dsimp only
  rw [if_pos hnone, hword]
  apply h.setThread
  · intro q
    rw [hpc]
    simp [RwPc.InWindow]
  · show (st.threads t).rdlock_count - 1 + 1 = _
    omega
  · show (st.threads t).rdlock_count - 1 < _
    omega
  · exact hin

theorem RwState.Kept.unlockRead (hpc : (st.threads t).pc = .unlockRead r) : (st.unlockRead t r).Kept := by
  have hin := h.pc t
  have hthread := h.count t
  rw [hpc] at hin hthread
  obtain ⟨hreq, hrlt, hweq, hex⟩ := h.lock r
  have hof := heldOf_erase hin
  have hby := heldBy_erase hin
  have hword : s32 ((st.locks r).readers - 1) = (st.locks r).readers - 1 :=
    s32_of_lt (by omega) (by omega)
  unfold RwState.unlockRead
  dsimp only
  rw [hword]
  apply h.update t r { st.threads t with pc := .idle, result := some .ok } _
    (st.reading.erase (t, r)) st.writing (.erase hin) .refl
  · refine ⟨?_, by omega, hweq, fun hactive => ?_⟩
    · show (st.locks r).readers - 1 = _
      omega
    · have := hex hactive
      omega
  · have howes : RwPc.owes (.unlockRead r) = 1 := rfl
    show (st.threads t).rdlock_count + 0 = _
    omega
  · exact h.count_lt t
  · exact fun _ _ => Iff.rfl
  · exact h.owner t r
  · exact fun _ _ => Iff.rfl
  · intro q hq
    have hown : (st.locks q).owner = some t := by
      refine h.owner_of_mem ?_ hq
      rw [hpc]
      simp [RwPc.InWindow]
    rcases eq_or_ne q r with rfl | hne
    · rw [update_self]
      exact .inl hown
    · rw [update_of_ne hne]
      exact .inl hown
  · trivial

theorem RwState.Kept.count_succ (hpc : (st.threads t).pc = .rdCount r) : (st.count t).Kept := by
  have hat := h.pc t
  have hthread := h.count t
  rw [hpc] at hat hthread
  obtain ⟨hin, hlt⟩ := hat
  have howes : RwPc.owes (.rdCount r) = 1 := rfl
  have hword : s32 ((st.threads t).rdlock_count + 1) = (st.threads t).rdlock_count + 1 :=
    s32_of_lt (by omega) (by omega)
  unfold RwState.count
  dsimp only
  rw [hword]
  apply h.setThread
  · intro q
    rw [hpc]
    simp [RwPc.InWindow]
  · show (st.threads t).rdlock_count + 1 + 0 = _
    omega
  · show (st.threads t).rdlock_count + 1 < _
    omega
  · trivial

end

section Try

variable {wait : RwWait} (h : st.Kept) (hpc : ∀ q, ¬ (st.threads t).pc.InWindow q)
  (howes : (st.threads t).pc.owes = 0)

include h hpc howes

theorem RwState.Kept.tryLockShared (hreaders : (st.locks r).readers < 2^31 - 1)
    (hcount : (st.threads t).rdlock_count < 2^31 - 1) : (st.tryLockShared t r wait).Kept := by
  unfold RwState.tryLockShared
  split_ifs with hactive
  · exact h.takeRead hpc howes hactive hreaders hcount
  · exact h.ret hpc howes
  · exact h.ret hpc howes
  · exact h.moveTo hpc howes.symm trivial

theorem RwState.Kept.lockShared (hreaders : (st.locks r).readers < 2^31 - 1)
    (hcount : (st.threads t).rdlock_count < 2^31 - 1) (hstep : st.lockShared t r wait = some st') : st'.Kept := by
  unfold RwState.lockShared at hstep
  split_ifs at hstep with hactive
  · obtain rfl := some.inj hstep
    exact h.takeRead hpc howes hactive hreaders hcount
  · obtain rfl := some.inj hstep
    exact h.ret hpc howes

theorem RwState.Kept.tryLock : (st.tryLock t r wait).Kept := by
  unfold RwState.tryLock
  split_ifs with hbusy
  · exact h.ret hpc howes
  · exact h.ret hpc howes
  · exact h.moveTo hpc howes.symm trivial
  · obtain ⟨hactive, hreaders⟩ := not_or.mp hbusy
    exact h.takeWrite hpc howes (Bool.eq_false_iff.mpr hactive) (not_lt.mp hreaders)

theorem RwState.Kept.lockWrite (hstep : st.lock t r wait = some st') : st'.Kept := by
  unfold RwState.lock at hstep
  split_ifs at hstep with hfree
  · obtain rfl := some.inj hstep
    exact h.takeWrite hpc howes hfree.1 hfree.2.le
  · obtain rfl := some.inj hstep
    exact h.ret hpc howes

end Try

theorem RwState.Kept.unlockStart (h : st.Kept) (hpc : (st.threads t).pc = .unlock r) : (st.unlockStart t r).Kept := by
  have hholds := h.pc t
  rw [hpc] at hholds
  have hwindow : ∀ q, ¬ (st.threads t).pc.InWindow q := by
    rw [hpc]
    simp [RwPc.InWindow]
  have howes : (st.threads t).pc.owes = 0 := by rw [hpc]; rfl
  unfold RwState.unlockStart
  split_ifs with hown
  · exact h.moveTo hwindow howes.symm hown
  · -- A thread that is not the owner holds the lock for reading.
    refine h.moveTo hwindow howes.symm ?_
    rcases hholds with hread | hwrite
    · exact hread
    · exact absurd (h.owner_of_mem (hwindow r) hwrite) hown

theorem RwState.Kept.advance (h : st.Kept) (hfair : (RwOp.advance t).Fair st)
    (hstep : st.advance t = some st') : st'.Kept := by
  unfold RwState.advance at hstep
  have hwindow : ∀ pc, (st.threads t).pc = pc → (∀ q, ¬ pc.InWindow q) → ∀ q, ¬ (st.threads t).pc.InWindow q := by
    rintro pc rfl hpc
    exact hpc
  rcases hpc : (st.threads t).pc with
    _ | ⟨r, wait⟩ | ⟨r, wait⟩ | r | ⟨r, wait⟩ | ⟨r, wait⟩ | r | r | r | r | r | r
  all_goals rw [hpc] at hstep; dsimp only at hstep
  case idle => cases hstep
  case rdTry =>
    obtain rfl := some.inj hstep
    obtain ⟨hreaders, hcount⟩ := hfair r ⟨wait, .inl hpc⟩
    exact h.tryLockShared (hwindow _ hpc (by simp [RwPc.InWindow])) (by rw [hpc]; rfl) hreaders hcount
  case rdWait =>
    obtain ⟨hreaders, hcount⟩ := hfair r ⟨wait, .inr hpc⟩
    exact h.lockShared (hwindow _ hpc (by simp [RwPc.InWindow])) (by rw [hpc]; rfl) hreaders hcount
      hstep
  case rdCount =>
    obtain rfl := some.inj hstep
    exact h.count_succ hpc
  case wrTry =>
    obtain rfl := some.inj hstep
    exact h.tryLock (hwindow _ hpc (by simp [RwPc.InWindow])) (by rw [hpc]; rfl)
  case wrWait =>
    exact h.lockWrite (hwindow _ hpc (by simp [RwPc.InWindow])) (by rw [hpc]; rfl) hstep
  case wrStore =>
    obtain rfl := some.inj hstep
    exact h.storeOwner hpc
  case unlock =>
    obtain rfl := some.inj hstep
    exact h.unlockStart hpc
  case clear =>
    obtain rfl := some.inj hstep
    exact h.clearOwner hpc
  case unlockWrite =>
    obtain rfl := some.inj hstep
    exact h.unlockWrite hpc
  case compare =>
    obtain rfl := some.inj hstep
    exact h.compareOwner hpc
  case unlockRead =>
    obtain rfl := some.inj hstep
    exact h.unlockRead hpc

theorem RwState.Kept.call (h : st.Kept) (pc : RwPc) (howes : pc.owes = 0) (hat : (st.moveTo t pc).At t pc)
    (hstep : (if (st.threads t).pc = .idle then some (st.moveTo t pc) else none) = some st') : st'.Kept := by
  split_ifs at hstep with hidle
  obtain rfl := some.inj hstep
  refine h.moveTo (fun q => ?_) ?_ hat
  · rw [hidle]
    simp [RwPc.InWindow]
  · rw [hidle]
    exact howes

theorem RwState.Kept.step (h : st.Kept) (hfair : o.Fair st) (hstep : st.step o = some st') : st'.Kept := by
  cases o with
  | rdlock t r wait => exact h.call (.rdTry r wait) rfl trivial hstep
  | wrlock t r wait => exact h.call (.wrTry r wait) rfl trivial hstep
  | unlock t r => exact h.call (.unlock r) rfl hfair hstep
  | advance t => exact h.advance hfair hstep

theorem RwState.Kept.isNew (h : st.IsNew) : st.Kept := by
  obtain ⟨hlocks, hthreads, hreading, hwriting⟩ := h
  constructor
  case lock =>
    intro r
    rw [hlocks r, hreading, hwriting]
    exact ⟨rfl, Nat.pow_pos (Nat.succ_pos 1), rfl, by simp⟩
  case count =>
    intro t
    rw [(hthreads t).1, (hthreads t).2, hreading]
    rfl
  case count_lt =>
    intro t
    rw [(hthreads t).2]
    decide
  case owner =>
    intro t r hown
    rw [hlocks r] at hown
    cases hown
  case owned =>
    intro t r hin
    rw [hwriting] at hin
    cases hin
  case pc =>
    intro t
    rw [(hthreads t).1]
    trivial

/-! ## Runs -/

/-- In a run in which locks are given back by threads that hold them: one thread holds a lock for
writing, and then nobody holds it for reading; the readers are not negative; the owner is the writer,
except between the inner mutex and the store of the owner; and each thread counts its read locks,
except while it takes one or gives one back. -/
theorem rwlock_run (h : Run RwState.IsNew (fun st o st' => st.step o = some st') (fun st o => o.Fair st) st) :
    (∀ r t, (t, r) ∈ st.writing →
      (∀ u, (u, r) ∈ st.writing → u = t) ∧ heldOf st.writing r = 1 ∧ ∀ u, (u, r) ∉ st.reading) ∧
    (∀ r, 0 ≤ (st.locks r).readers ∧ (st.locks r).readers = heldOf st.reading r) ∧
    (∀ r t, (st.locks r).owner = some t ↔ (t, r) ∈ st.writing ∧ ¬ (st.threads t).pc.InWindow r) ∧
    ∀ t, (st.threads t).rdlock_count + (st.threads t).pc.owes = heldBy st.reading t := by
  have hkept : st.Kept := h.invariant (fun _ => RwState.Kept.isNew)
    fun _ _ _ hkept hg hstep => hkept.step hg hstep
  refine ⟨fun r t hin => ?_, fun r => ?_, fun r t => ?_, hkept.count⟩
  · obtain ⟨-, hone, hnone⟩ := hkept.of_writing hin
    refine ⟨fun u hu => hkept.writer_unique hin hu, hone, fun u hu => ?_⟩
    have := heldOf_pos hu
    omega
  · have hreaders := (hkept.lock r).readers_eq
    exact ⟨by omega, hreaders⟩
  · constructor
    · intro hown
      refine ⟨hkept.owner t r hown, ?_⟩
      have hat := hkept.pc t
      rintro (hpc | hpc)
      · rw [hpc] at hat
        exact hat.2 hown
      · rw [hpc] at hat
        exact hat.2 hown
    · rintro ⟨hin, hpc⟩
      exact hkept.owner_of_mem hpc hin

/-- Nothing is locked, and no thread is in a call. -/
def newRwlocks : RwState where
  locks := fun _ => {}
  threads := fun _ => {}

theorem newRwlocks_isNew : newRwlocks.IsNew := ⟨fun _ => rfl, fun _ => ⟨rfl, rfl⟩, rfl, rfl⟩

theorem rwlock_run_sample : ∃ st : RwState, (st.locks 0).owner = some 7 ∧ ∀ u, (u, 0) ∉ st.reading := by
  have hcall : Run RwState.IsNew (fun st o st' => st.step o = some st') (fun st o => o.Fair st)
      (newRwlocks.moveTo 7 (.wrTry 0 .forever)) :=
    .step (o := .wrlock 7 0 .forever) (.start newRwlocks_isNew) trivial rfl
  have hfair : ∀ st : RwState, (∃ wait, (st.threads 7).pc = .wrTry 0 wait) ∨
      (st.threads 7).pc = .wrStore 0 → (RwOp.advance 7).Fair st := by
    intro st hpc r hread
    obtain ⟨wait, hread⟩ := hread
    rcases hpc with ⟨wait', hpc⟩ | hpc <;> rw [hpc] at hread <;> simp at hread
  have htake := Run.step (o := .advance 7) hcall (hfair _ (.inl ⟨.forever, rfl⟩)) rfl
  have hstore := Run.step (o := .advance 7) htake (hfair _ (.inr rfl)) rfl
  exact ⟨_, by decide, ((rwlock_run hstore).1 0 7 (by decide)).2.2⟩

/-- A thread that holds nothing gives back the read lock of another thread, and a third one takes the
lock for writing. -/
theorem rwlock_unlock_foreign : ∃ st : RwState,
    Run RwState.IsNew (fun st o st' => st.step o = some st') (fun _ _ => True) st ∧
    (0, 0) ∈ st.reading ∧ (st.threads 1).rdlock_count = -1 ∧ (st.locks 0).readers = 0 ∧
    (st.locks 0).owner = some 2 := by
  have hstart : Run RwState.IsNew (fun st o st' => st.step o = some st') (fun _ _ => True)
      newRwlocks := .start newRwlocks_isNew
  have hrun := Run.ofList [.rdlock 0 0 .forever, .advance 0, .advance 0, .unlock 1 0, .advance 1,
    .advance 1, .advance 1, .wrlock 2 0 .try, .advance 2, .advance 2] hstart rfl
  exact ⟨_, hrun, by decide, by decide, by decide, by decide⟩

end ShadPS4.Kernel
