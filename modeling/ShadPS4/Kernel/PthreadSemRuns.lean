import ShadPS4.Kernel.PthreadSem

/-!
# Runs of a `PthreadSem`

The value is the initial one with the posts and without the waits, and no wake-up is lost: a thread
sleeps without a permit while there are tokens only if some post has not woken the waiters yet.
-/

namespace ShadPS4.Kernel

open Function
open Option (some.inj)

variable {thread : PsemThread} {timeout : PsemTimeout} {woke : Bool}
variable {sem sem' : PthreadSem} {t : ℕ}

def PsemThread.Kept (thread : PsemThread) (listed : Prop) : Prop :=
  match thread.pc with
  | .cas _ value => 0 < value
  | .postCas current => current ≠ ORBIS_KERNEL_SEM_VALUE_MAX
  | .canceled _ => thread.shouldCancel = true
  | .asleep _ => listed ∨ 1 ≤ thread.wake_sema
  | _ => True

/-- What holds between the steps. -/
structure PthreadSem.Kept (sem : PthreadSem) : Prop where
  nonneg : 0 ≤ sem.value
  le_max : sem.value ≤ ORBIS_KERNEL_SEM_VALUE_MAX
  balance : sem.value = sem.initial + sem.posts - sem.waits
  thread : ∀ t, (sem.threads t).Kept (t ∈ sem.waiters)
  pending : 0 < sem.value → sem.waiters ≠ [] → ∃ p, (sem.threads p).pc = .wakeAll

theorem PthreadSem.Kept.isNew (h : sem.IsNew) : sem.Kept := by
  obtain ⟨hnonneg, hmax, hwaiters, hinitial, hposts, hwaits, hidle⟩ := h
  refine ⟨hnonneg, hmax, by omega, fun t => ?_, fun _ hne => absurd hwaiters hne⟩
  unfold PsemThread.Kept
  rw [hidle t]
  trivial

theorem PsemThread.Kept.mono (h : thread.Kept listed) (himp : listed → listed') : thread.Kept listed' := by
  unfold PsemThread.Kept at *
  split at h
  all_goals first | exact h | skip
  exact h.imp_left himp

section

variable (h : sem.Kept)

include h

theorem PthreadSem.Kept.update (t : ℕ) (thread : PsemThread) (value posts waits : ℤ)
    (waiters : List ℕ) (hvalue : 0 ≤ value ∧ value ≤ ORBIS_KERNEL_SEM_VALUE_MAX)
    (hbalance : value = sem.initial + posts - waits)
    (hothers : ∀ u ≠ t, u ∈ sem.waiters → u ∈ waiters) (hthread : thread.Kept (t ∈ waiters))
    (hpending : 0 < value → waiters ≠ [] → thread.pc = .wakeAll ∨
      (0 < sem.value ∧ sem.waiters ≠ [] ∧ (sem.threads t).pc ≠ .wakeAll)) :
    PthreadSem.Kept { sem.setThread t thread with value, posts, waits, waiters } := by
  refine ⟨hvalue.1, hvalue.2, hbalance, fun u => ?_, fun hpos hne => ?_⟩
  · show (Function.update sem.threads t thread u).Kept (u ∈ waiters)
    rcases eq_or_ne u t with rfl | hu
    · rw [update_self]
      exact hthread
    · rw [update_of_ne hu]
      exact (h.thread u).mono (hothers u hu)
  · show ∃ p, (Function.update sem.threads t thread p).pc = .wakeAll
    rcases hpending hpos hne with hpc | ⟨hpos', hne', hpc⟩
    · exact ⟨t, by rw [update_self]; exact hpc⟩
    · obtain ⟨p, hp⟩ := h.pending hpos' hne'
      have hpt : p ≠ t := by
        rintro rfl
        exact hpc hp
      exact ⟨p, by rw [update_of_ne hpt]; exact hp⟩

theorem PthreadSem.Kept.setThread (hthread : thread.Kept (t ∈ sem.waiters))
    (hpc : thread.pc = .wakeAll ∨ (sem.threads t).pc ≠ .wakeAll) : (sem.setThread t thread).Kept := by
  apply h.update t thread _ _ _ _ ⟨h.nonneg, h.le_max⟩ h.balance (fun _ _ hu => hu) hthread
  intro hpos hne
  exact hpc.imp_right fun hpc => ⟨hpos, hne, hpc⟩

theorem PthreadSem.Kept.moveTo (hthread : PsemThread.Kept { sem.threads t with pc } (t ∈ sem.waiters))
    (hpc : (sem.threads t).pc ≠ .wakeAll) : (sem.moveTo t pc).Kept :=
  h.setThread hthread (.inr hpc)

theorem PthreadSem.Kept.ret (hpc : (sem.threads t).pc ≠ .wakeAll) : (sem.ret t result).Kept :=
  h.setThread trivial (.inr hpc)

theorem PthreadSem.Kept.leave (hpc : (sem.threads t).pc ≠ .wakeAll) : (sem.leave t).Kept :=
  h.setThread trivial (.inr hpc)

theorem PthreadSem.Kept.take (hpos : 0 < sem.value) (hpc : (sem.threads t).pc ≠ .wakeAll) : (sem.take t).Kept := by
  have hbalance := h.balance
  have hmax := h.le_max
  apply h.update t { sem.threads t with pc := .idle, result := some .ok } (sem.value - 1) sem.posts
    (sem.waits + 1) sem.waiters ⟨by omega, by omega⟩ (by omega) (fun _ _ hu => hu) trivial
  intro _ hne
  exact .inr ⟨hpos, hne, hpc⟩

section

variable (hpc : (sem.threads t).pc ≠ .wakeAll)

include hpc

theorem PthreadSem.Kept.failed : (sem.failed t site).Kept := by
  cases site with
  | trywait => exact h.ret hpc
  | top timeout =>
    unfold PthreadSem.failed
    dsimp only
    split_ifs
    · exact h.ret hpc
    · exact h.moveTo trivial hpc
  | again timeout woke => exact h.moveTo trivial hpc

theorem PthreadSem.Kept.tryAcquire : (sem.tryAcquire t site).Kept := by
  unfold PthreadSem.tryAcquire
  split_ifs with hpos
  · exact h.moveTo hpos hpc
  · exact h.failed hpc

theorem PthreadSem.Kept.tryPost : (sem.tryPost t).Kept := by
  unfold PthreadSem.tryPost
  split_ifs with hmax
  · exact h.ret hpc
  · exact h.moveTo hmax hpc

theorem PthreadSem.Kept.testCancel
    (hnot : (sem.threads t).shouldCancel = false → sem'.Kept) : (sem.testCancel t sem').Kept := by
  unfold PthreadSem.testCancel
  split_ifs with hcancel
  · exact h.leave hpc
  · exact hnot (Bool.eq_false_iff.mpr hcancel)

theorem PthreadSem.Kept.publish : (sem.publish t timeout).Kept := by
  unfold PthreadSem.publish
  dsimp only
  split_ifs with hpos hcancel
  · exact h.take hpos hpc
  · exact h.setThread hcancel (.inr hpc)
  · apply h.update t _ _ _ _ _ ⟨h.nonneg, h.le_max⟩ h.balance
    · exact fun u _ hu => List.mem_append_left _ hu
    · exact .inl (by simp)
    · exact fun hpos' _ => absurd hpos' hpos

theorem PthreadSem.Kept.sleep (hstep : sem.sleep t timeout woke = some sem') : sem'.Kept := by
  unfold PthreadSem.sleep at hstep
  dsimp only at hstep
  split at hstep
  · split at hstep
    · cases hstep
    · obtain rfl := some.inj hstep
      exact h.setThread trivial (.inr hpc)
  · split at hstep
    · cases hstep
    · obtain rfl := some.inj hstep
      exact h.moveTo trivial hpc

theorem PthreadSem.Kept.unpublish : (sem.unpublish t timeout woke).Kept := by
  apply h.update t _ _ _ _ _ ⟨h.nonneg, h.le_max⟩ h.balance
  · intro u hu hin
    exact List.mem_filter.mpr ⟨hin, decide_eq_true hu⟩
  · trivial
  · intro hpos hne
    refine .inr ⟨hpos, fun hnil => hne ?_, hpc⟩
    rw [hnil]
    rfl

end

theorem PthreadSem.Kept.wakeAll : (sem.wakeAll t).Kept := by
  refine ⟨h.nonneg, h.le_max, h.balance, fun u => ?_, fun _ hne => absurd rfl hne⟩
  unfold PthreadSem.wakeAll
  dsimp only
  split_ifs with hu
  · trivial
  · have hthread := h.thread u
    unfold PsemThread.Kept at *
    dsimp only
    split at hthread
    all_goals first | exact hthread | skip
    rcases hthread with hin | hpermit
    · have := List.count_pos_iff.mpr hin
      exact .inr (by omega)
    · exact .inr (by omega)

theorem PthreadSem.Kept.advance (hstep : sem.advance t woke spurious = some sem') : sem'.Kept := by
  have hthread := h.thread t
  unfold PthreadSem.advance at hstep
  unfold PsemThread.Kept at hthread
  rcases hpc : (sem.threads t).pc with
    _ | site | ⟨site, value⟩ | timeout | timeout | timeout | timeout | ⟨timeout, woke'⟩ |
    ⟨timeout, woke'⟩ | _ | current | _
  all_goals rw [hpc] at hthread hstep; dsimp only at hthread hstep
  case idle => cases hstep
  case wakeAll =>
    obtain rfl := some.inj hstep
    exact h.wakeAll
  all_goals have hnot : (sem.threads t).pc ≠ .wakeAll := by rw [hpc]; simp
  case load =>
    obtain rfl := some.inj hstep
    exact h.tryAcquire hnot
  case cas =>
    split at hstep
    · rename_i heq
      obtain rfl := some.inj hstep
      exact h.take (heq.1 ▸ hthread) hnot
    · obtain rfl := some.inj hstep
      exact h.tryAcquire hnot
  case enter =>
    obtain rfl := some.inj hstep
    exact h.testCancel hnot fun _ => h.moveTo trivial hnot
  case publish =>
    obtain rfl := some.inj hstep
    exact h.publish hnot
  case canceled =>
    -- The cancellation that was seen under the mutex is still there.
    obtain rfl := some.inj hstep
    refine h.testCancel hnot fun hcancel => ?_
    rw [hthread] at hcancel
    cases hcancel
  case asleep => exact h.sleep hnot hstep
  case awake =>
    obtain rfl := some.inj hstep
    exact h.unpublish hnot
  case test =>
    obtain rfl := some.inj hstep
    refine h.testCancel hnot fun _ => ?_
    unfold PthreadSem.retry
    split_ifs
    · exact h.ret hnot
    · exact h.moveTo trivial hnot
  case postLoad =>
    obtain rfl := some.inj hstep
    exact h.tryPost hnot
  case postCas =>
    split at hstep
    · rename_i heq
      obtain rfl := some.inj hstep
      have hbalance := h.balance
      have hnonneg := h.nonneg
      have hmax := h.le_max
      apply h.update t { sem.threads t with pc := .wakeAll } (current + 1) (sem.posts + 1) sem.waits
        sem.waiters ⟨by omega, by omega⟩ (by omega) (fun _ _ hu => hu) trivial
      exact fun _ _ => .inl rfl
    · obtain rfl := some.inj hstep
      exact h.tryPost hnot

end

theorem PsemThread.Kept.later {thread' : PsemThread} {listed : Prop} (h : thread.Kept listed)
    (hpc : thread'.pc = thread.pc) (hpermit : thread.wake_sema ≤ thread'.wake_sema)
    (hcancel : thread.shouldCancel = true → thread'.shouldCancel = true) : thread'.Kept listed := by
  unfold PsemThread.Kept at *
  rw [hpc]
  split at h
  all_goals first | exact h | skip
  · exact hcancel h
  · exact h.imp_right fun h => Nat.le_trans h hpermit

theorem PthreadSem.Kept.setcancel (h : sem.Kept) (hidle : (sem.threads t).pc = .idle) {test : Bool} (hpc : thread.pc = .idle) :
    (if test then (sem.setThread t thread).testCancel t (sem.setThread t thread)
      else sem.setThread t thread).Kept := by
  have hthread : thread.Kept (t ∈ sem.waiters) := by
    unfold PsemThread.Kept
    rw [hpc]
    trivial
  have hset : (sem.setThread t thread).Kept := h.setThread hthread (.inr (by rw [hidle]; simp))
  have hself : ((sem.setThread t thread).threads t).pc ≠ .wakeAll := by
    show (Function.update sem.threads t thread t).pc ≠ .wakeAll
    rw [update_self, hpc]
    simp
  split_ifs
  · exact hset.testCancel hself fun _ => hset
  · exact hset

theorem PthreadSem.Kept.step (h : sem.Kept) (hstep : sem.step o = some sem') : sem'.Kept := by
  unfold PthreadSem.step at hstep
  cases o with
  | call t pc =>
    dsimp only at hstep
    split at hstep
    · rename_i hcall
      obtain ⟨hidle, hcall⟩ := hcall
      obtain rfl := some.inj hstep
      have hnot : (sem.threads t).pc ≠ .wakeAll := by rw [hidle]; simp
      refine h.moveTo ?_ hnot
      unfold PsemPc.IsCall at hcall
      split at hcall
      · trivial
      · trivial
      · trivial
      · cases hcall
    · cases hstep
  | advance t woke spurious => exact h.advance hstep
  | cancel t =>
    dsimp only at hstep
    split at hstep
    · obtain rfl := some.inj hstep
      exact h
    · rename_i hpending
      obtain rfl := some.inj hstep
      refine h.setThread ((h.thread t).later rfl (Nat.le_succ _) ?_) (Classical.em _)
      intro hcancel
      simp only [PsemThread.shouldCancel, Bool.and_eq_true] at hcancel
      exact absurd hcancel.1.1 hpending
  | setcancelstate t enable =>
    dsimp only at hstep
    split at hstep
    · rename_i hidle
      obtain rfl := some.inj hstep
      exact h.setcancel hidle hidle
    · cases hstep
  | setcanceltype t async =>
    dsimp only at hstep
    split at hstep
    · rename_i hidle
      obtain rfl := some.inj hstep
      exact h.setcancel hidle hidle
    · cases hstep
  | interrupt t =>
    dsimp only at hstep
    split at hstep
    · rename_i hcond
      obtain rfl := some.inj hstep
      refine h.leave fun hpc => hcond.2.2.2 ?_
      rw [hpc]
      trivial
    · cases hstep
  | release t =>
    obtain rfl := some.inj hstep
    exact h.setThread ((h.thread t).later rfl (Nat.le_succ _) id) (Classical.em _)

/-- In every run the value stays between zero and the maximum and is the initial one with the successful
posts and without the successful waits, and while there are tokens a thread that is asleep has a permit,
or is in the list of waiters that some post is about to wake. -/
theorem pthreadSem_run (h : Run PthreadSem.IsNew (fun sem o sem' => sem.step o = some sem')
    (fun _ _ => True) sem) : (0 ≤ sem.value ∧ sem.value ≤ ORBIS_KERNEL_SEM_VALUE_MAX) ∧
    sem.value = sem.initial + sem.posts - sem.waits ∧
    (0 < sem.value → ∀ t timeout, (sem.threads t).pc = .asleep timeout → 1 ≤ (sem.threads t).wake_sema ∨
        (t ∈ sem.waiters ∧ ∃ p, (sem.threads p).pc = .wakeAll)) := by
  have hkept : sem.Kept := h.invariant (fun _ => PthreadSem.Kept.isNew)
    fun _ _ _ hkept _ hstep => hkept.step hstep
  refine ⟨⟨hkept.nonneg, hkept.le_max⟩, hkept.balance, fun hpos t timeout hpc => ?_⟩
  have hthread := hkept.thread t
  unfold PsemThread.Kept at hthread
  rw [hpc] at hthread
  rcases hthread with hin | hpermit
  · exact .inr ⟨hin, hkept.pending hpos (List.ne_nil_of_mem hin)⟩
  · exact .inl hpermit

/-- A semaphore without tokens. -/
def newPsem : PthreadSem where
  value := 0
  initial := 0
  threads := fun _ => {}

theorem pthreadSem_run_sample : ∃ sem : PthreadSem, (sem.threads 0).pc = .asleep .infinite ∧ 0 < sem.value ∧
    (1 ≤ (sem.threads 0).wake_sema ∨ (0 ∈ sem.waiters ∧ ∃ p, (sem.threads p).pc = .wakeAll)) := by
  have hnew : newPsem.IsNew := ⟨by decide, by decide, rfl, rfl, rfl, rfl, fun _ => rfl⟩
  have hstart : Run PthreadSem.IsNew (fun sem o sem' => sem.step o = some sem') (fun _ _ => True)
      newPsem := .start hnew
  have hrun := Run.ofList [.call 0 (.load (.top .infinite)), .advance 0 false false,
    .advance 0 false false, .advance 0 false false, .call 1 .postLoad, .advance 1 false false,
    .advance 1 false false] hstart rfl
  exact ⟨_, by decide, by decide, (pthreadSem_run hrun).2.2 (by decide) 0 .infinite (by decide)⟩

end ShadPS4.Kernel
