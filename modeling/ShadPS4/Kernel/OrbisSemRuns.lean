import ShadPS4.Kernel.OrbisSem

/-!
# Runs of a semaphore

The tokens stay between zero and the maximum, nobody waits who could be served, every token that is taken is taken
for one call, and a call ends in one way.
-/

namespace ShadPS4.Kernel

open Function List
open Prod (snd fst)
open Option (some.inj)

variable {st st' : SemState} {id : ℕ} {need : ℕ → ℤ} {xs : List ℕ}

theorem grant_spec (hxs : ∀ id ∈ xs, 0 < need id) (ht : 0 ≤ t) (hmax : t < 2^31) :
    ((grant need xs t).1 ++ (grant need xs t).2.1).Perm xs ∧
      (grant need xs t).2.2 = t - ((grant need xs t).2.1.map need).sum ∧
      0 ≤ (grant need xs t).2.2 ∧ (grant need xs t).2.2 ≤ t ∧
      ∀ id ∈ (grant need xs t).1, (grant need xs t).2.2 < need id := by
  induction xs generalizing t with
  | nil => simp [grant, ht]
  | cons id rest ih =>
    have hid := hxs id (by simp)
    have hrest : ∀ id ∈ rest, 0 < need id := fun id hid => hxs id (by simp [hid])
    unfold grant
    split_ifs with hlt
    · obtain ⟨hperm, hsum, hpos, hle, hleft⟩ := ih hrest ht hmax
      refine ⟨hperm.cons id, hsum, hpos, hle, ?_⟩
      intro id' hid'
      rcases mem_cons.mp hid' with rfl | hid'
      · show (grant need rest t).2.2 < need id'
        omega
      · exact hleft id' hid'
    · have hword : s32 (t - need id) = t - need id := s32_of_lt (by omega) (by omega)
      rw [hword]
      obtain ⟨hperm, hsum, hpos, hle, hleft⟩ := ih (t := t - need id) hrest (by omega)
        (by omega)
      refine ⟨(perm_middle).trans (hperm.cons id), ?_, hpos, ?_, hleft⟩
      · show (grant need rest (t - need id)).2.2 = _
        simp only [map_cons, sum_cons]
        omega
      · show (grant need rest (t - need id)).2.2 ≤ t
        omega

/-- The call waits, and nobody has told it anything. -/
def SemState.Waits (st : SemState) (id : ℕ) : Prop :=
  id < st.next ∧ (st.calls id).result = none ∧ (st.calls id).thread.was_signaled = false ∧
    (st.calls id).thread.was_deleted = false ∧ (st.calls id).thread.was_canceled = false

def WaitingThread.ToldOnce (w : WaitingThread) : Prop :=
  ¬ (w.was_signaled = true ∧ w.was_deleted = true) ∧
    ¬ (w.was_signaled = true ∧ w.was_canceled = true) ∧
    ¬ (w.was_deleted = true ∧ w.was_canceled = true)

/-- What a call returned is what it was told, and it was given tokens when it returned `ORBIS_OK`. -/
def SemCall.Answered (call : SemCall) (granted : Prop) : SemResult → Prop
  | .ok => granted
  | .ebusy => ¬ granted
  | .etimedout => ¬ granted ∧ call.thread.was_deleted = false ∧ call.thread.was_canceled = false
  | .eacces => ¬ granted ∧ call.thread.was_deleted = true
  | .ecanceled => ¬ granted ∧ call.thread.was_canceled = true

/-- The call was given tokens. -/
def SemState.Granted (st : SemState) (id : ℕ) : Prop := ∃ n, (id, n) ∈ st.grants

/-- What holds between the critical sections. -/
structure SemState.Kept (st : SemState) : Prop where
  max_lt : st.sem.max_count < 2^31
  init : 0 ≤ st.sem.init_count ∧ st.sem.init_count ≤ st.sem.max_count
  token : 0 ≤ st.sem.token_count ∧ st.sem.token_count ≤ st.sem.max_count
  balance : st.canceled = false → st.sem.token_count =
    st.sem.init_count + st.accepted - (st.grants.map snd).sum
  unsatisfied : ∀ id ∈ st.sem.wait_list, st.sem.token_count < st.need id
  nodup : st.sem.wait_list.Nodup
  mem_iff : ∀ id, id ∈ st.sem.wait_list ↔ st.Waits id
  told : ∀ id < st.next, (st.calls id).thread.ToldOnce
  once : (st.grants.map fst).Nodup
  given : ∀ id n, (id, n) ∈ st.grants → id < st.next ∧ n = st.need id
  pending : ∀ id < st.next, (st.calls id).result = none →
    (st.Granted id ↔ (st.calls id).thread.was_signaled = true)
  answered : ∀ id < st.next, ∀ r, (st.calls id).result = some r →
    (st.calls id).Answered (st.Granted id) r

theorem SemState.newCall_calls (h : id < st.next) :
    (st.newCall need_count timeout priority result).calls id = st.calls id :=
  update_of_ne (Nat.ne_of_lt h) _ _

theorem SemState.newCall_next : (st.newCall need_count timeout priority result).calls st.next =
      { thread := { priority, need_count }, timeout, result } :=
  update_self _ _ _

theorem SemState.Kept.isNew (h : st.IsNew) : st.Kept := by
  obtain ⟨initCount, maxCount, is_fifo, hmax, hcreate, hnext, haccepted, hgrants, hcanceled⟩ := h
  unfold OrbisSem.create at hcreate
  split_ifs at hcreate with hbad
  have hsem := (some.inj hcreate).symm
  constructor <;> simp [hsem, hnext, haccepted, hgrants, SemState.Waits] <;> omega

/-! ## `Wait` -/

section Wait

variable {need_count : ℤ} {timeout : Option ℕ} {priority : ℕ} {result : Option SemResult}

theorem SemState.newCall_cases (hid : id < st.next + 1) :
    (id < st.next ∧ (st.newCall need_count timeout priority result).calls id = st.calls id) ∨
      (id = st.next ∧ (st.newCall need_count timeout priority result).calls id =
        { thread := { priority, need_count }, timeout, result }) := by
  rcases Nat.lt_succ_iff_lt_or_eq.mp hid with hlt | rfl
  · exact .inl ⟨hlt, newCall_calls hlt⟩
  · exact .inr ⟨rfl, newCall_next⟩

theorem SemState.Kept.not_granted (h : st.Kept) : ¬ st.Granted st.next := by
  rintro ⟨n, hn⟩
  exact Nat.lt_irrefl _ (h.given st.next n hn).1

theorem SemState.Kept.not_mem (h : st.Kept) : st.next ∉ st.sem.wait_list := by
  intro hmem
  exact Nat.lt_irrefl _ ((h.mem_iff _).mp hmem).1

theorem SemState.Kept.lt_next (h : st.Kept) (hid : id ∈ st.sem.wait_list) : id < st.next :=
  ((h.mem_iff _).mp hid).1

theorem SemState.Kept.enter (h : st.Kept) {sem : OrbisSem} {grants : List (ℕ × ℤ)}
    (hsame : sem.max_count = st.sem.max_count ∧ sem.init_count = st.sem.init_count)
    (htoken : 0 ≤ sem.token_count ∧ sem.token_count ≤ st.sem.max_count)
    (hunsatisfied : ∀ id ∈ st.sem.wait_list, sem.token_count < st.need id) (hnodup : sem.wait_list.Nodup)
    (hmem : ∀ id, id ∈ sem.wait_list ↔ id ∈ st.sem.wait_list ∨ id = st.next ∧ result = none)
    (hwaits : result = none → sem.token_count < need_count)
    (hgrants : (result = some .ok ∧ grants = (st.next, need_count) :: st.grants ∧
        sem.token_count = st.sem.token_count - need_count) ∨
      ((result = none ∨ result = some .ebusy ∨ result = some .etimedout) ∧ grants = st.grants ∧
        sem.token_count = st.sem.token_count)) :
    SemState.Kept { st.newCall need_count timeout priority result with sem, grants } := by
  -- Who was given tokens before is still, and the new call is when it returns `ORBIS_OK`.
  have hgranted : ∀ id, (∃ n, (id, n) ∈ grants) ↔ st.Granted id ∨ id = st.next ∧ result = some .ok := by
    intro id
    rcases hgrants with ⟨hok, rfl, -⟩ | ⟨hnot, rfl, -⟩
    · simp only [mem_cons, Prod.mk.injEq, hok, and_true]
      constructor
      · rintro ⟨n, ⟨hid, -⟩ | hn⟩
        · exact .inr hid
        · exact .inl ⟨n, hn⟩
      · rintro (⟨n, hn⟩ | hid)
        · exact ⟨n, .inr hn⟩
        · exact ⟨need_count, .inl ⟨hid, rfl⟩⟩
    · refine ⟨.inl, ?_⟩
      rintro (hid | ⟨-, hok⟩)
      · exact hid
      · rcases hnot with hnot | hnot | hnot <;> simp [hnot] at hok
  have hold : ∀ {id}, id < st.next → ((∃ n, (id, n) ∈ grants) ↔ st.Granted id) := by
    intro id hid
    rw [hgranted]
    refine or_iff_left fun hnew => ?_
    omega
  have hneed : ∀ {id}, id < st.next → SemState.need { st.newCall need_count timeout priority result
      with sem, grants } id = st.need id := by
    intro id hid
    exact congrArg (fun call => call.thread.need_count) (newCall_calls hid)
  have hnext : SemState.need { st.newCall need_count timeout priority result
      with sem, grants } st.next = need_count := by
    exact congrArg (fun call => call.thread.need_count) newCall_next
  constructor
  case max_lt => exact hsame.1 ▸ h.max_lt
  case init =>
    rw [hsame.1, hsame.2]
    exact h.init
  case token =>
    rw [hsame.1]
    exact htoken
  case balance =>
    intro hcanceled
    have hbefore := h.balance hcanceled
    show sem.token_count = sem.init_count + st.accepted - (grants.map snd).sum
    rcases hgrants with ⟨-, rfl, htaken⟩ | ⟨-, rfl, htaken⟩
    · simp only [map_cons, sum_cons]
      omega
    · omega
  case unsatisfied =>
    intro id hid
    rcases (hmem id).mp hid with hid | ⟨rfl, hnone⟩
    · rw [hneed (h.lt_next hid)]
      exact hunsatisfied id hid
    · rw [hnext]
      exact hwaits hnone
  case nodup => exact hnodup
  case mem_iff =>
    intro id
    refine (hmem id).trans ?_
    unfold SemState.Waits
    rcases Nat.lt_trichotomy id st.next with hlt | rfl | hgt
    · rw [show (SemState.calls _ id) = _ from newCall_calls hlt]
      constructor
      · rintro (hid | ⟨rfl, -⟩)
        · exact ⟨Nat.lt_succ_of_lt hlt, ((h.mem_iff id).mp hid).2⟩
        · omega
      · rintro ⟨-, hid⟩
        exact .inl ((h.mem_iff id).mpr ⟨hlt, hid⟩)
    · rw [show (SemState.calls _ _) = _ from newCall_next]
      constructor
      · rintro (hid | ⟨-, hnone⟩)
        · exact absurd hid h.not_mem
        · exact ⟨Nat.lt_succ_self _, hnone, rfl, rfl, rfl⟩
      · rintro ⟨-, hnone, -⟩
        exact .inr ⟨rfl, hnone⟩
    · constructor
      · rintro (hid | ⟨rfl, -⟩)
        · exact absurd (h.lt_next hid) (by omega)
        · omega
      · rintro ⟨hlt, -⟩
        exact absurd hlt (by show ¬ id < st.next + 1; omega)
  case told =>
    intro id hid
    rcases newCall_cases hid with ⟨hlt, heq⟩ | ⟨-, heq⟩
    · rw [show (SemState.calls _ id) = _ from heq]
      exact h.told id hlt
    · rw [show (SemState.calls _ id) = _ from heq]
      simp [WaitingThread.ToldOnce]
  case once =>
    rcases hgrants with ⟨-, rfl, -⟩ | ⟨-, rfl, -⟩
    · refine nodup_cons.mpr ⟨fun hin => ?_, h.once⟩
      obtain ⟨⟨id, n⟩, hn, rfl⟩ := mem_map.mp hin
      exact h.not_granted ⟨n, hn⟩
    · exact h.once
  case given =>
    intro id n hn
    have hcases : (id, n) ∈ st.grants ∨ id = st.next ∧ n = need_count := by
      rcases hgrants with ⟨-, rfl, -⟩ | ⟨-, rfl, -⟩
      · rcases mem_cons.mp hn with heq | hn
        · exact .inr ⟨congrArg fst heq, congrArg snd heq⟩
        · exact .inl hn
      · exact .inl hn
    rcases hcases with hn | ⟨rfl, rfl⟩
    · obtain ⟨hlt, heq⟩ := h.given id n hn
      exact ⟨Nat.lt_succ_of_lt hlt, heq.trans (hneed hlt).symm⟩
    · exact ⟨Nat.lt_succ_self _, hnext.symm⟩
  case pending =>
    intro id hid hnone
    rcases newCall_cases hid with ⟨hlt, heq⟩ | ⟨rfl, heq⟩
    · rw [show (SemState.calls _ id) = _ from heq] at hnone ⊢
      exact (hold hlt).trans (h.pending id hlt hnone)
    · rw [show (SemState.calls _ _) = _ from heq] at hnone ⊢
      refine iff_of_false ?_ (by simp)
      rintro hin
      rcases (hgranted _).mp hin with hin | ⟨-, hok⟩
      · exact h.not_granted hin
      · rw [show result = none from hnone] at hok
        cases hok
  case answered =>
    intro id hid r hr
    rcases newCall_cases hid with ⟨hlt, heq⟩ | ⟨rfl, heq⟩
    · rw [show (SemState.calls _ id) = _ from heq] at hr ⊢
      have hans := h.answered id hlt r hr
      have hiff := hold hlt
      cases r <;> simp only [SemCall.Answered, SemState.Granted] at hans hiff ⊢ <;> tauto
    · rw [show (SemState.calls _ _) = _ from heq] at hr ⊢
      have hr : result = some r := hr
      rcases hgrants with ⟨hok, rfl, -⟩ | ⟨hnot, rfl, -⟩
      · obtain rfl : r = .ok := some.inj (hr.symm.trans hok)
        exact ⟨need_count, mem_cons_self⟩
      · have hng := h.not_granted
        rw [hr] at hnot
        rcases hnot with hnot | hnot | hnot
        · cases hnot
        · obtain rfl := some.inj hnot
          exact hng
        · obtain rfl := some.inj hnot
          exact ⟨hng, rfl, rfl⟩

end Wait

theorem addWaiter_perm (priority : ℕ → ℕ) (is_fifo : Bool) (wait_list : List ℕ) (waiter : ℕ) :
    (addWaiter priority is_fifo wait_list waiter).Perm (waiter :: wait_list) := by
  unfold addWaiter
  split_ifs
  · exact perm_append_comm
  · refine List.perm_middle.trans ?_
    rw [takeWhile_append_dropWhile]

theorem SemState.Kept.wait (h : st.Kept) {can_block : Bool} {need_count : ℤ} {timeout : Option ℕ}
    {prio : ℕ} (hword : -2^31 ≤ need_count ∧ need_count < 2^31)
    (hbounds : (SemOp.wait can_block need_count timeout prio).InBounds st) :
    (st.wait can_block need_count timeout prio).Kept := by
  obtain ⟨htoken, hmax⟩ := h.token
  have hlt := h.max_lt
  unfold SemState.wait
  generalize (if st.sem.is_fifo = true then 0 else prio) = priority
  split_ifs with henough hblock htimeout
  · have hexact : s32 (st.sem.token_count - need_count) = st.sem.token_count - need_count := by
      rcases hbounds with hpos | ⟨hle, -⟩
      · exact s32_of_lt (by omega) (by omega)
      · exact s32_of_lt (by omega) (by omega)
    rw [hexact]
    refine h.enter ⟨rfl, rfl⟩ ⟨?_, ?_⟩ ?_ h.nodup (by simp) (by simp)
      (.inl ⟨rfl, rfl, rfl⟩)
    · show 0 ≤ st.sem.token_count - need_count
      omega
    · show st.sem.token_count - need_count ≤ _
      rcases hbounds with hpos | ⟨hle, -⟩ <;> omega
    · intro id hid
      show st.sem.token_count - need_count < st.need id
      rcases hbounds with hpos | ⟨-, hall⟩
      · have := h.unsatisfied id hid
        omega
      · exact hall id hid
  · exact h.enter ⟨rfl, rfl⟩ h.token h.unsatisfied h.nodup (by simp) (by simp)
      (.inr ⟨.inr (.inl rfl), rfl, rfl⟩)
  · exact h.enter ⟨rfl, rfl⟩ h.token h.unsatisfied h.nodup (by simp) (by simp)
      (.inr ⟨.inr (.inr rfl), rfl, rfl⟩)
  · have hperm := addWaiter_perm (fun id => ((st.newCall need_count timeout priority
      none).calls id).thread.priority) st.sem.is_fifo st.sem.wait_list st.next
    refine h.enter ⟨rfl, rfl⟩ h.token h.unsatisfied ?_ ?_ ?_ (.inr ⟨.inl rfl, rfl, rfl⟩)
    · exact hperm.nodup_iff.mpr (nodup_cons.mpr ⟨h.not_mem, h.nodup⟩)
    · intro id
      rw [hperm.mem_iff, mem_cons, or_comm]
      simp
    · intro _
      show st.sem.token_count < need_count
      omega

theorem WaitingThread.getResult_answered (call : SemCall)
    (htold : call.thread.ToldOnce) (hgranted : granted ↔ call.thread.was_signaled = true) :
    call.Answered granted call.thread.getResult := by
  unfold WaitingThread.getResult
  split_ifs with hs hd hc <;>
    simp_all [SemCall.Answered]

theorem WaitingThread.getResult_eq_etimedout {w : WaitingThread} : w.getResult = .etimedout ↔
      w.was_signaled = false ∧ w.was_deleted = false ∧ w.was_canceled = false := by
  unfold WaitingThread.getResult
  split_ifs with hs hd hc <;> simp_all

theorem SemState.Kept.finish (h : st.Kept) {timed_out : Bool}
    (hstep : st.finish id timed_out = some st') : st'.Kept := by
  unfold SemState.finish at hstep
  rcases Decidable.em (id < st.next ∧ (st.calls id).result = none) with henabled | hnot
  swap
  · rw [if_pos hnot] at hstep
    cases hstep
  rw [if_neg (not_not.mpr henabled)] at hstep
  split at hstep
  · cases hstep
  split at hstep
  · cases hstep
  obtain ⟨hid, hnone⟩ := henabled
  obtain rfl := some.inj hstep
  generalize (if timed_out = true then (st.calls id).thread.sem else (st.calls id).thread.sem - 1) = permits
  have htimedout := WaitingThread.getResult_eq_etimedout (w := (st.calls id).thread)
  generalize hresult : (st.calls id).thread.getResult = result at htimedout
  -- The other calls are not changed, and of this one only its permits and its result.
  have hother : ∀ {id'}, id' ≠ id → Function.update st.calls id
      { st.calls id with
        thread := { (st.calls id).thread with sem := permits }
        result := some result } id' = st.calls id' := fun hne => update_of_ne hne _ _
  have hself : Function.update st.calls id
      { st.calls id with
        thread := { (st.calls id).thread with sem := permits }
        result := some result } id =
      { st.calls id with
        thread := { (st.calls id).thread with sem := permits }
        result := some result } := update_self _ _ _
  have hneed : ∀ id', (Function.update st.calls id
      { st.calls id with
        thread := { (st.calls id).thread with sem := permits }
        result := some result } id').thread.need_count = st.need id' := by
    intro id'
    rcases eq_or_ne id' id with rfl | hne
    · rw [hself]
      rfl
    · rw [hother hne]
      rfl
  have hmem : ∀ id', id' ∈ (if result = .etimedout then st.sem.wait_list.erase id
      else st.sem.wait_list) ↔ id' ∈ st.sem.wait_list ∧ id' ≠ id := by
    intro id'
    split_ifs with ht
    · rw [h.nodup.mem_erase_iff, and_comm]
    · refine (and_iff_left_of_imp fun hin => ?_).symm
      rintro rfl
      exact ht (htimedout.mpr ((h.mem_iff id').mp hin).2.2)
  constructor
  case max_lt => exact h.max_lt
  case init => exact h.init
  case token => exact h.token
  case balance => exact h.balance
  case unsatisfied =>
    intro id' hin
    refine lt_of_lt_of_eq (h.unsatisfied id' ((hmem id').mp hin).1) (hneed id').symm
  case nodup =>
    show (if result = .etimedout then _ else _ : List ℕ).Nodup
    split_ifs
    · exact h.nodup.erase id
    · exact h.nodup
  case mem_iff =>
    intro id'
    refine (hmem id').trans ?_
    unfold SemState.Waits
    rcases eq_or_ne id' id with rfl | hne
    · refine iff_of_false (fun hin => hin.2 rfl) fun hwaits => ?_
      have hres : (Function.update st.calls id' _ id').result = none := hwaits.2.1
      rw [hself] at hres
      cases hres
    · rw [show (SemState.calls _ id') = _ from hother hne]
      exact (and_iff_left hne).trans (h.mem_iff id')
  case told =>
    intro id' hid'
    rcases eq_or_ne id' id with rfl | hne
    · show (Function.update st.calls id' _ id').thread.ToldOnce
      rw [hself]
      exact h.told id' hid'
    · rw [show (SemState.calls _ id') = _ from hother hne]
      exact h.told id' hid'
  case once => exact h.once
  case given =>
    intro id' n hn
    obtain ⟨hlt, heq⟩ := h.given id' n hn
    exact ⟨hlt, heq.trans (hneed id').symm⟩
  case pending =>
    intro id' hid' hnone'
    rcases eq_or_ne id' id with rfl | hne
    · rw [show (SemState.calls _ id') = _ from hself] at hnone'
      cases hnone'
    · rw [show (SemState.calls _ id') = _ from hother hne] at hnone' ⊢
      exact h.pending id' hid' hnone'
  case answered =>
    intro id' hid' r hr
    rcases eq_or_ne id' id with rfl | hne
    · rw [show (SemState.calls _ id') = _ from hself] at hr ⊢
      obtain rfl : result = r := some.inj hr
      rw [← hresult]
      exact WaitingThread.getResult_answered { st.calls id' with
          result := some ((st.calls id').thread.getResult) }
        (h.told id' hid) (h.pending id' hid hnone)
    · rw [show (SemState.calls _ id') = _ from hother hne] at hr ⊢
      exact h.answered id' hid' r hr

/-! ## Waking -/

/-- A waiting thread is told one thing. `signaled` is whether it is that it was signalled. -/
structure Tells (tell : WaitingThread → WaitingThread) (signaled : Bool) : Prop where
  need : ∀ w, (tell w).need_count = w.need_count
  once : ∀ w : WaitingThread, w.was_signaled = false → w.was_deleted = false →
    w.was_canceled = false → (tell w).ToldOnce ∧ (tell w).was_signaled = signaled ∧
      ¬ ((tell w).was_signaled = false ∧ (tell w).was_deleted = false ∧
        (tell w).was_canceled = false)

theorem SemState.Kept.wake (h : st.Kept) (tell : WaitingThread → WaitingThread) (signaled : Bool)
    (htell : Tells tell signaled) (left woken : List ℕ) (hperm : (left ++ woken).Perm st.sem.wait_list)
    (token_count accepted : ℤ) (grants : List (ℕ × ℤ)) (canceled : Bool)
    (htoken : 0 ≤ token_count ∧ token_count ≤ st.sem.max_count) (hunsatisfied : ∀ id ∈ left, token_count < st.need id)
    (hgrants : grants = (if signaled then woken.map fun id => (id, st.need id) else []) ++ st.grants)
    (hbalance : canceled = false → token_count = st.sem.init_count + accepted - (grants.map snd).sum) :
    SemState.Kept { st with
      sem := { st.sem with wait_list := left, token_count }
      calls := wakeAll st.calls woken tell
      accepted
      grants
      canceled } := by
  have hnodup : (left ++ woken).Nodup := hperm.nodup_iff.mpr h.nodup
  obtain ⟨hleft, hwoken, hdisjoint⟩ := nodup_append.mp hnodup
  have hmem : ∀ {id}, id ∈ st.sem.wait_list ↔ id ∈ left ∨ id ∈ woken := by
    intro id
    rw [← hperm.mem_iff, mem_append]
  have hin : ∀ {id}, id ∈ woken → st.Waits id := fun hid => (h.mem_iff _).mp (hmem.mpr (.inr hid))
  have hold : ∀ {id}, id ∉ woken → wakeAll st.calls woken tell id = st.calls id := by
    intro id hid
    exact if_neg hid
  have hnew : ∀ {id}, id ∈ woken → wakeAll st.calls woken tell id =
      { st.calls id with
        thread := { tell (st.calls id).thread with sem := (st.calls id).thread.sem + 1 } } := by
    intro id hid
    exact if_pos hid
  have hneed : ∀ id, (wakeAll st.calls woken tell id).thread.need_count = st.need id := by
    intro id
    rcases Decidable.em (id ∈ woken) with hid | hid
    · rw [hnew hid]
      exact htell.need _
    · rw [hold hid]
      rfl
  have hgranted : ∀ {id}, (∃ n, (id, n) ∈ grants) ↔ st.Granted id ∨ signaled = true ∧ id ∈ woken := by
    intro id
    rw [hgrants]
    unfold SemState.Granted
    cases signaled
    · simp
    · simp only [if_true, mem_append, mem_map, Prod.mk.injEq]
      constructor
      · rintro ⟨n, ⟨id', hid', rfl, -⟩ | hn⟩
        · exact .inr ⟨trivial, hid'⟩
        · exact .inl ⟨n, hn⟩
      · rintro (⟨n, hn⟩ | ⟨-, hid⟩)
        · exact ⟨n, .inr hn⟩
        · exact ⟨st.need id, .inl ⟨id, hid, rfl, rfl⟩⟩
  -- A thread that waits was not given tokens.
  have hnot : ∀ {id}, id ∈ woken → ¬ st.Granted id := by
    intro id hid hg
    obtain ⟨hlt, hnone, hs, -⟩ := hin hid
    rw [(h.pending id hlt hnone).mp hg] at hs
    cases hs
  constructor
  case max_lt => exact h.max_lt
  case init => exact h.init
  case token => exact htoken
  case balance => exact hbalance
  case unsatisfied =>
    intro id hid
    exact (hunsatisfied id hid).trans_eq (hneed id).symm
  case nodup => exact hleft
  case mem_iff =>
    intro id
    unfold SemState.Waits
    rcases Decidable.em (id ∈ woken) with hid | hid
    · refine iff_of_false (fun hl => hdisjoint id hl id hid rfl) ?_
      rintro ⟨-, -, hs, hd, hc⟩
      obtain ⟨-, -, hs', hd', hc'⟩ := hin hid
      have htold := (htell.once _ hs' hd' hc').2.2
      have heq := congrArg SemCall.thread (hnew hid)
      exact htold ⟨(congrArg WaitingThread.was_signaled heq).symm.trans hs,
        (congrArg WaitingThread.was_deleted heq).symm.trans hd,
        (congrArg WaitingThread.was_canceled heq).symm.trans hc⟩
    · rw [show (SemState.calls _ id) = _ from hold hid]
      rw [← or_iff_left hid (a := id ∈ left), ← hmem]
      exact h.mem_iff id
  case told =>
    intro id hid
    show (wakeAll st.calls woken tell id).thread.ToldOnce
    rcases Decidable.em (id ∈ woken) with hw | hw
    · obtain ⟨-, -, hs', hd', hc'⟩ := hin hw
      rw [hnew hw]
      exact (htell.once _ hs' hd' hc').1
    · rw [hold hw]
      exact h.told id hid
  case once =>
    rw [hgrants]
    cases signaled
    · simpa using h.once
    · have hids : (woken.map fun id => (id, st.need id)).map fst = woken := by
        rw [map_map]
        exact map_id woken
      rw [if_pos rfl, map_append, hids]
      refine nodup_append.mpr ⟨hwoken, h.once, ?_⟩
      rintro id hid id' hid' rfl
      obtain ⟨⟨id'', n⟩, hn, rfl⟩ := mem_map.mp hid'
      exact hnot hid ⟨n, hn⟩
  case given =>
    intro id n hn
    have hcases : (id, n) ∈ st.grants ∨ id ∈ woken ∧ n = st.need id := by
      rw [hgrants] at hn
      rcases mem_append.mp hn with hn | hn
      · cases signaled
        · cases hn
        · obtain ⟨id', hid', heq⟩ := mem_map.mp hn
          obtain ⟨rfl, rfl⟩ := Prod.mk.inj heq
          exact .inr ⟨hid', rfl⟩
      · exact .inl hn
    rcases hcases with hn | ⟨hid, rfl⟩
    · obtain ⟨hlt, heq⟩ := h.given id n hn
      exact ⟨hlt, heq.trans (hneed id).symm⟩
    · exact ⟨(hin hid).1, (hneed id).symm⟩
  case pending =>
    intro id hid hnone
    have hnone : (wakeAll st.calls woken tell id).result = none := hnone
    show (∃ n, (id, n) ∈ grants) ↔ (wakeAll st.calls woken tell id).thread.was_signaled = true
    rw [hgranted]
    rcases Decidable.em (id ∈ woken) with hw | hw
    · obtain ⟨-, -, hs', hd', hc'⟩ := hin hw
      rw [hnew hw]
      rw [(htell.once _ hs' hd' hc').2.1]
      simp [hnot hw, hw]
    · rw [hold hw] at hnone ⊢
      simp only [hw, and_false, or_false]
      exact h.pending id hid hnone
  case answered =>
    intro id hid r hr
    have hr : (wakeAll st.calls woken tell id).result = some r := hr
    show SemCall.Answered (wakeAll st.calls woken tell id) (∃ n, (id, n) ∈ grants) r
    rcases Decidable.em (id ∈ woken) with hw | hw
    · rw [hnew hw] at hr
      have hnone := (hin hw).2.1
      rw [show (st.calls id).result = some r from hr] at hnone
      cases hnone
    · have hsame : (∃ n, (id, n) ∈ grants) = st.Granted id := by
        rw [hgranted]
        simp [hw]
      rw [hold hw] at hr ⊢
      rw [hsame]
      exact h.answered id hid r hr

theorem SemState.Kept.signal (h : st.Kept)
    (hbounds : (SemOp.signal signal_count).InBounds st) : (st.signal signal_count).Kept := by
  obtain ⟨htoken, hmax⟩ := h.token
  obtain ⟨hpos, hlt⟩ := hbounds
  have hword : s32 (st.sem.token_count + signal_count) = st.sem.token_count + signal_count :=
    s32_of_lt (by omega) hlt
  unfold SemState.signal
  rw [hword]
  split_ifs with hmany
  · exact h
  have hneeds : ∀ id ∈ st.sem.wait_list, 0 < st.need id := by
    intro id hid
    have := h.unsatisfied id hid
    omega
  obtain ⟨hperm, hsum, hnonneg, hle, hleft⟩ := grant_spec hneeds hpos hlt
  have htells : Tells (fun w => { w with was_signaled := true }) true := by
    refine ⟨fun _ => rfl, ?_⟩
    intro w hs hd hc
    simp [WaitingThread.ToldOnce, hd, hc]
  have hbalance : st.canceled = false → (grant st.need st.sem.wait_list (st.sem.token_count + signal_count)).2.2 =
        st.sem.init_count + (st.accepted + signal_count) - ((((grant st.need st.sem.wait_list
          (st.sem.token_count + signal_count)).2.1.map fun id => (id, st.need id)) ++
            st.grants).map snd).sum := by
    intro hcanceled
    have hbefore := h.balance hcanceled
    rw [map_append, sum_append, map_map]
    have hgiven : snd ∘ (fun id => (id, st.need id)) = st.need := rfl
    rw [hgiven, hsum]
    omega
  exact h.wake _ true htells _ _ hperm _ _ _ _ ⟨hnonneg, by omega⟩ hleft rfl hbalance

theorem SemState.Kept.cancel (h : st.Kept)
    (hbounds : (SemOp.cancel set_count).InBounds st) : (st.cancel set_count).Kept := by
  have hset : set_count ≤ st.sem.max_count := hbounds
  obtain ⟨hinit, hmax⟩ := h.init
  have htells : Tells (fun w => { w with was_canceled := true }) false := by
    refine ⟨fun _ => rfl, ?_⟩
    intro w hs hd hc
    simp [WaitingThread.ToldOnce, hs, hd]
  have hcount : 0 ≤ (if set_count < 0 then st.sem.init_count else set_count) ∧
      (if set_count < 0 then st.sem.init_count else set_count) ≤ st.sem.max_count := by
    split_ifs <;> omega
  exact h.wake _ false htells [] st.sem.wait_list (List.Perm.refl _) _ st.accepted st.grants true
    hcount (by simp) rfl (by simp)

theorem SemState.Kept.delete (h : st.Kept) : st.delete.Kept := by
  have htells : Tells (fun w => { w with was_deleted := true }) false := by
    refine ⟨fun _ => rfl, ?_⟩
    intro w hs hd hc
    simp [WaitingThread.ToldOnce, hs, hc]
  exact h.wake _ false htells [] st.sem.wait_list (List.Perm.refl _) st.sem.token_count st.accepted
    st.grants st.canceled h.token (by simp) rfl h.balance

theorem SemState.Kept.step (h : st.Kept) (hword : o.IsWord) (hbounds : o.InBounds st)
    (hstep : st.step o = some st') : st'.Kept := by
  cases o with
  | wait can_block need_count timeout prio =>
    obtain rfl := some.inj hstep
    exact h.wait hword hbounds
  | finish id timed_out => exact h.finish hstep
  | signal signal_count =>
    obtain rfl := some.inj hstep
    exact h.signal hbounds
  | cancel set_count =>
    obtain rfl := some.inj hstep
    exact h.cancel hbounds
  | delete =>
    obtain rfl := some.inj hstep
    exact h.delete

/-- In a run whose counts keep the tokens in their bounds, the tokens stay between zero and the maximum;
without `Cancel` they are the initial ones and what was signalled, less what the calls took; nobody
waits who could be served; and a call is given what it needs once, when it returns `ORBIS_OK` or was
signalled, and is told at most one thing. -/
theorem orbisSem_run (h : Run SemState.IsNew (fun st o st' => st.step o = some st')
    (fun st o => o.IsWord ∧ o.InBounds st) st) : st.Kept :=
  h.invariant (fun _ => SemState.Kept.isNew) fun _ _ _ hkept hg hstep => hkept.step hg.1 hg.2 hstep

/-- A new semaphore with no tokens, of which there may be one. -/
def newSem : SemState where
  sem := { token_count := 0, max_count := 1, init_count := 0, is_fifo := true }
  calls := fun _ => { thread := { priority := 0, need_count := 0 }, timeout := none }

theorem newSem_isNew : newSem.IsNew :=
  ⟨0, 1, true, by decide, rfl, rfl, rfl, rfl, rfl⟩

theorem orbisSem_run_sample : (newSem.signal 1).sem.token_count = 1 ∧ (newSem.signal 1).Kept := by
  have hword : (SemOp.signal 1).IsWord := ⟨by decide, by decide⟩
  have hbounds : (SemOp.signal 1).InBounds newSem := ⟨by decide, by decide⟩
  exact ⟨by decide, orbisSem_run (.step (.start newSem_isNew) ⟨hword, hbounds⟩ rfl)⟩

/-- A signal with a negative count takes a token that is not there. -/
theorem orbisSem_signal_negative : Run SemState.IsNew (fun st o st' => st.step o = some st') (fun _ o => o.IsWord)
      (newSem.signal (-1)) ∧ (newSem.signal (-1)).sem.token_count = -1 := by
  have hword : (SemOp.signal (-1)).IsWord := ⟨by decide, by decide⟩
  exact ⟨.step (.start newSem_isNew) hword rfl, by decide⟩

end ShadPS4.Kernel
