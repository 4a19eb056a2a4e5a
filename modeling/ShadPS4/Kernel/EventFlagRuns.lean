import ShadPS4.Kernel.EventFlag

/-!
# Runs of an event flag

A waiter that was served stays in the list until its thread runs. As long as it is not served again,
cancelled or deleted before, each call that returns `ORBIS_OK` took its bits once.
-/

namespace ShadPS4.Kernel

open Function
open List (nodup_cons mem_map mem_cons)
open Option (some.inj)

variable {ef ef' : EventFlag} {id : ℕ}

/-- What holds of a call, of which `took` says with which bits it was served. -/
structure EvfCall.Kept (call : EvfCall) (took : BitVec 64 → Prop) : Prop where
  timed_out : call.waiter.timed_out = false
  waits : call.returned = none → call.waiter.ready = false → ∀ b, ¬ took b
  ready : call.returned = none → call.waiter.ready = true →
    call.waiter.canceled = false ∧ call.waiter.deleted = false ∧ took call.waiter.result
  ok : call.returned = some .ok → ∃ b, took b ∧ call.written = call.args.write b
  failed : ∀ r, call.returned = some r → r ≠ .ok → ∀ b, ¬ took b

/-- What holds between the critical sections. -/
structure EventFlag.Kept (ef : EventFlag) : Prop where
  nodup : ef.m_waiters.Nodup
  mem_iff : ∀ id, id ∈ ef.m_waiters ↔ id < ef.next ∧ (ef.calls id).returned = none
  once : (ef.taken.map Prod.fst).Nodup
  met : ∀ id b, (id, b) ∈ ef.taken →
    id < ef.next ∧ (ef.waiter id).conditionMet b = true
  call : ∀ id < ef.next, (ef.calls id).Kept fun b => (id, b) ∈ ef.taken
  report : ∀ e ∈ ef.reports, e.1 = s32 e.2

theorem EventFlag.Kept.isNew (h : ef.IsNew) : ef.Kept := by
  obtain ⟨thread_mode, queue_mode, bits, calls, rfl⟩ := h
  constructor <;> simp [EventFlag.create]

/-! ## `Wait` -/

theorem EventFlag.newCall_cases (call : EvfCall) (hid : id < ef.next + 1) :
    (id < ef.next ∧ (ef.newCall call).calls id = ef.calls id) ∨
      (id = ef.next ∧ (ef.newCall call).calls id = call) := by
  rcases Nat.lt_succ_iff_lt_or_eq.mp hid with hlt | rfl
  · exact .inl ⟨hlt, update_of_ne (Nat.ne_of_lt hlt) _ _⟩
  · exact .inr ⟨rfl, update_self _ _ _⟩

theorem EventFlag.Kept.not_taken (h : ef.Kept) (b : BitVec 64) : (ef.next, b) ∉ ef.taken := by
  intro hb
  exact Nat.lt_irrefl _ (h.met _ b hb).1

theorem EventFlag.Kept.enter (h : ef.Kept) {call : EvfCall} {m_waiters : List ℕ}
    (hperm : m_waiters.Perm (if call.returned = none then ef.next :: ef.m_waiters else ef.m_waiters))
    (hwaiter : call.waiter.timed_out = false ∧ call.waiter.ready = false)
    (hnot : call.returned ≠ some .ok) : EventFlag.Kept { ef.newCall call with m_waiters } := by
  have hnext : ef.next ∉ ef.m_waiters := fun hin => Nat.lt_irrefl _ ((h.mem_iff _).mp hin).1
  constructor
  case nodup =>
    refine hperm.nodup_iff.mpr ?_
    split_ifs
    · exact nodup_cons.mpr ⟨hnext, h.nodup⟩
    · exact h.nodup
  case mem_iff =>
    intro id
    refine hperm.mem_iff.trans ?_
    have hin : id ∈ (if call.returned = none then ef.next :: ef.m_waiters else ef.m_waiters) ↔
        id ∈ ef.m_waiters ∨ id = ef.next ∧ call.returned = none := by
      split_ifs with hnone <;> simp [hnone, or_comm]
    rw [hin, h.mem_iff]
    constructor
    · rintro (⟨hlt, hnone⟩ | ⟨rfl, hnone⟩)
      · refine ⟨Nat.lt_succ_of_lt hlt, ?_⟩
        rcases newCall_cases call (Nat.lt_succ_of_lt hlt) with ⟨-, heq⟩ | ⟨rfl, -⟩
        · exact (congrArg EvfCall.returned heq).trans hnone
        · omega
      · refine ⟨Nat.lt_succ_self _, ?_⟩
        rcases newCall_cases call (Nat.lt_succ_self ef.next) with ⟨hlt, -⟩ | ⟨-, heq⟩
        · omega
        · exact (congrArg EvfCall.returned heq).trans hnone
    · rintro ⟨hlt, hnone⟩
      rcases newCall_cases call hlt with ⟨hold, heq⟩ | ⟨hnew, heq⟩
      · exact .inl ⟨hold, (congrArg EvfCall.returned heq).symm.trans hnone⟩
      · exact .inr ⟨hnew, (congrArg EvfCall.returned heq).symm.trans hnone⟩
  case once => exact h.once
  case met =>
    intro id b hb
    obtain ⟨hlt, hmet⟩ := h.met id b hb
    refine ⟨Nat.lt_succ_of_lt hlt, ?_⟩
    show (Function.update ef.calls ef.next call id).waiter.conditionMet b = true
    rw [update_of_ne (Nat.ne_of_lt hlt)]
    exact hmet
  case call =>
    intro id hid
    rcases newCall_cases call hid with ⟨hlt, heq⟩ | ⟨rfl, heq⟩
    · rw [show (EventFlag.calls _ id) = _ from heq]
      exact h.call id hlt
    · rw [show (EventFlag.calls _ _) = _ from heq]
      have hnone := h.not_taken
      refine ⟨hwaiter.1, fun _ _ => hnone, ?_, fun hok => absurd hok hnot, fun _ _ _ => hnone⟩
      intro _ hready
      rw [hwaiter.2] at hready
      cases hready
  case report => exact h.report

theorem EventFlag.addWaiter_perm (queue_mode : QueueMode) (priority : ℕ → ℤ) (m_waiters : List ℕ)
    (id : ℕ) : (addWaiter queue_mode priority m_waiters id).Perm (id :: m_waiters) := by
  cases queue_mode with
  | fifo => exact List.perm_append_comm
  | threadPrio =>
    refine List.perm_middle.trans ?_
    rw [List.takeWhile_append_dropWhile]

theorem EventFlag.Kept.serveNew (h : ef.Kept)
    (hmet : args.waiter.conditionMet ef.m_bits = true) : EventFlag.Kept { ef.newCall {
        args, waiter := args.waiter, returned := some .ok, written := args.write ef.m_bits } with
      m_bits := bits
      taken := (ef.next, ef.m_bits) :: ef.taken } := by
  -- The log of the other calls is not changed.
  have hold : ∀ {id}, id < ef.next → (fun b => (id, b) ∈ (ef.next, ef.m_bits) :: ef.taken) =
      fun b => (id, b) ∈ ef.taken := by
    intro id hlt
    have hne : id ≠ ef.next := Nat.ne_of_lt hlt
    simp [hne]
  have hcalls : ∀ {id}, id < ef.next → Function.update ef.calls ef.next
      ({ args, waiter := args.waiter, returned := some .ok, written := args.write ef.m_bits } : EvfCall)
      id = ef.calls id := fun hlt => update_of_ne (Nat.ne_of_lt hlt) _ _
  have hnew : Function.update ef.calls ef.next
      ({ args, waiter := args.waiter, returned := some .ok, written := args.write ef.m_bits } : EvfCall)
      ef.next = { args, waiter := args.waiter, returned := some .ok, written := args.write ef.m_bits } :=
    update_self _ _ _
  constructor
  case nodup => exact h.nodup
  case mem_iff =>
    intro id
    refine (h.mem_iff id).trans ?_
    show _ ↔ id < ef.next + 1 ∧ (Function.update ef.calls ef.next _ id).returned = none
    rcases Nat.lt_trichotomy id ef.next with hlt | rfl | hgt
    · rw [hcalls hlt]
      exact and_congr_left fun _ => iff_of_true hlt (Nat.lt_succ_of_lt hlt)
    · rw [hnew]
      simp
    · exact iff_of_false (fun hin => absurd hin.1 (by omega))
        fun hin => absurd hin.1 (by show ¬ id < ef.next + 1; omega)
  case once =>
    refine nodup_cons.mpr ⟨fun hin => ?_, h.once⟩
    obtain ⟨⟨id, b⟩, hb, rfl⟩ := mem_map.mp hin
    exact h.not_taken b hb
  case met =>
    intro id b hb
    rcases mem_cons.mp hb with heq | hb
    · obtain ⟨rfl, rfl⟩ := Prod.mk.inj heq
      refine ⟨Nat.lt_succ_self _, ?_⟩
      rw [show EventFlag.waiter _ ef.next = _ from congrArg EvfCall.waiter hnew]
      exact hmet
    · obtain ⟨hlt, hmet⟩ := h.met id b hb
      refine ⟨Nat.lt_succ_of_lt hlt, ?_⟩
      rw [show EventFlag.waiter _ id = _ from congrArg EvfCall.waiter (hcalls hlt)]
      exact hmet
  case call =>
    intro id hid
    rcases Nat.lt_succ_iff_lt_or_eq.mp hid with hlt | rfl
    · rw [show (EventFlag.calls _ id) = _ from hcalls hlt]
      rw [hold hlt]
      exact h.call id hlt
    · rw [show (EventFlag.calls _ ef.next) = _ from hnew]
      constructor
      case timed_out => rfl
      case ok => exact fun _ => ⟨ef.m_bits, List.mem_cons_self, rfl⟩
      all_goals simp
  case report => exact h.report

theorem EventFlag.Kept.wait (h : ef.Kept) (args : WaitArgs) : (ef.wait args).Kept := by
  unfold EventFlag.wait
  split_ifs with hdeleted hsingle hmet
  · exact h.enter (by simp) ⟨rfl, rfl⟩ (by simp)
  · exact h.enter (by simp) ⟨rfl, rfl⟩ (by simp)
  · exact h.serveNew hmet
  · exact h.enter (addWaiter_perm _ _ _ _) ⟨rfl, rfl⟩ (by simp)

/-! ## A thread that goes on -/

theorem EventFlag.Kept.leave (h : ef.Kept) {call : EvfCall} (hid : id < ef.next)
    (hwaiter : call.waiter = ef.waiter id) (hreturned : call.returned ≠ none)
    (hcall : call.Kept fun b => (id, b) ∈ ef.taken) : EventFlag.Kept { ef with
      m_waiters := ef.m_waiters.filter (· ≠ id)
      calls := Function.update ef.calls id call } := by
  constructor
  case nodup => exact h.nodup.filter _
  case mem_iff =>
    intro id'
    show id' ∈ ef.m_waiters.filter (· ≠ id) ↔ id' < ef.next ∧ (Function.update ef.calls id call id').returned = none
    rw [List.mem_filter, h.mem_iff]
    rcases eq_or_ne id' id with rfl | hne
    · rw [update_self]
      simp [hreturned]
    · rw [update_of_ne hne]
      simp [hne]
  case once => exact h.once
  case met =>
    intro id' b hb
    obtain ⟨hlt, hmet⟩ := h.met id' b hb
    refine ⟨hlt, ?_⟩
    show (Function.update ef.calls id call id').waiter.conditionMet b = true
    rcases eq_or_ne id' id with rfl | hne
    · rw [update_self, hwaiter]
      exact hmet
    · rw [update_of_ne hne]
      exact hmet
  case call =>
    intro id' hid'
    show (Function.update ef.calls id call id').Kept fun b => (id', b) ∈ ef.taken
    rcases eq_or_ne id' id with rfl | hne
    · rw [update_self]
      exact hcall
    · rw [update_of_ne hne]
      exact h.call id' hid'
  case report => exact h.report

theorem WaitArgs.ret_eq_ok {args : WaitArgs} {r : EvfResult} : args.ret r = .ok ↔ r = .ok := by
  unfold WaitArgs.ret
  split_ifs with hpoll
  · simp [hpoll.2]
  · rfl

theorem Waiter.outcome_eq_ok {waiter : Waiter} (hwake : waiter.wake = true) :
    waiter.outcome = .ok → waiter.ready = true := by
  unfold Waiter.outcome Waiter.wake at *
  intro hok
  split_ifs at hok with hc hd ht
  simpa [hc, hd, ht] using hwake

theorem EventFlag.Kept.finish (h : ef.Kept) (hstep : ef.finish id = some ef') : ef'.Kept := by
  unfold EventFlag.finish at hstep
  dsimp only at hstep
  split at hstep
  · cases hstep
  rename_i henabled
  obtain ⟨hid, hnone⟩ := not_not.mp henabled
  have hcall := h.call id hid
  split at hstep
  · -- The waiter was woken.
    rename_i hwake
    obtain rfl := some.inj hstep
    refine h.leave hid rfl (by simp) ⟨hcall.timed_out, by simp, by simp, ?_, ?_⟩
    · intro hok
      have hret := WaitArgs.ret_eq_ok.mp (some.inj hok)
      obtain ⟨-, -, htook⟩ := hcall.ready hnone (Waiter.outcome_eq_ok hwake hret)
      exact ⟨_, htook, rfl⟩
    · intro r hr hne
      apply hcall.waits hnone
      by_contra hready
      obtain ⟨hcanceled, hdeleted, -⟩ := hcall.ready hnone (Bool.eq_true_of_not_eq_false hready)
      have hout : (ef.calls id).waiter.outcome = .ok := by
        simp [Waiter.outcome, hcanceled, hdeleted, hcall.timed_out]
      have hret : (ef.calls id).args.ret (ef.calls id).waiter.outcome = .ok :=
        WaitArgs.ret_eq_ok.mpr hout
      exact hne ((some.inj hr).symm.trans hret)
  split at hstep
  · cases hstep
  · -- The time ran out.
    rename_i hwake _
    obtain rfl := some.inj hstep
    have hready : (ef.calls id).waiter.ready = false := by
      simp only [Waiter.wake, Bool.or_eq_true, not_or, Bool.not_eq_true] at hwake
      exact hwake.1.1.1
    refine h.leave hid rfl (by simp) ⟨hcall.timed_out, by simp, by simp, ?_, ?_⟩
    · intro hok
      have hret := WaitArgs.ret_eq_ok.mp (some.inj hok)
      cases hret
    · exact fun _ _ _ => hcall.waits hnone hready

/-! ## `Set` -/

theorem EventFlag.Kept.serve (h : ef.Kept) (hid : id ∈ ef.m_waiters)
    (hfresh : (ef.waiter id).conditionMet ef.m_bits = true → (ef.waiter id).wake = false) : (ef.serve id).Kept := by
  unfold EventFlag.serve
  split_ifs with hnot
  · exact h
  have hmet : (ef.waiter id).conditionMet ef.m_bits = true := Bool.eq_true_of_not_eq_false hnot
  obtain ⟨⟨⟨hready, hcanceled⟩, hdeleted⟩, htimed⟩ : (((ef.waiter id).ready = false ∧
      (ef.waiter id).canceled = false) ∧ (ef.waiter id).deleted = false) ∧
      (ef.waiter id).timed_out = false := by
    simpa only [Waiter.wake, Bool.or_eq_false_iff] using hfresh hmet
  obtain ⟨hlt, hnone⟩ := (h.mem_iff id).mp hid
  have hnottaken := (h.call id hlt).waits hnone hready
  constructor
  case nodup => exact h.nodup
  case mem_iff =>
    intro id'
    refine (h.mem_iff id').trans (and_congr_right fun _ => ?_)
    show _ ↔ (Function.update ef.calls id _ id').returned = none
    rcases eq_or_ne id' id with rfl | hne
    · rw [update_self]
    · rw [update_of_ne hne]
  case once =>
    refine nodup_cons.mpr ⟨fun hin => ?_, h.once⟩
    obtain ⟨⟨id', b⟩, hb, rfl⟩ := mem_map.mp hin
    exact hnottaken b hb
  case met =>
    -- What a waiter waits for is not changed.
    have hsame : ∀ id' b, (Function.update ef.calls id { ef.calls id with
        waiter := { ef.waiter id with result := ef.m_bits, ready := true } }
          id').waiter.conditionMet b = (ef.waiter id').conditionMet b := by
      intro id' b
      rcases eq_or_ne id' id with rfl | hne
      · rw [update_self]
        rfl
      · rw [update_of_ne hne]
        rfl
    intro id' b hb
    have hold : id' < ef.next ∧ (ef.waiter id').conditionMet b = true := by
      rcases mem_cons.mp hb with heq | hb
      · obtain ⟨rfl, rfl⟩ := Prod.mk.inj heq
        exact ⟨hlt, hmet⟩
      · exact h.met id' b hb
    exact ⟨hold.1, (hsame id' b).trans hold.2⟩
  case call =>
    intro id' hid'
    show (Function.update ef.calls id _ id').Kept fun b => (id', b) ∈ (id, ef.m_bits) :: ef.taken
    rcases eq_or_ne id' id with rfl | hne
    · rw [update_self]
      exact ⟨htimed, by simp, fun _ _ => ⟨hcanceled, hdeleted, List.mem_cons_self⟩,
        by simp [hnone], by simp [hnone]⟩
    · have hsame : (fun b => (id', b) ∈ (id, ef.m_bits) :: ef.taken) =
          fun b => (id', b) ∈ ef.taken := by
        simp [hne]
      rw [update_of_ne hne, hsame]
      exact h.call id' hid'
  case report => exact h.report

theorem EventFlag.serve_waiters : (ef.serve id).m_waiters = ef.m_waiters := by
  unfold EventFlag.serve
  split_ifs <;> rfl

theorem EventFlag.Kept.serves (h : ef.Kept) (hids : ∀ id ∈ ids, id ∈ ef.m_waiters)
    (hfresh : ef.ServesFresh ids) : (ids.foldl EventFlag.serve ef).Kept := by
  induction ids generalizing ef with
  | nil => exact h
  | cons id rest ih =>
    obtain ⟨hone, hrest⟩ := hfresh
    apply ih (h.serve (hids id (by simp)) hone) _ hrest
    intro id' hid'
    rw [EventFlag.serve_waiters]
    exact hids id' (by simp [hid'])

theorem EventFlag.Kept.setBits (h : ef.Kept) (m_bits : BitVec 64) : EventFlag.Kept { ef with m_bits } :=
  ⟨h.nodup, h.mem_iff, h.once, h.met, h.call, h.report⟩

theorem EventFlag.Kept.tellAll (h : ef.Kept) (tell : Waiter → Waiter)
    (htell : ∀ w : Waiter, (tell w).ready = w.ready ∧ (tell w).timed_out = w.timed_out ∧
      ∀ b, (tell w).conditionMet b = w.conditionMet b) (hready : ∀ id ∈ ef.m_waiters, (ef.waiter id).ready = false) :
    EventFlag.Kept { ef with calls := ef.tellAll tell } := by
  have hin : ∀ {id}, id ∈ ef.m_waiters → ef.tellAll tell id =
      { ef.calls id with waiter := tell (ef.waiter id) } := fun hid => if_pos hid
  have hout : ∀ {id}, id ∉ ef.m_waiters → ef.tellAll tell id = ef.calls id := fun hid => if_neg hid
  constructor
  case nodup => exact h.nodup
  case mem_iff =>
    intro id
    refine (h.mem_iff id).trans (and_congr_right fun _ => ?_)
    show _ ↔ (ef.tellAll tell id).returned = none
    rcases Decidable.em (id ∈ ef.m_waiters) with hid | hid
    · rw [hin hid]
    · rw [hout hid]
  case once => exact h.once
  case met =>
    intro id b hb
    obtain ⟨hlt, hmet⟩ := h.met id b hb
    refine ⟨hlt, ?_⟩
    show (ef.tellAll tell id).waiter.conditionMet b = true
    rcases Decidable.em (id ∈ ef.m_waiters) with hid | hid
    · rw [hin hid]
      exact ((htell _).2.2 b).trans hmet
    · rw [hout hid]
      exact hmet
  case call =>
    intro id hlt
    have hcall := h.call id hlt
    show (ef.tellAll tell id).Kept fun b => (id, b) ∈ ef.taken
    rcases Decidable.em (id ∈ ef.m_waiters) with hid | hid
    · obtain ⟨-, hnone⟩ := (h.mem_iff id).mp hid
      have hnot := hready id hid
      rw [hin hid]
      refine ⟨(htell _).2.1.trans hcall.timed_out, fun _ _ => hcall.waits hnone hnot, ?_, hcall.ok, hcall.failed⟩
      intro _ hsome
      rw [(htell _).1, hnot] at hsome
      cases hsome
    · rw [hout hid]
      exact hcall
  case report => exact h.report

theorem EventFlag.Kept.cancel (h : ef.Kept)
    (hready : ∀ id ∈ ef.m_waiters, (ef.waiter id).ready = false) : (ef.cancel pattern).Kept := by
  have hkept := h.tellAll (fun waiter => { waiter with result := pattern, canceled := true })
    (fun _ => ⟨rfl, rfl, fun _ => rfl⟩) hready
  have hcount : ef.m_waiters.countP (fun id => (ef.waiter id).ready = false) = ef.m_waiters.length := by
    rw [List.countP_eq_length]
    exact fun id hid => decide_eq_true (hready id hid)
  refine ⟨hkept.nodup, hkept.mem_iff, hkept.once, hkept.met, hkept.call, ?_⟩
  intro e he
  rcases mem_cons.mp he with rfl | he
  · dsimp only
    rw [hcount]
  · exact h.report e he

theorem EventFlag.Kept.delete (h : ef.Kept)
    (hready : ∀ id ∈ ef.m_waiters, (ef.waiter id).ready = false) : ef.delete.Kept := by
  have hkept := h.tellAll (fun waiter => { waiter with deleted := true }) (fun _ => ⟨rfl, rfl, fun _ => rfl⟩) hready
  exact ⟨hkept.nodup, hkept.mem_iff, hkept.once, hkept.met, hkept.call, hkept.report⟩

/-! ## Runs -/

theorem EventFlag.Kept.step (h : ef.Kept) (hfresh : o.Fresh ef) (hstep : ef.step o = some ef') : ef'.Kept := by
  cases o with
  | wait args =>
    obtain rfl := some.inj hstep
    exact h.wait args
  | finish id => exact h.finish hstep
  | set bits =>
    obtain rfl := some.inj hstep
    exact (h.setBits (ef.m_bits ||| bits)).serves (fun _ hid => hid) hfresh
  | clear bits =>
    obtain rfl := some.inj hstep
    exact h.setBits _
  | cancel pattern =>
    obtain rfl := some.inj hstep
    exact h.cancel hfresh
  | delete =>
    obtain rfl := some.inj hstep
    exact h.delete hfresh

theorem filter_eq_of_nodup {α : Type} {log : List (ℕ × α)} {a : α} (h : (log.map Prod.fst).Nodup)
    (hmem : (id, a) ∈ log) : log.filter (fun e => e.1 = id) = [(id, a)] := by
  induction log with
  | nil => cases hmem
  | cons e rest ih =>
    obtain ⟨hnot, hrest⟩ := nodup_cons.mp h
    rcases mem_cons.mp hmem with rfl | hmem
    · have hempty : rest.filter (fun e => e.1 = id) = [] := by
        rw [List.filter_eq_nil_iff]
        intro e he heq
        exact hnot (mem_map.mpr ⟨e, he, of_decide_eq_true heq⟩)
      simp [hempty]
    · have hne : e.1 ≠ id := by
        rintro rfl
        exact hnot (mem_map.mpr ⟨_, hmem, rfl⟩)
      rw [List.filter_cons_of_neg (by simpa using hne)]
      exact ih hrest hmem

/-- In a run in which nobody is served, cancelled or deleted after he was served, a call that returns
`ORBIS_OK` was served once, with bits that met its condition, and these bits are what it reports; a
call that returns something else was not served; and `Cancel` reports the number of waiters that were
not served. -/
theorem eventFlag_run (h : Run EventFlag.IsNew (fun ef o ef' => ef.step o = some ef')
    (fun ef o => o.Fresh ef) ef) : (∀ id < ef.next, (ef.calls id).returned = some .ok → ∃ bits,
      ef.taken.filter (fun e => e.1 = id) = [(id, bits)] ∧ (ef.waiter id).conditionMet bits = true ∧
        (ef.calls id).written = (ef.calls id).args.write bits) ∧
    (∀ id < ef.next, ∀ r, (ef.calls id).returned = some r → r ≠ .ok → ∀ bits, (id, bits) ∉ ef.taken) ∧
    ∀ e ∈ ef.reports, e.1 = s32 e.2 := by
  have hkept : ef.Kept := h.invariant (fun _ => EventFlag.Kept.isNew)
    fun _ _ _ hkept hg hstep => hkept.step hg hstep
  refine ⟨?_, fun id hid => (hkept.call id hid).failed, hkept.report⟩
  intro id hid hok
  obtain ⟨bits, hbits, hwritten⟩ := (hkept.call id hid).ok hok
  exact ⟨bits, filter_eq_of_nodup hkept.once hbits, (hkept.met id bits hbits).2, hwritten⟩

/-- The arguments of a call that waits for the lowest bit and clears it. -/
def lowBit : WaitArgs where
  bits := 1
  wait_mode := .or
  clear_mode := .bits
  has_result := true
  ptr_micros := none

/-- A flag without bits, for any number of threads. -/
def newFlag : EventFlag :=
  EventFlag.create .multi .fifo 0 fun _ => { args := lowBit, waiter := lowBit.waiter }

def servedFlag : EventFlag := (newFlag.wait lowBit).set 1

theorem servedFlag_run : Run EventFlag.IsNew (fun ef o ef' => ef.step o = some ef')
    (fun ef o => o.Fresh ef) servedFlag := by
  have hwait : Run EventFlag.IsNew (fun ef o ef' => ef.step o = some ef') (fun ef o => o.Fresh ef)
      (newFlag.wait lowBit) :=
    .step (o := .wait lowBit) (.start ⟨_, _, _, _, rfl⟩) trivial rfl
  have hfresh : (EvfOp.set 1).Fresh (newFlag.wait lowBit) := ⟨fun _ => by decide, trivial⟩
  exact .step hwait hfresh rfl

theorem eventFlag_run_sample : ∃ ef, servedFlag.finish 0 = some ef ∧ (ef.calls 0).returned = some .ok ∧
    ∃ bits, ef.taken.filter (fun e => e.1 = 0) = [(0, bits)] := by
  refine ⟨_, rfl, rfl, ?_⟩
  obtain ⟨bits, hone, -⟩ := (eventFlag_run (.step (o := .finish 0) servedFlag_run trivial rfl)).1 0 (by decide) rfl
  exact ⟨bits, hone⟩

/-- A second `Set`, before the thread that was served goes on, serves it again. -/
theorem eventFlag_set_twice : ∃ ef, Run EventFlag.IsNew (fun ef o ef' => ef.step o = some ef')
    (fun _ _ => True) ef ∧ (ef.calls 0).returned = some .ok ∧
      ef.taken.filter (fun e => e.1 = 0) = [(0, 3), (0, 1)] ∧ ef.m_bits = 2 := by
  have hserved : Run EventFlag.IsNew (fun ef o ef' => ef.step o = some ef') (fun _ _ => True)
      servedFlag := servedFlag_run.mono fun _ _ _ => trivial
  have htwice : Run EventFlag.IsNew (fun ef o ef' => ef.step o = some ef') (fun _ _ => True)
      (servedFlag.set 3) := .step (o := .set 3) hserved trivial rfl
  exact ⟨_, .step (o := .finish 0) htwice trivial rfl, rfl, by decide, by decide⟩

end ShadPS4.Kernel
