import Mathlib.Data.List.Nodup
import ShadPS4.Kernel.Equeue
import ShadPS4.Lib.Transition

/-!
# Runs of the event queue

An event is delivered once for each time it is triggered, unless it is a `User` event without the
`Clear` flag. What is not delivered stays as it is.
-/

namespace ShadPS4.Kernel

open Function List
open Option (some.inj)

/-! ## Deliveries -/

structure Delivery (num : ℕ) (before after : List EqueueEvent) (ev : List OrbisKernelEvent)
    (delivered : List EqueueEvent) : Prop where
  events : ev = delivered.map EqueueEvent.event
  count : delivered.length ≤ num
  sublist : delivered.Sublist before
  triggered : ∀ e ∈ delivered, e.is_triggered = true
  kept : ∀ e ∈ before, e ∉ delivered → e ∈ after
  origin : ∀ e' ∈ after, (e' ∈ before ∧ e' ∉ delivered) ∨ ∃ e ∈ delivered, e.collect = some e'
  rest : ∀ e ∈ delivered, ∀ e', e.collect = some e' → e' ∈ after
  silent : ev = [] → ∀ e ∈ after, e.is_triggered = false

structure TimerDelivery (num : ℕ) (curr_clock : ℤ) (before after : List SmallTimer)
    (ev : List OrbisKernelEvent) (delivered : List SmallTimer) : Prop where
  events : ev = delivered.map SmallTimer.event
  count : delivered.length ≤ num
  perm : (delivered ++ after).Perm before
  expired : ∀ st ∈ delivered, st.Expired curr_clock
  silent : ev = [] → ∀ st ∈ after, ¬ st.Expired curr_clock

/-- What is left of an event that the loop of `GetTriggeredEvents` comes to. -/
def EqueueEvent.scan (e : EqueueEvent) : Option EqueueEvent :=
  if e.is_triggered then e.collect else some e

theorem getTriggeredEvents_spec (count : ℕ) (events : List EqueueEvent) (hcount : count < num) :
    ∃ scanned rest, events = scanned ++ rest ∧ (getTriggeredEvents num count events).1 =
        (scanned.filter (·.is_triggered)).map EqueueEvent.event ∧
      (getTriggeredEvents num count events).2 = scanned.filterMap EqueueEvent.scan ++ rest ∧
      count + (getTriggeredEvents num count events).1.length ≤ num ∧
      (count + (getTriggeredEvents num count events).1.length < num → rest = []) := by
  induction events generalizing count with
  | nil => exact ⟨[], [], rfl, rfl, rfl, Nat.le_of_lt hcount, fun _ => rfl⟩
  | cons it events ih =>
    unfold getTriggeredEvents
    cases htriggered : it.is_triggered with
    | true =>
      have hscan : it.scan.toList = it.collect.toList := by
        unfold EqueueEvent.scan
        rw [if_pos htriggered]
      rw [if_pos rfl]
      split_ifs with hlast
      · refine ⟨[it], events, rfl, ?_, ?_, Nat.le_of_eq hlast, fun hlt => ?_⟩
        · simp [htriggered]
        · dsimp only
          rw [← hscan]
          cases hs : it.scan <;> simp [hs]
        · exact absurd hlast (Nat.ne_of_lt hlt)
      · obtain ⟨scanned, rest, rfl, hev, hleft, hle, hall⟩ := ih (count + 1) (by omega)
        refine ⟨it :: scanned, rest, rfl, ?_, ?_, ?_, ?_⟩
        · simp [htriggered, hev]
        · dsimp only
          rw [hleft, ← hscan]
          cases hs : it.scan <;> simp [hs]
        · dsimp only
          rw [length_cons]
          omega
        · dsimp only
          rw [length_cons]
          exact fun hlt => hall (by omega)
    | false =>
      have hscan : it.scan = some it := by
        unfold EqueueEvent.scan
        rw [if_neg (by simp [htriggered])]
      obtain ⟨scanned, rest, rfl, hev, hleft, hle, hall⟩ := ih count hcount
      refine ⟨it :: scanned, rest, rfl, ?_, ?_, hle, hall⟩
      · simp [htriggered, hev]
      · dsimp only
        rw [hleft, filterMap_cons, hscan]
        rfl

theorem getTriggeredEvents_delivery (hnum : 1 ≤ num)
    (hnodup : events.Nodup) : ∃ delivered, Delivery num events (getTriggeredEvents num 0 events).2
      (getTriggeredEvents num 0 events).1 delivered := by
  obtain ⟨scanned, rest, rfl, hev, hleft, hle, hall⟩ :=
    getTriggeredEvents_spec 0 events (Nat.lt_of_lt_of_le Nat.zero_lt_one hnum)
  have hmem (e : EqueueEvent) : e ∈ scanned.filter (·.is_triggered) ↔
      e ∈ scanned ∧ e.is_triggered = true := mem_filter
  refine ⟨scanned.filter (·.is_triggered), ?_⟩
  constructor
  case events => exact hev
  case count =>
    rw [hev, length_map] at hle
    omega
  case sublist => exact filter_sublist.trans (sublist_append_left scanned rest)
  case triggered => exact fun e he => ((hmem e).mp he).2
  case kept =>
    intro e he hnot
    rw [hleft]
    rcases mem_append.mp he with hin | hin
    · apply mem_append_left
      rw [mem_filterMap]
      refine ⟨e, hin, ?_⟩
      unfold EqueueEvent.scan
      rw [if_neg fun htriggered => hnot ((hmem e).mpr ⟨hin, htriggered⟩)]
    · exact mem_append_right _ hin
  case origin =>
    intro e' he'
    rw [hleft] at he'
    rcases mem_append.mp he' with hin | hin
    · obtain ⟨e, he, hscan⟩ := List.mem_filterMap.mp hin
      unfold EqueueEvent.scan at hscan
      split_ifs at hscan with htriggered
      · exact .inr ⟨e, (hmem e).mpr ⟨he, htriggered⟩, hscan⟩
      · obtain rfl := some.inj hscan
        exact .inl ⟨mem_append_left _ he, fun hdel => htriggered ((hmem e).mp hdel).2⟩
    · refine .inl ⟨mem_append_right _ hin, fun hdel => ?_⟩
      exact disjoint_of_nodup_append hnodup ((hmem e').mp hdel).1 hin
  case rest =>
    intro e he e' hcollect
    obtain ⟨hin, htriggered⟩ := (hmem e).mp he
    rw [hleft]
    apply mem_append_left
    rw [mem_filterMap]
    refine ⟨e, hin, ?_⟩
    unfold EqueueEvent.scan
    rw [if_pos htriggered]
    exact hcollect
  case silent =>
    intro hempty e he
    rw [hempty] at hev hall
    have hnone := List.map_eq_nil_iff.mp hev.symm
    obtain rfl := hall (by simp only [length_nil]; omega)
    rw [hleft, append_nil] at he
    obtain ⟨e0, he0, hscan⟩ := List.mem_filterMap.mp he
    have hidle : ¬ e0.is_triggered = true := fun htriggered =>
      not_mem_nil (hnone ▸ (hmem e0).mpr ⟨he0, htriggered⟩)
    unfold EqueueEvent.scan at hscan
    rw [if_neg hidle] at hscan
    obtain rfl := some.inj hscan
    simpa using hidle

theorem collectSmallTimers_spec (curr_clock : ℤ) (count : ℕ) (timers : List SmallTimer)
    (hcount : count ≤ num) : ∃ delivered,
      (collectSmallTimers curr_clock num count timers).1 = delivered.map SmallTimer.event ∧
      count + delivered.length ≤ num ∧ (delivered ++ (collectSmallTimers curr_clock num count timers).2).Perm timers ∧
      (∀ st ∈ delivered, st.Expired curr_clock) ∧ (count + delivered.length < num →
        ∀ st ∈ (collectSmallTimers curr_clock num count timers).2, ¬ st.Expired curr_clock) := by
  induction timers generalizing count with
  | nil =>
    refine ⟨[], rfl, hcount, .refl [], ?_, fun _ => ?_⟩
    · exact forall_mem_nil _
    · exact forall_mem_nil _
  | cons st timers ih =>
    unfold collectSmallTimers
    split_ifs with hroom hexpired
    · obtain ⟨delivered, hev, hle, hperm, hall, hnone⟩ := ih (count + 1) (by omega)
      refine ⟨st :: delivered, congrArg (st.event :: ·) hev, ?_, hperm.cons st, ?_, ?_⟩
      · rw [length_cons]
        omega
      · exact forall_mem_cons.mpr ⟨hexpired, hall⟩
      · rw [length_cons]
        exact fun hlt => hnone (by omega)
    · obtain ⟨delivered, hev, hle, hperm, hall, hnone⟩ := ih count hcount
      refine ⟨delivered, hev, hle, ?_, hall, fun hlt => ?_⟩
      · exact perm_middle.trans (hperm.cons st)
      · exact forall_mem_cons.mpr ⟨hexpired, hnone hlt⟩
    · refine ⟨[], rfl, hcount, .refl _, ?_, fun hlt => absurd hlt hroom⟩
      exact forall_mem_nil _

/-! ## The invariant -/

/-- The room that a thread in `WaitForEvents` has. -/
def EqueueWait.num : EqueueWait → Option ℕ
  | .returned _ => none
  | .start num _ => some num
  | .wait num _ => some num
  | .smallStart num _ => some num
  | .smallRead num _ => some num
  | .smallCheck num _ _ => some num

namespace EqueueEvent

/-- What holds of an event in the queue: it is cleared when it is collected, or is a `User` event; and an
event that is triggered was not collected since, or is a `User` event that is not cleared. -/
structure Kept (e : EqueueEvent) : Prop where
  clears : e.event.filter ≠ .user → e.clears = true
  pending : e.is_triggered = true → e.collected = true → e.clears = false

theorem stored_kept {e : EqueueEvent} (h : e.is_triggered = false) : e.stored.Kept := by
  constructor
  · intro hfilter
    unfold stored clears
    dsimp only
    rw [if_pos (show e.event.filter ≠ .user from hfilter), bne_iff_ne]
    intro hzero
    have hbit := congrArg (fun flags => BitVec.getLsbD flags 5) hzero
    simp [eventClear] at hbit
  · intro htriggered
    exact absurd (h.symm.trans htriggered) Bool.false_ne_true

theorem triggered_eq (e : EqueueEvent) (filter : EventFilter) (trigger_data time : BitVec 64) :
    (e.triggered filter trigger_data time).key = e.key ∧
      (e.triggered filter trigger_data time).event.flags = e.event.flags ∧
      (e.triggered filter trigger_data time).collected = false := by
  unfold triggered
  cases filter <;> try exact ⟨rfl, rfl, rfl⟩
  unfold triggerDisplay
  dsimp only
  split_ifs <;> exact ⟨rfl, rfl, rfl⟩

theorem collect_eq {e e' : EqueueEvent} (h : e.collect = some e') :
    e'.key = e.key ∧ e'.event.flags = e.event.flags ∧ e.oneShot = false ∧
      (e.clears = true → e'.is_triggered = false) := by
  unfold collect at h
  dsimp only at h
  split_ifs at h with hclears hshot hshot
  · obtain rfl := some.inj h
    exact ⟨rfl, rfl, Bool.eq_false_iff.mpr hshot, fun _ => rfl⟩
  · obtain rfl := some.inj h
    exact ⟨rfl, rfl, Bool.eq_false_iff.mpr hshot, fun h => absurd h hclears⟩

theorem collect_eq_none {e : EqueueEvent} : e.collect = none ↔ e.oneShot = true := by
  unfold collect
  dsimp only
  split_ifs with hclears hshot hshot
  · exact iff_of_true rfl hshot
  · exact iff_of_false (fun h => by cases h) hshot
  · exact iff_of_true rfl hshot
  · exact iff_of_false (fun h => by cases h) hshot

theorem Kept.of_flags {e e' : EqueueEvent} (h : e.Kept) (hkey : e'.key = e.key)
    (hflags : e'.event.flags = e.event.flags)
    (hpending : e'.is_triggered = true → e'.collected = true → e.clears = false) : e'.Kept := by
  have hclears : e'.clears = e.clears := by
    unfold EqueueEvent.clears
    rw [hflags]
  have hfilter : e'.event.filter = e.event.filter := congrArg Prod.snd hkey
  constructor
  · rw [hfilter, hclears]
    exact h.clears
  · rw [hclears]
    exact hpending

end EqueueEvent

namespace Equeue

/-- What holds of the queue between the steps. -/
structure Wf (st : Equeue) : Prop where
  nodup : (st.m_events.map EqueueEvent.key).Nodup
  kept : ∀ e ∈ st.m_events, e.Kept
  timers : (st.m_small_timers.map (·.event.ident)).Nodup
  num : ∀ t n, (st.waits t).num = some n → 1 ≤ n

variable {st st' : Equeue} {t : ℕ}

theorem Wf.setEvents (h : st.Wf) (m_events : List EqueueEvent)
    (hnodup : (m_events.map EqueueEvent.key).Nodup) (hkept : ∀ e ∈ m_events, e.Kept) :
    { st with m_events }.Wf := { h with nodup := hnodup, kept := hkept }

theorem Wf.map (h : st.Wf) (hkey : ∀ e, (f e).key = e.key)
    (hkept : ∀ e, e.Kept → (f e).Kept) : { st with m_events := st.m_events.map f }.Wf := by
  apply h.setEvents
  · have hkeys : EqueueEvent.key ∘ f = EqueueEvent.key := funext hkey
    rw [map_map, hkeys]
    exact h.nodup
  · intro e he
    obtain ⟨e0, he0, rfl⟩ := mem_map.mp he
    exact hkept e0 (h.kept e0 he0)

theorem Wf.addEvent (h : st.Wf) {event : EqueueEvent} (htriggered : event.is_triggered = false)
    (time : OrbisKernelBintime) : (st.addEvent event time).Wf := by
  unfold Equeue.addEvent
  dsimp only
  split_ifs with hfound
  · obtain ⟨l1, a, l2, heq, -, hmodify⟩ := exists_of_modify
      (fun e : EqueueEvent => e.update (event.timed st.now time)) hfound
    have hkept := h.kept
    have hnodup := h.nodup
    rw [heq] at hkept hnodup
    apply h.setEvents
    · rw [hmodify, map_append, map_cons]
      rw [map_append, map_cons] at hnodup
      exact hnodup
    · rw [hmodify]
      intro e he
      rcases mem_append.mp he with hin | hin
      · exact hkept e (mem_append_left _ hin)
      rcases mem_cons.mp hin with rfl | hin
      · have ha := hkept a (mem_append_right _ mem_cons_self)
        exact ha.of_flags rfl rfl ha.pending
      · exact hkept e (mem_append_right _ (mem_cons_of_mem a hin))
  · apply h.setEvents
    · rw [map_append, map_singleton]
      rw [findIdx_lt_length, not_exists] at hfound
      apply h.nodup.append (nodup_singleton _)
      rw [disjoint_singleton]
      intro hin
      obtain ⟨e, he, hkey⟩ := mem_map.mp hin
      exact hfound e ⟨he, decide_eq_true hkey⟩
    · intro e he
      rcases mem_append.mp he with hin | hin
      · exact h.kept e hin
      · rw [mem_singleton.mp hin]
        exact EqueueEvent.stored_kept htriggered

theorem Wf.removeEvent (h : st.Wf) (id : BitVec 64) (filter : EventFilter) : (st.removeEvent id filter).Wf := by
  apply h.setEvents
  · exact h.nodup.sublist (eraseP_sublist.map _)
  · exact fun e he => h.kept e (mem_of_mem_eraseP he)

theorem Wf.triggerEvent (h : st.Wf) (ident : BitVec 64) (filter : EventFilter)
    (trigger_data time : BitVec 64) : (st.triggerEvent ident filter trigger_data time).Wf := by
  apply h.map
  · intro e
    split_ifs
    · exact (EqueueEvent.triggered_eq ..).1
    · rfl
  · intro e he
    split_ifs
    · obtain ⟨hkey, hflags, hcollected⟩ := EqueueEvent.triggered_eq e filter trigger_data time
      apply he.of_flags hkey hflags
      exact fun _ h => absurd (hcollected.symm.trans h) Bool.false_ne_true
    · exact he

theorem Wf.setTimers (h : st.Wf) {m_small_timers : List SmallTimer}
    (htimers : (m_small_timers.map (·.event.ident)).Nodup) : { st with m_small_timers }.Wf :=
  { h with timers := htimers }

theorem Wf.addSmallTimer (h : st.Wf) (event : OrbisKernelEvent) (time : OrbisKernelBintime) :
    (st.addSmallTimer event time).Wf := by
  apply h.setTimers
  rw [map_cons, nodup_cons]
  constructor
  · intro hin
    obtain ⟨tm, htm, hident⟩ := mem_map.mp hin
    exact of_decide_eq_true (mem_filter.mp htm).2 hident
  · exact h.timers.sublist (filter_sublist.map _)

theorem Wf.removeSmallTimer (h : st.Wf) (id : BitVec 64) : (st.removeSmallTimer id).Wf :=
  h.setTimers (h.timers.sublist (filter_sublist.map _))

theorem Wf.moveTo (h : st.Wf) (hnum : ∀ n, wait.num = some n → 1 ≤ n) : (st.moveTo t wait).Wf := by
  refine { h with num := fun u n hu => ?_ }
  change (Function.update st.waits t wait u).num = some n at hu
  rcases eq_or_ne u t with rfl | hne
  · rw [update_self] at hu
    exact hnum n hu
  · rw [update_of_ne hne] at hu
    exact h.num u n hu

theorem keys_sublist {f : EqueueEvent → Option EqueueEvent} {events : List EqueueEvent}
    (h : ∀ e ∈ events, ∀ e', f e = some e' → e'.key = e.key) :
    ((events.filterMap f).map EqueueEvent.key).Sublist (events.map EqueueEvent.key) := by
  induction events with
  | nil => exact .slnil
  | cons e events ih =>
    obtain ⟨hhead, htail⟩ := forall_mem_cons.mp h
    cases hf : f e with
    | none =>
      rw [filterMap_cons_none hf]
      exact (ih htail).cons _
    | some e' =>
      rw [filterMap_cons_some hf, map_cons, hhead e' hf]
      exact (ih htail).cons_cons _

theorem Wf.deliver (h : st.Wf) {num : ℕ} (hnum : 1 ≤ num) : (st.deliver t num).Wf := by
  have hnodup := h.nodup
  obtain ⟨scanned, rest, heq, -, hleft, -, -⟩ :=
    getTriggeredEvents_spec 0 st.m_events (Nat.lt_of_lt_of_le Nat.zero_lt_one hnum)
  have hscan (e e' : EqueueEvent) (he : e ∈ scanned) (hs : e.scan = some e') : e'.key = e.key ∧ e'.Kept := by
    have hkept := h.kept e (heq ▸ mem_append_left _ he)
    unfold EqueueEvent.scan at hs
    split_ifs at hs
    · obtain ⟨hkey, hflags, -, hcleared⟩ := EqueueEvent.collect_eq hs
      refine ⟨hkey, hkept.of_flags hkey hflags fun htriggered _ => ?_⟩
      by_contra hclears
      rw [hcleared (by simpa using hclears)] at htriggered
      cases htriggered
    · obtain rfl := some.inj hs
      exact ⟨rfl, hkept⟩
  apply (h.setEvents (getTriggeredEvents num 0 st.m_events).2 _ _).moveTo
  · exact fun n hn => by cases hn
  · rw [hleft, map_append]
    rw [heq, map_append] at hnodup
    apply hnodup.sublist (List.Sublist.append_right _ _)
    exact keys_sublist fun e he e' hs => (hscan e e' he hs).1
  · intro e' he'
    rw [hleft] at he'
    rcases mem_append.mp he' with hin | hin
    · obtain ⟨e, he, hs⟩ := List.mem_filterMap.mp hin
      exact (hscan e e' he hs).2
    · exact h.kept e' (heq ▸ mem_append_right _ hin)

theorem Wf.smallCheck (h : st.Wf) {num : ℕ} {wait_end_us : Option ℤ} {curr_clock : ℤ}
    {order : List SmallTimer} (hnum : 1 ≤ num)
    (hstep : st.smallCheck t num wait_end_us curr_clock order = some st') : st'.Wf := by
  unfold Equeue.smallCheck at hstep
  dsimp only at hstep
  split at hstep
  · cases hstep
  rename_i horder
  rw [not_not, isPerm_iff] at horder
  obtain ⟨delivered, -, -, hperm, -, -⟩ :=
    collectSmallTimers_spec curr_clock 0 order (Nat.zero_le num)
  have htimers : ((collectSmallTimers curr_clock num 0 order).2.map (·.event.ident)).Nodup := by
    have hnodup := (((hperm.trans horder).map (·.event.ident)).nodup_iff).mpr h.timers
    rw [map_append] at hnodup
    exact hnodup.of_append_right
  have hset := h.setTimers htimers
  split_ifs at hstep
  all_goals obtain rfl := some.inj hstep
  · exact hset.moveTo fun n hn => by cases hn
  · exact hset.moveTo fun n hn => some.inj hn ▸ hnum
  · exact hset.moveTo fun n hn => by cases hn

theorem Wf.advance (h : st.Wf) {timed_out : Bool} {order : List SmallTimer}
    (hstep : st.advance t timed_out order = some st') : st'.Wf := by
  unfold Equeue.advance at hstep
  have hnum := h.num t
  split at hstep <;> rename_i hwait <;> rw [hwait] at hnum
  · cases hstep
  · obtain rfl := some.inj hstep
    unfold waitStart
    split_ifs
    · exact h.deliver (hnum _ rfl)
    · exact h.moveTo hnum
    · exact h.moveTo hnum
  · unfold waitCond at hstep
    split_ifs at hstep
    all_goals obtain rfl := some.inj hstep
    · exact h.deliver (hnum _ rfl)
    · exact h
  · obtain rfl := some.inj hstep
    exact h.moveTo hnum
  · obtain rfl := some.inj hstep
    exact h.moveTo hnum
  · exact h.smallCheck (hnum _ rfl) hstep

end Equeue

/-- A call of `WaitForEvents` has room for an event. -/
def EqueueOp.HasRoom : EqueueOp → Prop
  | .waitForEvents _ num _ => 1 ≤ num
  | _ => True

instance : DecidablePred EqueueOp.HasRoom := fun o => by
  unfold EqueueOp.HasRoom
  split <;> infer_instance

namespace Equeue

variable {st st' : Equeue}

theorem Wf.step (h : st.Wf) (hroom : o.HasRoom) (hstep : st.step o = some st') : st'.Wf := by
  cases o with
  | advance t timed_out order => exact h.advance hstep
  | waitForEvents t num timo =>
    change st.waitForEvents t num timo = some st' at hstep
    unfold Equeue.waitForEvents at hstep
    split at hstep
    · obtain rfl := some.inj hstep
      exact h.moveTo fun n hn => some.inj hn ▸ hroom
    · cases hstep
  | addEvent event time => exact some.inj hstep ▸ h.addEvent rfl time
  | removeEvent id filter => exact some.inj hstep ▸ h.removeEvent id filter
  | triggerEvent ident filter trigger_data time =>
    exact some.inj hstep ▸ h.triggerEvent ident filter trigger_data time
  | addSmallTimer event time => exact some.inj hstep ▸ h.addSmallTimer event time
  | removeSmallTimer id => exact some.inj hstep ▸ h.removeSmallTimer id
  | tick nanoseconds =>
    obtain rfl := some.inj hstep
    exact { h with }

theorem Wf.isNew (h : st.IsNew) : st.Wf := by
  obtain ⟨hevents, htimers, hwaits⟩ := h
  constructor
  case nodup =>
    rw [hevents]
    exact nodup_nil
  case kept =>
    rw [hevents]
    exact forall_mem_nil _
  case timers =>
    rw [htimers]
    exact nodup_nil
  case num =>
    intro t n hn
    rw [hwaits] at hn
    cases hn

/-! ## Returns -/

theorem Wf.delivered (h : st.Wf) {num : ℕ} (hnum : 1 ≤ num) :
    ∃ delivered, Delivery num st.m_events (getTriggeredEvents num 0 st.m_events).2
        (getTriggeredEvents num 0 st.m_events).1 delivered ∧
      (∀ e ∈ delivered, e.collected = false ∨ (e.event.filter = .user ∧ e.clears = false)) ∧
      ∀ e ∈ st.m_events, (∀ e' ∈ (getTriggeredEvents num 0 st.m_events).2, e'.key ≠ e.key) ↔
        e ∈ delivered ∧ e.oneShot = true := by
  obtain ⟨delivered, hdelivery⟩ := getTriggeredEvents_delivery hnum h.nodup.of_map
  refine ⟨delivered, hdelivery, fun e he => ?_, fun e he => ⟨fun hgone => ?_, ?_⟩⟩
  · have hkept := h.kept e (hdelivery.sublist.subset he)
    cases hcollected : e.collected with
    | false => exact .inl rfl
    | true =>
      have hclears := hkept.pending (hdelivery.triggered e he) hcollected
      refine .inr ⟨by_contra fun hfilter => ?_, hclears⟩
      exact Bool.false_ne_true (hclears.symm.trans (hkept.clears hfilter))
  · have hin : e ∈ delivered := by_contra fun hnot => hgone e (hdelivery.kept e he hnot) rfl
    refine ⟨hin, EqueueEvent.collect_eq_none.mp ?_⟩
    rw [Option.eq_none_iff_forall_not_mem]
    intro e' hcollect
    exact hgone e' (hdelivery.rest e hin e' hcollect) (EqueueEvent.collect_eq hcollect).1
  · rintro ⟨hin, hshot⟩ e' he' hkey
    have hunique (e1 e2 : EqueueEvent) (h1 : e1 ∈ st.m_events) (h2 : e2 ∈ st.m_events)
        (heq : e1.key = e2.key) : e1 = e2 := inj_on_of_nodup_map h.nodup h1 h2 heq
    rcases hdelivery.origin e' he' with ⟨hbefore, hnot⟩ | ⟨e0, he0, hcollect⟩
    · exact hnot (hunique e' e hbefore he hkey ▸ hin)
    · have hkey0 := (EqueueEvent.collect_eq hcollect).1.symm.trans hkey
      obtain rfl := hunique e0 e (hdelivery.sublist.subset he0) he hkey0
      rw [EqueueEvent.collect_eq_none.mpr hshot] at hcollect
      cases hcollect

end Equeue

/-- The clock that a thread compares the small timers with. -/
def EqueueWait.smallClock : EqueueWait → Option ℤ
  | .smallCheck _ _ curr_clock => some curr_clock
  | _ => none

namespace Equeue

variable {st st' : Equeue} {t : ℕ}

/-- What holds of a step by which a wait returns events. -/
structure Returns (st st' : Equeue) (t num : ℕ) (ev : List OrbisKernelEvent) : Prop where
  count : ev.length ≤ num
  /-- Without the small timers, events of `m_events` are delivered, which were not collected since they
  were triggered or are `User` events that are not cleared; and those that are removed are the
  `OneShot` events among them. -/
  events : (st.waits t).smallClock = none → st'.m_small_timers = st.m_small_timers ∧
    ∃ delivered, Delivery num st.m_events st'.m_events ev delivered ∧
      (∀ e ∈ delivered, e.collected = false ∨ (e.event.filter = .user ∧ e.clears = false)) ∧
      ∀ e ∈ st.m_events, (∀ e' ∈ st'.m_events, e'.key ≠ e.key) ↔ e ∈ delivered ∧ e.oneShot = true
  timers : ∀ curr_clock, (st.waits t).smallClock = some curr_clock → st'.m_events = st.m_events ∧
    ∃ delivered, TimerDelivery num curr_clock st.m_small_timers st'.m_small_timers ev delivered

theorem Wf.deliver_returns (h : st.Wf) {num : ℕ} {ev : List OrbisKernelEvent} (hnum : 1 ≤ num)
    (hclock : (st.waits t).smallClock = none) (hev : (st.deliver t num).waits t = .returned ev) :
    Returns st (st.deliver t num) t num ev := by
  obtain ⟨delivered, hdelivery, honce, hremoved⟩ := h.delivered hnum
  have hev' : (getTriggeredEvents num 0 st.m_events).1 = ev := by
    change Function.update st.waits t _ t = _ at hev
    rw [update_self] at hev
    exact EqueueWait.returned.inj hev
  rw [hev'] at hdelivery
  constructor
  case count =>
    rw [hdelivery.events, length_map]
    exact hdelivery.count
  case events => exact fun _ => ⟨rfl, delivered, hdelivery, honce, hremoved⟩
  case timers =>
    intro curr_clock hcurr
    rw [hclock] at hcurr
    cases hcurr

theorem smallCheck_returns
     (hnum : 1 ≤ num) (hwait : st.waits t = .smallCheck num wait_end_us curr_clock)
    (hstep : st.smallCheck t num wait_end_us curr_clock order = some st')
    (hev : st'.waits t = .returned ev) : Returns st st' t num ev := by
  unfold Equeue.smallCheck at hstep
  dsimp only at hstep
  split at hstep
  · cases hstep
  rename_i horder
  rw [not_not, isPerm_iff] at horder
  obtain ⟨delivered, hevents, hcount, hperm, hexpired, hsilent⟩ :=
    collectSmallTimers_spec curr_clock 0 order (Nat.zero_le num)
  rw [Nat.zero_add] at hcount hsilent
  -- What was written is returned, and nothing else changes.
  have hresult : (collectSmallTimers curr_clock num 0 order).1 = ev ∧ st'.m_events = st.m_events ∧
      st'.m_small_timers = (collectSmallTimers curr_clock num 0 order).2 := by
    split_ifs at hstep with hsome hbefore
    all_goals obtain rfl := some.inj hstep
    all_goals change Function.update st.waits t _ t = _ at hev
    all_goals rw [update_self] at hev
    · exact ⟨EqueueWait.returned.inj hev, rfl, rfl⟩
    · cases hev
    · rw [not_not] at hsome
      exact ⟨hsome.trans (EqueueWait.returned.inj hev), rfl, rfl⟩
  obtain ⟨rfl, hsame, htimers⟩ := hresult
  constructor
  case count =>
    rw [hevents, length_map]
    exact hcount
  case events =>
    intro hclock
    rw [hwait] at hclock
    cases hclock
  case timers =>
    intro curr hcurr
    rw [hwait] at hcurr
    obtain rfl := some.inj hcurr
    refine ⟨hsame, delivered, ?_⟩
    rw [htimers]
    constructor
    case events => exact hevents
    case count => exact hcount
    case perm => exact hperm.trans horder
    case expired => exact hexpired
    case silent =>
      intro hnone
      rw [hevents, map_eq_nil_iff] at hnone
      apply hsilent
      rw [hnone]
      exact hnum

theorem Wf.returns (h : st.Wf) {num : ℕ} {timed_out : Bool} {order : List SmallTimer}
    {ev : List OrbisKernelEvent} (hnum : (st.waits t).num = some num)
    (hstep : st.advance t timed_out order = some st') (hev : st'.waits t = .returned ev) :
    Returns st st' t num ev := by
  have hroom := h.num t num hnum
  -- A thread that only goes on has not returned.
  have hmoves {wait : EqueueWait} (hwait : ∀ ev, wait ≠ .returned ev)
      (hev : (st.moveTo t wait).waits t = .returned ev) : False := by
    change Function.update st.waits t wait t = _ at hev
    rw [update_self] at hev
    exact hwait ev hev
  unfold Equeue.advance at hstep
  split at hstep
  all_goals rename_i hwait
  all_goals rw [hwait] at hnum
  · cases hstep
  · obtain rfl := some.inj hnum
    obtain rfl := some.inj hstep
    unfold waitStart at hev ⊢
    split_ifs at hev ⊢
    · exact h.deliver_returns hroom (by rw [hwait]; rfl) hev
    · exact (hmoves (fun _ hsame => by cases hsame) hev).elim
    · exact (hmoves (fun _ hsame => by cases hsame) hev).elim
  · obtain rfl := some.inj hnum
    unfold waitCond at hstep
    split_ifs at hstep
    all_goals obtain rfl := some.inj hstep
    · exact h.deliver_returns hroom (by rw [hwait]; rfl) hev
    · rw [hwait] at hev
      cases hev
  · obtain rfl := some.inj hstep
    exact (hmoves (fun _ hsame => by cases hsame) hev).elim
  · obtain rfl := some.inj hstep
    exact (hmoves (fun _ hsame => by cases hsame) hev).elim
  · obtain rfl := some.inj hnum
    exact smallCheck_returns hroom hwait hstep hev

theorem advance_keeps (hstep : st.advance t timed_out order = some st') (hnot : ∀ ev, st'.waits t ≠ .returned ev) :
    st'.m_events = st.m_events ∧ st'.m_small_timers.Perm st.m_small_timers := by
  have hdeliver (num : ℕ) : ∃ ev, (st.deliver t num).waits t = .returned ev :=
    ⟨_, update_self ..⟩
  unfold Equeue.advance at hstep
  split at hstep
  · cases hstep
  · obtain rfl := some.inj hstep
    unfold waitStart at hnot ⊢
    split_ifs at hnot ⊢
    · obtain ⟨ev, hev⟩ := hdeliver _
      exact absurd hev (hnot ev)
    · exact ⟨rfl, .refl _⟩
    · exact ⟨rfl, .refl _⟩
  · unfold waitCond at hstep
    split_ifs at hstep
    all_goals obtain rfl := some.inj hstep
    · obtain ⟨ev, hev⟩ := hdeliver _
      exact absurd hev (hnot ev)
    · exact ⟨rfl, .refl _⟩
  · obtain rfl := some.inj hstep
    exact ⟨rfl, .refl _⟩
  · obtain rfl := some.inj hstep
    exact ⟨rfl, .refl _⟩
  · unfold Equeue.smallCheck at hstep
    dsimp only at hstep
    split at hstep
    · cases hstep
    rename_i num wait_end_us curr_clock _ horder
    rw [not_not, isPerm_iff] at horder
    obtain ⟨delivered, hevents, -, hperm, -, -⟩ :=
      collectSmallTimers_spec curr_clock 0 order (Nat.zero_le num)
    split_ifs at hstep with hsome
    all_goals obtain rfl := some.inj hstep
    · exact absurd (update_self ..) (hnot _)
    · rw [not_not] at hsome
      rw [hsome] at hevents
      rw [List.map_eq_nil_iff.mp hevents.symm] at hperm
      exact ⟨rfl, hperm.trans horder⟩
    · exact absurd (update_self ..) (hnot _)

theorem start_small (hwait : st.waits t = .start num timo) (hstep : st.advance t timed_out order = some st') :
    st'.waits t = .smallStart num (timo.getD 0) ↔ timo ≠ some 0 ∧ st.m_small_timers ≠ [] := by
  unfold Equeue.advance at hstep
  rw [hwait] at hstep
  obtain rfl := some.inj hstep
  unfold waitStart
  split_ifs with hpoll htimers
  · refine iff_of_false (fun hsame => ?_) fun hnot => hnot.1 hpoll
    change Function.update st.waits t _ t = _ at hsame
    rw [update_self] at hsame
    cases hsame
  · refine iff_of_true ?_ ⟨hpoll, htimers⟩
    exact update_self ..
  · refine iff_of_false (fun hsame => ?_) fun hnot => htimers hnot.2
    change Function.update st.waits t _ t = _ at hsame
    rw [update_self] at hsame
    cases hsame

end Equeue

def userEvent : OrbisKernelEvent where
  ident := 1
  filter := .user
  flags := eventAdd
  fflags := 0
  data := 0
  udata := 0

def triggerUserEvent : List EqueueOp :=
  [.addEvent userEvent { sec := 0, frac := 0 }, .triggerEvent 1 .user 7 0]

end ShadPS4.Kernel
