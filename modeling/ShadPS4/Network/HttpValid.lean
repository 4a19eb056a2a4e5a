import ShadPS4.Network.HttpSteps

/-!
# Valid states

`EpollStep` lists what a section does to an epoll, and `GlobalStep` what it does to the rest.
-/

namespace ShadPS4.Http

open Function

variable {epoll req : ℕ} {success_event_bits worker_errno : BitVec 32} {getter : Getter}
  {call : HttpCall} {o : HttpOp}

@[simp] def HttpEvent.pushed : HttpEvent → Option (ℕ × HttpNBEvent)
  | .published _ event => event
  | _ => none

/-- What a section can do to an epoll, and to its place in the table. -/
inductive EpollStep (id : ℕ) : Epoll → Bool → HttpEvent → Epoll → Bool → Prop
  | same (epoll : Epoll) (inTable : Bool) (e : HttpEvent) (he : ∀ ev, e.pushed ≠ some (id, ev)) :
    EpollStep id epoll inTable e epoll inTable
  | create : EpollStep id {} false (.created id) {} true
  | destroy (epoll : Epoll) (e : HttpEvent) (he : ∀ ev, e.pushed ≠ some (id, ev)) :
    EpollStep id epoll true e { epoll with destroyed := true } false
  | abort (epoll : Epoll) (e : HttpEvent) (he : ∀ ev, e.pushed ≠ some (id, ev)) :
    EpollStep id epoll true e { epoll with abort_requested := true } true
  | push (epoll : Epoll) (req : ℕ) (ev : HttpNBEvent) (hdestroyed : epoll.destroyed = false) :
    EpollStep id epoll true (.published req (some (id, ev)))
      { epoll with events := epoll.events ++ [ev] } true
  | drain (epoll : Epoll) (inTable : Bool) (n : ℕ) (e : HttpEvent)
    (he : ∀ req event, e ≠ .published req event) :
    EpollStep id epoll inTable e { epoll with events := epoll.events.drop n } inTable

theorem EpollStep.ofEq {id : ℕ} {epoll epoll' : Epoll} {inTable inTable' : Bool} {e : HttpEvent}
    (hepoll : epoll' = epoll) (htable : inTable' = inTable)
    (he : ∀ ev, e.pushed ≠ some (id, ev)) : EpollStep id epoll inTable e epoll' inTable' := by
  rw [hepoll, htable]
  exact .same _ _ e he

/-- What a section does to the rest. -/
structure GlobalStep (s : HttpState) (e : HttpEvent) (s' : HttpState) : Prop where
  flags : (s'.inited = s.inited ∧ s'.shutting_down = s.shutting_down) ∨
    (s'.inited = true ∧ s'.shutting_down = false) ∨
    (s'.shutting_down = true ∧ s'.inited = false ∧ ∀ id, s'.requests id = false)
  next : s.next_obj_id ≤ s'.next_obj_id
  created (id : ℕ) : e = .created id → s'.inited = true ∧ id ≤ s'.next_obj_id

theorem GlobalStep.same (hinited : s'.inited = s.inited)
    (hshut : s'.shutting_down = s.shutting_down) (hnext : s'.next_obj_id = s.next_obj_id)
    (he : ∀ id, e ≠ .created id) : GlobalStep s e s' :=
  ⟨.inl ⟨hinited, hshut⟩, Nat.le_of_eq hnext.symm, fun id h => absurd h (he id)⟩

namespace HttpState

variable {s s' : HttpState} {e : HttpEvent}

abbrev EpollStepped (s : HttpState) (e : HttpEvent) (s' : HttpState) (id : ℕ) : Prop :=
  EpollStep id (s.epoll id) (s.epolls id) e (s'.epoll id) (s'.epolls id)

theorem drain_epollStep (h : s.drain epoll maxevents = (s', e)) (id : ℕ) : s.EpollStepped e s' id := by
  cases h
  unfold EpollStepped setEpollObject
  dsimp only
  by_cases hid : id = epoll
  · subst hid
    rw [update_self]
    exact .drain _ _ _ _ (by simp)
  · rw [update_of_ne hid]
    exact .same _ _ _ (by simp)

theorem shutDown_epollStep (ret : BitVec 32) (id : ℕ) : s.EpollStepped (.returned ret) s.shutDown id := by
  unfold EpollStepped shutDown notify
  dsimp only
  cases hin : s.epolls id with
  | false =>
    exact .same _ _ _ (by simp)
  | true =>
    exact .destroy _ _ (by simp)

theorem createEpoll_epollStep (hs : s.Valid)
    (h : s.createEpoll ctx isNull = .ok (s', e)) (id : ℕ) : s.EpollStepped e s' id := by
  unfold createEpoll at h
  split_ifs at h
  cases h
  unfold EpollStepped setEpollObject
  dsimp only
  by_cases hid : id = s.next_obj_id + 1
  · subst hid
    obtain ⟨-, htable, hepoll⟩ := hs.fresh (s.next_obj_id + 1) (Nat.lt_succ_self _)
    rw [update_self, update_self, htable, hepoll]
    exact .create
  · rw [update_of_ne hid, update_of_ne hid]
    exact .same _ _ _ (by simp)

theorem destroyEpoll_epollStep (h : s.destroyEpoll ctx eh = .ok (s', e)) (id : ℕ) : s.EpollStepped e s' id := by
  unfold destroyEpoll at h
  dsimp only at h
  split_ifs at h with hinited hctx hnull hin
  cases h
  unfold EpollStepped setEpollObject notify
  dsimp only
  by_cases hid : id = decodeEpollHandle eh
  · subst hid
    rw [update_self, update_self, hin]
    exact .destroy _ _ (by simp)
  · rw [update_of_ne hid, update_of_ne hid]
    exact .same _ _ _ (by simp)

theorem abortWaitRequest_epollStep (h : s.abortWaitRequest eh = .ok (s', e)) (id : ℕ) : s.EpollStepped e s' id := by
  unfold abortWaitRequest at h
  dsimp only at h
  split_ifs at h with hinited hnull hin
  cases h
  unfold EpollStepped setEpollObject notify
  dsimp only
  by_cases hid : id = decodeEpollHandle eh
  · subst hid
    rw [update_self, hin]
    exact .abort _ _ (by simp)
  · rw [update_of_ne hid]
    exact .same _ _ _ (by simp)

theorem completionEvent_eq_some (h : s.completionEvent req worker_errno success_event_bits = some (epoll, ev)) :
    ev.id = req ∧ epoll = (s.request req).binding.epoll_id ∧ s.epolls epoll = true ∧
      (s.epoll epoll).destroyed = false := by
  unfold completionEvent at h
  dsimp only at h
  split at h
  next hpush =>
    cases h
    exact ⟨rfl, rfl, hpush.2.1, Bool.eq_false_iff.mpr hpush.2.2⟩
  next => cases h

theorem pushEvent_epollStep (hin : s.epolls epoll = true) (hdestroyed : (s.epoll epoll).destroyed = false) (id : ℕ) :
    s.EpollStepped (.published req (some (epoll, ev))) (s.pushEvent (some (epoll, ev))) id := by
  unfold EpollStepped pushEvent setEpollObject notify
  dsimp only
  by_cases hid : id = epoll
  · subst hid
    rw [update_self, hin]
    exact .push _ _ _ hdestroyed
  · rw [update_of_ne hid]
    exact .same _ _ _ (fun _ hpushed => hid (congrArg Prod.fst (Option.some.inj hpushed)).symm)

theorem complete_epollStep {local_res : HttpResponse}
    (h : s.complete req local_res worker_errno success_event_bits = some (s', e)) (id : ℕ) :
    s.EpollStepped e s' id := by
  obtain ⟨-, ⟨-, rfl, rfl⟩ | ⟨-, rfl, rfl⟩⟩ := complete_eq_some h
  · exact .ofEq rfl rfl (by simp)
  · cases hevent : s.completionEvent req worker_errno success_event_bits with
    | none => exact .ofEq rfl rfl (by simp)
    | some pushed =>
      obtain ⟨-, -, hin, hdestroyed⟩ := completionEvent_eq_some hevent
      exact pushEvent_epollStep (s := ((s.finishWorker req).setRequest req _).notify _) hin hdestroyed id

theorem respond_epollStep (h : s.respond getter req = (s', e)) (id : ℕ) : s.EpollStepped e s' id := by
  unfold respond at h
  cases getter <;> dsimp only at h
  case getStatusCode =>
    split_ifs at h <;> cases h <;> exact .ofEq rfl rfl (by simp)
  all_goals
    cases h
    exact .ofEq rfl rfl (by simp)

theorem wake_epollStep (h : s.wake call = (s', e)) (id : ℕ) : s.EpollStepped e s' id := by
  unfold wake at h
  cases call with
  | response getter req =>
    dsimp only at h
    split_ifs at h
    · cases h
      exact .ofEq rfl rfl (by simp)
    · exact respond_epollStep h id
  | waitRequest epoll maxevents timed =>
    dsimp only at h
    split_ifs at h
    · cases h
      exact .ofEq rfl rfl (by simp)
    · exact drain_epollStep h id

theorem step_epollStep (hs : s.Valid) (h : s.step o = some (s', e)) (id : ℕ) : s.EpollStepped e s' id := by
  rcases step_cases h with hquiet | hacts
  · apply EpollStep.ofEq (congrFun hquiet.epoll id) (congrFun hquiet.epolls id)
    rcases hquiet.event with ⟨ret, rfl⟩ | rfl | ⟨n, rfl, -⟩ <;> simp
  · cases hacts with
    | init poolSize h =>
      unfold init at h
      split_ifs at h
      cases h
      exact .ofEq rfl rfl (by simp)
    | shutDown ctx active_contexts => exact shutDown_epollStep (s := { s with active_contexts }) 0 id
    | createRequest conn rejected h =>
      unfold createRequest at h
      split_ifs at h
      split at h
      case h_1 | h_2 => cases h
      case h_3 =>
        cases h
        exact .ofEq rfl rfl (by simp)
    | deleteRequest req h =>
      unfold deleteRequest at h
      split_ifs at h
      cases h
      exact .ofEq rfl rfl (by simp)
    | sendRequest req h =>
      unfold sendRequest at h
      split_ifs at h
      split at h
      case h_1 | h_2 | h_3 => cases h
      case h_4 =>
        cases h
        exact .ofEq rfl rfl (by simp)
    | complete req local_res worker_errno success_event_bits h => exact complete_epollStep h id
    | abortRequest req h =>
      unfold abortRequest at h
      split_ifs at h <;> cases h <;> exact .ofEq rfl rfl (by simp)
    | respond getter req hstate h => exact respond_epollStep h id
    | wait t call hready hheld => exact .ofEq rfl rfl (by simp)
    | wake t call notified hwait hready h => exact wake_epollStep (s := s.setThread t none) h id
    | createEpoll ctx isNull h => exact createEpoll_epollStep hs h id
    | destroyEpoll ctx eh h => exact destroyEpoll_epollStep h id
    | abortWaitRequest eh h => exact abortWaitRequest_epollStep h id
    | drain epoll n h => exact drain_epollStep h id

/-! ## The rest -/

theorem respond_globalStep (h : s.respond getter req = (s', e)) : GlobalStep s e s' := by
  unfold respond at h
  cases getter <;> dsimp only at h
  case getStatusCode =>
    split_ifs at h <;> cases h <;> exact .same rfl rfl rfl (by simp)
  all_goals
    cases h
    exact .same rfl rfl rfl (by simp)

theorem wake_globalStep (h : s.wake call = (s', e)) : GlobalStep s e s' := by
  unfold wake at h
  cases call with
  | response getter req =>
    dsimp only at h
    split_ifs at h
    · cases h
      exact .same rfl rfl rfl (by simp)
    · exact respond_globalStep h
  | waitRequest epoll maxevents timed =>
    dsimp only at h
    split_ifs at h <;> cases h <;> exact .same rfl rfl rfl (by simp)

theorem pushEvent_globals (event : Option (ℕ × HttpNBEvent)) :
    (s.pushEvent event).inited = s.inited ∧ (s.pushEvent event).shutting_down = s.shutting_down ∧
      (s.pushEvent event).next_obj_id = s.next_obj_id := by
  cases event <;> exact ⟨rfl, rfl, rfl⟩

theorem step_globalStep (h : s.step o = some (s', e)) : GlobalStep s e s' := by
  rcases step_cases h with hquiet | hacts
  · refine ⟨.inl ⟨hquiet.inited, hquiet.shutting_down⟩, hquiet.next, fun id he => ?_⟩
    rcases hquiet.event with ⟨ret, rfl⟩ | rfl | ⟨n, rfl, hinited, hn⟩
    · cases he
    · cases he
    · cases he
      exact ⟨hquiet.inited.trans hinited, hn⟩
  · cases hacts with
    | init poolSize h =>
      unfold init at h
      split_ifs at h
      cases h
      exact ⟨.inr (.inl ⟨rfl, rfl⟩), Nat.le_refl _, fun id he => by cases he⟩
    | shutDown ctx active_contexts =>
      exact ⟨.inr (.inr ⟨rfl, rfl, fun _ => rfl⟩), Nat.le_refl _, fun id he => by cases he⟩
    | createRequest conn rejected h =>
      unfold createRequest at h
      split_ifs at h with hinited
      split at h
      case h_1 | h_2 => cases h
      case h_3 =>
        cases h
        refine ⟨.inl ⟨rfl, rfl⟩, Nat.le_succ _, fun id he => ?_⟩
        cases he
        exact ⟨hinited, Nat.le_refl _⟩
    | deleteRequest req h =>
      unfold deleteRequest at h
      split_ifs at h
      cases h
      exact .same rfl rfl rfl (by simp)
    | sendRequest req h =>
      unfold sendRequest at h
      split_ifs at h
      split at h
      case h_1 | h_2 | h_3 => cases h
      case h_4 =>
        cases h
        exact .same rfl rfl rfl (by simp)
    | complete req local_res worker_errno success_event_bits h =>
      obtain ⟨-, ⟨-, rfl, rfl⟩ | ⟨-, rfl, rfl⟩⟩ := complete_eq_some h
      · exact .same rfl rfl rfl (by simp)
      · generalize s.completionEvent req worker_errno success_event_bits = event
        obtain ⟨hinited, hshut, hnext⟩ := pushEvent_globals (s := ((s.finishWorker req).setRequest req
          { s.request req with
            res := local_res.unread, state := .sent, last_errno := worker_errno }).notify
              (· = .request req)) event
        exact .same hinited hshut hnext (by simp)
    | abortRequest req h =>
      unfold abortRequest at h
      split_ifs at h <;> cases h <;> exact .same rfl rfl rfl (by simp)
    | respond getter req hstate h => exact respond_globalStep h
    | wait t call hready hheld => exact .same rfl rfl rfl (by simp)
    | wake t call notified hwait hready h =>
      have hwake := wake_globalStep h
      exact ⟨hwake.flags, hwake.next, hwake.created⟩
    | createEpoll ctx isNull h =>
      unfold createEpoll at h
      split_ifs at h with hinited
      cases h
      refine ⟨.inl ⟨rfl, rfl⟩, Nat.le_succ _, fun id he => ?_⟩
      cases he
      exact ⟨hinited, Nat.le_refl _⟩
    | destroyEpoll ctx eh h =>
      unfold destroyEpoll at h
      dsimp only at h
      split_ifs at h
      cases h
      exact .same rfl rfl rfl (by simp)
    | abortWaitRequest eh h =>
      unfold abortWaitRequest at h
      dsimp only at h
      split_ifs at h
      cases h
      exact .same rfl rfl rfl (by simp)
    | drain epoll n h =>
      cases h
      exact .same rfl rfl rfl (by simp)

/-! ## Predicates and notifications -/

/-- The threads that were not notified have a predicate that is false. -/
def Asleep (s : HttpState) : Prop :=
  ∀ t wait, s.threads t = some wait → wait.notified = false → ¬ s.Ready wait.call

theorem Asleep.mono (h : s.Asleep) (hthreads : s'.threads = s.threads)
    (hready : ∀ call, s'.Ready call → s.Ready call) : s'.Asleep := by
  intro t wait hwait hnot hr
  rw [hthreads] at hwait
  exact h t wait hwait hnot (hready _ hr)

theorem Asleep.notify (h : s.Asleep) (hthreads : s'.threads = s.threads)
    (hready : ∀ t wait, s.threads t = some wait → s'.Ready wait.call → ¬ s.Ready wait.call →
      cvs wait.call.cv = true) : (s'.notify cvs).Asleep := by
  intro t wait' hwait' hnot'
  unfold HttpState.notify at hwait'
  rw [hthreads] at hwait'
  obtain ⟨wait, hwait, rfl⟩ := Option.map_eq_some_iff.mp hwait'
  obtain ⟨hnot, hcv⟩ := Bool.or_eq_false_iff.mp hnot'
  intro hr
  have hnotified := hready t wait hwait hr (h t wait hwait hnot)
  rw [hcv] at hnotified
  cases hnotified

theorem ready_setRequest (h : (s.setRequest req new).Ready call) :
    s.Ready call ∨ (call.cv = .request req ∧ new.state ≠ .sending) := by
  cases call with
  | waitRequest => exact .inl h
  | response getter id =>
    rcases h with hstate | hshut
    · by_cases hid : id = req
      · subst hid
        rw [show (s.setRequest id new).request id = new from update_self _ _ _] at hstate
        exact .inr ⟨rfl, hstate⟩
      · rw [show (s.setRequest req new).request id = s.request id from
          update_of_ne hid _ _] at hstate
        exact .inl (.inl hstate)
    · exact .inl (.inr hshut)

theorem ready_setEpollObject {id : ℕ} {new : Epoll} (h : (s.setEpollObject id new).Ready call) :
    s.Ready call ∨ (call.cv = .epoll id ∧ (new.events ≠ [] ∨ new.destroyed = true ∨ new.abort_requested = true)) := by
  cases call with
  | response => exact .inl h
  | waitRequest epoll maxevents timed =>
    by_cases hid : epoll = id
    · subst hid
      dsimp only [Ready] at h
      rw [show (s.setEpollObject epoll new).epoll epoll = new from update_self _ _ _] at h
      rcases h with hevents | hdestroyed | habort | hshut
      · exact .inr ⟨rfl, .inl hevents⟩
      · exact .inr ⟨rfl, .inr (.inl hdestroyed)⟩
      · exact .inr ⟨rfl, .inr (.inr habort)⟩
      · exact .inl (.inr (.inr (.inr hshut)))
    · dsimp only [Ready] at h
      rw [show (s.setEpollObject id new).epoll epoll = s.epoll epoll from
        update_of_ne hid _ _] at h
      exact .inl h

theorem Asleep.setRequest (h : s.Asleep) (req : ℕ) (new : HttpRequest) :
    ((s.setRequest req new).notify (· = .request req)).Asleep := by
  have hthreads : (s.setRequest req new).threads = s.threads := rfl
  apply h.notify hthreads
  intro t wait hwait hr hnot
  exact decide_eq_true ((ready_setRequest hr).resolve_left hnot).1

theorem Asleep.setEpollObject (h : s.Asleep) (id : ℕ) (new : Epoll) :
    ((s.setEpollObject id new).notify (· = .epoll id)).Asleep := by
  have hthreads : (s.setEpollObject id new).threads = s.threads := rfl
  apply h.notify hthreads
  intro t wait hwait hr hnot
  exact decide_eq_true ((ready_setEpollObject hr).resolve_left hnot).1

theorem Quiet.ready (h : s.Quiet e s') (hr : s'.Ready call) : s.Ready call := by
  cases call with
  | response getter req =>
    have hstate : (s'.request req).state = (s.request req).state :=
      congrArg (fun v => v.req.state) (h.view req)
    dsimp only [Ready] at hr ⊢
    rwa [hstate, h.shutting_down] at hr
  | waitRequest epoll maxevents timed =>
    dsimp only [Ready] at hr ⊢
    rwa [h.epoll, h.shutting_down] at hr

theorem Valid.asleep_shutDown (hs : s.Valid) (active_contexts : List ℕ) :
    { s with active_contexts }.shutDown.Asleep := by
  have hasleep : s.Asleep := fun t wait hwait hnot => hs.asleep hwait hnot
  apply Asleep.notify hasleep (by rfl)
  intro t wait hwait _ hnot
  have hheld := hs.held hwait
  cases hcall : wait.call with
  | response getter req =>
    rw [hcall] at hnot
    have hsending : (s.request req).state = .sending := by
      by_contra hne
      exact hnot (.inl hne)
    exact ((hs.view req).sending hsending).1
  | waitRequest epoll maxevents timed =>
    rw [hcall] at hnot hheld
    exact hheld.resolve_right fun hdestroyed => hnot (.inr (.inl hdestroyed))

theorem Asleep.respond (h : s.Asleep) (hrespond : s.respond getter req = (s', e)) : s'.Asleep := by
  unfold HttpState.respond at hrespond
  cases getter <;> dsimp only at hrespond
  case readData size =>
    cases hrespond
    apply h.mono (by rfl)
    intro call hr
    rcases ready_setRequest hr with hr | ⟨hcv, hstate⟩
    · exact hr
    · cases call with
      | response getter req =>
        cases hcv
        exact .inl hstate
      | waitRequest => cases hcv
  case getStatusCode => split_ifs at hrespond <;> cases hrespond <;> exact h
  all_goals
    cases hrespond
    exact h

theorem Asleep.drain (h : s.Asleep) (hdrain : s.drain epoll n = (s', e)) : s'.Asleep := by
  cases hdrain
  apply h.mono (by rfl)
  intro call hr
  rcases ready_setEpollObject hr with hr | ⟨hcv, hnew⟩
  · exact hr
  · cases call with
    | response => cases hcv
    | waitRequest epoll maxevents timed =>
      cases hcv
      rcases hnew with hevents | hdestroyed | habort
      · apply Or.inl
        intro hnil
        rw [hnil, List.drop_nil] at hevents
        exact hevents rfl
      · exact .inr (.inl hdestroyed)
      · exact .inr (.inr (.inl habort))

theorem Asleep.leave (h : s.Asleep) (t : ℕ) : (s.setThread t none).Asleep := by
  intro u wait hwait hnot
  by_cases hu : u = t
  · rw [hu, show (s.setThread t none).threads t = none from update_self _ _ _] at hwait
    cases hwait
  · rw [show (s.setThread t none).threads u = s.threads u from update_of_ne hu _ _] at hwait
    exact h u wait hwait hnot

theorem Asleep.wait (h : s.Asleep) (t : ℕ) (hready : ¬ s.Ready call) : (s.setThread t (some { call })).Asleep := by
  intro u wait hwait hnot
  by_cases hu : u = t
  · rw [hu, show (s.setThread t (some { call })).threads t = some { call } from
      update_self _ _ _] at hwait
    cases hwait
    exact hready
  · rw [show (s.setThread t (some { call })).threads u = s.threads u from
      update_of_ne hu _ _] at hwait
    exact h u wait hwait hnot

theorem Asleep.complete (h : s.Asleep)
    (hstep : s.complete req local_res worker_errno success_event_bits = some (s', e)) : s'.Asleep := by
  have hworker : (s.finishWorker req).Asleep := h.mono rfl fun _ => id
  obtain ⟨-, ⟨-, rfl, rfl⟩ | ⟨-, rfl, rfl⟩⟩ := complete_eq_some hstep
  · exact hworker.notify rfl fun t wait _ hr hnot => absurd hr hnot
  · generalize s.completionEvent req worker_errno success_event_bits = event
    have hpublished := hworker.setRequest req { s.request req with
      res := local_res.unread, state := .sent, last_errno := worker_errno }
    cases event with
    | none => exact hpublished
    | some pushed => exact hpublished.setEpollObject _ _

theorem step_asleep (hs : s.Valid) (h : s.step o = some (s', e)) : s'.Asleep := by
  have hasleep : s.Asleep := fun t wait hwait hnot => hs.asleep hwait hnot
  rcases step_cases h with hquiet | hacts
  · exact hasleep.mono hquiet.threads fun _ => hquiet.ready
  · cases hacts with
    | init poolSize h =>
      unfold init at h
      split_ifs at h
      cases h
      apply hasleep.mono (by rfl)
      intro call hr
      cases call with
      | response => exact .inl (hr.resolve_right Bool.false_ne_true)
      | waitRequest =>
        rcases hr with hevents | hdestroyed | habort | hshut
        · exact .inl hevents
        · exact .inr (.inl hdestroyed)
        · exact .inr (.inr (.inl habort))
        · cases hshut
    | shutDown ctx active_contexts => exact hs.asleep_shutDown active_contexts
    | createRequest conn rejected h =>
      unfold createRequest at h
      split_ifs at h
      split at h
      case h_1 | h_2 => cases h
      case h_3 binding hbinding =>
        cases h
        apply hasleep.mono (by rfl)
        intro call hr
        have hnew : (s.request (s.next_obj_id + 1)).state = .created :=
          congrArg (fun v => v.req.state) (hs.fresh _ (Nat.lt_succ_self _)).1
        rcases ready_setRequest (s := s) hr with hr | ⟨hcv, -⟩
        · exact hr
        · cases call with
          | response getter req =>
            cases hcv
            apply Or.inl
            rw [hnew]
            exact HttpRequestState.noConfusion
          | waitRequest => cases hcv
    | deleteRequest req h =>
      unfold deleteRequest at h
      split_ifs at h
      cases h
      exact hasleep.setRequest req _
    | sendRequest req h =>
      unfold sendRequest at h
      split_ifs at h
      split at h
      case h_1 | h_2 | h_3 => cases h
      case h_4 =>
        cases h
        apply hasleep.mono (by rfl)
        intro call hr
        exact (ready_setRequest (s := s) hr).resolve_right fun hnew => hnew.2 rfl
    | complete req local_res worker_errno success_event_bits h => exact hasleep.complete h
    | abortRequest req h =>
      unfold abortRequest at h
      split_ifs at h <;> cases h
      · exact hasleep.setRequest req _
      · exact hasleep
    | respond getter req hstate h => exact hasleep.respond h
    | wait t call hready hheld => exact hasleep.wait t hready
    | wake t call notified hwait hready h =>
      have hleave := hasleep.leave t
      unfold wake at h
      cases call with
      | response getter req =>
        dsimp only at h
        split_ifs at h
        · cases h
          exact hleave
        · exact hleave.respond h
      | waitRequest epoll maxevents timed =>
        dsimp only at h
        split_ifs at h
        · cases h
          exact hleave
        · exact hleave.drain h
    | createEpoll ctx isNull h =>
      unfold createEpoll at h
      split_ifs at h
      cases h
      apply hasleep.mono (by rfl)
      intro call hr
      apply (ready_setEpollObject (s := s) hr).resolve_right
      rintro ⟨-, hevents | hdestroyed | habort⟩
      · exact hevents rfl
      · cases hdestroyed
      · cases habort
    | destroyEpoll ctx eh h =>
      unfold destroyEpoll at h
      dsimp only at h
      split_ifs at h
      cases h
      exact hasleep.setEpollObject _ _
    | abortWaitRequest eh h =>
      unfold abortWaitRequest at h
      dsimp only at h
      split_ifs at h
      cases h
      exact hasleep.setEpollObject _ _
    | drain epoll n h => exact hasleep.drain h

/-! ## Valid states -/

/-- Every thread that waits waited before, in the same call. -/
def Calls (s s' : HttpState) : Prop :=
  ∀ t wait', s'.threads t = some wait' → ∃ wait, s.threads t = some wait ∧ wait.call = wait'.call

theorem Calls.same (h : s'.threads = s.threads) : s.Calls s' := by
  intro t wait' hwait'
  rw [h] at hwait'
  exact ⟨wait', hwait', rfl⟩

theorem Calls.notify (h : s.Calls s') (cvs : HttpCv → Bool) : s.Calls (s'.notify cvs) := by
  intro t wait' hwait'
  obtain ⟨wait, hwait, rfl⟩ := Option.map_eq_some_iff.mp hwait'
  exact h t wait hwait

theorem Calls.pushEvent (h : s.Calls s') (event : Option (ℕ × HttpNBEvent)) : s.Calls (s'.pushEvent event) := by
  cases event with
  | none => exact h
  | some pushed =>
    obtain ⟨id, ev⟩ := pushed
    have hset : s.Calls (s'.setEpollObject id
        { s'.epoll id with events := (s'.epoll id).events ++ [ev] }) := h
    exact hset.notify (· = .epoll id)

theorem Calls.leave (s : HttpState) (t : ℕ) : s.Calls (s.setThread t none) := by
  intro u wait hwait
  by_cases hu : u = t
  · rw [hu, show (s.setThread t none).threads t = none from update_self _ _ _] at hwait
    cases hwait
  · rw [show (s.setThread t none).threads u = s.threads u from update_of_ne hu _ _] at hwait
    exact ⟨wait, hwait, rfl⟩

theorem respond_threads (h : s.respond getter req = (s', e)) : s'.threads = s.threads := by
  unfold respond at h
  cases getter <;> dsimp only at h
  case getStatusCode => split_ifs at h <;> cases h <;> rfl
  all_goals
    cases h
    rfl

theorem wake_threads (h : s.wake call = (s', e)) : s'.threads = s.threads := by
  unfold wake at h
  cases call <;> dsimp only at h <;> split_ifs at h
  case neg => exact respond_threads h
  all_goals
    cases h
    rfl

theorem step_calls (h : s.step o = some (s', e)) :
    s.Calls s' ∨ ∃ t call, ¬ s.Ready call ∧ (s.Valid → s.Held call) ∧ s' = s.setThread t (some { call }) := by
  rcases step_cases h with hquiet | hacts
  · exact .inl (.same hquiet.threads)
  · cases hacts with
    | wait t call hready hheld => exact .inr ⟨t, call, hready, hheld, rfl⟩
    | wake t call notified hwait hready h =>
      apply Or.inl
      intro u wait' hwait'
      rw [wake_threads h] at hwait'
      exact Calls.leave s t u wait' hwait'
    | respond getter req hstate h => exact .inl (.same (respond_threads h))
    | shutDown ctx active_contexts => exact .inl (Calls.notify (.same (by rfl)) _)
    | complete req local_res worker_errno success_event_bits h =>
      obtain ⟨-, ⟨-, rfl, rfl⟩ | ⟨-, rfl, rfl⟩⟩ := complete_eq_some h
      · exact .inl (Calls.notify (.same (by rfl)) _)
      · exact .inl (Calls.pushEvent (Calls.notify (.same (by rfl)) _) _)
    | init poolSize h =>
      unfold init at h
      split_ifs at h
      cases h
      exact .inl (.same (by rfl))
    | createRequest conn rejected h =>
      unfold createRequest at h
      split_ifs at h
      split at h
      case h_1 | h_2 => cases h
      case h_3 =>
        cases h
        exact .inl (.same (by rfl))
    | deleteRequest req h =>
      unfold deleteRequest at h
      split_ifs at h
      cases h
      exact .inl (Calls.notify (.same (by rfl)) (· = .request req))
    | sendRequest req h =>
      unfold sendRequest at h
      split_ifs at h
      split at h
      case h_1 | h_2 | h_3 => cases h
      case h_4 =>
        cases h
        exact .inl (.same (by rfl))
    | abortRequest req h =>
      unfold abortRequest at h
      split_ifs at h <;> cases h
      · exact .inl (Calls.notify (.same (by rfl)) _)
      · exact .inl (.same rfl)
    | createEpoll ctx isNull h =>
      unfold createEpoll at h
      split_ifs at h
      cases h
      exact .inl (.same (by rfl))
    | destroyEpoll ctx eh h =>
      unfold destroyEpoll at h
      dsimp only at h
      split_ifs at h
      cases h
      exact .inl (Calls.notify (.same (by rfl)) (· = .epoll (decodeEpollHandle eh)))
    | abortWaitRequest eh h =>
      unfold abortWaitRequest at h
      dsimp only at h
      split_ifs at h
      cases h
      exact .inl (Calls.notify (.same (by rfl)) _)
    | drain epoll n h =>
      cases h
      exact .inl (.same (by rfl))

theorem Held.step (hs : s.Valid) (hheld : s.Held call) (h : s.step o = some (s', e)) : s'.Held call := by
  cases call with
  | response getter req =>
    have hreq := step_requestStep hs h req
    intro hcreated
    have hcreated : (s'.view req).req.state = .created := hcreated
    have hsent : (s.view req).req.state ≠ .created := hheld
    generalize s.view req = v at hreq hsent
    generalize s'.view req = v' at hreq hcreated
    cases hreq <;> first | exact hsent hcreated | cases hcreated
  | waitRequest epoll maxevents timed =>
    have hepoll := step_epollStep hs h epoll
    dsimp only [Held] at hheld ⊢
    unfold EpollStepped at hepoll
    generalize s.epoll epoll = before at hepoll hheld
    generalize s.epolls epoll = inTable at hepoll hheld
    generalize s'.epoll epoll = after at hepoll ⊢
    generalize s'.epolls epoll = inTable' at hepoll ⊢
    cases hepoll with
    | same => exact hheld
    | create => exact .inl rfl
    | destroy => exact .inr rfl
    | abort => exact .inl rfl
    | push => exact .inl rfl
    | drain => exact hheld

theorem Valid.fresh_step (hs : s.Valid) (h : s.step o = some (s', e)) {id : ℕ} (hid : s'.next_obj_id < id) :
    s'.view id = { req := {}, inTable := false, workers := 0 } ∧ s'.epolls id = false ∧
      s'.epoll id = {} := by
  have hglobal := step_globalStep h
  have hreq := step_requestStep hs h id
  have hepoll := step_epollStep hs h id
  obtain ⟨hview, htable, hobject⟩ := hs.fresh id (Nat.lt_of_le_of_lt hglobal.next hid)
  have hnew : e ≠ .created id := fun he => absurd (hglobal.created id he).2 (Nat.not_le.mpr hid)
  constructor
  · rw [hview] at hreq
    generalize s'.view id = v' at hreq
    cases hreq with
    | same => rfl
    | create => exact absurd rfl hnew
    | read req inTable workers n hstate => cases hstate
    | respond => rfl
  · unfold EpollStepped at hepoll
    rw [htable, hobject] at hepoll
    generalize s'.epoll id = after at hepoll ⊢
    generalize s'.epolls id = inTable' at hepoll ⊢
    cases hepoll with
    | same => exact ⟨rfl, rfl⟩
    | create => exact absurd rfl hnew
    | drain =>
      rw [List.drop_nil]
      exact ⟨rfl, rfl⟩

theorem Valid.step (hs : s.Valid) (h : s.step o = some (s', e)) : s'.Valid := by
  have hglobal := step_globalStep h
  constructor
  case view => exact fun id => (step_requestStep hs h id).valid (hs.view id)
  case running =>
    intro hinited
    rcases hglobal.flags with ⟨hsame, hshut⟩ | ⟨-, hshut⟩ | ⟨-, hno, -⟩
    · rw [hshut]
      exact hs.running (hsame ▸ hinited)
    · exact hshut
    · rw [hinited] at hno
      cases hno
  case table =>
    intro id hin
    rcases hglobal.flags with ⟨hsame, -⟩ | ⟨hinited, -⟩ | ⟨-, -, hempty⟩
    · have hreq := step_requestStep hs h id
      have hin : (s'.view id).inTable = true := hin
      have hkeep : (s.view id).inTable = true → s'.inited = true := fun hin =>
        hsame.trans (hs.table id hin)
      generalize s.view id = v at hreq hkeep
      generalize s'.view id = v' at hreq hin
      cases hreq with
      | create => exact (hglobal.created id rfl).1
      | delete => cases hin
      | _ => exact hkeep hin
    · exact hinited
    · rw [hempty id] at hin
      cases hin
  case fresh => exact fun id hid => hs.fresh_step h hid
  case asleep => exact fun hwait hnot => step_asleep hs h _ _ hwait hnot
  case held =>
    intro t wait' hwait'
    rcases step_calls h with hcalls | ⟨u, call, -, hheld, rfl⟩
    · obtain ⟨wait, hwait, hcall⟩ := hcalls t wait' hwait'
      rw [← hcall]
      exact Held.step hs (hs.held hwait) h
    · by_cases ht : t = u
      · rw [ht, show (s.setThread u (some { call })).threads u = some { call } from
          update_self _ _ _] at hwait'
        cases hwait'
        exact hheld hs
      · rw [show (s.setThread u (some { call })).threads t = s.threads t from
          update_of_ne ht _ _] at hwait'
        exact hs.held hwait'

theorem Valid.initial : ({} : HttpState).Valid := by
  constructor
  case view => exact fun id => ⟨nofun, nofun, nofun, Nat.zero_le _, nofun⟩
  case running => exact nofun
  case table => exact fun id h => nomatch h
  case fresh => exact fun id _ => ⟨rfl, rfl, rfl⟩
  case asleep => exact fun hwait => nomatch hwait
  case held => exact fun hwait => nomatch hwait

end HttpState

end ShadPS4.Http
