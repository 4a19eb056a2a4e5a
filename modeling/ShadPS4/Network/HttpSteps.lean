import ShadPS4.Network.Http

/-!
# What a step does to a request

A section changes a request in a few ways only. `RequestStep` lists them, with the event that is seen, and
`step_requestStep` is that each step of the machine is one of them for each request.
-/

namespace ShadPS4.Http

open Function

variable {req t : ℕ}

/-- What is left of a request without its settings. -/
def HttpRequest.core (req : HttpRequest) : HttpRequest := { req with binding := {} }

/-- A request, whether it is in the table, and how many workers have it. -/
structure HttpView where
  req : HttpRequest
  inTable : Bool
  workers : ℕ

@[simp] def HttpEvent.request : HttpEvent → Option ℕ
  | .sent id | .published id _ | .dropped id | .data id _ | .headers id _ | .contentLength id _ _
  | .statusCode id _ => some id
  | _ => none

/-- The event is a getter that succeeds for a request. -/
def HttpEvent.responds (id : ℕ) : HttpEvent → Prop
  | .data req _ | .headers req _ | .contentLength req _ _ | .statusCode req _ => req = id
  | _ => False

def HttpEvent.bytes (id : ℕ) : HttpEvent → Option (List (BitVec 8))
  | .data req bytes => if req = id then some bytes else none
  | _ => none

/-- The owners of a request fit its state. -/
structure HttpView.Valid (v : HttpView) : Prop where
  table : v.inTable = true → v.req.deleted = false
  sending : v.req.state = .sending → v.inTable = true ∧ v.workers = 1
  working : 0 < v.workers → v.req.state = .sending ∨ v.req.state = .aborted
  one : v.workers ≤ 1
  deleted : v.req.deleted = true → v.req.state = .aborted

/-- What a section can do to a request. -/
inductive RequestStep (id : ℕ) (o : HttpOp) : HttpView → HttpEvent → HttpView → Prop
  | same (v : HttpView) (e : HttpEvent) (he : e.request ≠ some id) : RequestStep id o v e v
  | create : RequestStep id o { req := {}, inTable := false, workers := 0 } (.created id)
      { req := {}, inTable := true, workers := 0 }
  | send (req : HttpRequest) (workers : ℕ) (hstate : req.state = .created) :
    RequestStep id o { req, inTable := true, workers } (.sent id)
      { req := { req with state := .sending }, inTable := true, workers := workers + 1 }
  | abort (req : HttpRequest) (workers : ℕ) (e : HttpEvent) (he : e.request ≠ some id)
    (hstate : req.state = .created ∨ req.state = .sending) (ho : o = .abortRequest id) :
    RequestStep id o { req, inTable := true, workers } e
      { req := { req with state := .aborted }, inTable := true, workers }
  | delete (req : HttpRequest) (workers : ℕ) (e : HttpEvent) (he : e.request ≠ some id)
    (ho : o = .deleteRequest id ∨ ∃ ctx, o = .term ctx) :
    RequestStep id o { req, inTable := true, workers } e
      { req := { req with deleted := true, state := .aborted }, inTable := false, workers }
  | drop (req : HttpRequest) (inTable : Bool) (workers : ℕ) (res : HttpResponse)
    (last_errno bits : BitVec 32) (hstate : req.state = .aborted)
    (ho : o = .complete id res last_errno bits) :
    RequestStep id o { req, inTable, workers := workers + 1 } (.dropped id) { req, inTable, workers }
  | publish (req : HttpRequest) (inTable : Bool) (workers : ℕ) (res : HttpResponse)
    (last_errno bits : BitVec 32) (event : Option (ℕ × HttpNBEvent)) (hdeleted : req.deleted = false)
    (hstate : req.state ≠ .aborted) (ho : o = .complete id res last_errno bits) :
    RequestStep id o { req, inTable, workers := workers + 1 } (.published id event)
      { req := { req with res := res.unread, state := .sent, last_errno }, inTable, workers }
  | read (req : HttpRequest) (inTable : Bool) (workers n : ℕ) (hstate : req.state = .sent)
    (hn : n ≤ req.res.body.length - req.res.read_cursor) :
    RequestStep id o { req, inTable, workers }
      (.data id ((req.res.body.drop req.res.read_cursor).take n))
      { req := { req with res := { req.res with read_cursor := req.res.read_cursor + n } },
        inTable, workers }
  /-- a getter other than `sceHttpReadData` succeeds -/
  | respond (v : HttpView) (e : HttpEvent) (hstate : v.req.state = .sent) (he : e.responds id)
    (hbytes : e.bytes id = none) : RequestStep id o v e v

theorem RequestStep.valid {id : ℕ} {o : HttpOp} {v v' : HttpView} {e : HttpEvent}
    (h : RequestStep id o v e v') (hv : v.Valid) : v'.Valid := by
  cases h with
  | same => exact hv
  | create => constructor <;> simp
  | send req workers hstate =>
    have hzero : workers = 0 := by
      by_contra hne
      rcases hv.working (Nat.pos_of_ne_zero hne) with h | h <;> rw [hstate] at h <;> cases h
    have hdeleted := hv.table rfl
    constructor <;> simp_all
  | abort req workers e he hstate ho =>
    have htable := hv.table rfl
    have hone := hv.one
    constructor <;> simp_all
  | delete req workers e he ho =>
    have hone := hv.one
    constructor <;> simp_all
  | drop req inTable workers res last_errno bits hstate ho =>
    have hone := hv.one
    have htable := hv.table
    constructor <;> simp_all
  | publish req inTable workers res last_errno bits event hdeleted hstate ho =>
    have hone : workers + 1 ≤ 1 := hv.one
    constructor <;> simp_all
  | read req inTable workers n hstate hn =>
    exact ⟨hv.table, hv.sending, hv.working, hv.one, hv.deleted⟩
  | respond => exact hv

theorem RequestStep.ofEq {id : ℕ} {o : HttpOp} {v v' : HttpView} {e : HttpEvent} (hview : v' = v)
    (he : e.request ≠ some id) : RequestStep id o v e v' := by
  rw [hview]
  exact .same v e he

namespace HttpState

variable {s s' : HttpState} {o : HttpOp} {e : HttpEvent}

def view (s : HttpState) (id : ℕ) : HttpView :=
  { req := (s.request id).core, inTable := s.requests id, workers := s.workers id }

/-- What a call waits for exists: the request was sent, and the epoll is in the table or destroyed. -/
def Held (s : HttpState) : HttpCall → Prop
  | .response _ req => (s.request req).state ≠ .created
  | .waitRequest epoll _ _ => s.epolls epoll = true ∨ (s.epoll epoll).destroyed = true

/-- The table, the workers, the requests and the threads fit each other. -/
structure Valid (s : HttpState) : Prop where
  view (id : ℕ) : (s.view id).Valid
  running : s.inited = true → s.shutting_down = false
  table (id : ℕ) : s.requests id = true → s.inited = true
  fresh (id : ℕ) : s.next_obj_id < id → s.view id = { req := {}, inTable := false, workers := 0 } ∧
    s.epolls id = false ∧ s.epoll id = {}
  asleep {t : ℕ} {wait : HttpWait} (hwait : s.threads t = some wait) (hnot : wait.notified = false) :
    ¬ s.Ready wait.call
  held {t : ℕ} {wait : HttpWait} (hwait : s.threads t = some wait) : s.Held wait.call

theorem finish_eq_some {call : Except (BitVec 32) (HttpState × HttpEvent)}
    (h : some (s.finish call) = some (s', e)) : (s' = s ∧ ∃ ret, e = .returned ret) ∨ call = .ok (s', e) := by
  have hdone := Option.some.inj h
  cases call with
  | error ret =>
    cases hdone
    exact .inl ⟨rfl, ret, rfl⟩
  | ok done =>
    exact .inr (hdone ▸ rfl)

/-! ## What a step does to a request -/

theorem view_setRequest_of_ne {id : ℕ} (hne : id ≠ req) (new : HttpRequest) :
    (s.setRequest req new).view id = s.view id := by
  unfold view setRequest
  dsimp only
  rw [update_of_ne hne]

theorem view_setRequest_self (req : ℕ) (new : HttpRequest) : (s.setRequest req new).view req =
      { req := new.core, inTable := s.requests req, workers := s.workers req } := by
  unfold view setRequest
  dsimp only
  rw [update_self]

theorem view_rebind (binding : HttpBinding) (id : ℕ) :
    (s.setRequest req { s.request req with binding }).view id = s.view id := by
  by_cases hid : id = req
  · subst hid
    exact view_setRequest_self id _
  · exact view_setRequest_of_ne hid _

theorem shutDown_requestStep (ctx : ℕ) (ret : BitVec 32) (id : ℕ) :
    RequestStep id (.term ctx) (s.view id) (.returned ret) (s.shutDown.view id) := by
  cases hin : s.requests id with
  | false =>
    apply RequestStep.ofEq _ (by simp)
    unfold view shutDown notify
    simp [hin]
  | true =>
    have hbefore : s.view id =
        { req := (s.request id).core, inTable := true, workers := s.workers id } := by
      unfold view
      rw [hin]
    have hafter : s.shutDown.view id =
        { req := { (s.request id).core with deleted := true, state := .aborted }, inTable := false,
          workers := s.workers id } := by
      unfold view shutDown notify
      simp [hin, HttpRequest.core]
    rw [hbefore, hafter]
    exact .delete _ _ _ (by simp) (.inr ⟨ctx, rfl⟩)

theorem createRequest_requestStep (hs : s.Valid) {conn : ℕ} {rejected : Option (BitVec 32)}
    (h : s.createRequest conn rejected = .ok (s', e)) (id : ℕ) : RequestStep id o (s.view id) e (s'.view id) := by
  unfold createRequest at h
  split_ifs at h
  split at h <;> cases h
  by_cases hid : id = s.next_obj_id + 1
  · subst hid
    rw [(hs.fresh _ (Nat.lt_succ_self _)).1]
    have hworkers : s.workers (s.next_obj_id + 1) = 0 :=
      congrArg HttpView.workers (hs.fresh _ (Nat.lt_succ_self _)).1
    unfold view setRequest
    dsimp only
    rw [update_self, update_self, hworkers]
    exact .create
  · apply RequestStep.ofEq _ (by simp)
    unfold view setRequest
    dsimp only
    rw [update_of_ne hid, update_of_ne hid]

theorem deleteRequest_requestStep (h : s.deleteRequest req = .ok (s', e)) (id : ℕ) :
    RequestStep id (.deleteRequest req) (s.view id) e (s'.view id) := by
  unfold deleteRequest at h
  split_ifs at h with hinited hin
  cases h
  by_cases hid : id = req
  · subst hid
    have hbefore : s.view id =
        { req := (s.request id).core, inTable := true, workers := s.workers id } := by
      unfold view
      rw [hin]
    rw [hbefore]
    unfold view setRequest notify
    dsimp only
    rw [update_self, update_self]
    exact .delete _ _ _ (by simp) (.inl rfl)
  · apply RequestStep.ofEq _ (by simp)
    unfold view setRequest notify
    dsimp only
    rw [update_of_ne hid, update_of_ne hid]

theorem sendRequest_requestStep (h : s.sendRequest req = .ok (s', e)) (id : ℕ) :
    RequestStep id o (s.view id) e (s'.view id) := by
  unfold sendRequest at h
  split_ifs at h with hinited hin
  split at h
  all_goals cases h
  next hstate =>
  by_cases hid : id = req
  · subst hid
    unfold view setRequest
    dsimp only
    rw [update_self, update_self, hin]
    exact .send _ _ hstate
  · apply RequestStep.ofEq _ (by simpa using Ne.symm hid)
    unfold view setRequest
    dsimp only
    rw [update_of_ne hid, update_of_ne hid]

theorem abortRequest_requestStep (h : s.abortRequest req = .ok (s', e)) (id : ℕ) :
    RequestStep id (.abortRequest req) (s.view id) e (s'.view id) := by
  unfold abortRequest at h
  split_ifs at h with hinited hin hstate <;> cases h
  case pos =>
    by_cases hid : id = req
    · subst hid
      have hbefore : s.view id =
          { req := (s.request id).core, inTable := true, workers := s.workers id } := by
        unfold view
        rw [hin]
      have hafter := view_setRequest_self (s := s) id { s.request id with state := .aborted }
      rw [hin] at hafter
      rw [hbefore, show (((s.setRequest id _).notify _).view id) = _ from hafter]
      exact .abort _ _ _ (by simp) hstate rfl
    · exact .ofEq (view_setRequest_of_ne hid _) (by simp)
  case neg => exact .ofEq rfl (by simp)

theorem view_pushEvent (event : Option (ℕ × HttpNBEvent)) (id : ℕ) : (s.pushEvent event).view id = s.view id := by
  cases event <;> rfl

def finishWorker (s : HttpState) (req : ℕ) : HttpState :=
  { s with workers := update s.workers req (s.workers req - 1) }

theorem complete_eq_some
    (h : s.complete req local_res worker_errno success_event_bits = some (s', e)) : 0 < s.workers req ∧
      (((s.shutting_down = true ∨ (s.request req).deleted = true ∨ (s.request req).state = .aborted) ∧
          s' = (s.finishWorker req).notify (· = .request req) ∧ e = .dropped req) ∨
        ((s.shutting_down = false ∧ (s.request req).deleted = false ∧ (s.request req).state ≠ .aborted) ∧
          s' = (((s.finishWorker req).setRequest req { s.request req with
              res := local_res.unread, state := .sent, last_errno := worker_errno }).notify
                (· = .request req)).pushEvent
                  (s.completionEvent req worker_errno success_event_bits) ∧
          e = .published req (s.completionEvent req worker_errno success_event_bits))) := by
  unfold complete at h
  split_ifs at h with hzero
  refine ⟨Nat.pos_of_ne_zero hzero, ?_⟩
  dsimp only at h
  split_ifs at h with hdrops
  · cases h
    exact .inl ⟨hdrops, rfl, rfl⟩
  · cases h
    rw [not_or, not_or] at hdrops
    exact .inr ⟨⟨Bool.eq_false_iff.mpr hdrops.1, Bool.eq_false_iff.mpr hdrops.2.1, hdrops.2.2⟩, rfl, rfl⟩

theorem view_finishWorker_of_ne {id : ℕ} (hne : id ≠ req) : (s.finishWorker req).view id = s.view id := by
  unfold view finishWorker
  dsimp only
  rw [update_of_ne hne]

theorem Valid.aborted (hs : s.Valid) (hworker : 0 < s.workers req)
    (hdrops : s.shutting_down = true ∨ (s.request req).deleted = true ∨
      (s.request req).state = .aborted) : (s.request req).state = .aborted := by
  rcases hdrops with hshut | hdeleted | hstate
  · rcases (hs.view req).working hworker with hsending | haborted
    · have hinited := hs.table req ((hs.view req).sending hsending).1
      rw [hs.running hinited] at hshut
      cases hshut
    · exact haborted
  · exact (hs.view req).deleted hdeleted
  · exact hstate

theorem complete_requestStep (hs : s.Valid) {local_res : HttpResponse} {worker_errno success_event_bits : BitVec 32}
    (h : s.complete req local_res worker_errno success_event_bits = some (s', e)) (id : ℕ) :
    RequestStep id (.complete req local_res worker_errno success_event_bits) (s.view id) e (s'.view id) := by
  obtain ⟨hworker, hcase⟩ := complete_eq_some h
  obtain ⟨workers, hworkers⟩ := Nat.exists_eq_succ_of_ne_zero (Nat.ne_of_gt hworker)
  have hleft : (s.finishWorker req).workers req = workers := by
    unfold finishWorker
    dsimp only
    rw [update_self, hworkers]
    rfl
  have hbefore : s.view req =
      { req := (s.request req).core, inTable := s.requests req, workers := workers + 1 } := by
    unfold view
    rw [hworkers]
  rcases hcase with ⟨hdrops, rfl, rfl⟩ | ⟨hpublishes, rfl, rfl⟩
  · by_cases hid : id = req
    · subst hid
      have hafter : (s.finishWorker id).view id =
          { req := (s.request id).core, inTable := s.requests id, workers } := by
        unfold view
        rw [hleft]
        rfl
      rw [hbefore, show ((s.finishWorker id).notify _).view id = _ from hafter]
      exact .drop _ _ _ local_res worker_errno success_event_bits (hs.aborted hworker hdrops) rfl
    · have hsame : ((s.finishWorker req).notify (· = .request req)).view id = s.view id :=
        view_finishWorker_of_ne (s := s) hid
      exact .ofEq hsame (by simpa using Ne.symm hid)
  · rw [view_pushEvent]
    by_cases hid : id = req
    · subst hid
      have hafter := view_setRequest_self (s := s.finishWorker id) id { s.request id with
        res := local_res.unread, state := .sent, last_errno := worker_errno }
      rw [hleft] at hafter
      rw [hbefore, show ((HttpState.setRequest _ id _).notify _).view id = _ from hafter]
      exact .publish (s.request id).core _ _ local_res worker_errno _ _ hpublishes.2.1 hpublishes.2.2 rfl
    · exact .ofEq ((view_setRequest_of_ne hid _).trans (view_finishWorker_of_ne hid)) (by simpa using Ne.symm hid)

theorem respond_requestStep {getter : Getter} (hstate : (s.request req).state = .sent)
    (h : s.respond getter req = (s', e)) (id : ℕ) : RequestStep id o (s.view id) e (s'.view id) := by
  unfold respond at h
  by_cases hid : id = req
  · subst hid
    cases getter <;> dsimp only at h
    case readData size =>
      cases h
      rw [view_setRequest_self]
      exact .read (s.request id).core _ _ _ hstate (Nat.min_le_right _ _)
    case getStatusCode =>
      split_ifs at h <;> cases h
      · exact .ofEq rfl (by simp)
      · exact .respond _ _ hstate rfl rfl
    all_goals
      cases h
      exact .respond _ _ hstate rfl rfl
  · cases getter <;> dsimp only at h
    case readData size =>
      cases h
      exact .ofEq (view_setRequest_of_ne hid _) (by simpa using Ne.symm hid)
    case getStatusCode =>
      split_ifs at h <;> cases h
      · exact .ofEq rfl (by simp)
      · exact .ofEq rfl (by simpa using Ne.symm hid)
    all_goals
      cases h
      exact .ofEq rfl (by simpa using Ne.symm hid)

theorem get_eq_ok (h : s.get t getter req isNull = .ok (s', e)) :
    ((s.request req).state = .sent ∧ s.respond getter req = (s', e)) ∨
      ((s.request req).state = .sending ∧ s.shutting_down = false ∧
        s' = s.setThread t (some { call := .response getter req }) ∧ e = .waits) := by
  unfold get at h
  split at h
  · cases h
  · split at h
    · cases h
    · split at h
      · cases h
      · split at h
        case h_1 | h_2 => cases h
        case h_3 hstate => exact .inl ⟨hstate, Except.ok.inj h⟩
        case h_4 hstate =>
          split_ifs at h with hnonblock hshut
          cases h
          exact .inr ⟨hstate, Bool.eq_false_iff.mpr hshut, rfl, rfl⟩

theorem look_eq_some (h : s.look t timed_out = some (s', e)) :
    ∃ call notified, s.threads t = some { call, notified } ∧ s.Alive call ∧
      (((s.Ready call ∨ (timed_out = true ∧ call.timed = true)) ∧ (s.setThread t none).wake call = (s', e)) ∨
        (¬ s.Ready call ∧ s' = s.setThread t (some { call }) ∧ e = .waits)) := by
  unfold look at h
  split at h
  case h_1 => cases h
  case h_2 call notified hwait =>
    split_ifs at h with halive hready
    · exact ⟨call, notified, hwait, halive, .inl ⟨hready, Option.some.inj h⟩⟩
    · cases h
      exact ⟨call, notified, hwait, halive, .inr ⟨fun hr => hready (.inl hr), rfl, rfl⟩⟩

theorem waitRequest_eq_ok (h : s.waitRequest t eh isNull maxevents timeout = .ok (s', e)) :
    ∃ epoll n, s.drain epoll n = (s', e) ∨ (s' = s ∧ e = .events []) ∨
      (s.epolls epoll = true ∧ (∃ timed, ¬ s.Ready (.waitRequest epoll n timed) ∧
        s' = s.setThread t (some { call := .waitRequest epoll n timed }) ∧ e = .waits)) := by
  unfold waitRequest at h
  dsimp only at h
  refine ⟨decodeEpollHandle eh, maxevents.toNat, ?_⟩
  split_ifs at h with hinited hargs hin habort hevents htimeout hwoken
  · exact .inl (Except.ok.inj h)
  · cases h
    exact .inr (.inl ⟨rfl, rfl⟩)
  · cases h
    exact .inr (.inl ⟨rfl, rfl⟩)
  · cases h
    refine .inr (.inr ⟨hin, _, ?_, rfl, rfl⟩)
    rw [not_or] at hwoken
    unfold Ready
    rw [not_or, not_or, not_or]
    exact ⟨hevents, hwoken.1, habort, hwoken.2⟩

/-! ## The sections that do something -/

/-- A section that changes the contexts, the templates, the connections and the settings only. -/
structure Quiet (s : HttpState) (e : HttpEvent) (s' : HttpState) : Prop where
  inited : s'.inited = s.inited
  shutting_down : s'.shutting_down = s.shutting_down
  next : s.next_obj_id ≤ s'.next_obj_id
  view (id : ℕ) : s'.view id = s.view id
  epolls : s'.epolls = s.epolls
  epoll : s'.epoll = s.epoll
  threads : s'.threads = s.threads
  event : (∃ ret, e = .returned ret) ∨ e = .events [] ∨
    ∃ id, e = .created id ∧ s.inited = true ∧ id ≤ s'.next_obj_id

theorem Quiet.returned (ret : BitVec 32) : s.Quiet (.returned ret) s :=
  ⟨rfl, rfl, Nat.le_refl _, fun _ => rfl, rfl, rfl, rfl, .inl ⟨ret, rfl⟩⟩

theorem rebind_quiet (h : s.rebind req change = .ok (s', e)) : s.Quiet e s' := by
  unfold rebind at h
  split at h
  case h_1 | h_2 =>
    cases h
    exact ⟨rfl, rfl, Nat.le_refl _, fun _ => rfl, rfl, rfl, rfl, .inl ⟨0, rfl⟩⟩
  case h_3 =>
    split_ifs at h
    cases h
    exact ⟨rfl, rfl, Nat.le_refl _, view_rebind _, rfl, rfl, rfl, .inl ⟨0, rfl⟩⟩

/-- The sections that do something. -/
inductive Acts (s : HttpState) : HttpOp → HttpEvent → HttpState → Prop
  | init {o : HttpOp} {e : HttpEvent} {s' : HttpState} (poolSize : ℕ)
    (h : s.init poolSize = .ok (s', e)) : Acts s o e s'
  | shutDown (ctx : ℕ) (active_contexts : List ℕ) :
    Acts s (.term ctx) (.returned 0) { s with active_contexts }.shutDown
  | createRequest {o : HttpOp} {e : HttpEvent} {s' : HttpState} (conn : ℕ) (rejected : Option (BitVec 32))
    (h : s.createRequest conn rejected = .ok (s', e)) : Acts s o e s'
  | deleteRequest {e : HttpEvent} {s' : HttpState} (req : ℕ)
    (h : s.deleteRequest req = .ok (s', e)) : Acts s (.deleteRequest req) e s'
  | sendRequest {o : HttpOp} {e : HttpEvent} {s' : HttpState} (req : ℕ)
    (h : s.sendRequest req = .ok (s', e)) : Acts s o e s'
  | complete {e : HttpEvent} {s' : HttpState} (req : ℕ) (local_res : HttpResponse)
    (worker_errno success_event_bits : BitVec 32)
    (h : s.complete req local_res worker_errno success_event_bits = some (s', e)) :
    Acts s (.complete req local_res worker_errno success_event_bits) e s'
  | abortRequest {e : HttpEvent} {s' : HttpState} (req : ℕ)
    (h : s.abortRequest req = .ok (s', e)) : Acts s (.abortRequest req) e s'
  | respond {o : HttpOp} {e : HttpEvent} {s' : HttpState} (getter : Getter) (req : ℕ)
    (hstate : (s.request req).state = .sent) (h : s.respond getter req = (s', e)) : Acts s o e s'
  | wait {o : HttpOp} (t : ℕ) (call : HttpCall) (hready : ¬ s.Ready call)
    (hheld : s.Valid → s.Held call) : Acts s o .waits (s.setThread t (some { call }))
  | wake {o : HttpOp} {e : HttpEvent} {s' : HttpState} (t : ℕ) (call : HttpCall) (notified : Bool)
    (hwait : s.threads t = some { call, notified }) (hready : s.Ready call ∨ call.timed = true)
    (h : (s.setThread t none).wake call = (s', e)) : Acts s o e s'
  | createEpoll {o : HttpOp} {e : HttpEvent} {s' : HttpState} (ctx : ℕ) (isNull : Bool)
    (h : s.createEpoll ctx isNull = .ok (s', e)) : Acts s o e s'
  | destroyEpoll {o : HttpOp} {e : HttpEvent} {s' : HttpState} (ctx : ℕ) (eh : BitVec 64)
    (h : s.destroyEpoll ctx eh = .ok (s', e)) : Acts s o e s'
  | abortWaitRequest {o : HttpOp} {e : HttpEvent} {s' : HttpState} (eh : BitVec 64)
    (h : s.abortWaitRequest eh = .ok (s', e)) : Acts s o e s'
  | drain {o : HttpOp} {e : HttpEvent} {s' : HttpState} (epoll n : ℕ) (h : s.drain epoll n = (s', e)) :
    Acts s o e s'

theorem step_cases (h : s.step o = some (s', e)) : s.Quiet e s' ∨ s.Acts o e s' := by
  cases o <;> dsimp only [step] at h
  case complete => exact .inr (.complete _ _ _ _ h)
  case look t timed_out =>
    obtain ⟨call, notified, hwait, -, ⟨hready, hwake⟩ | ⟨hready, rfl, rfl⟩⟩ := look_eq_some h
    · exact .inr (.wake t call notified hwait (hready.imp_right And.right) hwake)
    · exact .inr (.wait t call hready fun hs => hs.held hwait)
  case get t getter req isNull =>
    split_ifs at h
    rcases finish_eq_some h with ⟨rfl, ret, rfl⟩ | hok
    · exact .inl (.returned ret)
    · rcases get_eq_ok hok with ⟨hstate, hrespond⟩ | ⟨hstate, hshut, rfl, rfl⟩
      · exact .inr (.respond getter req hstate hrespond)
      · have hready : ¬ s.Ready (.response getter req) := by
          rintro (hne | hshut')
          · exact hne hstate
          · rw [hshut] at hshut'
            cases hshut'
        have hsent : (s.request req).state ≠ .created := by
          intro hcreated
          rw [hstate] at hcreated
          cases hcreated
        exact .inr (.wait t _ hready fun _ => hsent)
  case waitRequest =>
    split_ifs at h
    rcases finish_eq_some h with ⟨rfl, ret, rfl⟩ | hok
    · exact .inl (.returned ret)
    · obtain ⟨epoll, n, hdrain | ⟨rfl, rfl⟩ | ⟨hin, timed, hready, rfl, rfl⟩⟩ :=
        waitRequest_eq_ok hok
      · exact .inr (.drain epoll n hdrain)
      · exact .inl ⟨rfl, rfl, Nat.le_refl _, fun _ => rfl, rfl, rfl, rfl, .inr (.inl rfl)⟩
      · exact .inr (.wait _ _ hready fun _ => .inl hin)
  all_goals
    rcases finish_eq_some h with ⟨rfl, ret, rfl⟩ | hok
    · exact .inl (.returned ret)
  case init poolSize => exact .inr (.init poolSize hok)
  case createRequest conn rejected => exact .inr (.createRequest conn rejected hok)
  case deleteRequest req => exact .inr (.deleteRequest req hok)
  case sendRequest req => exact .inr (.sendRequest req hok)
  case abortRequest req => exact .inr (.abortRequest req hok)
  case createEpoll ctx isNull => exact .inr (.createEpoll ctx isNull hok)
  case destroyEpoll ctx eh => exact .inr (.destroyEpoll ctx eh hok)
  case abortWaitRequest eh => exact .inr (.abortWaitRequest eh hok)
  case term ctx =>
    unfold term at hok
    dsimp only at hok
    split_ifs at hok <;> cases hok
    · exact .inr (.shutDown _ _)
    · exact .inl ⟨rfl, rfl, Nat.le_refl _, fun _ => rfl, rfl, rfl, rfl, .inl ⟨0, rfl⟩⟩
  case createTemplate ctx =>
    unfold createTemplate at hok
    split_ifs at hok with hinited
    cases hok
    exact .inl ⟨rfl, rfl, Nat.le_succ _, fun _ => rfl, rfl, rfl, rfl,
      .inr (.inr ⟨_, rfl, hinited, Nat.le_refl _⟩)⟩
  case createConnection tmpl rejected =>
    unfold createConnection at hok
    split_ifs at hok with hinited
    split at hok
    case h_1 | h_2 => cases hok
    cases hok
    exact .inl ⟨rfl, rfl, Nat.le_succ _, fun _ => rfl, rfl, rfl, rfl,
      .inr (.inr ⟨_, rfl, hinited, Nat.le_refl _⟩)⟩
  case setEpoll id eh userArg =>
    unfold setEpoll at hok
    split at hok
    · cases hok
    · split at hok
      · cases hok
      · exact .inl (rebind_quiet hok)
  case setNonblock id isEnable =>
    unfold setNonblock at hok
    split at hok
    · cases hok
    · exact .inl (rebind_quiet hok)
  case unsetEpoll req =>
    unfold unsetEpoll at hok
    split_ifs at hok
    cases hok
    exact .inl ⟨rfl, rfl, Nat.le_refl _, view_rebind _, rfl, rfl, rfl, .inl ⟨0, rfl⟩⟩
  all_goals
    dsimp only [deleteTemplate, deleteConnection] at hok
    split_ifs at hok
    cases hok
    exact .inl ⟨rfl, rfl, Nat.le_refl _, fun _ => rfl, rfl, rfl, rfl, .inl ⟨0, rfl⟩⟩

theorem wake_requestStep (hs : s.Valid) {call : HttpCall} {notified : Bool}
    (hwait : s.threads t = some { call, notified }) (hready : s.Ready call ∨ call.timed = true)
    (h : (s.setThread t none).wake call = (s', e)) (id : ℕ) : RequestStep id o (s.view id) e (s'.view id) := by
  have hheld := hs.held hwait
  unfold wake at h
  cases call with
  | waitRequest epoll maxevents timed =>
    dsimp only at h
    split_ifs at h <;> cases h <;> exact .ofEq rfl (by simp)
  | response getter req =>
    dsimp only at h
    split_ifs at h with haborted
    · cases h
      exact .ofEq rfl (by simp)
    · -- A request that was sent and is neither being sent nor aborted has its response.
      have hstate : (s.request req).state = .sent := by
        rw [not_or] at haborted
        rcases hready with hready | htimed
        · have hnot := hready.resolve_right haborted.1
          cases hcase : (s.request req).state with
          | created => exact absurd hcase hheld
          | sending => exact absurd hcase hnot
          | sent => rfl
          | aborted => exact absurd hcase haborted.2
        · cases htimed
      exact respond_requestStep (s := s.setThread t none) hstate h id

theorem Quiet.requestStep (h : s.Quiet e s') (id : ℕ) : RequestStep id o (s.view id) e (s'.view id) := by
  apply RequestStep.ofEq (h.view id)
  rcases h.event with ⟨ret, rfl⟩ | rfl | ⟨n, rfl, -⟩ <;> simp

theorem step_requestStep (hs : s.Valid) (h : s.step o = some (s', e)) (id : ℕ) :
    RequestStep id o (s.view id) e (s'.view id) := by
  rcases step_cases h with hquiet | hacts
  · exact hquiet.requestStep id
  · cases hacts with
    | init poolSize h =>
      unfold init at h
      split_ifs at h
      cases h
      exact .ofEq rfl (by simp)
    | shutDown ctx active_contexts =>
      exact shutDown_requestStep (s := { s with active_contexts }) ctx 0 id
    | createRequest conn rejected h => exact createRequest_requestStep hs h id
    | deleteRequest req h => exact deleteRequest_requestStep h id
    | sendRequest req h => exact sendRequest_requestStep h id
    | complete req local_res worker_errno success_event_bits h => exact complete_requestStep hs h id
    | abortRequest req h => exact abortRequest_requestStep h id
    | respond getter req hstate h => exact respond_requestStep hstate h id
    | wait t call hready hheld => exact .ofEq rfl (by simp)
    | wake t call notified hwait hready h => exact wake_requestStep hs hwait hready h id
    | createEpoll ctx isNull h =>
      unfold createEpoll at h
      split_ifs at h
      cases h
      exact .ofEq rfl (by simp)
    | destroyEpoll ctx eh h =>
      unfold destroyEpoll at h
      dsimp only at h
      split_ifs at h
      cases h
      exact .ofEq rfl (by simp)
    | abortWaitRequest eh h =>
      unfold abortWaitRequest at h
      dsimp only at h
      split_ifs at h
      cases h
      exact .ofEq rfl (by simp)
    | drain epoll n h =>
      cases h
      exact .ofEq rfl (by simp)

end HttpState

end ShadPS4.Http
