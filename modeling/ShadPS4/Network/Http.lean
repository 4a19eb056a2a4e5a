import Mathlib.Tactic.Ring

/-!
# libSceHttp

Requests are sent by detached workers, one for each request that is sent, while threads ask for the response, abort
and delete requests, or wait for the events of an epoll.
-/

namespace ShadPS4.Http

open Function (update)

abbrev errorBeforeInit : BitVec 32 := 0x80431001

abbrev errorInvalidId : BitVec 32 := 0x80431100

abbrev errorInvalidValue : BitVec 32 := 0x804311fe

abbrev errorBeforeSend : BitVec 32 := 0x80431065

abbrev errorAfterSend : BitVec 32 := 0x80431066

abbrev errorNoContentLength : BitVec 32 := 0x80431071

abbrev errorAborted : BitVec 32 := 0x80431080

abbrev errorEagain : BitVec 32 := 0x80431082

abbrev errorEinval : BitVec 32 := 0x80020016

abbrev eventHup : BitVec 32 := 0x10

abbrev eventResolverErr : BitVec 32 := 0x20000

inductive HttpRequestState
  | created
  | sending
  | sent
  | aborted
deriving DecidableEq

/-- What a template, a connection and a request have in common: `settings.nonblock` and the epoll. -/
structure HttpBinding where
  nonblock : Bool := false
  /-- `epoll_id`, zero without an epoll -/
  epoll_id : ℕ := 0
  epoll_user_arg : BitVec 64 := 0

structure HttpResponse where
  status_code : BitVec 32 := 0
  content_length : BitVec 64 := 0
  content_length_result : BitVec 32 := errorNoContentLength
  body : List (BitVec 8) := []
  read_cursor : ℕ := 0
  all_headers_blob : List (BitVec 8) := []

/-- What a worker received, before anything is read. -/
def HttpResponse.unread (res : HttpResponse) : HttpResponse := { res with read_cursor := 0 }

structure HttpRequest where
  /-- `settings.nonblock` and the epoll -/
  binding : HttpBinding := {}
  state : HttpRequestState := .created
  deleted : Bool := false
  last_errno : BitVec 32 := 0
  res : HttpResponse := {}

structure HttpNBEvent where
  events : BitVec 32
  eventDetail : BitVec 32
  id : ℕ
  userArg : BitVec 64
deriving DecidableEq

structure Epoll where
  events : List HttpNBEvent := []
  destroyed : Bool := false
  abort_requested : Bool := false

/-- `DecodeEpollHandle`. A negative number is no id. -/
def decodeEpollHandle (eh : BitVec 64) : ℕ := (eh.setWidth 32).toNat

/-- The calls that ask for the response. -/
inductive Getter
  | readData (size : ℕ)
  | getAllResponseHeaders
  | getResponseContentLength
  | getStatusCode

/-- What a getter returns when `WaitForResponseReady` returns `EAGAIN`. -/
def Getter.again : Getter → BitVec 32
  | .getResponseContentLength => errorBeforeSend
  | _ => errorEagain

/-- A condition variable: that of a request or of an epoll. -/
inductive HttpCv
  | request (id : ℕ)
  | epoll (id : ℕ)
deriving DecidableEq

inductive HttpCall
  | response (getter : Getter) (req : ℕ)
  /-- a thread in `sceHttpWaitRequest`, with a time limit or without -/
  | waitRequest (epoll maxevents : ℕ) (timed : Bool)

def HttpCall.cv : HttpCall → HttpCv
  | .response _ req => .request req
  | .waitRequest epoll _ _ => .epoll epoll

/-- A call may give up its wait. -/
def HttpCall.timed : HttpCall → Bool
  | .response _ _ => false
  | .waitRequest _ _ timed => timed

structure HttpWait where
  call : HttpCall
  /-- it was notified after its last look at the predicate -/
  notified : Bool := false

/-- `HttpState`, with the workers and the threads. -/
structure HttpState where
  inited : Bool := false
  shutting_down : Bool := false
  next_ctx_id : ℕ := 0
  next_obj_id : ℕ := 0
  active_contexts : List ℕ := []
  templates : ℕ → Option HttpBinding := fun _ => none
  connections : ℕ → Option HttpBinding := fun _ => none
  requests : ℕ → Bool := fun _ => false
  request : ℕ → HttpRequest := fun _ => {}
  epolls : ℕ → Bool := fun _ => false
  epoll : ℕ → Epoll := fun _ => {}
  workers : ℕ → ℕ := fun _ => 0
  threads : ℕ → Option HttpWait := fun _ => none

/-- What a section does, and what its call returns. -/
inductive HttpEvent
  | returned (ret : BitVec 32)
  | context (id : ℕ)
  | created (id : ℕ)
  | sent (id : ℕ)
  | published (id : ℕ) (event : Option (ℕ × HttpNBEvent))
  | dropped (id : ℕ)
  | waits
  | data (id : ℕ) (bytes : List (BitVec 8))
  /-- `sceHttpGetAllResponseHeaders` returned `ORBIS_OK` -/
  | headers (id : ℕ) (header : List (BitVec 8))
  /-- `sceHttpGetResponseContentLength` returned `ORBIS_OK` -/
  | contentLength (id : ℕ) (result : BitVec 32) (content_length : BitVec 64)
  /-- `sceHttpGetStatusCode` returned `ORBIS_OK` -/
  | statusCode (id : ℕ) (status_code : BitVec 32)
  | events (nbev : List HttpNBEvent)
deriving DecidableEq

/-- A section of a call, a worker or a thread that waits. -/
inductive HttpOp
  | init (poolSize : ℕ)
  | term (ctx : ℕ)
  | createTemplate (ctx : ℕ)
  | deleteTemplate (tmpl : ℕ)
  | createConnection (tmpl : ℕ) (rejected : Option (BitVec 32))
  | deleteConnection (conn : ℕ)
  /-- `sceHttpCreateRequestWithURL`, where its variants end -/
  | createRequest (conn : ℕ) (rejected : Option (BitVec 32))
  | deleteRequest (req : ℕ)
  | sendRequest (req : ℕ)
  | complete (req : ℕ) (local_res : HttpResponse) (worker_errno success_event_bits : BitVec 32)
  | abortRequest (req : ℕ)
  /-- a thread asks for the response; an output pointer may be null -/
  | get (t : ℕ) (getter : Getter) (req : ℕ) (isNull : Bool)
  | createEpoll (ctx : ℕ) (isNull : Bool)
  | destroyEpoll (ctx : ℕ) (eh : BitVec 64)
  | setEpoll (id : ℕ) (eh userArg : BitVec 64)
  | unsetEpoll (req : ℕ)
  | setNonblock (id : ℕ) (isEnable : Bool)
  | abortWaitRequest (eh : BitVec 64)
  /-- `sceHttpWaitRequest` by a thread; the output pointer may be null -/
  | waitRequest (t : ℕ) (eh : BitVec 64) (isNull : Bool) (maxevents timeout : ℤ)
  /-- a thread that waits looks at its predicate, notified or not; its time may have run out -/
  | look (t : ℕ) (timed_out : Bool)

namespace HttpState

variable (s : HttpState)

/-- Notifies condition variables. -/
def notify (cvs : HttpCv → Bool) : HttpState :=
  { s with threads := fun t => (s.threads t).map fun wait =>
      { wait with notified := wait.notified || cvs wait.call.cv } }

def setRequest (id : ℕ) (req : HttpRequest) : HttpState :=
  { s with request := update s.request id req }

def setEpollObject (id : ℕ) (epoll : Epoll) : HttpState :=
  { s with epoll := update s.epoll id epoll }

def setThread (t : ℕ) (wait : Option HttpWait) : HttpState :=
  { s with threads := update s.threads t wait }

def init (poolSize : ℕ) : Except (BitVec 32) (HttpState × HttpEvent) :=
  if poolSize = 0 then .error errorEinval
  else
    let ctx_id := s.next_ctx_id + 1
    .ok ({ s with
      next_ctx_id := ctx_id
      active_contexts := ctx_id :: s.active_contexts
      inited := true
      shutting_down := false }, .context ctx_id)

/-- The end of `sceHttpTerm` for the last context. -/
def shutDown : HttpState :=
  HttpState.notify
    { s with
      shutting_down := true
      request := fun id =>
        if s.requests id then { s.request id with deleted := true, state := .aborted }
        else s.request id
      epoll := fun id => if s.epolls id then { s.epoll id with destroyed := true } else s.epoll id
      requests := fun _ => false
      connections := fun _ => none
      templates := fun _ => none
      epolls := fun _ => false
      inited := false }
    fun cv =>
      match cv with
      | .request id => s.requests id
      | .epoll id => s.epolls id

def term (ctx : ℕ) : Except (BitVec 32) (HttpState × HttpEvent) :=
  if ¬ s.inited then .error errorBeforeInit
  else if ctx ∉ s.active_contexts then .error errorInvalidId
  else
    let s := { s with active_contexts := s.active_contexts.filter (· ≠ ctx) }
    .ok (if s.active_contexts = [] then s.shutDown else s, .returned 0)

def createTemplate (ctx : ℕ) : Except (BitVec 32) (HttpState × HttpEvent) :=
  if ¬ s.inited then .error errorBeforeInit
  else if ctx ∉ s.active_contexts then .error errorInvalidId
  else
    let tmpl_id := s.next_obj_id + 1
    .ok ({ s with
      next_obj_id := tmpl_id
      templates := update s.templates tmpl_id (some {}) }, .created tmpl_id)

def deleteTemplate (tmpl : ℕ) : Except (BitVec 32) (HttpState × HttpEvent) :=
  if ¬ s.inited then .error errorBeforeInit
  else if s.templates tmpl = none then .error errorInvalidId
  else .ok ({ s with templates := update s.templates tmpl none }, .returned 0)

def createConnection (tmpl : ℕ) (rejected : Option (BitVec 32)) : Except (BitVec 32) (HttpState × HttpEvent) :=
  if ¬ s.inited then .error errorBeforeInit
  else
    match s.templates tmpl, rejected with
    | none, _ => .error errorInvalidId
    | some _, some ret => .error ret
    | some binding, none =>
      let conn_id := s.next_obj_id + 1
      .ok ({ s with
        next_obj_id := conn_id
        connections := update s.connections conn_id (some binding) }, .created conn_id)

def deleteConnection (conn : ℕ) : Except (BitVec 32) (HttpState × HttpEvent) :=
  if ¬ s.inited then .error errorBeforeInit
  else if s.connections conn = none then .error errorInvalidId
  else .ok ({ s with connections := update s.connections conn none }, .returned 0)

/-- `sceHttpCreateRequestWithURL`. -/
def createRequest (conn : ℕ) (rejected : Option (BitVec 32)) : Except (BitVec 32) (HttpState × HttpEvent) :=
  if ¬ s.inited then .error errorBeforeInit
  else
    match s.connections conn, rejected with
    | none, _ => .error errorInvalidId
    | some _, some ret => .error ret
    | some binding, none =>
      let req_id := s.next_obj_id + 1
      .ok ({ s.setRequest req_id { binding } with
        next_obj_id := req_id
        requests := update s.requests req_id true }, .created req_id)

def deleteRequest (req : ℕ) : Except (BitVec 32) (HttpState × HttpEvent) :=
  if ¬ s.inited then .error errorBeforeInit
  else if ¬ s.requests req then .error errorInvalidId
  else
    .ok ({ (s.setRequest req { s.request req with deleted := true, state := .aborted }).notify
        (· = .request req) with
      requests := update s.requests req false }, .returned 0)

/-- `sceHttpSendRequest`. The worker that it starts owns the request too. -/
def sendRequest (req : ℕ) : Except (BitVec 32) (HttpState × HttpEvent) :=
  if ¬ s.inited then .error errorBeforeInit
  else if ¬ s.requests req then .error errorInvalidId
  else
    match (s.request req).state with
    | .sending | .sent => .error errorAfterSend
    | .aborted => .error errorAborted
    | .created =>
      .ok ({ s.setRequest req { s.request req with state := .sending } with
        workers := update s.workers req (s.workers req + 1) }, .sent req)

def abortRequest (req : ℕ) : Except (BitVec 32) (HttpState × HttpEvent) :=
  if ¬ s.inited then .error errorBeforeInit
  else if ¬ s.requests req then .error errorInvalidId
  else if (s.request req).state = .created ∨ (s.request req).state = .sending then
    .ok ((s.setRequest req { s.request req with state := .aborted }).notify (· = .request req),
      .returned 0)
  else .ok (s, .returned 0)

def completionEvent (req : ℕ) (worker_errno success_event_bits : BitVec 32) : Option (ℕ × HttpNBEvent) :=
  let binding := (s.request req).binding
  if binding.epoll_id ≠ 0 ∧ s.epolls binding.epoll_id ∧ ¬ (s.epoll binding.epoll_id).destroyed then
    let event_bits :=
      if worker_errno = 0 then success_event_bits else eventResolverErr ||| eventHup
    some (binding.epoll_id,
      { events := event_bits, eventDetail := event_bits, id := req, userArg := binding.epoll_user_arg })
  else none

def pushEvent : Option (ℕ × HttpNBEvent) → HttpState
  | none => s
  | some (id, ev) =>
    (s.setEpollObject id { s.epoll id with events := (s.epoll id).events ++ [ev] }).notify
      (· = .epoll id)

def complete (req : ℕ) (local_res : HttpResponse) (worker_errno success_event_bits : BitVec 32) :
    Option (HttpState × HttpEvent) :=
  if s.workers req = 0 then none
  else
    let s := { s with workers := update s.workers req (s.workers req - 1) }
    if s.shutting_down ∨ (s.request req).deleted ∨ (s.request req).state = .aborted then
      some (s.notify (· = .request req), .dropped req)
    else
      let event := s.completionEvent req worker_errno success_event_bits
      some (((s.setRequest req { s.request req with
          res := local_res.unread, state := .sent, last_errno := worker_errno }).notify
            (· = .request req)).pushEvent event, .published req event)

def respond (getter : Getter) (req : ℕ) : HttpState × HttpEvent :=
  let res := (s.request req).res
  match getter with
  | .readData size =>
    let to_copy := min size (res.body.length - res.read_cursor)
    (s.setRequest req { s.request req with
        res := { res with read_cursor := res.read_cursor + to_copy } },
      .data req ((res.body.drop res.read_cursor).take to_copy))
  | .getAllResponseHeaders => (s, .headers req res.all_headers_blob)
  | .getResponseContentLength =>
    (s, .contentLength req res.content_length_result res.content_length)
  | .getStatusCode =>
    if res.status_code = 0 ∧ (s.request req).last_errno ≠ 0 then (s, .returned errorBeforeSend)
    else (s, .statusCode req res.status_code)

/-- A getter of a thread, up to the wait of `WaitForResponseReady`. -/
def get (t : ℕ) (getter : Getter) (req : ℕ) (isNull : Bool) : Except (BitVec 32) (HttpState × HttpEvent) :=
  if ¬ s.inited then .error errorBeforeInit
  else if isNull then .error errorInvalidValue
  else if ¬ s.requests req then .error errorInvalidId
  else
    match (s.request req).state with
    | .aborted => .error errorAborted
    | .created => .error errorBeforeSend
    | .sent => .ok (s.respond getter req)
    | .sending =>
      if (s.request req).binding.nonblock then .error getter.again
      -- `wait` looks at its predicate first.
      else if s.shutting_down then .error errorAborted
      else .ok (s.setThread t (some { call := .response getter req }), .waits)

/-- The request still has an owner: its entry in the table or a worker. -/
def Owned (id : ℕ) : Prop := s.requests id = true ∨ 0 < s.workers id

instance (id : ℕ) : Decidable (s.Owned id) := inferInstanceAs (Decidable (_ ∨ _))

def Ready : HttpCall → Prop
  | .response _ req => (s.request req).state ≠ .sending ∨ s.shutting_down = true
  | .waitRequest epoll _ _ =>
    (s.epoll epoll).events ≠ [] ∨ (s.epoll epoll).destroyed = true ∨
      (s.epoll epoll).abort_requested = true ∨ s.shutting_down = true

instance (call : HttpCall) : Decidable (s.Ready call) :=
  match call with
  | .response _ _ => inferInstanceAs (Decidable (_ ∨ _))
  | .waitRequest _ _ _ => inferInstanceAs (Decidable (_ ∨ _ ∨ _ ∨ _))

/-- `drain_into_output`. -/
def drain (epoll maxevents : ℕ) : HttpState × HttpEvent :=
  (s.setEpollObject epoll
      { s.epoll epoll with events := (s.epoll epoll).events.drop maxevents },
    .events ((s.epoll epoll).events.take maxevents))

def wake : HttpCall → HttpState × HttpEvent
  | .response getter req =>
    if s.shutting_down ∨ (s.request req).state = .aborted then (s, .returned errorAborted)
    else s.respond getter req
  | .waitRequest epoll maxevents _ =>
    if (s.epoll epoll).abort_requested then (s, .returned errorAborted) else s.drain epoll maxevents

/-- The look refers to an object that exists. `sceHttpWaitRequest` owns its epoll. -/
def Alive : HttpCall → Prop
  | .response _ req => s.Owned req
  | .waitRequest _ _ _ => True

instance (call : HttpCall) : Decidable (s.Alive call) :=
  match call with
  | .response _ _ => inferInstanceAs (Decidable (Owned _ _))
  | .waitRequest _ _ _ => inferInstanceAs (Decidable True)

/-- A thread that waits looks at its predicate. -/
def look (t : ℕ) (timed_out : Bool) : Option (HttpState × HttpEvent) :=
  match s.threads t with
  | none => none
  | some { call, .. } =>
    if ¬ s.Alive call then none
    else if s.Ready call ∨ (timed_out ∧ call.timed) then some ((s.setThread t none).wake call)
    else some (s.setThread t (some { call }), .waits)

def createEpoll (ctx : ℕ) (isNull : Bool) : Except (BitVec 32) (HttpState × HttpEvent) :=
  if ¬ s.inited then .error errorBeforeInit
  else if ctx ∉ s.active_contexts then .error errorInvalidId
  else if isNull then .error errorInvalidValue
  else
    let epoll_id := s.next_obj_id + 1
    .ok ({ s.setEpollObject epoll_id {} with
      next_obj_id := epoll_id
      epolls := update s.epolls epoll_id true }, .created epoll_id)

def destroyEpoll (ctx : ℕ) (eh : BitVec 64) : Except (BitVec 32) (HttpState × HttpEvent) :=
  if ¬ s.inited then .error errorBeforeInit
  else if ctx ∉ s.active_contexts then .error errorInvalidId
  else if eh = 0 then .error errorInvalidValue
  else
    let epoll_id := decodeEpollHandle eh
    if ¬ s.epolls epoll_id then .error errorInvalidId
    else
      .ok ({ (s.setEpollObject epoll_id { s.epoll epoll_id with destroyed := true }).notify
          (· = .epoll epoll_id) with
        epolls := update s.epolls epoll_id false }, .returned 0)

/-- `ResolveSettings` and `ResolveEpollBinding`: a template, a connection or a request changes. -/
def rebind (id : ℕ) (change : HttpBinding → HttpBinding) : Except (BitVec 32) (HttpState × HttpEvent) :=
  match s.templates id, s.connections id with
  | some binding, _ =>
    .ok ({ s with templates := update s.templates id (some (change binding)) }, .returned 0)
  | none, some binding =>
    .ok ({ s with connections := update s.connections id (some (change binding)) },
      .returned 0)
  | none, none =>
    if s.requests id then
      .ok (s.setRequest id { s.request id with binding := change (s.request id).binding },
        .returned 0)
    else .error errorInvalidId

def setEpoll (id : ℕ) (eh userArg : BitVec 64) : Except (BitVec 32) (HttpState × HttpEvent) :=
  if ¬ s.inited then .error errorBeforeInit
  else if ¬ s.epolls (decodeEpollHandle eh) then .error errorInvalidId
  else s.rebind id fun binding =>
    { binding with epoll_id := decodeEpollHandle eh, epoll_user_arg := userArg }

def unsetEpoll (req : ℕ) : Except (BitVec 32) (HttpState × HttpEvent) :=
  if ¬ s.inited then .error errorBeforeInit
  else if ¬ s.requests req then .error errorInvalidId
  else
    .ok (s.setRequest req { s.request req with
      binding := { (s.request req).binding with epoll_id := 0, epoll_user_arg := 0 } }, .returned 0)

def setNonblock (id : ℕ) (isEnable : Bool) : Except (BitVec 32) (HttpState × HttpEvent) :=
  if ¬ s.inited then .error errorBeforeInit
  else s.rebind id fun binding => { binding with nonblock := isEnable }

def abortWaitRequest (eh : BitVec 64) : Except (BitVec 32) (HttpState × HttpEvent) :=
  if ¬ s.inited then .error errorBeforeInit
  else if eh = 0 then .error errorInvalidValue
  else
    let epoll_id := decodeEpollHandle eh
    if ¬ s.epolls epoll_id then .error errorInvalidId
    else
      .ok ((s.setEpollObject epoll_id { s.epoll epoll_id with abort_requested := true }).notify
        (· = .epoll epoll_id), .returned 0)

/-- `sceHttpWaitRequest`, up to its wait. -/
def waitRequest (t : ℕ) (eh : BitVec 64) (isNull : Bool) (maxevents timeout : ℤ) :
    Except (BitVec 32) (HttpState × HttpEvent) :=
  if ¬ s.inited then .error errorBeforeInit
  else if maxevents ≤ 0 ∨ eh = 0 ∨ isNull then .error errorInvalidValue
  else
    let epoll_id := decodeEpollHandle eh
    if ¬ s.epolls epoll_id then .error errorInvalidId
    else if (s.epoll epoll_id).abort_requested then .error errorAborted
    else if (s.epoll epoll_id).events ≠ [] then .ok (s.drain epoll_id maxevents.toNat)
    else if timeout = 0 then .ok (s, .events [])
    else if (s.epoll epoll_id).destroyed ∨ s.shutting_down then .ok (s, .events [])
    else
      .ok (s.setThread t (some { call := .waitRequest epoll_id maxevents.toNat (0 ≤ timeout) }),
        .waits)

/-- A call that fails changes nothing. -/
def finish : Except (BitVec 32) (HttpState × HttpEvent) → HttpState × HttpEvent
  | .error ret => (s, .returned ret)
  | .ok done => done

/-- A step. A thread that waits makes no call. -/
def step : HttpOp → Option (HttpState × HttpEvent)
  | .init poolSize => some (s.finish (s.init poolSize))
  | .term ctx => some (s.finish (s.term ctx))
  | .createTemplate ctx => some (s.finish (s.createTemplate ctx))
  | .deleteTemplate tmpl => some (s.finish (s.deleteTemplate tmpl))
  | .createConnection tmpl rejected => some (s.finish (s.createConnection tmpl rejected))
  | .deleteConnection conn => some (s.finish (s.deleteConnection conn))
  | .createRequest conn rejected => some (s.finish (s.createRequest conn rejected))
  | .deleteRequest req => some (s.finish (s.deleteRequest req))
  | .sendRequest req => some (s.finish (s.sendRequest req))
  | .complete req local_res worker_errno success_event_bits =>
    s.complete req local_res worker_errno success_event_bits
  | .abortRequest req => some (s.finish (s.abortRequest req))
  | .get t getter req isNull =>
    if (s.threads t).isSome then none else some (s.finish (s.get t getter req isNull))
  | .createEpoll ctx isNull => some (s.finish (s.createEpoll ctx isNull))
  | .destroyEpoll ctx eh => some (s.finish (s.destroyEpoll ctx eh))
  | .setEpoll id eh userArg => some (s.finish (s.setEpoll id eh userArg))
  | .unsetEpoll req => some (s.finish (s.unsetEpoll req))
  | .setNonblock id isEnable => some (s.finish (s.setNonblock id isEnable))
  | .abortWaitRequest eh => some (s.finish (s.abortWaitRequest eh))
  | .waitRequest t eh isNull maxevents timeout =>
    if (s.threads t).isSome then none
    else some (s.finish (s.waitRequest t eh isNull maxevents timeout))
  | .look t timed_out => s.look t timed_out

end HttpState

end ShadPS4.Http
