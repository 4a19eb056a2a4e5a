import ShadPS4.Lib.Transition
import ShadPS4.Network.HttpValid

/-!
# Requests over whole runs

What was seen of a request, and what its state has become: it is given to one worker at most, its response is
published once at most, and the bytes that were read are the start of its body.
-/

namespace ShadPS4.Http

open Function List

variable {id : ℕ} {v v' : HttpView}

inductive HttpRun (s : HttpState) : List HttpEvent → HttpState → Prop
  | nil : HttpRun s [] s
  | snoc {past : List HttpEvent} {s' s'' : HttpState} {o : HttpOp} {e : HttpEvent}
    (h : HttpRun s past s') (hs : s'.step o = some (s'', e)) : HttpRun s (past ++ [e]) s''

def HttpEvent.publishes (id : ℕ) : HttpEvent → Bool
  | .published req _ => req = id
  | _ => false

/-- What was seen of a request fits what it has become. -/
structure HttpView.Seen (id : ℕ) (past : List HttpEvent) (v : HttpView) : Prop where
  sent : past.count (.sent id) ≤ 1
  unsent : v.req.state = .created → past.count (.sent id) = 0
  published : past.countP (·.publishes id) ≤ 1
  unpublished : v.req.state = .created ∨ v.req.state = .sending →
    past.countP (·.publishes id) = 0 ∧ v.req.res = {}
  workers : v.workers ≤ past.count (.sent id)
  data : (past.filterMap (·.bytes id)).flatten = v.req.res.body.take v.req.res.read_cursor
  cursor : v.req.res.read_cursor ≤ v.req.res.body.length

theorem HttpEvent.unrelated {e : HttpEvent} (he : e.request ≠ some id) :
    e ≠ .sent id ∧ e.publishes id = false ∧ e.bytes id = none := by
  cases e <;> simp_all [publishes, bytes, HttpEvent.request]

theorem HttpEvent.quiet_of_responds {e : HttpEvent} (he : e.responds id) : e ≠ .sent id ∧ e.publishes id = false := by
  cases e <;> simp_all [publishes, responds]

theorem HttpView.Seen.skip (h : v.Seen id past) (hsent : e ≠ .sent id) (hpublishes : e.publishes id = false)
    (hbytes : e.bytes id = none) (hres : v'.req.res = v.req.res)
    (hstate : v'.req.state = v.req.state ∨ v'.req.state = .aborted)
    (hworkers : v'.workers ≤ v.workers) : v'.Seen id (past ++ [e]) := by
  have hcount : (past ++ [e]).count (.sent id) = past.count (.sent id) := by
    rw [count_append, count_singleton, if_neg (by simpa using hsent), Nat.add_zero]
  have hcountP : (past ++ [e]).countP (·.publishes id) = past.countP (·.publishes id) := by
    rw [countP_append, countP_singleton, hpublishes]
    rfl
  have hold : v'.req.state ≠ .aborted → v'.req.state = v.req.state := fun hne =>
    hstate.resolve_right hne
  constructor
  case sent => exact hcount ▸ h.sent
  case unsent =>
    intro hcreated
    rw [hcount]
    apply h.unsent
    rw [← hold (by rw [hcreated]; decide), hcreated]
  case published => exact hcountP ▸ h.published
  case unpublished =>
    intro hopen
    rw [hcountP, hres]
    apply h.unpublished
    rwa [← hold (by rcases hopen with h | h <;> rw [h] <;> decide)]
  case workers => exact hcount ▸ Nat.le_trans hworkers h.workers
  case data =>
    rw [filterMap_append, filterMap_cons_none hbytes, filterMap_nil, append_nil, hres]
    exact h.data
  case cursor => exact hres ▸ h.cursor

theorem RequestStep.seen {o : HttpOp} {past : List HttpEvent}
    {e : HttpEvent} (h : RequestStep id o v e v') (hv : v.Valid) (hseen : v.Seen id past) :
    v'.Seen id (past ++ [e]) := by
  cases h with
  | same _ _ he =>
    obtain ⟨hsent, hpublishes, hbytes⟩ := HttpEvent.unrelated he
    exact hseen.skip hsent hpublishes hbytes rfl (.inl rfl) (Nat.le_refl _)
  | create => exact hseen.skip (by simp) rfl rfl rfl (.inl rfl) (Nat.le_refl _)
  | send req workers hstate =>
    have hzero : past.count (.sent id) = 0 := hseen.unsent hstate
    have hone : (past ++ [HttpEvent.sent id]).count (.sent id) = 1 := by
      rw [count_append, count_singleton_self, hzero]
    have hcountP : (past ++ [HttpEvent.sent id]).countP (·.publishes id) = past.countP (·.publishes id) :=
      countP_append
    constructor
    case sent => exact Nat.le_of_eq hone
    case unsent => exact nofun
    case published => exact hcountP ▸ hseen.published
    case unpublished => exact fun _ => hcountP ▸ hseen.unpublished (.inl hstate)
    case workers =>
      have hworkers := hseen.workers
      dsimp only at hworkers ⊢
      omega
    case data =>
      rw [filterMap_append, filterMap_cons_none rfl, filterMap_nil, append_nil]
      exact hseen.data
    case cursor => exact hseen.cursor
  | abort req workers e he =>
    obtain ⟨hsent, hpublishes, hbytes⟩ := HttpEvent.unrelated he
    exact hseen.skip hsent hpublishes hbytes rfl (.inr rfl) (Nat.le_refl _)
  | delete req workers e he =>
    obtain ⟨hsent, hpublishes, hbytes⟩ := HttpEvent.unrelated he
    exact hseen.skip hsent hpublishes hbytes rfl (.inr rfl) (Nat.le_refl _)
  | drop req inTable workers res last_errno bits hstate =>
    exact hseen.skip (by simp) rfl rfl rfl (.inl rfl) (Nat.le_succ _)
  | publish req inTable workers res last_errno bits event hdeleted hstate =>
    have hsending : req.state = .sending :=
      (hv.working (Nat.succ_pos workers)).resolve_right hstate
    obtain ⟨hzero, hempty⟩ := hseen.unpublished (.inr hsending)
    have hdata : (past.filterMap (·.bytes id)).flatten = [] := by
      rw [hseen.data, hempty]
      rfl
    have hcount : (past ++ [HttpEvent.published id event]).count (.sent id) = past.count (.sent id) := by
      rw [count_append, count_singleton, if_neg (by simp), Nat.add_zero]
    have hone : (past ++ [HttpEvent.published id event]).countP (·.publishes id) = 1 := by
      have hyes : (HttpEvent.published id event).publishes id = true := decide_eq_true rfl
      rw [countP_append, hzero, countP_singleton, if_pos hyes]
    constructor
    case sent => exact hcount ▸ hseen.sent
    case unsent => exact nofun
    case published => exact Nat.le_of_eq hone
    case unpublished => rintro (h | h) <;> cases h
    case workers =>
      have hworkers := hseen.workers
      dsimp only at hworkers ⊢
      omega
    case data =>
      rw [filterMap_append, filterMap_cons_none rfl, filterMap_nil, append_nil, hdata]
      rfl
    case cursor => exact Nat.zero_le _
  | read req inTable workers n hstate hn =>
    generalize hbytes : (req.res.body.drop req.res.read_cursor).take n = bytes
    have hcount : (past ++ [HttpEvent.data id bytes]).count (.sent id) = past.count (.sent id) := by
      rw [count_append, count_singleton, if_neg (by simp), Nat.add_zero]
    have hcountP : (past ++ [HttpEvent.data id bytes]).countP (·.publishes id) =
        past.countP (·.publishes id) := countP_append
    have hcursor : req.res.read_cursor ≤ req.res.body.length := hseen.cursor
    constructor
    case sent => exact hcount ▸ hseen.sent
    case unsent => exact fun h => absurd (hstate.symm.trans h) (by decide)
    case published => exact hcountP ▸ hseen.published
    case unpublished =>
      rintro (h | h) <;> exact absurd (hstate.symm.trans h) (by decide)
    case workers => exact hcount ▸ hseen.workers
    case data =>
      have hread : HttpEvent.bytes id (.data id bytes) = some bytes := if_pos rfl
      rw [filterMap_append, filterMap_cons_some hread, filterMap_nil,
        flatten_append, hseen.data, flatten_singleton, ← hbytes, ← take_add]
    case cursor =>
      dsimp only
      omega
  | respond _ _ hstate he hbytes =>
    obtain ⟨hsent, hpublishes⟩ := HttpEvent.quiet_of_responds he
    exact hseen.skip hsent hpublishes hbytes rfl (.inl rfl) (Nat.le_refl _)

theorem RequestStep.aborted {o : HttpOp} {e : HttpEvent}
    (h : RequestStep id o v e v') (haborted : v.req.state = .aborted) :
    v'.req.state = .aborted ∧ e.publishes id = false := by
  cases h with
  | same _ _ he => exact ⟨haborted, (HttpEvent.unrelated he).2.1⟩
  | create => cases haborted
  | send req workers hstate => exact absurd (hstate.symm.trans haborted) (by decide)
  | abort req workers e he => exact ⟨rfl, (HttpEvent.unrelated he).2.1⟩
  | delete req workers e he => exact ⟨rfl, (HttpEvent.unrelated he).2.1⟩
  | drop => exact ⟨haborted, rfl⟩
  | publish req inTable workers res last_errno bits event hdeleted hstate =>
    exact absurd haborted hstate
  | read req inTable workers n hstate => exact ⟨haborted, rfl⟩
  | respond _ _ hstate he => exact ⟨haborted, (HttpEvent.quiet_of_responds he).2⟩

theorem RequestStep.response (h : RequestStep id o v e v') (hnot : e.publishes id = false) :
    v'.req.res.unread = v.req.res.unread ∧ (v'.req.state = .sent → v.req.state = .sent) := by
  cases h with
  | publish req inTable workers res last_errno bits event =>
    have hyes : (HttpEvent.published id event).publishes id = true := decide_eq_true rfl
    rw [hyes] at hnot
    cases hnot
  | same | create | read | respond | drop => exact ⟨rfl, fun h => h⟩
  | send | abort | delete => exact ⟨rfl, nofun⟩

theorem RequestStep.state (h : RequestStep id o v e v') (hv : v.Valid) :
    v'.req.state = v.req.state ∨ (v.req.state = .created ∧ v'.req.state = .sending) ∨
      (v.req.state = .sending ∧ v'.req.state = .sent) ∨ (v'.req.state = .aborted ∧
        (o = .abortRequest id ∨ o = .deleteRequest id ∨ ∃ ctx, o = .term ctx)) := by
  cases h with
  | same | create | read | respond | drop => exact .inl rfl
  | send req workers hstate => exact .inr (.inl ⟨hstate, rfl⟩)
  | publish req inTable workers res last_errno bits event hdeleted hstate =>
    have hsending : req.state = .sending :=
      (hv.working (Nat.succ_pos workers)).resolve_right hstate
    exact .inr (.inr (.inl ⟨hsending, rfl⟩))
  | abort req workers e he hstate ho => exact .inr (.inr (.inr ⟨rfl, .inl ho⟩))
  | delete req workers e he ho => exact .inr (.inr (.inr ⟨rfl, .inr ho⟩))

theorem RequestStep.responds (h : RequestStep id o v e v') (he : e.responds id) : v.req.state = .sent := by
  cases h with
  | same _ _ hnot => exact absurd he (by cases e <;> simp_all [HttpEvent.responds])
  | abort _ _ _ hnot => exact absurd he (by cases e <;> simp_all [HttpEvent.responds])
  | delete _ _ _ hnot => exact absurd he (by cases e <;> simp_all [HttpEvent.responds])
  | create | send | drop | publish => exact he.elim
  | read req inTable workers n hstate => exact hstate
  | respond _ _ hstate => exact hstate

namespace HttpRun

variable {s s' : HttpState} {past later : List HttpEvent}

theorem valid (h : HttpRun s past s') (hs : s.Valid) : s'.Valid := by
  induction h with
  | nil => exact hs
  | snoc _ hstep ih => exact ih.step hstep

theorem append (h : HttpRun s past s') (h' : HttpRun s' later s'') : HttpRun s (past ++ later) s'' := by
  induction h' with
  | nil =>
    rw [append_nil]
    exact h
  | snoc _ hstep ih =>
    rw [← append_assoc]
    exact .snoc ih hstep

theorem seen (h : HttpRun {} past s) (id : ℕ) : (s.view id).Seen id past := by
  induction h with
  | nil => exact ⟨Nat.zero_le _, fun _ => rfl, Nat.zero_le _, fun _ => ⟨rfl, rfl⟩, Nat.zero_le _, rfl,
      Nat.zero_le _⟩
  | snoc hrun hstep ih =>
    have hvalid := hrun.valid .initial
    exact (HttpState.step_requestStep hvalid hstep id).seen (hvalid.view id) ih

theorem aborted (h : HttpRun s later s') (hs : s.Valid) (haborted : (s.request id).state = .aborted) :
    (s'.request id).state = .aborted ∧ later.countP (·.publishes id) = 0 := by
  induction h with
  | nil => exact ⟨haborted, rfl⟩
  | snoc hrun hstep ih =>
    have hreq := HttpState.step_requestStep (hrun.valid hs) hstep id
    obtain ⟨hstate, hnot⟩ := hreq.aborted ih.1
    refine ⟨hstate, ?_⟩
    rw [countP_append, ih.2, countP_singleton, hnot]
    rfl

theorem response (h : HttpRun s later s') (hs : s.Valid) (hnot : later.countP (·.publishes id) = 0) :
    (s'.request id).res.unread = (s.request id).res.unread := by
  induction h with
  | nil => rfl
  | snoc hrun hstep ih =>
    have hreq := HttpState.step_requestStep (hrun.valid hs) hstep id
    rw [countP_append, Nat.add_eq_zero_iff] at hnot
    have hlast := countP_eq_zero.mp hnot.2 _ (mem_singleton_self _)
    calc _ = _ := (hreq.response (Bool.eq_false_iff.mpr hlast)).1
      _ = _ := ih hnot.1

end HttpRun

namespace HttpState

variable {s s' : HttpState} {o : HttpOp} {e : HttpEvent}

theorem step_published (hs : s.Valid)
    (h : s.step o = some (s', .published id event)) : ∃ local_res worker_errno success_event_bits,
      o = .complete id local_res worker_errno success_event_bits ∧
      (s.request id).state = .sending ∧ (s.request id).deleted = false ∧
      (s'.request id).state = .sent ∧ (s'.request id).res = local_res.unread ∧
      event = s.completionEvent id worker_errno success_event_bits := by
  have hreq := step_requestStep hs h id
  have hvalid := hs.view id
  have hafter : (s'.view id).req.res = (s'.request id).res ∧
      (s'.view id).req.state = (s'.request id).state := ⟨rfl, rfl⟩
  have hbefore : (s.view id).req.deleted = (s.request id).deleted ∧
      (s.view id).req.state = (s.request id).state := ⟨rfl, rfl⟩
  generalize s.view id = v at hreq hvalid hbefore
  generalize s'.view id = v' at hreq hafter
  cases hreq with
  | publish req inTable workers res last_errno bits _ hdeleted hstate ho =>
    have hsending : req.state = .sending :=
      (hvalid.working (Nat.succ_pos workers)).resolve_right hstate
    subst ho
    obtain ⟨-, ⟨-, -, he⟩ | ⟨-, -, he⟩⟩ := complete_eq_some h
    · cases he
    · obtain ⟨-, rfl⟩ := HttpEvent.published.inj he
      exact ⟨res, last_errno, bits, rfl, hbefore.2.symm.trans hsending,
        hbefore.1.symm.trans hdeleted, hafter.2.symm, hafter.1.symm, rfl⟩
  | same _ _ he => exact absurd rfl he
  | abort _ _ _ he => exact absurd rfl he
  | delete _ _ _ he => exact absurd rfl he
  | respond _ _ _ he => exact he.elim

theorem step_queue (hs : s.Valid) (h : s.step o = some (s', e)) (epoll : ℕ) :
    (∀ ev ∈ (s'.epoll epoll).events, ev ∈ (s.epoll epoll).events ∨ ∃ id, e = .published id (some (epoll, ev))) ∧
    ∀ id ev, e = .published id (some (epoll, ev)) → (s'.epoll epoll).events = (s.epoll epoll).events ++ [ev] := by
  have hepoll := step_epollStep hs h epoll
  unfold EpollStepped at hepoll
  generalize s.epoll epoll = before at hepoll ⊢
  generalize s.epolls epoll = inTable at hepoll
  generalize s'.epoll epoll = after at hepoll ⊢
  generalize s'.epolls epoll = inTable' at hepoll
  cases hepoll with
  | same _ _ _ he | destroy _ _ he | abort _ _ he =>
    refine ⟨fun ev hev => .inl hev, ?_⟩
    rintro id ev rfl
    exact absurd rfl (he ev)
  | create => exact ⟨fun ev hev => .inl hev, nofun⟩
  | push _ req ev =>
    constructor
    · intro ev' hev'
      rcases mem_append.mp hev' with hold | hnew
      · exact .inl hold
      · rw [mem_singleton.mp hnew]
        exact .inr ⟨req, rfl⟩
    · intro id ev' he
      cases he
      rfl
  | drain _ _ n _ he => exact ⟨fun ev hev => .inl (mem_of_mem_drop hev), fun id ev h =>
      absurd h (he id _)⟩

/-- What is promised of a request in a state that is reached, and of the threads. -/
structure Orderly (s : HttpState) (past : List HttpEvent) (id : ℕ) : Prop where
  worker : past.count (.sent id) ≤ 1 ∧ s.workers id ≤ past.count (.sent id)
  state : ∀ o s' e, s.step o = some (s', e) →
    (s'.request id).state = (s.request id).state ∨
    ((s.request id).state = .created ∧ (s'.request id).state = .sending) ∨
    ((s.request id).state = .sending ∧ (s'.request id).state = .sent) ∨
    ((s'.request id).state = .aborted ∧
      (o = .abortRequest id ∨ o = .deleteRequest id ∨ ∃ ctx, o = .term ctx))
  aborted : (s.request id).state = .aborted → ∀ later s', HttpRun s later s' →
    (s'.request id).state = .aborted ∧ later.countP (·.publishes id) = 0
  deleted : (s.request id).deleted = true → (s.request id).state = .aborted
  once : past.countP (·.publishes id) ≤ 1
  /-- the response, the state and the event of the epoll are published in one step, for a request that is
  being sent and was not deleted -/
  published : ∀ o s' event, s.step o = some (s', .published id event) →
    ∃ local_res worker_errno success_event_bits,
      o = .complete id local_res worker_errno success_event_bits ∧
      (s.request id).state = .sending ∧ (s.request id).deleted = false ∧
      (s'.request id).state = .sent ∧ (s'.request id).res = local_res.unread ∧
      event = s.completionEvent id worker_errno success_event_bits ∧
      ∀ epoll ev, event = some (epoll, ev) →
        ev.id = id ∧ (s'.epoll epoll).events = (s.epoll epoll).events ++ [ev]
  queue : ∀ o s' e epoll ev, s.step o = some (s', e) → ev ∈ (s'.epoll epoll).events → ev.id = id →
    ev ∈ (s.epoll epoll).events ∨ e = .published id (some (epoll, ev))
  response : ∀ o s' e, s.step o = some (s', e) → e.publishes id = false →
    (s'.request id).res.unread = (s.request id).res.unread ∧
      ((s'.request id).state = .sent → (s.request id).state = .sent)
  fixed : past.countP (·.publishes id) = 1 → ∀ later s', HttpRun s later s' →
    (s'.request id).res.unread = (s.request id).res.unread
  data : (past.filterMap (·.bytes id)).flatten =
    (s.request id).res.body.take (s.request id).res.read_cursor
  responds : ∀ o s' e, s.step o = some (s', e) → e.responds id → (s.request id).state = .sent
  awake : ∀ t wait, s.threads t = some wait → s.Ready wait.call → wait.notified = true

end HttpState

def HttpState.nextSeen (done : HttpState × List HttpEvent) (o : HttpOp) : Option (HttpState × List HttpEvent) :=
  (done.1.step o).map fun next => (next.1, done.2 ++ [next.2])

theorem HttpRun.ofList (h : HttpRun s past s') (os : List HttpOp)
    (hos : os.foldlM HttpState.nextSeen (s', past) = some (s'', past')) : HttpRun s past' s'' := by
  induction os generalizing s' past with
  | nil =>
    cases hos
    exact h
  | cons o os ih =>
    obtain ⟨done, hdone, hrest⟩ := Option.bind_eq_some_iff.mp hos
    obtain ⟨next, hnext, rfl⟩ := Option.map_eq_some_iff.mp hdone
    exact ih (.snoc h hnext) hrest

/-- A context, a template, a connection and a request, which is sent. -/
def sendOne : List HttpOp :=
  [.init 1, .createTemplate 1, .createConnection 1 none, .createRequest 2 none, .sendRequest 3]

def threeBytes : HttpResponse := { status_code := 200, body := [1, 2, 3] }

theorem RequestStep.owned
    (h : RequestStep id o v e v') (howned : v.inTable = true ∨ 0 < v.workers) : (v'.inTable = true ∨ 0 < v'.workers) ∨
      (v.inTable = true ∧ v.workers = 0 ∧ (o = .deleteRequest id ∨ ∃ ctx, o = .term ctx)) ∨
      (v.inTable = false ∧ v.workers = 1 ∧ ∃ res last_errno bits, o = .complete id res last_errno bits) := by
  cases h with
  | same | read | respond => exact .inl howned
  | create | send | abort => exact .inl (.inl rfl)
  | delete req workers e he ho =>
    cases workers with
    | zero => exact .inr (.inl ⟨rfl, rfl, ho⟩)
    | succ n => exact .inl (.inr (Nat.succ_pos n))
  | drop req inTable workers res last_errno bits hstate ho
  | publish req inTable workers res last_errno bits event hdeleted hstate ho =>
    cases inTable with
    | true => exact .inl (.inl rfl)
    | false =>
      cases workers with
      | zero => exact .inr (.inr ⟨rfl, rfl, res, last_errno, bits, ho⟩)
      | succ n => exact .inl (.inr (Nat.succ_pos n))

namespace HttpState

variable {s s' : HttpState} {o : HttpOp} {e : HttpEvent}

def next (s : HttpState) (o : HttpOp) : Option HttpState := (s.step o).map Prod.fst

def Steps (s : HttpState) (o : HttpOp) (s' : HttpState) : Prop := s.next o = some s'

/-- A section takes the last owner of a request: its entry is removed when its worker is done, or its worker
is done when its entry was removed. -/
def TakesLast (s : HttpState) (req : ℕ) : HttpOp → Prop
  | .deleteRequest id => id = req ∧ s.requests req = true ∧ s.workers req = 0
  | .term ctx =>
    (ctx ∈ s.active_contexts ∧ s.active_contexts.filter (· ≠ ctx) = []) ∧
      s.requests req = true ∧ s.workers req = 0
  | .complete id _ _ _ => id = req ∧ s.requests req = false ∧ s.workers req = 1
  | _ => False

/-- A request that some thread waits for keeps an owner. -/
def KeepsOwner (s : HttpState) (o : HttpOp) : Prop :=
  ∀ t getter req notified, s.threads t = some { call := .response getter req, notified } →
    ¬ s.TakesLast req o

theorem Owned.step (hs : s.Valid) {req : ℕ} (howned : s.Owned req) (h : s.step o = some (s', e))
    (hkeeps : ¬ s.TakesLast req o) : s'.Owned req := by
  rcases (step_requestStep hs h req).owned howned with howned' | ⟨hin, hzero, rfl | ⟨ctx, rfl⟩⟩ |
    ⟨hin, hone, res, last_errno, bits, rfl⟩
  · exact howned'
  · exact absurd ⟨rfl, hin, hzero⟩ hkeeps
  · -- Only the last `sceHttpTerm` removes a request.
    rcases finish_eq_some h with ⟨rfl, -⟩ | hok
    · exact howned
    · unfold term at hok
      dsimp only at hok
      split_ifs at hok with hinited hctx hlast <;> cases hok
      · exact absurd ⟨⟨hctx, hlast⟩, hin, hzero⟩ hkeeps
      · exact howned
  · exact absurd ⟨rfl, hin, hone⟩ hkeeps

/-- Every request that some thread waits for has an owner. -/
def WaitersOwn (s : HttpState) : Prop :=
  ∀ t getter req notified, s.threads t = some { call := .response getter req, notified } →
    s.Owned req

theorem WaitersOwn.step (hs : s.Valid) (hown : s.WaitersOwn) (h : s.step o = some (s', e))
    (hkeeps : s.KeepsOwner o) : s'.WaitersOwn := by
  have hcalls (t : ℕ) (getter : Getter) (req : ℕ) (wait : HttpWait) (hwait : s.threads t = some wait)
      (hcall : wait.call = .response getter req) : s'.Owned req := by
    obtain ⟨call, notified⟩ := wait
    obtain rfl : call = _ := hcall
    exact (hown t getter req notified hwait).step hs h (hkeeps t getter req notified hwait)
  intro t getter req notified hwait'
  rcases step_calls h with hsame | ⟨u, call, hready, hheld, rfl⟩
  · obtain ⟨wait, hwait, hcall⟩ := hsame t _ hwait'
    exact hcalls t getter req wait hwait hcall
  · by_cases ht : t = u
    · rw [ht, show (s.setThread u (some { call })).threads u = some { call } from
        update_self _ _ _] at hwait'
      cases hwait'
      -- A thread that starts to wait found its request being sent.
      have hsending : (s.request req).state = .sending := by
        by_contra hne
        exact hready (.inl hne)
      exact .inl ((hs.view req).sending hsending).1
    · rw [show (s.setThread u (some { call })).threads t = s.threads t from
        update_of_ne ht _ _] at hwait'
      exact hcalls t getter req _ hwait' rfl

end HttpState

/-- In every run in which the last owner of a request is not taken while a thread waits for it, a thread
waits for a request that exists. -/
theorem waitForResponseReady_owned {s : HttpState}
    (h : Run (· = {}) HttpState.Steps HttpState.KeepsOwner s) (t req : ℕ) (getter : Getter)
    (notified : Bool) (hwait : s.threads t = some { call := .response getter req, notified }) :
    s.Owned req := by
  have hinvariant : s.Valid ∧ s.WaitersOwn := by
    apply h.invariant
    · rintro s rfl
      exact ⟨.initial, nofun⟩
    · rintro s o s' ⟨hs, hown⟩ hkeeps hstep
      obtain ⟨⟨next, e⟩, hnext, rfl⟩ := Option.map_eq_some_iff.mp hstep
      exact ⟨hs.step hnext, hown.step hs hnext hkeeps⟩
  exact hinvariant.2 t getter req notified hwait

/-- A section that takes no owner of a request without leaving one in the table. -/
def HttpState.leavesEntry (s : HttpState) : HttpOp → Bool
  | .deleteRequest _ | .term _ => false
  | .complete id _ _ _ => s.requests id
  | _ => true

theorem waitForResponseReady_owned_sample : ∃ s : HttpState,
    s.threads 0 = some { call := .response .getStatusCode 3, notified := true } ∧ s.Owned 3 := by
  have hstart : Run (· = {}) HttpState.Steps HttpState.KeepsOwner {} := .start rfl
  have hmeets (s : HttpState) (o : HttpOp) (ho : s.leavesEntry o = true) : s.KeepsOwner o := by
    rintro t getter req notified - htakes
    cases o <;> try exact htakes
    case deleteRequest | term => cases ho
    case complete id _ _ _ =>
      obtain ⟨rfl, hno, -⟩ := htakes
      rw [show s.requests id = true from ho] at hno
      cases hno
  have hrun := Run.ofGuarded hmeets
    (sendOne ++ [.get 0 .getStatusCode 3 false, .complete 3 threeBytes 0 1]) hstart rfl
  exact ⟨_, rfl, waitForResponseReady_owned hrun 0 3 _ _ rfl⟩

/-- A thread waits for the response, the request is deleted, and its worker is done before the thread looks
again: the request is destroyed. -/
theorem waitForResponseReady_destroyed : ∃ s : HttpState, Run (· = {}) HttpState.Steps (fun _ _ => True) s ∧
    s.threads 0 = some { call := .response (.readData 2) 3, notified := true } ∧ ¬ s.Owned 3 := by
  have hstart : Run (· = {}) HttpState.Steps (fun _ _ => True) {} := .start rfl
  have hrun := Run.ofList (sendOne ++
    [.get 0 (.readData 2) 3 false, .deleteRequest 3, .complete 3 threeBytes 0 1]) hstart rfl
  exact ⟨_, hrun, rfl, by decide⟩

end ShadPS4.Http
