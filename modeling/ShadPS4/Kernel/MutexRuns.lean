import ShadPS4.Kernel.Condvar

/-!
# Runs of the mutexes

The owner of a mutex is the thread that has `m_lock`, except for the moments between the two; `m_count`
is the number of its recursions, also over a wait on a condition variable; and the type of a mutex does
not change.
-/

namespace ShadPS4.Kernel

open Function
open Option (some.inj)

variable {st st' : PthreadState} {t m : ℕ}

theorem elim_cases {α β : Type} {P : β → Prop} {b : β} {f : α → β} (o : Option α) (hnone : P b)
    (hsome : ∀ a, P (f a)) : P (o.elim b f) := by
  cases o with
  | none => exact hnone
  | some a => exact hsome a

theorem flags_set : (flags ||| deferredFlag) &&& typeMask = flags &&& typeMask := by
  have hflag : deferredFlag &&& typeMask = 0 := by decide
  rw [BitVec.and_or_distrib_right, hflag]
  exact BitVec.or_zero

theorem flags_clear : (flags &&& ~~~deferredFlag) &&& typeMask = flags &&& typeMask := by
  have hflag : ~~~deferredFlag &&& typeMask = typeMask := by decide
  rw [BitVec.and_assoc, hflag]

/-! ## What a thread does with a mutex -/

/-- What the place of a thread says about a mutex. -/
structure MutexView where
  window : Bool := false
  /-- it waits on a condition variable, with so many recursions of the mutex to come back to -/
  saved : Option ℤ := none
  /-- it is about to give it back for a wait -/
  starts : Bool := false

/-- The recursions of a mutex that a wait comes back to. -/
def WaitCall.saved (m : ℕ) (call : WaitCall) : Option ℤ :=
  if call.mp = m then some call.recurse else none

def LockKind.call : LockKind → Option WaitCall
  | .cv call => some call
  | _ => none

/-- The wait that a thread is in, after `CvUnlock`. -/
def PthreadPc.waiting : PthreadPc → Option WaitCall
  | .lockLoad _ kind => kind.call
  | .lockSpin _ kind _ => kind.call
  | .lockBlock _ kind => kind.call
  | .lockStore _ kind => kind.call
  | .unlockRelease _ _ call => call
  | .unlockWake _ call => call
  | .waitAdd call => some call
  | .waitClear call => some call
  | .waitCheck call => some call
  | .sleep call => some call
  | .asleep call => some call
  | .waitLoop call => some call
  | _ => none

/-- What the place of a thread says about a mutex. -/
def PthreadPc.view (m : ℕ) (pc : PthreadPc) : MutexView where
  window := match pc with
    | .lockStore m' _ => m' = m
    | .unlockRelease m' _ _ => m' = m
    | _ => false
  saved := pc.waiting.bind fun call => call.saved m
  starts := match pc with
    | .waitLock call => call.mp = m
    | _ => false

/-- A thread, a mutex, and how often the thread has locked it and not unlocked it. -/
structure MutexRel (mutex : PthreadMutex) (t : ℕ) (view : MutexView) (depth : ℤ) : Prop where
  lock : mutex.m_lock = some t ↔ mutex.m_owner = some t ∨ view.window = true
  window : view.window = true → mutex.m_owner = none
  saved : view.saved ≠ none → mutex.m_owner ≠ some t
  starts : view.starts = true → mutex.m_owner = some t
  depth_eq : depth =
    if mutex.m_owner = some t then mutex.m_count + 1 else view.saved.elim 0 (· + 1)

structure PthreadMutex.Kept (type : BitVec 32) (mutex : PthreadMutex) : Prop where
  type_eq : mutex.type = type
  free : mutex.m_owner = none → mutex.m_count = 0
  nonneg : 0 ≤ mutex.m_count
  lt : mutex.m_count < 2^31
  recursive : type ≠ mutexRecursive → mutex.m_count = 0

/-- The recursions that a wait comes back to are those of the mutex. -/
structure WaitCall.Kept (type : ℕ → BitVec 32) (call : WaitCall) : Prop where
  nonneg : 0 ≤ call.recurse
  lt : call.recurse < 2^31
  recursive : type call.mp ≠ mutexRecursive → call.recurse = 0

/-- A wait takes its own mutex. -/
def PthreadPc.Fits : PthreadPc → Prop
  | .lockLoad m kind => ∀ call, kind.call = some call → call.mp = m
  | .lockSpin m kind _ => ∀ call, kind.call = some call → call.mp = m
  | .lockBlock m kind => ∀ call, kind.call = some call → call.mp = m
  | .lockStore m kind => ∀ call, kind.call = some call → call.mp = m
  | _ => True

/-- What holds of mutexes, of the places of the threads, and of the depths. -/
structure MutexesKept (type : ℕ → BitVec 32) (mutexes : ℕ → PthreadMutex) (pcs : ℕ → PthreadPc)
    (depth : ℕ → ℕ → ℤ) : Prop where
  mutex : ∀ m, (mutexes m).Kept (type m)
  call : ∀ t call, (pcs t).waiting = some call → call.Kept type
  fits : ∀ t, (pcs t).Fits
  rel : ∀ t m, MutexRel (mutexes m) t ((pcs t).view m) (depth t m)

def PthreadState.pcs (st : PthreadState) (t : ℕ) : PthreadPc := (st.threads t).pc

/-- What holds between the steps. -/
def PthreadState.Owned (type : ℕ → BitVec 32) (st : PthreadState) : Prop :=
  MutexesKept type st.mutexes st.pcs st.depth

variable {type : ℕ → BitVec 32} {mutexes : ℕ → PthreadMutex} {pcs : ℕ → PthreadPc}
  {depth : ℕ → ℕ → ℤ}

theorem MutexRel.other
    (h : MutexRel mutex u view d) (hu : u ≠ t) (hlock : mutex.m_lock = none ∨ mutex.m_lock = some t)
    (hlock' : mutex'.m_lock = none ∨ mutex'.m_lock = some t)
    (howner' : mutex'.m_owner = none ∨ mutex'.m_owner = some t) : MutexRel mutex' u view d := by
  have hnot : ∀ {o : Option ℕ}, o = none ∨ o = some t → o ≠ some u := by
    rintro o (rfl | rfl)
    · simp
    · simpa using hu.symm
  obtain ⟨howner, hwindow⟩ := not_or.mp (mt h.lock.mpr (hnot hlock))
  refine ⟨iff_of_false (hnot hlock') (not_or.mpr ⟨hnot howner', hwindow⟩), fun hw => absurd hw hwindow,
    fun _ => hnot howner', fun hs => absurd (h.starts hs) howner, ?_⟩
  have hdepth := h.depth_eq
  rw [if_neg howner] at hdepth
  rw [if_neg (hnot howner')]
  exact hdepth

theorem MutexesKept.update (h : MutexesKept type mutexes pcs depth) (t m : ℕ)
    {mutex : PthreadMutex} {pc : PthreadPc} {d : ℤ} (hlock : (mutexes m).m_lock = none ∨ (mutexes m).m_lock = some t)
    (hlock' : mutex.m_lock = none ∨ mutex.m_lock = some t) (howner' : mutex.m_owner = none ∨ mutex.m_owner = some t)
    (hmutex : mutex.Kept (type m)) (hcall : ∀ call, pc.waiting = some call → call.Kept type)
    (hfits : pc.Fits) (hview : ∀ q ≠ m, pc.view q = (pcs t).view q) (hrel : MutexRel mutex t (pc.view m) d) :
    MutexesKept type (Function.update mutexes m mutex) (Function.update pcs t pc)
      (Function.update depth t (Function.update (depth t) m d)) := by
  constructor
  case mutex =>
    intro q
    rcases eq_or_ne q m with rfl | hq
    · rw [update_self]
      exact hmutex
    · rw [update_of_ne hq]
      exact h.mutex q
  case call =>
    intro u call hu
    rcases eq_or_ne u t with rfl | hne
    · rw [update_self] at hu
      exact hcall call hu
    · rw [update_of_ne hne] at hu
      exact h.call u call hu
  case fits =>
    intro u
    rcases eq_or_ne u t with rfl | hne
    · rw [update_self]
      exact hfits
    · rw [update_of_ne hne]
      exact h.fits u
  case rel =>
    intro u q
    rcases eq_or_ne u t with rfl | hu <;> rcases eq_or_ne q m with rfl | hq
    · simp only [update_self]
      exact hrel
    · simp only [update_self, update_of_ne hq]
      rw [hview q hq]
      exact h.rel u q
    · simp only [update_self, update_of_ne hu]
      exact (h.rel u q).other hu hlock hlock' howner'
    · simp only [update_of_ne hu, update_of_ne hq]
      exact h.rel u q

theorem MutexesKept.move (h : MutexesKept type mutexes pcs depth)
    (hcall : ∀ call, pc.waiting = some call → call.Kept type) (hfits : pc.Fits)
    (hview : ∀ q, pc.view q = (pcs t).view q) : MutexesKept type mutexes (Function.update pcs t pc) depth := by
  constructor
  case mutex => exact h.mutex
  case call =>
    intro u call hu
    rcases eq_or_ne u t with rfl | hne
    · rw [update_self] at hu
      exact hcall call hu
    · rw [update_of_ne hne] at hu
      exact h.call u call hu
  case fits =>
    intro u
    rcases eq_or_ne u t with rfl | hne
    · rw [update_self]
      exact hfits
    · rw [update_of_ne hne]
      exact h.fits u
  case rel =>
    intro u q
    rcases eq_or_ne u t with rfl | hne
    · rw [update_self, hview q]
      exact h.rel u q
    · rw [update_of_ne hne]
      exact h.rel u q

theorem MutexesKept.setFlags (h : MutexesKept type mutexes pcs depth) (m : ℕ) :
    MutexesKept type (Function.update mutexes m
      { mutexes m with m_flags := (mutexes m).m_flags ||| deferredFlag }) pcs depth := by
  constructor
  case mutex =>
    intro q
    rcases eq_or_ne q m with rfl | hq
    · rw [update_self]
      obtain ⟨htype, hfree, hnonneg, hlt, hrec⟩ := h.mutex q
      exact ⟨flags_set.trans htype, hfree, hnonneg, hlt, hrec⟩
    · rw [update_of_ne hq]
      exact h.mutex q
  case call => exact h.call
  case fits => exact h.fits
  case rel =>
    intro u q
    rcases eq_or_ne q m with rfl | hq
    · rw [update_self]
      obtain ⟨hlock, hwindow, hsaved, hstarts, hdepth⟩ := h.rel u q
      exact ⟨hlock, hwindow, hsaved, hstarts, hdepth⟩
    · rw [update_of_ne hq]
      exact h.rel u q

namespace PthreadState

@[simp]
theorem pcs_setThread : (st.setThread t thread).pcs = update st.pcs t thread.pc := by
  funext u
  unfold pcs setThread
  rcases eq_or_ne u t with rfl | hu
  · simp
  · simp [hu]

@[simp]
theorem pcs_moveTo : (st.moveTo t pc).pcs = update st.pcs t pc :=
  pcs_setThread

@[simp]
theorem pcs_ret : (st.ret t result).pcs = update st.pcs t .idle :=
  pcs_setThread

@[simp]
theorem pcs_leave : (st.leave t).pcs = update st.pcs t .idle :=
  pcs_setThread

@[simp]
theorem pcs_setMutex : (st.setMutex m mutex).pcs = st.pcs := rfl

@[simp]
theorem pcs_wakeAll : (st.wakeAll t).pcs = st.pcs := by
  unfold wakeAll
  rw [pcs_setThread]
  exact update_eq_self t st.pcs

@[simp]
theorem pcs_sleepqAdd : (st.sleepqAdd c td).pcs = st.pcs := by
  unfold sleepqAdd
  rw [pcs_setThread]
  exact update_eq_self td st.pcs

@[simp]
theorem pcs_sleepqRemove : (st.sleepqRemove c td).pcs = st.pcs := by
  unfold sleepqRemove
  rw [pcs_setThread]
  exact update_eq_self td st.pcs

@[simp]
theorem setMutex_self : (st.setMutex m mutex).mutexes m = mutex := by
  exact update_self _ _ _

@[simp]
theorem setMutex_setMutex : (st.setMutex m mutex).setMutex m mutex' = st.setMutex m mutex' :=
  congrArg (fun mutexes => { st with mutexes }) (update_idem mutex mutex' st.mutexes)

@[simp]
theorem pcs_defer : (st.defer t td m).pcs = st.pcs := by
  have hpcs : ∀ st' : PthreadState, st'.pcs = st.pcs → ((st'.setThread t { st'.threads t with
      defer_waiters := (st'.threads t).defer_waiters ++ [td] })).pcs = st.pcs := by
    intro st' hst'
    rw [← hst', pcs_setThread]
    exact update_eq_self t st'.pcs
  unfold defer
  split_ifs
  · exact hpcs _ pcs_wakeAll
  · exact hpcs _ rfl

theorem addDepth_zero : (st.addDepth t m 0).depth = st.depth := by
  unfold addDepth
  rw [Int.add_zero, update_eq_self, update_eq_self]

@[simp]
theorem pcs_waitReturn {call : WaitCall} : (st.waitReturn t call).pcs = update st.pcs t .idle := by
  unfold waitReturn
  split_ifs <;> simp

theorem waitReturn_mutexes (st : PthreadState) (t : ℕ) (call : WaitCall) :
    (st.waitReturn t call).mutexes = st.mutexes ∧ (st.waitReturn t call).depth = st.depth := by
  unfold waitReturn
  split_ifs <;> exact ⟨rfl, rfl⟩

end PthreadState

/-! ## Steps -/

theorem PthreadMutex.recur_cases (mutex : PthreadMutex) :
    mutex.recur = .ret .eagain ∨ (mutex.recur = .count ∧ 0 < s32 (mutex.m_count + 1)) := by
  unfold PthreadMutex.recur
  split_ifs with hcount
  · exact .inr ⟨rfl, hcount⟩
  · exact .inl rfl

theorem doSleep_cases (timeout : LockTimeout) (otherwise : SelfResult) : doSleep timeout otherwise = otherwise ∨
      ∃ result, doSleep timeout otherwise = .ret result ∧ result ≠ .ok := by
  unfold doSleep
  cases timeout with
  | infinite => exact .inl rfl
  | reltime => exact .inr ⟨_, rfl, by simp⟩
  | abstime tv_sec tv_nsec =>
    dsimp only
    split_ifs
    · exact .inr ⟨_, rfl, by simp⟩
    · exact .inr ⟨_, rfl, by simp⟩

theorem PthreadMutex.self_cases (mutex : PthreadMutex) (kind : LockKind) :
    (∃ result, mutex.self kind = .ret result ∧ result ≠ .ok) ∨
      (mutex.self kind = .count ∧ 0 < s32 (mutex.m_count + 1) ∧ mutex.type = mutexRecursive) ∨
      mutex.self kind = .unreachable := by
  have hrecur : mutex.type = mutexRecursive → (∃ result, mutex.recur = .ret result ∧ result ≠ .ok) ∨
        (mutex.recur = .count ∧ 0 < s32 (mutex.m_count + 1) ∧ mutex.type = mutexRecursive) ∨
        mutex.recur = .unreachable := by
    intro htype
    rcases mutex.recur_cases with heq | ⟨heq, hpos⟩
    · exact .inl ⟨_, heq, by simp⟩
    · exact .inr (.inl ⟨heq, hpos, htype⟩)
  have hlock : ∀ timeout, (∃ result, mutex.selfLock timeout = .ret result ∧ result ≠ .ok) ∨
      (mutex.selfLock timeout = .count ∧ 0 < s32 (mutex.m_count + 1) ∧
        mutex.type = mutexRecursive) ∨ mutex.selfLock timeout = .unreachable := by
    intro timeout
    unfold selfLock
    split_ifs with hcheck hnormal hrec
    · rcases doSleep_cases timeout (.ret .edeadlk) with heq | hret
      · exact .inl ⟨_, heq, by simp⟩
      · exact .inl hret
    · rcases doSleep_cases timeout .unreachable with heq | hret
      · exact .inr (.inr heq)
      · exact .inl hret
    · exact hrecur hrec
    · exact .inl ⟨_, rfl, by simp⟩
  cases kind with
  | «try» =>
    unfold self selfTryLock
    split_ifs with hbusy hrec
    · exact .inl ⟨_, rfl, by simp⟩
    · exact hrecur hrec
    · exact .inl ⟨_, rfl, by simp⟩
  | lock timeout => exact hlock timeout
  | cv call => exact hlock .infinite

namespace PthreadState.Owned

variable {thread : Pthread} {pc : PthreadPc} {kind : LockKind} {result : PthreadResult}

section

variable (h : st.Owned type)

include h

theorem call_of_waiting (hpc : (st.threads t).pc = pc) {call call' : WaitCall}
    (hcall : pc.waiting = some call) (hmp : call'.mp = call.mp)
    (hrecurse : call'.recurse = call.recurse) : call'.Kept type := by
  have hwaiting : (st.pcs t).waiting = some call := (congrArg PthreadPc.waiting hpc).trans hcall
  obtain ⟨hnonneg, hlt, hrec⟩ := h.call t call hwaiting
  constructor
  · rwa [hrecurse]
  · rwa [hrecurse]
  · rwa [hrecurse, hmp]

theorem setThread (hcall : ∀ call, thread.pc.waiting = some call → call.Kept type) (hfits : thread.pc.Fits)
    (hview : ∀ q, thread.pc.view q = (st.threads t).pc.view q) : (st.setThread t thread).Owned type := by
  unfold Owned
  rw [pcs_setThread]
  exact h.move hcall hfits hview

theorem ret (hview : ∀ q, (st.threads t).pc.view q = {}) : (st.ret t result).Owned type :=
  h.setThread (fun _ hcall => by cases hcall) trivial fun q => (hview q).symm

theorem leave (hview : ∀ q, (st.threads t).pc.view q = {}) : (st.leave t).Owned type :=
  h.setThread (fun _ hcall => by cases hcall) trivial fun q => (hview q).symm

theorem goTo {pc' : PthreadPc} (hpc : (st.threads t).pc = pc)
    (hthread : thread.pc = pc') (hfits : pc'.Fits) (hwaiting : ∀ call', pc'.waiting = some call' →
      ∃ call, pc.waiting = some call ∧ call'.mp = call.mp ∧ call'.recurse = call.recurse)
    (hview : ∀ q, pc'.view q = pc.view q) : (st.setThread t thread).Owned type := by
  subst hthread
  apply h.setThread _ hfits
  · intro q
    rw [hpc]
    exact hview q
  · intro call' hcall'
    obtain ⟨call, hcall, hmp, hrecurse⟩ := hwaiting call' hcall'
    exact h.call_of_waiting hpc hcall hmp hrecurse

theorem wakeAll : (st.wakeAll t).Owned type := by
  unfold Owned
  rw [pcs_wakeAll]
  exact h

theorem release (tds : List ℕ) : (st.release tds).Owned type := h

theorem setCond (c : ℕ) (queue : SleepQueue) : (st.setCond c queue).Owned type := h

theorem sleepqRemove (c td : ℕ) : (st.sleepqRemove c td).Owned type := by
  unfold Owned
  rw [pcs_sleepqRemove]
  exact h

theorem sleepqAdd (c td : ℕ) : (st.sleepqAdd c td).Owned type := by
  unfold Owned
  rw [pcs_sleepqAdd]
  exact h

theorem defer (td m : ℕ) : (st.defer t td m).Owned type := by
  have hmutexes : (st.defer t td m).mutexes = update st.mutexes m
      { st.mutexes m with m_flags := (st.mutexes m).m_flags ||| deferredFlag } ∧
      (st.defer t td m).depth = st.depth := by
    unfold PthreadState.defer
    split_ifs <;> exact ⟨rfl, rfl⟩
  unfold Owned
  rw [pcs_defer, hmutexes.1, hmutexes.2]
  exact h.setFlags m

theorem sameThread (hpc : thread.pc = (st.threads t).pc) : (st.setThread t thread).Owned type := by
  unfold Owned
  rw [pcs_setThread, hpc]
  rw [show update st.pcs t (st.threads t).pc = st.pcs from update_eq_self t st.pcs]
  exact h

theorem owner_eq_none (hlock : (st.mutexes m).m_lock = none) : (st.mutexes m).m_owner = none := by
  rcases howner : (st.mutexes m).m_owner with _ | u
  · rfl
  · have hsome := (h.rel u m).lock.mpr (.inl howner)
    rw [hlock] at hsome
    cases hsome

theorem lock_eq (howner : (st.mutexes m).m_owner = some t) : (st.mutexes m).m_lock = some t :=
  (h.rel t m).lock.mpr (.inl howner)

theorem updateDepth (t m : ℕ) (mutex : PthreadMutex) (pc : PthreadPc) (n : ℤ)
    (hlock : (st.mutexes m).m_lock = none ∨ (st.mutexes m).m_lock = some t)
    (hlock' : mutex.m_lock = none ∨ mutex.m_lock = some t) (howner' : mutex.m_owner = none ∨ mutex.m_owner = some t)
    (hmutex : mutex.Kept (type m)) (hcall : ∀ call, pc.waiting = some call → call.Kept type)
    (hfits : pc.Fits) (hview : ∀ q ≠ m, pc.view q = (st.threads t).pc.view q)
    (hrel : MutexRel mutex t (pc.view m) (st.depth t m + n)) :
    MutexesKept type (update st.mutexes m mutex) (update st.pcs t pc) (st.addDepth t m n).depth :=
  MutexesKept.update h t m hlock hlock' howner' hmutex hcall hfits hview hrel

theorem updateMutex (t m : ℕ) (mutex : PthreadMutex) (pc : PthreadPc)
    (hlock : (st.mutexes m).m_lock = none ∨ (st.mutexes m).m_lock = some t)
    (hlock' : mutex.m_lock = none ∨ mutex.m_lock = some t) (howner' : mutex.m_owner = none ∨ mutex.m_owner = some t)
    (hmutex : mutex.Kept (type m)) (hcall : ∀ call, pc.waiting = some call → call.Kept type)
    (hfits : pc.Fits) (hview : ∀ q ≠ m, pc.view q = (st.threads t).pc.view q)
    (hrel : MutexRel mutex t (pc.view m) (st.depth t m)) :
    MutexesKept type (update st.mutexes m mutex) (update st.pcs t pc) st.depth := by
  have hupdate := MutexesKept.update h t m hlock hlock' howner' hmutex hcall hfits hview hrel
  rwa [update_eq_self, update_eq_self] at hupdate

theorem acquire (hpc : (st.threads t).pc = pc) (hkind : pc.waiting = kind.call)
    (hfits : ∀ call, kind.call = some call → call.mp = m)
    (hview : ∀ q, pc.view q = { saved := kind.call.bind fun call => call.saved q })
    (hfree : (st.mutexes m).m_lock = none) : (st.acquire t m kind).Owned type := by
  have howner := h.owner_eq_none hfree
  unfold Owned PthreadState.acquire
  rw [pcs_moveTo]
  obtain ⟨htype, hzero, hnonneg, hlt, hrec⟩ := h.mutex m
  have hrel := h.rel t m
  rw [show st.pcs t = pc from hpc, hview m] at hrel
  apply h.updateMutex t m { st.mutexes m with m_lock := some t } (.lockStore m kind) (.inl hfree)
    (.inr rfl) (.inl howner)
  · exact ⟨htype, hzero, hnonneg, hlt, hrec⟩
  · intro call hcall
    exact h.call_of_waiting hpc (hkind.trans hcall) rfl rfl
  · exact hfits
  · intro q hq
    rw [hpc, hview q]
    simp [PthreadPc.view, PthreadPc.waiting, hq.symm]
  · refine ⟨?_, fun _ => howner, ?_, ?_, ?_⟩
    · simp [PthreadPc.view]
    · exact fun _ => by simp [howner]
    · simp [PthreadPc.view]
    · have hdepth := hrel.depth_eq
      exact hdepth

theorem lockStore (hpc : (st.threads t).pc = .lockStore m kind) : (st.lockStore t m kind).Owned type := by
  have hrel := h.rel t m
  have hfits := h.fits t
  rw [show st.pcs t = _ from hpc] at hrel hfits
  have hwindow : (PthreadPc.view m (.lockStore m kind)).window = true := by simp [PthreadPc.view]
  have howner := hrel.window hwindow
  have hlock := hrel.lock.mpr (.inr hwindow)
  have hdepth := hrel.depth_eq
  rw [if_neg (by rw [howner]; simp)] at hdepth
  obtain ⟨htype, hzero, hnonneg, hlt, hrec⟩ := h.mutex m
  have hview : ∀ call, kind.call = some call → ∀ q ≠ m, call.saved q = none := by
    intro call hcall q hq
    unfold WaitCall.saved
    rw [hfits call hcall, if_neg hq.symm]
  have huser : kind.call = none → MutexesKept type
      (update st.mutexes m { st.mutexes m with m_owner := some t })
      (update st.pcs t .idle) (st.addDepth t m 1).depth := by
    intro hnone
    apply h.updateDepth t m { st.mutexes m with m_owner := some t } .idle 1 (.inr hlock) (.inr hlock) (.inr rfl)
    · exact ⟨htype, (fun hne => by cases hne), hnonneg, hlt, hrec⟩
    · exact fun _ hcall => by cases hcall
    · trivial
    · intro q hq
      rw [hpc]
      simp [PthreadPc.view, PthreadPc.waiting, hnone, hq.symm]
    · refine ⟨by simp [hlock], by simp [PthreadPc.view], fun hs => absurd rfl hs, by simp [PthreadPc.view], ?_⟩
      simp only [PthreadPc.view, PthreadPc.waiting, hnone, Option.bind_none, Option.elim_none] at hdepth
      rw [if_pos rfl, hdepth, hzero howner]
  unfold Owned PthreadState.lockStore PthreadState.lockReturn
  cases kind with
  | cv call =>
    have hmp : call.mp = m := hfits call rfl
    obtain ⟨hcnonneg, hclt, hcrec⟩ := (h.call_of_waiting hpc rfl rfl rfl : call.Kept type)
    obtain ⟨hm, hd⟩ := (st.setMutex m
      { st.mutexes m with m_owner := some t, m_count := call.recurse }).waitReturn_mutexes t call
    dsimp only
    rw [if_pos rfl, setMutex_self, setMutex_setMutex, pcs_waitReturn, hm, hd]
    apply h.updateMutex t m { st.mutexes m with m_owner := some t, m_count := call.recurse } .idle
      (.inr hlock) (.inr hlock) (.inr rfl)
    · exact ⟨htype, (fun hne => by cases hne), hcnonneg, hclt, hmp ▸ hcrec⟩
    · exact fun _ hcall => by cases hcall
    · trivial
    · intro q hq
      rw [hpc]
      simp [PthreadPc.view, PthreadPc.waiting, LockKind.call, hview call rfl q hq, hq.symm]
    · refine ⟨by simp [hlock], by simp [PthreadPc.view], fun hs => absurd rfl hs, by simp [PthreadPc.view], ?_⟩
      simp only [PthreadPc.view, PthreadPc.waiting, LockKind.call, Option.bind_some, WaitCall.saved, hmp,
        if_true, Option.elim_some] at hdepth
      rw [if_pos rfl, hdepth]
  | «try» =>
    rw [if_pos rfl, pcs_ret]
    exact huser rfl
  | lock timeout =>
    rw [if_pos rfl, pcs_ret]
    exact huser rfl

theorem lockReturn_of_ne (hkind : kind.call = none) (hne : result ≠ .ok)
    (hview : ∀ q, (st.threads t).pc.view q = {}) : (st.lockReturn t m kind result).Owned type := by
  unfold PthreadState.lockReturn
  cases kind with
  | cv call => cases hkind
  | «try» =>
    rw [if_neg hne]
    exact h.ret hview
  | lock timeout =>
    rw [if_neg hne]
    exact h.ret hview

theorem count (hkind : kind.call = none)
    (hview : ∀ q, (st.threads t).pc.view q = {}) (howner : (st.mutexes m).m_owner = some t)
    (hcount : 0 < s32 ((st.mutexes m).m_count + 1)) (hrecursive : (st.mutexes m).type = mutexRecursive) :
    ((st.setMutex m { st.mutexes m with m_count := (st.mutexes m).m_count + 1 }).lockReturn t m kind
      .ok).Owned type := by
  obtain ⟨htype, hzero, hnonneg, hlt, hrec⟩ := h.mutex m
  have hrel := h.rel t m
  rw [show (st.pcs t).view m = {} from hview m] at hrel
  have hlock := h.lock_eq howner
  have hlt' : (st.mutexes m).m_count + 1 < 2^31 := by
    by_contra hge
    have heq : (st.mutexes m).m_count + 1 = 2^31 := by omega
    rw [heq] at hcount
    exact absurd hcount (by decide)
  have hupdate : MutexesKept type
      (update st.mutexes m { st.mutexes m with m_count := (st.mutexes m).m_count + 1 })
      (update st.pcs t .idle) (st.addDepth t m 1).depth := by
    apply h.updateDepth t m { st.mutexes m with m_count := (st.mutexes m).m_count + 1 } .idle 1
      (.inr hlock) (.inr hlock) (.inr howner)
    · refine ⟨htype, fun hnone => ?_, by show 0 ≤ _ + 1; omega, hlt', fun hne => ?_⟩
      · rw [show (st.mutexes m).m_owner = none from hnone] at howner
        cases howner
      · exact absurd (htype ▸ hrecursive) hne
    · exact fun _ hcall => by cases hcall
    · trivial
    · intro q _
      exact (hview q).symm
    · refine ⟨hrel.lock, hrel.window, fun hs => absurd rfl hs, fun _ => howner, ?_⟩
      have hdepth := hrel.depth_eq
      rw [if_pos howner] at hdepth
      rw [if_pos howner, hdepth]
  unfold PthreadState.lockReturn Owned
  cases kind with
  | cv call => cases hkind
  | «try» =>
    rw [if_pos rfl, pcs_ret]
    exact hupdate
  | lock timeout =>
    rw [if_pos rfl, pcs_ret]
    exact hupdate

theorem not_owner (hpc : (st.threads t).pc = pc) {call : WaitCall}
    (hcall : pc.waiting = some call) : (st.mutexes call.mp).m_owner ≠ some t := by
  refine (h.rel t call.mp).saved ?_
  have hwaiting : (st.pcs t).waiting = some call := (congrArg PthreadPc.waiting hpc).trans hcall
  simp [PthreadPc.view, hwaiting, WaitCall.saved]

theorem lockLoad (hpc : (st.threads t).pc = .lockLoad m kind)
    (hstep : st.lockLoad t m kind = some st') : st'.Owned type := by
  have hfits := h.fits t
  rw [show st.pcs t = _ from hpc] at hfits
  unfold PthreadState.lockLoad at hstep
  dsimp only at hstep
  split at hstep
  · rename_i howner
    have hnone : kind.call = none := by
      rcases hcall : kind.call with _ | call
      · rfl
      · have hmp : call.mp = m := hfits call hcall
        exact absurd (hmp ▸ howner) (h.not_owner hpc hcall)
    have hview : ∀ q, (st.threads t).pc.view q = {} := by
      rw [hpc]
      simp [PthreadPc.view, PthreadPc.waiting, hnone]
    rcases (st.mutexes m).self_cases kind with ⟨result, heq, hne⟩ | ⟨heq, hpos, hrec⟩ | heq
    · rw [heq] at hstep
      obtain rfl := some.inj hstep
      exact h.lockReturn_of_ne hnone hne hview
    · rw [heq] at hstep
      obtain rfl := some.inj hstep
      exact h.count hnone hview howner hpos hrec
    · rw [heq] at hstep
      cases hstep
  · split at hstep
    · obtain rfl := some.inj hstep
      exact h.goTo hpc rfl hfits (fun call hcall => ⟨call, hcall, rfl, rfl⟩) fun q => rfl
    · obtain rfl := some.inj hstep
      exact h.goTo hpc rfl hfits (fun call hcall => ⟨call, hcall, rfl, rfl⟩) fun q => rfl

theorem lockSpin {count : ℕ} (hpc : (st.threads t).pc = .lockSpin m kind count) :
    (st.lockSpin t m kind count).Owned type := by
  have hfits := h.fits t
  rw [show st.pcs t = _ from hpc] at hfits
  cases count with
  | zero => exact h.goTo hpc rfl hfits (fun call hcall => ⟨call, hcall, rfl, rfl⟩) fun q => rfl
  | succ count =>
    unfold PthreadState.lockSpin
    split_ifs with hfree
    · exact h.acquire hpc rfl hfits (fun q => rfl) hfree
    · exact h.goTo hpc rfl hfits (fun call hcall => ⟨call, hcall, rfl, rfl⟩) fun q => rfl

theorem lockBlock (hpc : (st.threads t).pc = .lockBlock m kind)
    (hstep : st.lockBlock t m kind timed_out = some st') : st'.Owned type := by
  have hfits := h.fits t
  rw [show st.pcs t = _ from hpc] at hfits
  have hview : kind.call = none → ∀ q, (st.threads t).pc.view q = {} := by
    intro hnone q
    rw [hpc]
    simp [PthreadPc.view, PthreadPc.waiting, hnone]
  unfold PthreadState.lockBlock at hstep
  split_ifs at hstep with hinvalid hfree hblocks htry hheld htimed
  · obtain rfl := some.inj hstep
    have hnone : kind.call = none := by
      cases kind with
      | cv call => cases hinvalid
      | «try» => rfl
      | lock timeout => rfl
    exact h.lockReturn_of_ne hnone (by simp) (hview hnone)
  · obtain rfl := some.inj hstep
    exact h.acquire hpc rfl hfits (fun q => rfl) hfree.1
  · obtain rfl := some.inj hstep
    have hnone : kind.call = none := by rw [htry]; rfl
    exact h.lockReturn_of_ne hnone (by simp) (hview hnone)
  · obtain rfl := some.inj hstep
    have hnone : kind.call = none := by
      cases kind with
      | cv call => exact absurd trivial hblocks
      | «try» => rfl
      | lock timeout => rfl
    exact h.lockReturn_of_ne hnone (by simp) (hview hnone)

theorem clearOwner (howner : (st.mutexes m).m_owner = some t)
    (call : Option WaitCall) (n m_count : ℤ) (deferred : Bool) (hkept : ∀ c, call = some c → c.Kept type ∧ c.mp = m)
    (hview : ∀ q ≠ m, (st.threads t).pc.view q = {}) (hzero : m_count = 0)
    (hdepth : st.depth t m + n = call.elim 0 fun c => c.recurse + 1) :
    MutexesKept type (update st.mutexes m { st.mutexes m with
        m_flags := (st.mutexes m).m_flags &&& ~~~deferredFlag
        m_owner := none
        m_count })
      (update st.pcs t (.unlockRelease m deferred call)) (st.addDepth t m n).depth := by
  obtain ⟨htype, -, -, -, -⟩ := h.mutex m
  have hlock := h.lock_eq howner
  apply h.updateDepth t m { st.mutexes m with
      m_flags := (st.mutexes m).m_flags &&& ~~~deferredFlag
      m_owner := none
      m_count } _ n (.inr hlock) (.inr hlock) (.inl rfl)
  · exact ⟨flags_clear.trans htype, fun _ => hzero, hzero.symm.le,
      by show m_count < _; omega, fun _ => hzero⟩
  · exact fun c hcall => (hkept c hcall).1
  · trivial
  · intro q hq
    rw [hview q hq]
    rcases call with _ | c
    · simp [PthreadPc.view, PthreadPc.waiting, hq.symm]
    · have hmp := (hkept c rfl).2
      simp [PthreadPc.view, PthreadPc.waiting, WaitCall.saved, hmp, hq.symm]
  · refine ⟨by simp [hlock, PthreadPc.view], fun _ => rfl, fun _ => by simp, by simp [PthreadPc.view], ?_⟩
    rw [if_neg (by simp), hdepth]
    rcases call with _ | c
    · rfl
    · have hmp := (hkept c rfl).2
      simp [PthreadPc.view, PthreadPc.waiting, WaitCall.saved, hmp]

theorem unlockLoad (hpc : (st.threads t).pc = .unlockLoad m) : (st.unlockLoad t m).Owned type := by
  have hview : ∀ q, (st.threads t).pc.view q = {} := by
    intro q
    rw [hpc]
    rfl
  unfold PthreadState.unlockLoad
  split_ifs with hne
  · exact h.ret hview
  have howner := not_not.mp hne
  have hlock := h.lock_eq howner
  obtain ⟨htype, hzero, hnonneg, hlt, hrec⟩ := h.mutex m
  have hrel := h.rel t m
  rw [show (st.pcs t).view m = {} from hview m] at hrel
  have hdepth := hrel.depth_eq
  rw [if_pos howner] at hdepth
  unfold Owned PthreadState.unlockOwned
  dsimp only
  split_ifs with hcount
  · -- One recursion less.
    have hpos : (st.mutexes m).m_count > 0 := hcount.2
    rw [pcs_ret]
    apply h.updateDepth t m { st.mutexes m with m_count := (st.mutexes m).m_count - 1 } .idle (-1)
      (.inr hlock) (.inr hlock) (.inr howner)
    · refine ⟨htype, fun hnone => ?_, by show 0 ≤ _ - 1; omega, by show _ - 1 < _; omega, fun hne => ?_⟩
      · rw [show (st.mutexes m).m_owner = none from hnone] at howner
        cases howner
      · have := hrec hne
        omega
    · exact fun _ hcall => by cases hcall
    · trivial
    · intro q _
      exact (hview q).symm
    · refine ⟨hrel.lock, hrel.window, fun hs => absurd rfl hs, fun _ => howner, ?_⟩
      rw [if_pos howner, hdepth]
      show (st.mutexes m).m_count + 1 + -1 = (st.mutexes m).m_count - 1 + 1
      omega
  · have hnone : (st.mutexes m).m_count = 0 := by
      by_contra hne
      have hpos : (st.mutexes m).m_count > 0 := by omega
      have hrecursive : type m = mutexRecursive := by
        by_contra hne'
        exact hne (hrec hne')
      exact hcount ⟨htype.trans hrecursive, hpos⟩
    rw [pcs_moveTo]
    exact h.clearOwner howner none (-1) _ _ (by simp) (fun q _ => hview q) hnone
      (by simp [hdepth, hnone])

theorem unlockRelease {deferred : Bool} {call : Option WaitCall}
    (hpc : (st.threads t).pc = .unlockRelease m deferred call) : (st.unlockRelease t m deferred call).Owned type := by
  have hrel := h.rel t m
  rw [show st.pcs t = _ from hpc] at hrel
  have hwindow : (PthreadPc.view m (.unlockRelease m deferred call)).window = true := by
    simp [PthreadPc.view]
  have howner := hrel.window hwindow
  have hlock := hrel.lock.mpr (.inr hwindow)
  obtain ⟨htype, hzero, hnonneg, hlt, hrec⟩ := h.mutex m
  unfold Owned PthreadState.unlockRelease
  rw [pcs_moveTo]
  apply h.updateMutex t m { st.mutexes m with m_lock := none } (.unlockWake deferred call)
    (.inr hlock) (.inl rfl) (.inl howner)
  · exact ⟨htype, hzero, hnonneg, hlt, hrec⟩
  · intro c hcall
    exact h.call_of_waiting hpc hcall rfl rfl
  · trivial
  · intro q hq
    rw [hpc]
    simp [PthreadPc.view, PthreadPc.waiting, hq.symm]
  · refine ⟨by simp [howner, PthreadPc.view], by simp [PthreadPc.view], fun _ => by simp [howner],
      by simp [PthreadPc.view], ?_⟩
    exact hrel.depth_eq

theorem unlockWake {deferred : Bool} {call : Option WaitCall}
    (hpc : (st.threads t).pc = .unlockWake deferred call) : (st.unlockWake t deferred call).Owned type := by
  have hwoken : ∀ st' : PthreadState, st'.Owned type → (st'.threads t).pc = .unlockWake deferred call →
      (call.elim (st'.ret t .ok) fun call => st'.moveTo t (.waitAdd call)).Owned type := by
    intro st' h' hpc'
    rcases call with _ | c
    · refine h'.ret fun q => ?_
      rw [hpc']
      rfl
    · exact h'.goTo hpc' rfl trivial (fun call hcall => ⟨call, hcall, rfl, rfl⟩) fun q => rfl
  unfold PthreadState.unlockWake
  split_ifs
  · refine hwoken _ h.wakeAll ?_
    exact (congrFun pcs_wakeAll t).trans hpc
  · exact hwoken _ h hpc

/-! ## Waits -/

theorem waitStart {call : WaitCall} (hpc : (st.threads t).pc = .waitStart call)
    (hstep : st.waitStart t call = some st') : st'.Owned type := by
  have hview : ∀ q, (st.threads t).pc.view q = {} := by
    intro q
    rw [hpc]
    rfl
  unfold PthreadState.waitStart at hstep
  dsimp only at hstep
  split_ifs at hstep with howner hchan hcancel
  · obtain rfl := some.inj hstep
    exact h.ret hview
  · obtain rfl := some.inj hstep
    exact h.leave hview
  · obtain rfl := some.inj hstep
    have howner := not_not.mp howner
    have hlock := h.lock_eq howner
    have hrel := h.rel t call.mp
    rw [show (st.pcs t).view call.mp = {} from hview call.mp] at hrel
    have hupdate := h.updateMutex t call.mp (st.mutexes call.mp) (.waitLock call) (.inr hlock)
      (.inr hlock) (.inr howner) (h.mutex call.mp) (fun _ hcall => by cases hcall) trivial
      (fun q hq => by rw [hview q]; simp [PthreadPc.view, PthreadPc.waiting, hq.symm])
      ⟨hrel.lock, hrel.window, fun hs => absurd rfl hs, fun _ => howner, hrel.depth_eq⟩
    unfold Owned
    rw [pcs_moveTo]
    rwa [update_eq_self] at hupdate

theorem waitLock {call : WaitCall} (hpc : (st.threads t).pc = .waitLock call)
    (hstep : st.waitLock t call = some st') : st'.Owned type := by
  have hrel := h.rel t call.mp
  rw [show st.pcs t = _ from hpc] at hrel
  have howner := hrel.starts (by simp [PthreadPc.view])
  have hdepth := hrel.depth_eq
  rw [if_pos howner] at hdepth
  unfold PthreadState.waitLock at hstep
  split at hstep
  · cases hstep
  rw [if_neg (not_not.mpr howner)] at hstep
  obtain rfl := some.inj hstep
  obtain ⟨htype, hzero, hnonneg, hlt, hrec⟩ := h.mutex call.mp
  have hpcs : ∀ c q thread, thread.pc = (st.threads t).pc → ((st.setCond c q).setThread t thread).pcs = st.pcs := by
    intro c q thread hthread
    rw [pcs_setThread, hthread]
    exact update_eq_self t st.pcs
  unfold Owned PthreadState.unlockOwned
  simp only [setMutex_self, setMutex_setMutex]
  rw [if_neg (by simp), pcs_moveTo, pcs_setMutex, hpcs]
  swap
  · rfl
  have hclear := h.clearOwner howner (some { call with recurse := (st.mutexes call.mp).m_count }) 0 0
    (PthreadMutex.deferred { st.mutexes call.mp with m_count := 0 }) ?_ ?_ rfl ?_
  · rwa [addDepth_zero] at hclear
  · intro c hcall
    obtain rfl := some.inj hcall
    exact ⟨⟨hnonneg, hlt, hrec⟩, rfl⟩
  · intro q hq
    rw [hpc]
    simp [PthreadPc.view, PthreadPc.waiting, hq.symm]
  · simp [hdepth]

theorem waitCheck {call : WaitCall} {timed_out : Bool}
    (hpc : (st.threads t).pc = .waitCheck call) : (st.waitCheck t call timed_out).Owned type := by
  have hgo : ∀ pc' call', pc'.Fits → pc'.waiting = some call' → call'.mp = call.mp →
      call'.recurse = call.recurse → (∀ q, pc'.view q = { saved := call'.saved q }) →
      ((st.setCond call.cond { st.conds call.cond with sc_lock := none }).moveTo t pc').Owned type := by
    intro pc' call' hfits hcall' hmp hrecurse hview
    apply (h.setCond _ _).goTo hpc rfl hfits
    · intro c hc
      obtain rfl := some.inj (hcall'.symm.trans hc)
      exact ⟨call, rfl, hmp, hrecurse⟩
    · intro q
      rw [hview q]
      simp [PthreadPc.view, PthreadPc.waiting, WaitCall.saved, hmp, hrecurse]
  unfold PthreadState.waitCheck
  split_ifs
  · exact hgo _ _ trivial rfl rfl rfl fun q => rfl
  · exact hgo _ _ trivial rfl rfl rfl fun q => rfl
  · exact hgo _ _ trivial rfl rfl rfl fun q => rfl

theorem wake {call : WaitCall} {timed_out : Bool}
    (hpc : (st.threads t).pc = .asleep call) (hstep : st.wake t call timed_out = some st') : st'.Owned type := by
  have hgo : ∀ thread error, thread.pc = .waitLoop { call with error } → (st.setThread t thread).Owned type := by
    intro thread error hthread
    apply h.goTo hpc hthread trivial
    · intro c hc
      obtain rfl := some.inj hc
      exact ⟨call, rfl, rfl, rfl⟩
    · exact fun q => rfl
  unfold PthreadState.wake at hstep
  dsimp only at hstep
  split_ifs at hstep
  · obtain rfl := some.inj hstep
    exact hgo _ .etimedout rfl
  · obtain rfl := some.inj hstep
    exact hgo _ .ok rfl

theorem waitLoop {call : WaitCall} (hpc : (st.threads t).pc = .waitLoop call)
    (hstep : st.waitLoop t call = some st') : st'.Owned type := by
  have hdone : ∀ (st1 : PthreadState) call', st1.Owned type → (st1.threads t).pc = .waitLoop call →
      call'.mp = call.mp → call'.recurse = call.recurse → (st1.waitDone t call').Owned type := by
    intro st1 call' h1 hpc1 hmp hrecurse
    apply h1.goTo hpc1 rfl
    · intro c hc
      obtain rfl := some.inj hc
      rfl
    · intro c hc
      obtain rfl := some.inj hc
      exact ⟨call, rfl, hmp, hrecurse⟩
    · intro q
      simp [PthreadPc.view, PthreadPc.waiting, LockKind.call, WaitCall.saved, hmp, hrecurse]
  unfold PthreadState.waitLoop at hstep
  dsimp only at hstep
  have hremoved : ((st.sleepqRemove call.cond t).threads t).pc = .waitLoop call :=
    (congrFun pcs_sleepqRemove t).trans hpc
  split_ifs at hstep
  · obtain rfl := some.inj hstep
    exact hdone st _ h hpc rfl rfl
  · obtain rfl := some.inj hstep
    exact hdone _ _ (h.sleepqRemove _ _) hremoved rfl rfl
  · obtain rfl := some.inj hstep
    exact hdone _ _ (h.sleepqRemove _ _) hremoved rfl rfl
  · obtain rfl := some.inj hstep
    exact (h.setCond _ _).goTo hpc rfl trivial (fun c hc => ⟨c, hc, rfl, rfl⟩) fun q => rfl

theorem waitAdd {call : WaitCall} (hpc : (st.threads t).pc = .waitAdd call) : (st.waitAdd t call).Owned type := by
  have hset : (st.setThread t { st.threads t with mutex_obj := some call.mp }).Owned type :=
    h.sameThread rfl
  have hpcs : (((st.setThread t { st.threads t with mutex_obj := some call.mp }).sleepqAdd call.cond
      t).threads t).pc = .waitAdd call := by
    refine (congrFun pcs_sleepqAdd t).trans ?_
    rw [pcs_setThread, update_self]
    exact hpc
  exact (hset.sleepqAdd _ _).goTo hpcs rfl trivial (fun c hc => ⟨c, hc, rfl, rfl⟩) fun q => rfl

theorem sleep {call : WaitCall} (hpc : (st.threads t).pc = .sleep call) : (st.sleep t call).Owned type := by
  have hset : (st.setThread t { st.threads t with will_sleep := false }).Owned type :=
    h.sameThread rfl
  have hpcs : (((st.setThread t { st.threads t with will_sleep := false }).wakeAll t).threads t).pc =
      .sleep call := by
    refine (congrFun pcs_wakeAll t).trans ?_
    rw [pcs_setThread, update_self]
    exact hpc
  exact hset.wakeAll.goTo hpcs rfl trivial (fun c hc => ⟨c, hc, rfl, rfl⟩) fun q => rfl

/-! ## Signals -/

theorem quiet (hpc : st.pcs t = pc)
    (hview : ∀ q, pc.view q = {}) (hview' : ∀ q, pc'.view q = {}) (hwaiting : pc'.waiting = none)
    (hfits : pc'.Fits) (hthread : thread.pc = pc') : (st.setThread t thread).Owned type := by
  refine h.goTo hpc hthread hfits (fun c hc => ?_) fun q => (hview' q).trans (hview q).symm
  rw [hwaiting] at hc
  cases hc

theorem signal (hpc : (st.threads t).pc = .signal c target) (hstep : st.signal t c target found = some st') :
    st'.Owned type := by
  have hpcs : st.pcs t = .signal c target := hpc
  unfold PthreadState.signal at hstep
  split_ifs at hstep
  · obtain rfl := some.inj hstep
    exact h.quiet hpc (fun _ => rfl) (fun _ => rfl) rfl (by trivial) rfl
  all_goals
    obtain rfl := some.inj hstep
    rcases st.signalled c target with _ | td
    · exact h.quiet hpc (fun _ => rfl) (fun _ => rfl) rfl (by trivial) rfl
    have hremove := h.sleepqRemove c td
    have hremoved : (st.sleepqRemove c td).pcs t = .signal c target := by rw [pcs_sleepqRemove, hpcs]
    simp only [Option.elim_some]
    rcases (st.threads td).mutex_obj with _ | m
    · exact hremove.quiet hremoved (fun _ => rfl) (fun _ => rfl) rfl (by trivial) rfl
    simp only [Option.elim_some]
    split_ifs
    · have hdeferred : ((st.sleepqRemove c td).defer t td m).pcs t = .signal c target := by
        rw [pcs_defer, hremoved]
      exact (hremove.defer td m).quiet hdeferred (fun _ => rfl) (fun _ => rfl) rfl (by trivial) rfl
    · exact hremove.quiet hremoved (fun _ => rfl) (fun _ => rfl) rfl (by trivial) rfl

theorem drop (immediate_wakes : List ℕ) (td : ℕ) :
    (st.drop t immediate_wakes td).1.Owned type ∧ (st.drop t immediate_wakes td).1.pcs = st.pcs := by
  have hdropped : ∀ st1 : PthreadState, st1.Owned type → st1.pcs = st.pcs →
      (st1.setThread td { st1.threads td with wchan := none }).Owned type ∧
        (st1.setThread td { st1.threads td with wchan := none }).pcs = st.pcs := by
    intro st1 h1 hpcs
    refine ⟨h1.sameThread rfl, ?_⟩
    rw [pcs_setThread, ← hpcs]
    exact update_eq_self td st1.pcs
  refine elim_cases (P := fun r : PthreadState × List ℕ => r.1.Owned type ∧ r.1.pcs = st.pcs)
    _ ?_ fun m => ?_
  · split_ifs
    · exact hdropped _ (h.release _) rfl
    · exact hdropped _ h rfl
  · split_ifs
    · exact hdropped _ (h.defer _ _) pcs_defer
    · exact hdropped _ (h.release _) rfl
    · exact hdropped _ h rfl

end

theorem dropAll (t : ℕ) (tds : List ℕ) (r : PthreadState × List ℕ) (h : r.1.Owned type) (hpcs : r.1.pcs = pcs) :
    (tds.foldl (fun r td => r.1.drop t r.2 td) r).1.Owned type ∧
      (tds.foldl (fun r td => r.1.drop t r.2 td) r).1.pcs = pcs := by
  induction tds generalizing r with
  | nil => exact ⟨h, hpcs⟩
  | cons td rest ih =>
    obtain ⟨hdrop, hsame⟩ := h.drop (t := t) r.2 td
    exact ih _ hdrop (hsame.trans hpcs)

theorem broadcast (h : st.Owned type) (hpc : (st.threads t).pc = .broadcast c)
    (hstep : st.broadcast t c = some st') : st'.Owned type := by
  unfold PthreadState.broadcast at hstep
  split_ifs at hstep
  obtain rfl := some.inj hstep
  obtain ⟨hdrop, hpcs⟩ := dropAll t (st.conds c).sq_blocked (st, []) h rfl
  exact quiet (hdrop.setCond c _) ((congrFun hpcs t).trans hpc) (fun _ => rfl) (fun _ => rfl) rfl (by trivial) rfl

/-! ## Runs -/

theorem advance (h : st.Owned type) (hstep : st.advance t choice = some st') : st'.Owned type := by
  unfold PthreadState.advance at hstep
  rcases hpc : (st.threads t).pc with
    _ | ⟨m, kind⟩ | ⟨m, kind, count⟩ | ⟨m, kind⟩ | ⟨m, kind⟩ | m | ⟨m, deferred, call⟩ |
    ⟨deferred, call⟩ | call | call | call | call | call | call | call | call | ⟨c, target⟩ | td | c |
    immediate_wakes
  all_goals rw [hpc] at hstep; dsimp only at hstep
  case idle => cases hstep
  case lockLoad => exact h.lockLoad hpc hstep
  case lockSpin =>
    obtain rfl := some.inj hstep
    exact h.lockSpin hpc
  case lockBlock => exact h.lockBlock hpc hstep
  case lockStore =>
    obtain rfl := some.inj hstep
    exact h.lockStore hpc
  case unlockLoad =>
    obtain rfl := some.inj hstep
    exact h.unlockLoad hpc
  case unlockRelease =>
    obtain rfl := some.inj hstep
    exact h.unlockRelease hpc
  case unlockWake =>
    obtain rfl := some.inj hstep
    exact h.unlockWake hpc
  case waitStart => exact h.waitStart hpc hstep
  case waitLock => exact h.waitLock hpc hstep
  case waitAdd =>
    obtain rfl := some.inj hstep
    exact h.waitAdd hpc
  case waitClear =>
    obtain rfl := some.inj hstep
    exact h.goTo hpc rfl trivial (fun c hc => ⟨c, hc, rfl, rfl⟩) fun q => rfl
  case waitCheck =>
    obtain rfl := some.inj hstep
    exact h.waitCheck hpc
  case sleep =>
    obtain rfl := some.inj hstep
    exact h.sleep hpc
  case asleep => exact h.wake hpc hstep
  case waitLoop => exact h.waitLoop hpc hstep
  case signal => exact h.signal hpc hstep
  case signalRelease =>
    obtain rfl := some.inj hstep
    exact quiet (h.release [td]) hpc (fun _ => rfl) (fun _ => rfl) rfl (by trivial) rfl
  case broadcast => exact h.broadcast hpc hstep
  case broadcastRelease =>
    obtain rfl := some.inj hstep
    cases immediate_wakes with
    | nil => exact h.quiet hpc (fun _ => rfl) (fun _ => rfl) rfl (by trivial) rfl
    | cons td rest =>
      exact quiet (h.release [td]) hpc (fun _ => rfl) (fun _ => rfl) rfl (by trivial) rfl

theorem call (h : st.Owned type) (pc : PthreadPc) (hview : ∀ q, pc.view q = {}) (hwaiting : pc.waiting = none)
    (hfits : pc.Fits) (hstep : st.call t pc = some st') : st'.Owned type := by
  unfold PthreadState.call at hstep
  split_ifs at hstep with hidle
  obtain rfl := some.inj hstep
  exact h.quiet hidle (fun _ => rfl) hview hwaiting hfits rfl

theorem step (h : st.Owned type) (hstep : st.step o = some st') : st'.Owned type := by
  cases o with
  | trylock t m =>
    exact h.call (.lockLoad m .try) (fun _ => rfl) rfl (fun _ hc => by cases hc) hstep
  | lock t m timeout =>
    exact h.call (.lockLoad m (.lock timeout)) (fun _ => rfl) rfl (fun _ hc => by cases hc) hstep
  | unlock t m => exact h.call (.unlockLoad m) (fun _ => rfl) rfl trivial hstep
  | wait t c m timeout =>
    exact h.call (.waitStart { cond := c, mp := m, timeout }) (fun _ => rfl) rfl trivial hstep
  | signal t c target => exact h.call (.signal c target) (fun _ => rfl) rfl trivial hstep
  | broadcast t c => exact h.call (.broadcast c) (fun _ => rfl) rfl trivial hstep
  | advance t choice => exact h.advance hstep
  | cancel t =>
    obtain rfl := some.inj hstep
    unfold PthreadState.cancel
    dsimp only
    split_ifs
    · exact h
    · exact h.sameThread rfl
  | setcancelstate t enable =>
    unfold PthreadState.step PthreadState.setcancelstate at hstep
    dsimp only at hstep
    split_ifs at hstep with hidle hcancel
    · obtain rfl := some.inj hstep
      have hidle := not_not.mp hidle
      have hset : (st.setThread t { st.threads t with cancel_enable := enable }).Owned type :=
        h.sameThread rfl
      refine hset.leave fun q => ?_
      show ((update st.threads t _ t).pc).view q = {}
      rw [update_self]
      exact congrArg (PthreadPc.view q) hidle
    · obtain rfl := some.inj hstep
      exact h.sameThread rfl

end PthreadState.Owned

theorem PthreadState.Owned.isNew (h : st.IsNew) : st.Owned fun m => (st.mutexes m).type := by
  obtain ⟨hmutexes, hconds, hthreads, hdepth⟩ := h
  have hpcs : ∀ t, st.pcs t = .idle := by
    intro t
    unfold PthreadState.pcs
    rw [hthreads t]
  constructor
  case mutex =>
    intro m
    obtain ⟨howner, hlock, hcount⟩ := hmutexes m
    exact ⟨rfl, fun _ => hcount, hcount.symm.le, by rw [hcount]; decide, fun _ => hcount⟩
  case call =>
    intro t call hcall
    rw [hpcs t] at hcall
    cases hcall
  case fits =>
    intro t
    rw [hpcs t]
    trivial
  case rel =>
    intro t m
    obtain ⟨howner, hlock, hcount⟩ := hmutexes m
    rw [hpcs t, hdepth t m]
    exact ⟨by simp [howner, hlock, PthreadPc.view], fun _ => howner, fun hs => absurd rfl hs,
      (fun hs => by cases hs), by simp [howner, PthreadPc.view, PthreadPc.waiting]⟩

/-- The thread is between taking `m_lock` and storing the owner, or between clearing the owner and giving
`m_lock` back. -/
def PthreadPc.InWindow (m : ℕ) (pc : PthreadPc) : Prop := (pc.view m).window = true

abbrev PthreadState.Steps (st : PthreadState) (o : PthreadOp) (st' : PthreadState) : Prop :=
  st.step o = some st'

/-- In every run: the owner of a mutex is the thread that has `m_lock`, except in the windows; the locks of
the owner, less its unlocks, are one more than `m_count`, and so they are for a thread that waits on a
condition variable, with the recursions that it comes back to; a mutex that is free has no recursions; an
unlock by a thread that has not locked the mutex returns `EPERM` and changes nothing; a wait returns
with the recursions it had; and the type of a mutex stays. -/
theorem mutex_run {st₀ st : PthreadState} (hnew : st₀.IsNew)
    (h : Run (· = st₀) PthreadState.Steps (fun _ _ => True) st) : (∀ m t, (st.mutexes m).m_owner = some t ↔
      (st.mutexes m).m_lock = some t ∧ ¬ (st.threads t).pc.InWindow m) ∧
    (∀ m t, (st.mutexes m).m_owner = some t → (st.mutexes m).m_count + 1 = st.depth t m) ∧
    (∀ m, (st.mutexes m).m_lock = none → (st.mutexes m).m_count = 0) ∧
    (∀ t m choice st', (st.threads t).pc = .unlockLoad m → st.depth t m = 0 →
      st.advance t choice = some st' → (st'.threads t).result = some .eperm ∧
        st'.mutexes = st.mutexes ∧ st'.conds = st.conds ∧ st'.depth = st.depth ∧
        ∀ u ≠ t, st'.threads u = st.threads u) ∧ (∀ t call, (st.threads t).pc.waiting = some call →
      call.recurse + 1 = st.depth t call.mp) ∧ (∀ t m call choice st', (st.threads t).pc = .lockStore m (.cv call) →
      st.advance t choice = some st' → (st'.mutexes call.mp).m_owner = some t ∧
        (st'.mutexes call.mp).m_count + 1 = st.depth t call.mp ∧ st'.depth = st.depth) ∧
    ∀ m, (st.mutexes m).type = (st₀.mutexes m).type := by
  have hkept : ∀ st', Run (· = st₀) PthreadState.Steps (fun _ _ => True) st' →
      st'.Owned fun m => (st₀.mutexes m).type := by
    intro st' h'
    refine h'.invariant ?_ fun _ _ _ hkept _ hstep => hkept.step hstep
    rintro s rfl
    exact PthreadState.Owned.isNew hnew
  have howned := hkept st h
  have hwaiting : ∀ t call, (st.threads t).pc.waiting = some call → call.recurse + 1 = st.depth t call.mp := by
    intro t call hcall
    have hdepth := (howned.rel t call.mp).depth_eq
    rw [if_neg (howned.not_owner rfl hcall)] at hdepth
    rw [hdepth]
    simp [PthreadPc.view, show (st.pcs t).waiting = _ from hcall, WaitCall.saved]
  refine ⟨fun m t => ?_, fun m t howner => ?_, fun m hfree => ?_, ?_, hwaiting, ?_, fun m => ?_⟩
  · have hrel := howned.rel t m
    constructor
    · intro howner
      refine ⟨howned.lock_eq howner, fun hwindow => ?_⟩
      rw [hrel.window hwindow] at howner
      cases howner
    · rintro ⟨hlock, hwindow⟩
      exact (hrel.lock.mp hlock).resolve_right hwindow
  · have hdepth := (howned.rel t m).depth_eq
    rw [if_pos howner] at hdepth
    exact hdepth.symm
  · exact (howned.mutex m).free (howned.owner_eq_none hfree)
  · intro t m choice st' hpc hzero hstep
    have hne : (st.mutexes m).m_owner ≠ some t := by
      intro howner
      have hdepth := (howned.rel t m).depth_eq
      rw [if_pos howner] at hdepth
      have := (howned.mutex m).nonneg
      omega
    unfold PthreadState.advance at hstep
    rw [hpc] at hstep
    dsimp only at hstep
    rw [PthreadState.unlockLoad, if_pos hne] at hstep
    obtain rfl := some.inj hstep
    refine ⟨?_, rfl, rfl, rfl, fun u hu => update_of_ne hu _ _⟩
    show (update st.threads t _ t).result = _
    rw [update_self]
  · intro t m call choice st' hpc hstep
    have hmp : call.mp = m := by
      have hfits := howned.fits t
      rw [show st.pcs t = _ from hpc] at hfits
      exact hfits call rfl
    have hdepth := hwaiting t call (by rw [hpc]; rfl)
    unfold PthreadState.advance at hstep
    rw [hpc] at hstep
    obtain rfl := some.inj hstep
    subst hmp
    unfold PthreadState.lockStore PthreadState.lockReturn
    dsimp only
    rw [if_pos rfl, PthreadState.setMutex_self, PthreadState.setMutex_setMutex]
    obtain ⟨hm, hd⟩ := (st.setMutex call.mp
      { st.mutexes call.mp with m_owner := some t, m_count := call.recurse }).waitReturn_mutexes t call
    rw [hm, hd, PthreadState.setMutex_self]
    exact ⟨rfl, hdepth, rfl⟩
  · exact (howned.mutex m).type_eq

/-- Recursive mutexes, and threads that are in no call. -/
def newMutexes : PthreadState where
  mutexes := fun _ => { m_flags := mutexRecursive }
  conds := fun _ => {}
  threads := fun _ => {}
  depth := fun _ _ => 0

theorem newMutexes_isNew : newMutexes.IsNew :=
  ⟨fun _ => ⟨rfl, rfl, rfl⟩, fun _ => rfl, fun _ => rfl, fun _ _ => rfl⟩

theorem mutex_run_sample : ∃ st : PthreadState, (st.mutexes 0).m_owner = some 5 ∧ st.depth 5 0 = 2 ∧
    (st.mutexes 0).m_count + 1 = st.depth 5 0 := by
  have hstart : Run (· = newMutexes) PthreadState.Steps (fun _ _ => True) newMutexes := .start rfl
  have hrun := Run.ofList [.lock 5 0 .infinite, .advance 5 false, .advance 5 false, .advance 5 false,
    .advance 5 false, .trylock 5 0, .advance 5 false] hstart rfl
  exact ⟨_, by decide, by decide, (mutex_run newMutexes_isNew hrun).2.1 0 5 (by decide)⟩

/-- An unlock clears the owner before it gives `m_lock` back. -/
theorem mutex_unlock_window : ∃ st : PthreadState, Run (· = newMutexes) PthreadState.Steps (fun _ _ => True) st ∧
    (st.mutexes 0).m_lock = some 5 ∧ (st.mutexes 0).m_owner = none ∧
    (st.threads 5).pc = .unlockRelease 0 false none := by
  have hstart : Run (· = newMutexes) PthreadState.Steps (fun _ _ => True) newMutexes := .start rfl
  have hrun := Run.ofList [.lock 5 0 .infinite, .advance 5 false, .advance 5 false, .advance 5 false,
    .advance 5 false, .unlock 5 0, .advance 5 false] hstart rfl
  exact ⟨_, hrun, by decide, by decide, by decide⟩

end ShadPS4.Kernel
