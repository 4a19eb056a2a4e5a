import ShadPS4.Kernel.EqueueRuns

/-!
# High resolution timers

A timer is kept in `m_small_timers` or in `m_events`, by its interval, and `sceKernelDeleteHRTimerEvent` looks into
one of the two: into `m_small_timers` whenever that is not empty.
-/

namespace ShadPS4.Kernel

open List
open Option (some.inj)

/-! ## Intervals -/

/-- The 64-bit integer of a sum or a product. -/
def s64 (x : ℤ) : ℤ := Int.bmod x (2^64)

theorem s64_of_lt (h : -2^63 ≤ x) (h' : x < 2^63) : s64 x = x := by
  exact Int.bmod_eq_of_le (by omega) (by omega)

structure OrbisKernelTimespec where
  tv_sec : ℤ
  tv_nsec : ℤ

def OrbisKernelTimespec.nanoseconds (ts : OrbisKernelTimespec) : ℤ := ts.tv_sec * 1000000000 + ts.tv_nsec

/-- The bintime that `sceKernelAddHRTimerEvent` makes. -/
def OrbisKernelTimespec.bintime (ts : OrbisKernelTimespec) : OrbisKernelBintime where
  sec := ts.tv_sec
  frac := s64 (ts.tv_nsec * 0x44b82fa09)

/-- The interval that `AddEvent` and `AddSmallTimer` read from a bintime, in 64-bit words. -/
def OrbisKernelBintime.interval (time : OrbisKernelBintime) : ℤ :=
  let tv_nsec := s64 ((1000000000 : ℤ) * (time.frac >>> (32 : ℕ))) >>> (32 : ℕ)
  s64 (tv_nsec + s64 (time.sec * 1000000000))

/-- A value of a signed 64-bit word. -/
def IsS64 (x : ℤ) : Prop := -2^63 ≤ x ∧ x < 2^63

/-- No product on the way from a timespec to the interval leaves its word. -/
structure OrbisKernelTimespec.Fits (ts : OrbisKernelTimespec) : Prop where
  frac : IsS64 (ts.tv_nsec * 0x44b82fa09)
  tv_nsec : IsS64 ((1000000000 : ℤ) * (ts.bintime.frac >>> (32 : ℕ)))
  tv_sec : IsS64 (ts.bintime.sec * 1000000000)

namespace OrbisKernelTimespec

variable {ts : OrbisKernelTimespec}

theorem frac_bintime (h : 0 ≤ ts.tv_nsec) (h' : ts.tv_nsec < 1000000000) :
    ts.bintime.frac = if ts.tv_nsec ≤ 500000000 then ts.tv_nsec * 0x44b82fa09
      else ts.tv_nsec * 0x44b82fa09 - 2^64 := by
  unfold bintime s64
  dsimp only
  rw [Int.bmod_def]
  split_ifs <;> omega

theorem shiftRight_bounds (x : ℤ) : (x >>> (32 : ℕ)) * 2^32 ≤ x ∧ x < (x >>> (32 : ℕ)) * 2^32 + 2^32 := by
  rw [Int.shiftRight_eq_div_pow]
  omega

theorem interval_bintime (hsec : 0 ≤ ts.tv_sec) (hsec' : ts.tv_sec < 2^31) (hnsec : 0 ≤ ts.tv_nsec)
    (hnsec' : ts.tv_nsec < 1000000000) : ∃ lost, 0 ≤ lost ∧ lost ≤ 1 ∧ lost ≤ ts.tv_nsec ∧
      ts.bintime.interval = ts.nanoseconds - lost - if ts.tv_nsec ≤ 500000000 then 0 else 1000000000 := by
  have hfrac := frac_bintime hnsec hnsec'
  have hsecs : s64 (ts.bintime.sec * 1000000000) = ts.tv_sec * 1000000000 := by
    apply s64_of_lt <;> simp only [bintime] <;> omega
  -- The two shifts round down.
  have hq := shiftRight_bounds ts.bintime.frac
  set q := ts.bintime.frac >>> (32 : ℕ) with hq_def
  have hword : s64 ((1000000000 : ℤ) * q) = 1000000000 * q := by
    apply s64_of_lt <;> split_ifs at hfrac <;> omega
  have hn := shiftRight_bounds ((1000000000 : ℤ) * q)
  set n := ((1000000000 : ℤ) * q) >>> (32 : ℕ)
  have hinterval : ts.bintime.interval = n + ts.tv_sec * 1000000000 := by
    unfold OrbisKernelBintime.interval
    rw [hsecs, ← hq_def, hword]
    apply s64_of_lt <;> split_ifs at hfrac <;> omega
  have hlost : 0 ≤ ts.nanoseconds - (if ts.tv_nsec ≤ 500000000 then 0 else 1000000000) -
      ts.bintime.interval ∧ ts.nanoseconds - (if ts.tv_nsec ≤ 500000000 then 0 else 1000000000) -
      ts.bintime.interval ≤ min 1 ts.tv_nsec := by
    unfold nanoseconds
    split_ifs at hfrac ⊢ <;> omega
  exact ⟨_, hlost.1, by omega, by omega, by omega⟩

/-- The interval is that of the timespec, and nothing overflows, exactly when the nanoseconds are no more
than half a second: the fraction of more does not fit in 63 bits. -/
theorem interval_bintime_iff (hsec : 0 ≤ ts.tv_sec) (hsec' : ts.tv_sec < 2^31) (hnsec : 0 ≤ ts.tv_nsec)
    (hnsec' : ts.tv_nsec < 1000000000) :
    (0 ≤ ts.bintime.interval ∧ (ts.bintime.interval - ts.nanoseconds).natAbs < 2 ∧ ts.Fits) ↔
      ts.tv_nsec ≤ 500000000 := by
  obtain ⟨lost, hlost, hlost', hle, hinterval⟩ := interval_bintime hsec hsec' hnsec hnsec'
  have hfrac := frac_bintime hnsec hnsec'
  constructor
  · rintro ⟨-, -, hfits⟩
    have hlt := hfits.frac.2
    omega
  · intro hhalf
    rw [if_pos hhalf] at hinterval hfrac
    have hq := shiftRight_bounds ts.bintime.frac
    unfold nanoseconds at hinterval ⊢
    refine ⟨by omega, by omega, ⟨?_, ?_, ?_⟩⟩ <;> unfold IsS64
    · omega
    · omega
    · exact ⟨by simp only [bintime]; omega, by simp only [bintime]; omega⟩

theorem interval_bintime_iff_sample : let ts : OrbisKernelTimespec := ⟨1, 250000000⟩
    (0 ≤ ts.bintime.interval ∧ (ts.bintime.interval - ts.nanoseconds).natAbs < 2 ∧ ts.Fits) ↔
      ts.tv_nsec ≤ 500000000 :=
  interval_bintime_iff (by decide) (by decide) (by decide) (by decide)

theorem interval_bintime_negative : let ts : OrbisKernelTimespec := ⟨0, 999999999⟩
    ¬ (0 ≤ ts.bintime.interval ∧ (ts.bintime.interval - ts.nanoseconds).natAbs < 2 ∧ ts.Fits) := by
  intro ts h
  exact absurd h.1 (by decide)

end OrbisKernelTimespec

/-! ## Adding and deleting -/

/-- The interval is below the threshold of the loop that spins. -/
def OrbisKernelTimespec.isSmall (ts : OrbisKernelTimespec) : Bool :=
  s64 (s64 (ts.tv_sec * 1000000000) + ts.tv_nsec) < 1200000

namespace Equeue

variable {st st' : Equeue} {t : ℕ}

/-- `sceKernelAddHRTimerEvent`. The data of the event is the address of the bintime. -/
def addHRTimerEvent (st : Equeue) (id : BitVec 32) (ts : OrbisKernelTimespec) (data udata : BitVec 64) : Equeue :=
  let event : OrbisKernelEvent := {
    ident := id.signExtend 64, filter := .hrTimer, flags := eventAdd ||| eventOneShot
    fflags := 0, data, udata }
  if ts.isSmall then st.addSmallTimer event ts.bintime
  else st.addEvent { event } ts.bintime

/-- `sceKernelDeleteHRTimerEvent`, with whether it returns `ORBIS_OK`. -/
def deleteHRTimerEvent (st : Equeue) (id : BitVec 32) : Bool × Equeue :=
  let ident := id.signExtend 64
  if st.m_small_timers ≠ [] then
    (st.m_small_timers.any (·.event.ident = ident), st.removeSmallTimer ident)
  else (st.m_events.any (·.key = (ident, .hrTimer)), st.removeEvent ident .hrTimer)

/-- The identifiers of the timers that are not yet delivered. -/
def hrTimers (st : Equeue) : List (BitVec 64) :=
  st.m_small_timers.map (·.event.ident) ++
    (st.m_events.filter (·.event.filter = .hrTimer)).map (·.event.ident)

/-- The call deletes what there is: it succeeds when there is a timer, none is left, and a call that
fails changes nothing. -/
structure Deletes (st : Equeue) (id : BitVec 32) : Prop where
  result : (st.deleteHRTimerEvent id).1 = true ↔ id.signExtend 64 ∈ st.hrTimers
  none_left : id.signExtend 64 ∉ (st.deleteHRTimerEvent id).2.hrTimers
  unchanged : (st.deleteHRTimerEvent id).1 = false → (st.deleteHRTimerEvent id).2 = st

theorem mem_hrTimers : ident ∈ st.hrTimers ↔
    (∃ tm ∈ st.m_small_timers, tm.event.ident = ident) ∨ ∃ e ∈ st.m_events, e.key = (ident, .hrTimer) := by
  unfold hrTimers EqueueEvent.key
  simp only [mem_append, mem_map, mem_filter, decide_eq_true_eq, Prod.mk.injEq]
  constructor
  · rintro (h | ⟨e, ⟨he, hfilter⟩, hident⟩)
    · exact .inl h
    · exact .inr ⟨e, he, hident, hfilter⟩
  · rintro (h | ⟨e, he, hident, hfilter⟩)
    · exact .inl h
    · exact .inr ⟨e, ⟨he, hfilter⟩, hident⟩

theorem not_mem_eraseP (h : st.Wf) (he : e ∈ st.m_events.eraseP (·.key = key)) : e.key ≠ key := by
  intro hkey
  obtain ⟨a, l1, l2, hl1, ha, heq, herase⟩ :=
    exists_of_eraseP (p := fun e => e.key = key) (mem_of_mem_eraseP he)
      (decide_eq_true hkey)
  rw [herase] at he
  have hnodup := h.nodup
  rw [heq, map_append, map_cons, nodup_middle, nodup_cons] at hnodup
  refine hnodup.1 ?_
  rw [← map_append, of_decide_eq_true ha, ← hkey]
  exact mem_map_of_mem he

theorem deletes_iff (h : st.Wf) (id : BitVec 32) : st.Deletes id ↔
    (st.m_small_timers = [] ∨ ∀ e ∈ st.m_events, e.key ≠ (id.signExtend 64, .hrTimer)) := by
  rcases eq_or_ne st.m_small_timers [] with hsmall | hsmall
  · refine iff_of_true ?_ (.inl hsmall)
    have hdelete : st.deleteHRTimerEvent id = (st.m_events.any (·.key = (id.signExtend 64, .hrTimer)),
          st.removeEvent (id.signExtend 64) .hrTimer) := if_neg (not_not.mpr hsmall)
    constructor
    · rw [hdelete, mem_hrTimers, hsmall]
      simp
    · rw [hdelete, mem_hrTimers]
      rintro (⟨tm, htm, -⟩ | ⟨e, he, hkey⟩)
      · rw [show (st.removeEvent _ _).m_small_timers = [] from hsmall] at htm
        cases htm
      · exact not_mem_eraseP h he hkey
    · rw [hdelete]
      intro hnone
      have hsame : st.m_events.eraseP (·.key = (id.signExtend 64, .hrTimer)) = st.m_events :=
        eraseP_of_forall_not (by simpa using hnone)
      unfold removeEvent
      rw [hsame]
  · have hdelete : st.deleteHRTimerEvent id = (st.m_small_timers.any (·.event.ident = id.signExtend 64),
          st.removeSmallTimer (id.signExtend 64)) := if_pos hsmall
    rw [or_iff_right hsmall]
    constructor
    · intro hdeletes e he hkey
      refine hdeletes.none_left ?_
      rw [hdelete, mem_hrTimers]
      exact .inr ⟨e, he, hkey⟩
    · intro hevents
      have hno : ¬ ∃ e ∈ st.m_events, e.key = (id.signExtend 64, .hrTimer) :=
        fun ⟨e, he, hkey⟩ => hevents e he hkey
      constructor
      · rw [hdelete, mem_hrTimers, or_iff_left hno]
        simp
      · rw [hdelete, mem_hrTimers]
        rintro (⟨tm, htm, hident⟩ | hin)
        · exact absurd hident (of_decide_eq_true (mem_filter.mp htm).2)
        · exact hno hin
      · rw [hdelete]
        intro hnone
        have hsame : st.m_small_timers.filter (·.event.ident ≠ id.signExtend 64) =
            st.m_small_timers := filter_eq_self.mpr (by simpa using hnone)
        unfold removeSmallTimer
        rw [hsame]

/-! ## Runs -/

/-- No timer is in both containers. -/
def Apart (st : Equeue) : Prop :=
  ∀ tm ∈ st.m_small_timers, ∀ e ∈ st.m_events, e.key ≠ (tm.event.ident, .hrTimer)

theorem Apart.nodup (h : st.Apart) (hwf : st.Wf) : st.hrTimers.Nodup := by
  have hkeys : ((st.m_events.filter (·.event.filter = .hrTimer)).map (·.event.ident)).map
      (fun ident => (ident, EventFilter.hrTimer)) =
      (st.m_events.filter (·.event.filter = .hrTimer)).map EqueueEvent.key := by
    rw [map_map]
    apply map_congr_left
    intro e he
    exact Prod.ext rfl (of_decide_eq_true (mem_filter.mp he).2).symm
  refine nodup_append.mpr ⟨hwf.timers, .of_map (fun ident => (ident, EventFilter.hrTimer)) ?_, ?_⟩
  · rw [hkeys]
    exact hwf.nodup.sublist (filter_sublist.map _)
  · rintro a ha b hb rfl
    obtain ⟨tm, htm, rfl⟩ := mem_map.mp ha
    obtain ⟨e, he, hident⟩ := mem_map.mp hb
    have he := mem_filter.mp he
    exact h tm htm e he.1 (Prod.ext hident (of_decide_eq_true he.2))

/-- The timers of the second state were in the first one. -/
structure Shrinks (st st' : Equeue) : Prop where
  timers : ∀ tm ∈ st'.m_small_timers, tm ∈ st.m_small_timers
  events : ∀ e' ∈ st'.m_events, ∃ e ∈ st.m_events, e.key = e'.key

theorem Shrinks.same (hevents : st'.m_events = st.m_events)
    (htimers : st'.m_small_timers = st.m_small_timers) : st.Shrinks st' :=
  ⟨fun _ htm => htimers ▸ htm, fun e he => ⟨e, hevents ▸ he, rfl⟩⟩

theorem Apart.shrinks (h : st.Apart) (hs : st.Shrinks st') : st'.Apart := by
  intro tm htm e' he' hkey
  obtain ⟨e, he, heq⟩ := hs.events e' he'
  exact h tm (hs.timers tm htm) e he (heq.trans hkey)

theorem deliver_shrinks (hnum : 1 ≤ num) : st.Shrinks (st.deliver t num) := by
  obtain ⟨scanned, rest, heq, -, hleft, -, -⟩ := getTriggeredEvents_spec 0 st.m_events hnum
  constructor
  · exact fun _ => id
  · intro e' (he' : e' ∈ (getTriggeredEvents num 0 st.m_events).2)
    rw [hleft] at he'
    rw [heq]
    rcases mem_append.mp he' with hin | hin
    · obtain ⟨e, he, hscan⟩ := mem_filterMap.mp hin
      refine ⟨e, mem_append_left _ he, ?_⟩
      unfold EqueueEvent.scan at hscan
      split_ifs at hscan
      · exact (EqueueEvent.collect_eq hscan).1.symm
      · rw [some.inj hscan]
    · exact ⟨e', mem_append_right _ hin, rfl⟩

theorem smallCheck_shrinks
    (hstep : st.smallCheck t num wait_end_us curr_clock order = some st') : st.Shrinks st' := by
  unfold Equeue.smallCheck at hstep
  dsimp only at hstep
  split at hstep
  · cases hstep
  rename_i horder
  rw [not_not, isPerm_iff] at horder
  obtain ⟨delivered, -, -, hperm, -, -⟩ :=
    collectSmallTimers_spec curr_clock 0 order (Nat.zero_le num)
  have hleft (tm : SmallTimer) (htm : tm ∈ (collectSmallTimers curr_clock num 0 order).2) :
      tm ∈ st.m_small_timers := (hperm.trans horder).mem_iff.mp (mem_append_right _ htm)
  split_ifs at hstep
  all_goals
    obtain rfl := some.inj hstep
    exact ⟨hleft, fun e he => ⟨e, he, rfl⟩⟩

theorem advance_shrinks (h : st.Wf) (hstep : st.advance t timed_out order = some st') : st.Shrinks st' := by
  unfold Equeue.advance at hstep
  have hnum := h.num t
  split at hstep <;> rename_i hwait <;> rw [hwait] at hnum
  · cases hstep
  · obtain rfl := some.inj hstep
    unfold waitStart
    split_ifs
    · exact deliver_shrinks (hnum _ rfl)
    · exact .same rfl rfl
    · exact .same rfl rfl
  · unfold waitCond at hstep
    split_ifs at hstep
    all_goals obtain rfl := some.inj hstep
    · exact deliver_shrinks (hnum _ rfl)
    · exact .same rfl rfl
  · exact some.inj hstep ▸ .same rfl rfl
  · exact some.inj hstep ▸ .same rfl rfl
  · exact smallCheck_shrinks hstep

theorem key_of_mem_addEvent
    (he' : e' ∈ (st.addEvent event time).m_events) : e'.key = event.key ∨ ∃ e ∈ st.m_events, e.key = e'.key := by
  unfold addEvent at he'
  dsimp only at he'
  split_ifs at he' with hfound
  · obtain ⟨l1, a, l2, heq, -, hmodify⟩ := exists_of_modify
      (fun e : EqueueEvent => e.update (event.timed st.now time)) hfound
    rw [hmodify] at he'
    rw [heq]
    right
    rcases mem_append.mp he' with hin | hin
    · exact ⟨e', mem_append_left _ hin, rfl⟩
    · rcases mem_cons.mp hin with rfl | hin
      · exact ⟨a, mem_append_right _ mem_cons_self, rfl⟩
      · exact ⟨e', mem_append_right _ (mem_cons_of_mem _ hin), rfl⟩
  · rcases mem_append.mp he' with hin | hin
    · exact .inr ⟨e', hin, rfl⟩
    · rw [mem_singleton.mp hin]
      exact .inl rfl

end Equeue

/-- The steps that collect events: time goes on, a timer is triggered, and threads wait. -/
def EqueueOp.Collects : EqueueOp → Prop
  | .tick _ => True
  | .waitForEvents _ num _ => 1 ≤ num
  | .advance _ _ _ => True
  | .triggerEvent _ filter _ _ => filter = .hrTimer
  | _ => False

inductive HrTimerOp
  | add (id : BitVec 32) (ts : OrbisKernelTimespec) (data udata : BitVec 64)
  | delete (id : BitVec 32)
  | collect (o : EqueueOp)

/-- A step of a run of timers leads to a state. -/
def HrTimerOp.Leads (st : Equeue) : HrTimerOp → Equeue → Prop
  | .add id ts data udata, st' => st' = st.addHRTimerEvent id ts data udata
  | .delete id, st' => st' = (st.deleteHRTimerEvent id).2
  | .collect o, st' => o.Collects ∧ st.step o = some st'

/-- A timer is not added to a container while the other one holds a timer with its identifier. -/
def HrTimerOp.Apart (st : Equeue) : HrTimerOp → Prop
  | .add id ts _ _ =>
    if ts.isSmall then ∀ e ∈ st.m_events, e.key ≠ (id.signExtend 64, .hrTimer)
    else ∀ tm ∈ st.m_small_timers, tm.event.ident ≠ id.signExtend 64
  | _ => True

namespace Equeue

variable {st st' : Equeue}

theorem Apart.collect (h : st.Apart) (hwf : st.Wf) (ho : o.Collects)
    (hstep : st.step o = some st') : st'.Wf ∧ st'.Apart := by
  have hroom : o.HasRoom := by
    cases o <;> first | exact ho | trivial
  refine ⟨hwf.step hroom hstep, h.shrinks ?_⟩
  cases o with
  | tick nanoseconds => exact some.inj hstep ▸ .same rfl rfl
  | waitForEvents t num timo =>
    change st.waitForEvents t num timo = some st' at hstep
    unfold Equeue.waitForEvents at hstep
    split at hstep
    · exact some.inj hstep ▸ .same rfl rfl
    · cases hstep
  | advance t timed_out order => exact advance_shrinks hwf hstep
  | triggerEvent ident filter trigger_data time =>
    obtain rfl := some.inj hstep
    refine ⟨fun _ => id, fun e' he' => ?_⟩
    obtain ⟨e, he, rfl⟩ := mem_map.mp he'
    refine ⟨e, he, ?_⟩
    split_ifs
    · exact (EqueueEvent.triggered_eq ..).1.symm
    · rfl
  | addEvent event time => cases ho
  | removeEvent id filter => cases ho
  | addSmallTimer event time => cases ho
  | removeSmallTimer id => cases ho

theorem Apart.add (h : st.Apart) (hwf : st.Wf) {id : BitVec 32} {ts : OrbisKernelTimespec}
    {data udata : BitVec 64} (hapart : (HrTimerOp.add id ts data udata).Apart st) :
    (st.addHRTimerEvent id ts data udata).Wf ∧ (st.addHRTimerEvent id ts data udata).Apart := by
  unfold HrTimerOp.Apart at hapart
  unfold addHRTimerEvent
  dsimp only at hapart ⊢
  split_ifs at hapart ⊢
  · refine ⟨hwf.addSmallTimer _ _, fun tm htm e he => ?_⟩
    rcases mem_cons.mp htm with rfl | htm
    · exact hapart e he
    · exact h tm (mem_of_mem_filter htm) e he
  · refine ⟨hwf.addEvent rfl _, fun tm (htm : tm ∈ (st.addEvent _ _).m_small_timers) e he hkey => ?_⟩
    have htm : tm ∈ st.m_small_timers := by
      unfold addEvent at htm
      dsimp only at htm
      split_ifs at htm <;> exact htm
    rcases key_of_mem_addEvent he with hnew | ⟨e0, he0, hsame⟩
    · exact hapart tm htm (congrArg Prod.fst (hkey.symm.trans hnew))
    · exact h tm htm e0 he0 (hsame.trans hkey)

theorem Apart.delete (h : st.Apart) (hwf : st.Wf) (id : BitVec 32) :
    (st.deleteHRTimerEvent id).2.Wf ∧ (st.deleteHRTimerEvent id).2.Apart := by
  unfold deleteHRTimerEvent
  split_ifs
  · exact ⟨hwf.removeSmallTimer _, h.shrinks ⟨fun _ => mem_of_mem_filter, fun e he => ⟨e, he, rfl⟩⟩⟩
  · exact ⟨hwf.removeEvent _ _, h.shrinks ⟨fun _ htm => htm,
      fun e he => ⟨e, mem_of_mem_eraseP he, rfl⟩⟩⟩

/-- In every run in which no timer is added to a container while the other one holds a timer with its
identifier, there is at most one timer with an identifier, and a call deletes what there is exactly
when there are no small timers, or the timer is not an event. -/
theorem hrTimer_run {st₀ : Equeue} (hnew : st₀.IsNew)
    (h : Run (· = st₀) HrTimerOp.Leads (fun st o => o.Apart st) st) : st.hrTimers.Nodup ∧ ∀ id, st.Deletes id ↔
      (st.m_small_timers = [] ∨ ∀ e ∈ st.m_events, e.key ≠ (id.signExtend 64, .hrTimer)) := by
  have hkept : st.Wf ∧ st.Apart := by
    apply h.invariant
    · rintro s rfl
      obtain ⟨hevents, htimers, hwaits⟩ := hnew
      refine ⟨⟨by simp [hevents], by simp [hevents], by simp [htimers], fun t n hn => ?_⟩, ?_⟩
      · rw [hwaits] at hn
        cases hn
      · intro tm htm
        rw [htimers] at htm
        cases htm
    · intro s o s' ⟨hwf, hs⟩ hguard hstep
      cases o with
      | add id ts data udata => exact hstep ▸ hs.add hwf hguard
      | delete id => exact hstep ▸ hs.delete hwf id
      | collect o => exact hs.collect hwf hstep.1 hstep.2
  exact ⟨hkept.2.nodup hkept.1, deletes_iff hkept.1⟩

def longTimer : Equeue := addHRTimerEvent {} 1 ⟨2, 0⟩ 0 0

theorem hrTimer_run_sample : longTimer.hrTimers.Nodup ∧ ∀ id, longTimer.Deletes id ↔
    (longTimer.m_small_timers = [] ∨ ∀ e ∈ longTimer.m_events, e.key ≠ (id.signExtend 64, .hrTimer)) :=
  @hrTimer_run longTimer {} ⟨rfl, rfl, fun _ => rfl⟩ (.step (o := .add 1 ⟨2, 0⟩ 0 0) (.start rfl)
    (fun tm htm => by cases htm) rfl)

/-- A short timer hides a long one from the call that deletes it, and a short timer with the identifier
of a long one is a second timer with it. -/
theorem hrTimer_hidden : ¬ (longTimer.addHRTimerEvent 2 ⟨0, 100000⟩ 0 0).Deletes 1 ∧
    ¬ (longTimer.addHRTimerEvent 1 ⟨0, 100000⟩ 0 0).hrTimers.Nodup := by
  constructor
  · intro h
    exact absurd (h.result.mpr (by decide)) (by decide)
  · decide

end Equeue

end ShadPS4.Kernel
