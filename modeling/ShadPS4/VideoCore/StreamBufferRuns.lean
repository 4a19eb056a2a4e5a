import ShadPS4.VideoCore.StreamBuffer

/-!
# Runs of a stream buffer

A range that `Map` hands out is in the buffer, is aligned, and meets no range whose work is still being done.
-/

namespace ShadPS4.VideoCore

open Function

open StreamBuffer

variable {σ : Type} {S : Scheduler σ} {st st' : StreamState σ} {size alignment lower : ℕ}
  {allow_wait : Bool}

theorem alignUp_dvd (hv : value < 2^64) (ha : alignment < 2^64)
    (h : value ≤ alignUp value alignment) : alignment ∣ alignUp value alignment := by
  unfold alignUp at h ⊢
  simp only at h ⊢
  split_ifs at h ⊢ with hm
  · exact Nat.dvd_of_mod_eq_zero hm
  · have hmod : value - value % alignment + alignment < 2^64 := by
      unfold add64 at h
      omega
    rw [add64_of_lt hmod]
    exact Nat.dvd_add (Nat.dvd_sub_mod value) (dvd_refl _)

theorem alignUp_zero (alignment : ℕ) : alignUp 0 alignment = 0 := by
  simp [alignUp]

/-! ## What is kept -/

/-- What holds between the calls. -/
structure StreamInv (S : Scheduler σ) (st : StreamState σ) : Prop where
  size_lt : st.buffer.size_bytes < 2^64
  offset_le : st.buffer.offset ≤ st.buffer.size_bytes
  started : 0 < st.buffer.offset → 0 < st.buffer.current_watch_cursor
  current_size : st.buffer.current_watch_cursor < st.buffer.current_watches.size
  previous_size : 0 < st.buffer.previous_watches.size ∧ ∀ mark,
    st.buffer.invalidation_mark = some mark → mark < st.buffer.previous_watches.size
  current_tick : ∀ i, (st.buffer.current_watches.watch i).tick ≤ S.currentTick st.scheduler
  previous_tick : ∀ i, ∀ j < st.buffer.current_watch_cursor,
    (st.buffer.previous_watches.watch i).tick ≤ (st.buffer.current_watches.watch j).tick
  previous_tick_le : ∀ i, (st.buffer.previous_watches.watch i).tick ≤ S.currentTick st.scheduler
  current_sorted : ∀ i j, i ≤ j → j < st.buffer.current_watch_cursor →
    (st.buffer.current_watches.watch i).upper_bound ≤
      (st.buffer.current_watches.watch j).upper_bound
  current_le : ∀ i < st.buffer.current_watch_cursor,
    (st.buffer.current_watches.watch i).upper_bound ≤ st.buffer.offset
  previous_sorted : ∀ mark, st.buffer.invalidation_mark = some mark → 0 < mark ∧
    ∀ i j, i ≤ j → j < mark → (st.buffer.previous_watches.watch i).upper_bound ≤
      (st.buffer.previous_watches.watch j).upper_bound
  stale_le : ∀ mark, st.buffer.invalidation_mark = some mark →
    ∀ i, st.buffer.current_watch_cursor ≤ i → ∀ j < mark,
      (st.buffer.current_watches.watch i).tick ≤ (st.buffer.previous_watches.watch j).tick
  stale_lt : st.buffer.invalidation_mark = none ∨ 0 < st.buffer.wait_cursor →
    ∀ i, st.buffer.current_watch_cursor ≤ i →
      (st.buffer.current_watches.watch i).tick < S.currentTick st.scheduler
  idle : st.buffer.invalidation_mark ≠ none → st.buffer.wait_cursor = 0 → st.buffer.offset = 0
  wait_le : ∀ mark, st.buffer.invalidation_mark = some mark → st.buffer.wait_cursor ≤ mark
  wait_zero : st.buffer.wait_cursor = 0 → st.buffer.wait_bound = 0
  wait_bound : 0 < st.buffer.wait_cursor → st.buffer.wait_bound =
    (st.buffer.previous_watches.watch (st.buffer.wait_cursor - 1)).upper_bound
  waited : ∀ j < st.buffer.wait_cursor, ∀ t ≤ (st.buffer.previous_watches.watch j).tick,
    S.complete st.scheduler t = true
  current_ranges : st.current.Pairwise (fun r r' => r'.upper ≤ r.lower) ∧
    ∀ r ∈ st.current, r.upper ≤ st.buffer.offset
  current_watched : ∀ r ∈ st.current, r.lower < r.upper → ∃ i < st.buffer.current_watch_cursor,
    r.tick ≤ (st.buffer.current_watches.watch i).tick ∧
      ∀ k < i, (st.buffer.current_watches.watch k).upper_bound ≤ r.lower
  previous_watched : ∀ r ∈ st.previous, r.lower < r.upper →
    ∃ mark, st.buffer.invalidation_mark = some mark ∧ ∃ i < mark,
      r.tick ≤ (st.buffer.previous_watches.watch i).tick ∧
        ∀ k < i, (st.buffer.previous_watches.watch k).upper_bound ≤ r.lower
  older_le : ∀ r ∈ st.older, ∃ mark, st.buffer.invalidation_mark = some mark ∧
    ∀ j < mark, r.tick ≤ (st.buffer.previous_watches.watch j).tick
  past_le : ∀ r ∈ st.previous ++ st.older, ∀ j < st.buffer.current_watch_cursor,
    r.tick ≤ (st.buffer.current_watches.watch j).tick
  range_tick : ∀ r ∈ st.committed, r.tick ≤ S.currentTick st.scheduler

theorem StreamInv.isNew (hS : S.Lawful) (h : st.IsNew) : StreamInv S st := by
  obtain ⟨size_bytes, is_coherent, usage, atom, s, hsize, rfl⟩ := h
  have hpos := hS.currentTick_pos s
  have hnew : ∀ i, ((reserveWatches {} watchesInitialReserve).watch i).tick = 0 := by
    simp [reserveWatches]
  have hreserved : (reserveWatches {} watchesInitialReserve).size = watchesInitialReserve := rfl
  constructor <;> simp [hnew, hreserved, StreamState.committed] <;> omega

theorem StreamInv.later (h : StreamInv S st) (hlater : S.Later st.scheduler s') :
    StreamInv S { st with scheduler := s' } := by
  obtain ⟨htick, hcomplete⟩ := hlater
  exact { h with
    current_tick := fun i => le_trans (h.current_tick i) htick
    previous_tick_le := fun i => le_trans (h.previous_tick_le i) htick
    stale_lt := fun hw i hi => lt_of_lt_of_le (h.stale_lt hw i hi) htick
    waited := fun j hj t ht => hcomplete t (h.waited j hj t ht)
    range_tick := fun r hr => le_trans (h.range_tick r hr) htick }

/-! ## `Map` -/

/-- A state in which `Map` looks for a range. -/
def StreamState.prepare (st : StreamState σ) (size alignment : ℕ) : StreamState σ :=
  let st' : StreamState σ := { st with buffer := st.buffer.prepare size alignment }
  if st.buffer.overflows size alignment then
    { st' with current := [], previous := st.current, older := st.previous ++ st.older }
  else st'

theorem StreamInv.align (h : StreamInv S st) (hwrap : st.buffer.offset ≤ st.buffer.alignedOffset alignment)
    (hle : st.buffer.alignedOffset alignment ≤ st.buffer.size_bytes) (mapped_size : ℕ) : StreamInv S { st with
      buffer := { st.buffer with mapped_size, offset := st.buffer.alignedOffset alignment } } := by
  have hzero : st.buffer.offset = 0 → st.buffer.alignedOffset alignment = 0 := by
    intro h0
    simp [StreamBuffer.alignedOffset, h0, alignUp_zero]
  exact { h with
    offset_le := hle
    started := by
      intro hpos
      apply h.started
      by_contra hnot
      exact hpos.ne' (hzero (by omega))
    current_le := fun i hi => le_trans (h.current_le i hi) hwrap
    idle := fun hm hw => hzero (h.idle hm hw)
    current_ranges := ⟨h.current_ranges.1, fun r hr => le_trans (h.current_ranges.2 r hr) hwrap⟩ }

theorem StreamInv.wrap (h : StreamInv S st) (hpos : 0 < st.buffer.offset) (mapped_size offset : ℕ) :
    StreamInv S { st with
      buffer := StreamBuffer.wrap { st.buffer with mapped_size, offset }
      current := []
      previous := st.current
      older := st.previous ++ st.older } where
  size_lt := h.size_lt
  offset_le := Nat.zero_le _
  started := fun hpos => absurd hpos (Nat.lt_irrefl 0)
  current_size := h.previous_size.1
  previous_size := by
    refine ⟨lt_of_le_of_lt (Nat.zero_le _) h.current_size, ?_⟩
    rintro mark ⟨⟩
    exact h.current_size
  current_tick := h.previous_tick_le
  previous_tick := fun _ _ hj => absurd hj (Nat.not_lt_zero _)
  previous_tick_le := h.current_tick
  current_sorted := fun _ _ _ hj => absurd hj (Nat.not_lt_zero _)
  current_le := fun _ hi => absurd hi (Nat.not_lt_zero _)
  previous_sorted := by
    rintro mark ⟨⟩
    exact ⟨h.started hpos, h.current_sorted⟩
  stale_le := by
    rintro mark ⟨⟩ i - j hj
    exact h.previous_tick i j hj
  stale_lt := by
    rintro (hnone | hwait)
    · cases hnone
    · exact absurd hwait (Nat.lt_irrefl 0)
  idle := fun _ _ => rfl
  wait_le := fun _ _ => Nat.zero_le _
  wait_zero := fun _ => rfl
  wait_bound := fun hwait => absurd hwait (Nat.lt_irrefl 0)
  waited := fun _ hj => absurd hj (Nat.not_lt_zero _)
  current_ranges := ⟨.nil, by simp⟩
  current_watched := by simp
  previous_watched := fun r hr hlt => ⟨_, rfl, h.current_watched r hr hlt⟩
  older_le := fun r hr => ⟨_, rfl, fun j hj => h.past_le r hr j hj⟩
  past_le := fun _ _ _ hj => absurd hj (Nat.not_lt_zero _)
  range_tick := by
    intro r hr
    apply h.range_tick r
    simpa [StreamState.committed, or_assoc] using hr

theorem StreamInv.prepare (h : StreamInv S st) (hwrap : st.buffer.NoWrap size alignment)
    (hsize : st.buffer.alignedSize size ≤ st.buffer.size_bytes) : StreamInv S (st.prepare size alignment) ∧
      (st.prepare size alignment).buffer.mapped_size = st.buffer.alignedSize size ∧
      (st.prepare size alignment).buffer.size_bytes = st.buffer.size_bytes ∧
      (st.prepare size alignment).buffer.offset + st.buffer.alignedSize size ≤ st.buffer.size_bytes ∧
      (0 < alignment → alignment < 2^64 → alignment ∣ (st.prepare size alignment).buffer.offset) := by
  obtain ⟨-, hoffset, hsum⟩ := hwrap
  have hword := lt_of_le_of_lt h.offset_le h.size_lt
  have hadd := add64_of_lt hsum
  unfold StreamState.prepare StreamBuffer.prepare
  rcases hover : st.buffer.overflows size alignment with _ | _
  · have hle : st.buffer.alignedOffset alignment + st.buffer.alignedSize size ≤ st.buffer.size_bytes := by
      simpa [StreamBuffer.overflows, hadd] using hover
    refine ⟨h.align hoffset (by omega) _, rfl, rfl, hle, ?_⟩
    intro hpos ha
    unfold StreamBuffer.alignedOffset at hoffset
    rw [if_pos hpos] at hoffset
    unfold StreamBuffer.alignedOffset
    rw [if_pos hpos]
    exact alignUp_dvd hword ha hoffset
  · have hlt : st.buffer.size_bytes < st.buffer.alignedOffset alignment + st.buffer.alignedSize size := by
      simpa [StreamBuffer.overflows, hadd] using hover
    have hpos : 0 < st.buffer.offset := by
      by_contra hnot
      have h0 : st.buffer.offset = 0 := by omega
      simp only [StreamBuffer.alignedOffset, h0, alignUp_zero, ite_self] at hlt
      omega
    refine ⟨h.wrap hpos _ _, rfl, rfl, ?_, fun _ _ => dvd_zero _⟩
    show 0 + _ ≤ _
    omega

theorem StreamInv.waitWatch (hS : S.Lawful) (h : StreamInv S st)
    (hmark : st.buffer.invalidation_mark = some mark) (hlt : st.buffer.wait_cursor < mark)
    (hlater : S.Later st.scheduler s) : StreamInv S { st with
      buffer := { st.buffer with
        wait_bound := (st.buffer.previous_watches.watch st.buffer.wait_cursor).upper_bound
        wait_cursor := st.buffer.wait_cursor + 1 }
      scheduler := S.wait (st.buffer.previous_watches.watch st.buffer.wait_cursor).tick s } := by
  set tick := (st.buffer.previous_watches.watch st.buffer.wait_cursor).tick with htick
  have hlate : S.Later st.scheduler (S.wait tick s) := by
    have hwait := hS.wait_later tick s
    exact ⟨le_trans hlater.1 hwait.1, fun t ht => hwait.2 t (hlater.2 t ht)⟩
  have hl := h.later hlate
  have hwaited : ∀ j < st.buffer.wait_cursor + 1,
      ∀ t ≤ (st.buffer.previous_watches.watch j).tick, S.complete (S.wait tick s) t = true := by
    intro j hj t ht
    rcases Nat.lt_succ_iff_lt_or_eq.mp hj with hj | rfl
    · exact hl.waited j hj t ht
    · exact hS.wait_complete tick s t ht
  exact { hl with
    stale_lt := by
      rintro - i hi
      -- The first watch was waited for, and no stale watch has a later tick.
      calc (st.buffer.current_watches.watch i).tick
          ≤ (st.buffer.previous_watches.watch 0).tick := h.stale_le mark hmark i hi 0 (by omega)
        _ < S.currentTick (S.wait tick s) :=
          hS.complete_lt _ _ (hwaited 0 (Nat.succ_pos _) _ le_rfl)
    idle := fun _ hw => absurd hw (Nat.succ_ne_zero _)
    wait_le := by
      intro mark' hmark'
      have heq : mark = mark' := Option.some.inj (hmark.symm.trans hmark')
      show st.buffer.wait_cursor + 1 ≤ mark'
      omega
    wait_zero := fun hw => absurd hw (Nat.succ_ne_zero _)
    wait_bound := fun _ => rfl
    waited := hwaited }

/-- What the loop leaves: the same buffer but for what was waited for, and when it is not given up the
watches below the bound were waited for. -/
structure Waited (S : Scheduler σ) (st : StreamState σ) (bound : ℕ) (result : Bool)
    (st' : StreamState σ) : Prop where
  inv : StreamInv S st'
  ranges : st'.current = st.current ∧ st'.previous = st.previous ∧ st'.older = st.older
  buffer : st'.buffer.offset = st.buffer.offset ∧ st'.buffer.mapped_size = st.buffer.mapped_size ∧
    st'.buffer.size_bytes = st.buffer.size_bytes ∧
    st'.buffer.invalidation_mark = st.buffer.invalidation_mark
  bound : result = true → ∀ mark, st.buffer.invalidation_mark = some mark →
    bound ≤ st'.buffer.wait_bound ∨ st'.buffer.wait_cursor = mark

theorem waitWatches_spec (hS : S.Lawful) (bound left : ℕ) (h : StreamInv S st)
    (hmark : st.buffer.invalidation_mark = some mark) (hleft : left = mark - st.buffer.wait_cursor) :
    Waited S st bound (waitWatches S bound allow_wait left st.buffer st.scheduler).1 { st with
        buffer := (waitWatches S bound allow_wait left st.buffer st.scheduler).2.1
        scheduler := (waitWatches S bound allow_wait left st.buffer st.scheduler).2.2 } := by
  induction left generalizing st with
  | zero =>
    refine ⟨h, ⟨rfl, rfl, rfl⟩, ⟨rfl, rfl, rfl, rfl⟩, fun _ mark' hmark' => .inr ?_⟩
    have heq : mark = mark' := Option.some.inj (hmark.symm.trans hmark')
    have hle := h.wait_le mark hmark
    show st.buffer.wait_cursor = mark'
    omega
  | succ left ih =>
    unfold waitWatches
    dsimp only
    split_ifs with hbound hgive
    · have hlater := h.later (hS.isFree_later
        (st.buffer.previous_watches.watch st.buffer.wait_cursor).tick st.scheduler)
      exact ⟨hlater, ⟨rfl, rfl, rfl⟩, ⟨rfl, rfl, rfl, rfl⟩, fun hfalse => absurd hfalse (by simp)⟩
    · have hnext := h.waitWatch hS hmark (by omega) (hS.isFree_later
        (st.buffer.previous_watches.watch st.buffer.wait_cursor).tick st.scheduler)
      have hrec := ih hnext hmark (by
        show left = mark - (st.buffer.wait_cursor + 1)
        omega)
      exact ⟨hrec.inv, hrec.ranges, hrec.buffer, hrec.bound⟩
    · exact ⟨h, ⟨rfl, rfl, rfl⟩, ⟨rfl, rfl, rfl, rfl⟩, fun _ _ _ => .inl (not_lt.mp hbound)⟩

theorem waitPendingOperations_spec (hS : S.Lawful) (bound : ℕ) (allow_wait : Bool) (h : StreamInv S st) :
    Waited S st bound (waitPendingOperations S st.buffer st.scheduler bound allow_wait).1 { st with
        buffer := (waitPendingOperations S st.buffer st.scheduler bound allow_wait).2.1
        scheduler := (waitPendingOperations S st.buffer st.scheduler bound allow_wait).2.2 } := by
  unfold waitPendingOperations
  rcases hmark : st.buffer.invalidation_mark with _ | mark
  · refine ⟨h, ⟨rfl, rfl, rfl⟩, ⟨rfl, rfl, rfl, rfl⟩, fun _ mark' hmark' => ?_⟩
    rw [hmark] at hmark'
    cases hmark'
  · exact waitWatches_spec hS bound _ h hmark rfl

theorem afterMap_spec (allow_wait : Bool) (hS : S.Lawful) (h : StreamInv S st) (hwrap : st.buffer.NoWrap size alignment)
    (hsize : st.buffer.alignedSize size ≤ st.buffer.size_bytes) : Waited S (st.prepare size alignment)
      ((st.prepare size alignment).buffer.offset + st.buffer.alignedSize size)
      (st.buffer.map S st.scheduler size alignment allow_wait).1.isSome (st.afterMap S size alignment allow_wait) ∧
    ∀ lower, (st.buffer.map S st.scheduler size alignment allow_wait).1 = some lower →
      lower = (st.prepare size alignment).buffer.offset := by
  obtain ⟨hinv, hmapped, hbytes, hend, -⟩ := h.prepare hwrap hsize
  have hspec := waitPendingOperations_spec hS
    ((st.prepare size alignment).buffer.offset + st.buffer.alignedSize size) allow_wait hinv
  have hbuffer : (st.prepare size alignment).buffer = st.buffer.prepare size alignment := by
    unfold StreamState.prepare
    split_ifs <;> rfl
  have hscheduler : (st.prepare size alignment).scheduler = st.scheduler := by
    unfold StreamState.prepare
    split_ifs <;> rfl
  have hadd : add64 (st.buffer.prepare size alignment).offset (st.buffer.prepare size alignment).mapped_size =
      (st.prepare size alignment).buffer.offset + st.buffer.alignedSize size := by
    rw [← hbuffer, hmapped]
    exact add64_of_lt (lt_of_le_of_lt hend h.size_lt)
  unfold StreamState.afterMap StreamBuffer.map
  rw [if_neg (not_lt.mpr hsize)]
  dsimp only
  rw [hadd]
  rw [hscheduler, hbuffer] at hspec
  rw [hbuffer]
  generalize hwaited : waitPendingOperations S (st.buffer.prepare size alignment) st.scheduler
    ((st.buffer.prepare size alignment).offset + st.buffer.alignedSize size) allow_wait = waited
  rw [hwaited] at hspec
  constructor
  · convert hspec using 1
    · rcases waited.1 <;> rfl
    · unfold StreamState.prepare
      rcases hover : st.buffer.overflows size alignment with _ | _ <;> simp [hsize]
  · intro lower hlower
    rcases hw : waited.1 with _ | _
    · simp [hw] at hlower
    · simpa [hw] using hlower.symm

/-! ## `Commit` -/

theorem reserveWatches_watch (watches : Watches) (grow_size i : ℕ) : (reserveWatches watches grow_size).watch i =
      if i < watches.size then watches.watch i else {} := rfl

theorem StreamInv.push (h : StreamInv S st)
    (hlower : st.buffer.offset ≤ upper) (hupper : upper ≤ st.buffer.size_bytes)
    (hidle : st.buffer.invalidation_mark ≠ none → st.buffer.wait_cursor = 0 → upper = 0)
    (hsize : st.buffer.current_watch_cursor + 1 < watches.size) (hbefore : ∀ i < st.buffer.current_watch_cursor,
      watches.watch i = st.buffer.current_watches.watch i) (hat : watches.watch st.buffer.current_watch_cursor =
      { tick := S.currentTick st.scheduler, upper_bound := upper })
    (hafter : ∀ i, st.buffer.current_watch_cursor < i →
      (watches.watch i).tick ≤ (st.buffer.current_watches.watch i).tick) :
    StreamInv S { st with
      buffer := { st.buffer with
        offset := upper
        current_watches := watches
        current_watch_cursor := st.buffer.current_watch_cursor + 1 }
      current := ⟨st.buffer.offset, upper, S.currentTick st.scheduler⟩ :: st.current } := by
  -- A watch of this round is an old one or the new one.
  have hcases : ∀ {j}, j < st.buffer.current_watch_cursor + 1 →
      (j < st.buffer.current_watch_cursor ∧ watches.watch j = st.buffer.current_watches.watch j) ∨
      (j = st.buffer.current_watch_cursor ∧ watches.watch j =
        { tick := S.currentTick st.scheduler, upper_bound := upper }) := by
    intro j hj
    rcases Nat.lt_succ_iff_lt_or_eq.mp hj with hj | rfl
    · exact .inl ⟨hj, hbefore j hj⟩
    · exact .inr ⟨rfl, hat⟩
  have htick : ∀ i, (watches.watch i).tick ≤ S.currentTick st.scheduler := by
    intro i
    rcases Nat.lt_trichotomy i st.buffer.current_watch_cursor with hi | rfl | hi
    · rw [hbefore i hi]
      exact h.current_tick i
    · rw [hat]
    · exact le_trans (hafter i hi) (h.current_tick i)
  exact { h with
    offset_le := hupper
    started := fun _ => Nat.succ_pos _
    current_size := hsize
    current_tick := htick
    previous_tick := by
      intro i j hj
      rcases hcases hj with ⟨hj, heq⟩ | ⟨-, heq⟩
      · exact heq ▸ h.previous_tick i j hj
      · exact heq ▸ h.previous_tick_le i
    current_sorted := by
      intro i j hij hj
      rcases hcases hj with ⟨hj, hjeq⟩ | ⟨rfl, hjeq⟩
      · show (watches.watch i).upper_bound ≤ (watches.watch j).upper_bound
        rw [hjeq, hbefore i (by omega)]
        exact h.current_sorted i j hij hj
      · show (watches.watch i).upper_bound ≤ (watches.watch _).upper_bound
        rw [hjeq]
        rcases hcases (j := i) (by omega) with ⟨hi, hieq⟩ | ⟨rfl, hieq⟩
        · rw [hieq]
          exact le_trans (h.current_le i hi) hlower
        · rw [hieq]
    current_le := by
      intro i hi
      rcases hcases hi with ⟨hi, hieq⟩ | ⟨-, hieq⟩
      · exact hieq ▸ le_trans (h.current_le i hi) hlower
      · exact hieq ▸ le_rfl
    stale_le := fun mark hmark i hi j hj =>
      le_trans (hafter i hi) (h.stale_le mark hmark i (Nat.le_of_succ_le hi) j hj)
    stale_lt := fun hw i hi =>
      lt_of_le_of_lt (hafter i hi) (h.stale_lt hw i (Nat.le_of_succ_le hi))
    idle := hidle
    current_ranges := by
      constructor
      · exact List.pairwise_cons.mpr ⟨h.current_ranges.2, h.current_ranges.1⟩
      · intro r hr
        rcases List.mem_cons.mp hr with rfl | hr
        · exact le_rfl
        · exact le_trans (h.current_ranges.2 r hr) hlower
    current_watched := by
      intro r hr hlt
      rcases List.mem_cons.mp hr with rfl | hr
      · refine ⟨st.buffer.current_watch_cursor, Nat.lt_succ_self _, ?_, ?_⟩
        · show _ ≤ (watches.watch _).tick
          rw [hat]
        · intro k hk
          rw [hbefore k hk]
          exact h.current_le k hk
      · obtain ⟨i, hi, htick, hk⟩ := h.current_watched r hr hlt
        refine ⟨i, Nat.lt_succ_of_lt hi, ?_, ?_⟩
        · show _ ≤ (watches.watch i).tick
          rw [hbefore i hi]
          exact htick
        · intro k hki
          rw [hbefore k (by omega)]
          exact hk k hki
    past_le := by
      intro r hr j hj
      rcases hcases hj with ⟨hj, heq⟩ | ⟨-, heq⟩
      · exact heq ▸ h.past_le r hr j hj
      · refine heq ▸ h.range_tick r ?_
        simpa [StreamState.committed] using .inr (List.mem_append.mp hr)
    range_tick := by
      intro r hr
      rcases List.mem_cons.mp hr with rfl | hr
      · exact le_rfl
      · exact h.range_tick r hr }

theorem StreamInv.touch (h : StreamInv S st) (hupper : upper = st.buffer.offset)
    (hwatch : watch.tick = (st.buffer.current_watches.watch st.buffer.current_watch_cursor).tick) :
    StreamInv S { st with
      buffer := { st.buffer with
        offset := upper
        current_watches :=
          st.buffer.current_watches.set st.buffer.current_watch_cursor watch }
      current := ⟨st.buffer.offset, upper, S.currentTick st.scheduler⟩ :: st.current } := by
  subst hupper
  have htick : ∀ i, ((st.buffer.current_watches.set st.buffer.current_watch_cursor watch).watch
      i).tick = (st.buffer.current_watches.watch i).tick := by
    intro i
    rcases eq_or_ne i st.buffer.current_watch_cursor with rfl | hne
    · simp only [Watches.set, update_self, hwatch]
    · simp only [Watches.set, update_of_ne hne]
  have hbefore : ∀ i < st.buffer.current_watch_cursor,
      (st.buffer.current_watches.set st.buffer.current_watch_cursor watch).watch i =
        st.buffer.current_watches.watch i := by
    intro i hi
    exact update_of_ne (Nat.ne_of_lt hi) _ _
  exact { h with
    current_tick := fun i => (htick i).trans_le (h.current_tick i)
    previous_tick := fun i j hj => (h.previous_tick i j hj).trans_eq (htick j).symm
    current_sorted := by
      intro i j hij hj
      rw [hbefore i (lt_of_le_of_lt hij hj), hbefore j hj]
      exact h.current_sorted i j hij hj
    current_le := by
      intro i hi
      rw [hbefore i hi]
      exact h.current_le i hi
    stale_le := fun mark hmark i hi j hj => (htick i).trans_le (h.stale_le mark hmark i hi j hj)
    stale_lt := fun hw i hi => (htick i).trans_lt (h.stale_lt hw i hi)
    current_ranges := by
      constructor
      · exact List.pairwise_cons.mpr ⟨h.current_ranges.2, h.current_ranges.1⟩
      · intro r hr
        rcases List.mem_cons.mp hr with rfl | hr
        · exact le_rfl
        · exact h.current_ranges.2 r hr
    current_watched := by
      intro r hr hlt
      rcases List.mem_cons.mp hr with rfl | hr
      · exact absurd hlt (lt_irrefl _)
      · obtain ⟨i, hi, hle, hk⟩ := h.current_watched r hr hlt
        refine ⟨i, hi, hle.trans_eq (htick i).symm, ?_⟩
        intro k hki
        rw [hbefore k (by omega)]
        exact hk k hki
    past_le := fun r hr j hj => (h.past_le r hr j hj).trans_eq (htick j).symm
    range_tick := by
      intro r hr
      rcases List.mem_cons.mp hr with rfl | hr
      · exact le_rfl
      · exact h.range_tick r hr }

theorem StreamInv.commit (h : StreamInv S st) (hend : st.buffer.offset + st.buffer.mapped_size ≤ st.buffer.size_bytes)
    (hidle : st.buffer.invalidation_mark ≠ none → st.buffer.wait_cursor = 0 → st.buffer.mapped_size = 0)
    {later : σ} (hlater : S.Later st.scheduler later) : StreamInv S (st.afterCommit S st.buffer.offset later) := by
  have hl := h.later hlater
  have hadd : add64 st.buffer.offset st.buffer.mapped_size =
      st.buffer.offset + st.buffer.mapped_size := add64_of_lt (lt_of_le_of_lt hend h.size_lt)
  unfold StreamState.afterCommit StreamBuffer.commit
  rw [hadd]
  dsimp only
  split_ifs with hsame hgrow
  · -- The tick of an unused watch is the current one: nothing was waited for, and nothing is used.
    obtain ⟨hcursor, htick⟩ := hsame
    have hwait : st.buffer.invalidation_mark ≠ none ∧ st.buffer.wait_cursor = 0 := by
      by_contra hnot
      have hstale : st.buffer.invalidation_mark = none ∨ 0 < st.buffer.wait_cursor := by
        rcases Decidable.em (st.buffer.invalidation_mark = none) with hnone | hsome
        · exact .inl hnone
        · exact .inr (Nat.pos_of_ne_zero fun h0 => hnot ⟨hsome, h0⟩)
      exact absurd htick (hl.stale_lt hstale _ le_rfl).ne
    have hmapped := hidle hwait.1 hwait.2
    refine hl.touch ?_ rfl
    show st.buffer.offset + st.buffer.mapped_size = st.buffer.offset
    omega
  · refine hl.push (Nat.le_add_right _ _) hend ?_ ?_ ?_ ?_ ?_
    · intro hmark hwait
      have hoffset := h.idle hmark hwait
      have hmapped := hidle hmark hwait
      omega
    · have hsize := h.current_size
      show _ < st.buffer.current_watches.size + watchesReserveChunk
      unfold watchesReserveChunk
      show st.buffer.current_watch_cursor + 1 < _
      omega
    · intro i hi
      have hsize := h.current_size
      have hlt : i < st.buffer.current_watches.size := lt_trans hi hsize
      simp only [Watches.set, update_of_ne (Nat.ne_of_lt hi), reserveWatches_watch, if_pos hlt]
    · simp only [Watches.set, update_self]
    · intro i hi
      simp only [Watches.set, update_of_ne (Nat.ne_of_gt hi), reserveWatches_watch]
      split_ifs
      · exact le_rfl
      · exact Nat.zero_le _
  · refine hl.push (Nat.le_add_right _ _) hend ?_ ?_ ?_ ?_ ?_
    · intro hmark hwait
      have hoffset := h.idle hmark hwait
      have hmapped := hidle hmark hwait
      omega
    · exact not_le.mp hgrow
    · intro i hi
      simp only [Watches.set, update_of_ne (Nat.ne_of_lt hi)]
    · simp only [Watches.set, update_self]
    · intro i hi
      simp only [Watches.set, update_of_ne (Nat.ne_of_gt hi), le_refl]

/-! ## Runs -/

theorem map_of_lt (h : st.buffer.size_bytes < st.buffer.alignedSize size) :
    (st.buffer.map S st.scheduler size alignment allow_wait).1 = none ∧
      st.afterMap S size alignment allow_wait = st := by
  unfold StreamState.afterMap StreamBuffer.map
  rw [if_pos h]
  refine ⟨rfl, ?_⟩
  rw [if_neg fun hle => absurd hle.1 (not_le.mpr h)]

structure Handed (S : Scheduler σ) (st : StreamState σ) (size alignment lower : ℕ)
    (st' : StreamState σ) : Prop where
  inv : StreamInv S st'
  offset : st'.buffer.offset = lower
  size_le : size ≤ st'.buffer.mapped_size
  inside : lower + st'.buffer.mapped_size ≤ st'.buffer.size_bytes
  aligned : 0 < alignment → alignment < 2^64 → alignment ∣ lower
  committed : st'.committed = st.committed
  waited : ∀ mark, st'.buffer.invalidation_mark = some mark →
    lower + st'.buffer.mapped_size ≤ st'.buffer.wait_bound ∨ st'.buffer.wait_cursor = mark

theorem StreamInv.handed (hS : S.Lawful) (h : StreamInv S st) (hwrap : st.buffer.NoWrap size alignment)
    (hmap : (st.buffer.map S st.scheduler size alignment allow_wait).1 = some lower) :
    Handed S st size alignment lower (st.afterMap S size alignment allow_wait) := by
  have hsize : st.buffer.alignedSize size ≤ st.buffer.size_bytes := by
    by_contra hlt
    rw [(map_of_lt (not_le.mp hlt)).1] at hmap
    cases hmap
  obtain ⟨-, hmapped, hbytes, hend, haligned⟩ := h.prepare hwrap hsize
  obtain ⟨hwaited, hlower⟩ := afterMap_spec allow_wait hS h hwrap hsize
  obtain ⟨hoffset, hmapped', hbytes', hmark'⟩ := hwaited.buffer
  obtain rfl := hlower lower hmap
  have hsome : (st.buffer.map S st.scheduler size alignment allow_wait).1.isSome = true := by
    rw [hmap]
    rfl
  refine ⟨hwaited.inv, hoffset, ?_, ?_, haligned, ?_, ?_⟩
  · rw [hmapped', hmapped]
    exact hwrap.1
  · rw [hmapped', hmapped, hbytes', hbytes]
    exact hend
  · obtain ⟨hcurrent, hprevious, holder⟩ := hwaited.ranges
    unfold StreamState.committed
    rw [hcurrent, hprevious, holder]
    unfold StreamState.prepare
    split_ifs <;> simp
  · intro mark hmark
    rw [hmapped', hmapped]
    exact hwaited.bound hsome mark (hmark' ▸ hmark)

theorem StreamInv.step (hS : S.Lawful) (h : StreamInv S st) (hg : o.NoWrap st)
    (hs : StreamStep S st o st') : StreamInv S st' := by
  cases o with
  | pass later =>
    obtain ⟨hlater, rfl⟩ := hs
    exact h.later hlater
  | map size alignment allow_wait later =>
    rcases hs with ⟨-, rfl⟩ | ⟨lower, hmap, hlater, rfl⟩
    · rcases Nat.lt_or_ge st.buffer.size_bytes (st.buffer.alignedSize size) with hlt | hle
      · rw [(map_of_lt hlt).2]
        exact h
      · exact (afterMap_spec _ hS h hg hle).1.inv
    · have hhanded := h.handed hS hg hmap
      obtain rfl := hhanded.offset
      refine hhanded.inv.commit hhanded.inside ?_ hlater
      intro hmark hwait
      -- No watch was waited for, so the range ends at the start.
      obtain ⟨mark, hmark⟩ := Option.ne_none_iff_exists'.mp hmark
      have hpos := (hhanded.inv.previous_sorted mark hmark).1
      have hzero := hhanded.inv.wait_zero hwait
      rcases hhanded.waited mark hmark with hle | heq <;> omega

theorem streamInv_of_run (hS : S.Lawful)
    (h : Run StreamState.IsNew (StreamStep S) (fun st o => StreamOp.NoWrap st o) st) : StreamInv S st :=
  h.invariant (fun _ => StreamInv.isNew hS) fun _ _ _ hinv hg hs => hinv.step hS hg hs

theorem Handed.disjoint (h : Handed S st size alignment lower st')
    (hr : r ∈ st'.committed) (hbusy : S.complete st'.scheduler r.tick = false)
    (hx : lower ≤ x) (hx' : x < lower + st'.buffer.mapped_size) : ¬ (r.lower ≤ x ∧ x < r.upper) := by
  rintro ⟨hlo, hup⟩
  obtain rfl := h.offset
  have hinv := h.inv
  have hcomplete : ∀ mark, st'.buffer.invalidation_mark = some mark →
      ∀ i < st'.buffer.wait_cursor, r.tick ≤ (st'.buffer.previous_watches.watch i).tick → False := by
    intro mark _ i hi hle
    rw [hinv.waited i hi r.tick hle] at hbusy
    cases hbusy
  -- A range that is not empty ends behind the start, so a watch was waited for.
  have hwaited : ∀ mark, st'.buffer.invalidation_mark = some mark → 0 < st'.buffer.wait_cursor := by
    intro mark hmark
    have hpos := (hinv.previous_sorted mark hmark).1
    by_contra hnot
    have hzero := hinv.wait_zero (by omega)
    rcases h.waited mark hmark with hle | heq <;> omega
  simp only [StreamState.committed, List.mem_append, or_assoc] at hr
  rcases hr with hr | hr | hr
  · have := hinv.current_ranges.2 r hr
    omega
  · obtain ⟨mark, hmark, i, hi, htick, hbelow⟩ := hinv.previous_watched r hr (by omega)
    rcases Nat.lt_or_ge i st'.buffer.wait_cursor with hlt | hge
    · exact hcomplete mark hmark i hlt htick
    -- The watch of the range was not waited for, so the range starts behind the last one that was.
    · have hpos := hwaited mark hmark
      have hbound := hinv.wait_bound hpos
      have hstart := hbelow (st'.buffer.wait_cursor - 1) (by omega)
      rcases h.waited mark hmark with hle | heq <;> omega
  · obtain ⟨mark, hmark, htick⟩ := hinv.older_le r hr
    have hpos := (hinv.previous_sorted mark hmark).1
    exact hcomplete mark hmark 0 (hwaited mark hmark) (htick 0 hpos)

/-- A range that `Map` hands out, for a request whose sums do not wrap, is in the buffer, has the size that was
asked for, is aligned, and meets no range that was committed at a tick that is not complete. -/
theorem map_disjoint (hS : S.Lawful) (h : Run StreamState.IsNew (StreamStep S) (fun st o => StreamOp.NoWrap st o) st)
    (hwrap : st.buffer.NoWrap size alignment) (ha : alignment < 2^64)
    (hmap : (st.buffer.map S st.scheduler size alignment allow_wait).1 = some lower)
    (hst' : st' = st.afterMap S size alignment allow_wait) : size ≤ st'.buffer.mapped_size ∧
      lower + st'.buffer.mapped_size ≤ st'.buffer.size_bytes ∧ (0 < alignment → alignment ∣ lower) ∧
      (∀ r ∈ st.committed, S.complete st'.scheduler r.tick = false →
        ∀ x, lower ≤ x → x < lower + st'.buffer.mapped_size → ¬ (r.lower ≤ x ∧ x < r.upper)) ∧
      (∀ r ∈ st'.current, r.upper ≤ lower) ∧ st'.current.Pairwise (fun r r' => r'.upper ≤ r.lower) := by
  subst hst'
  have hhanded := (streamInv_of_run hS h).handed hS hwrap hmap
  refine ⟨hhanded.size_le, hhanded.inside, fun hpos => hhanded.aligned hpos ha, ?_, ?_, hhanded.inv.current_ranges.1⟩
  · intro r hr hbusy x hx hx'
    rw [← hhanded.committed] at hr
    exact hhanded.disjoint hr hbusy hx hx'
  · intro r hr
    exact (hhanded.inv.current_ranges.2 r hr).trans_eq hhanded.offset

/-- A scheduler whose work is done as soon as it is waited for. -/
def eagerScheduler : Scheduler ℕ where
  currentTick s := s + 1
  complete s t := t ≤ s
  isFree t s := (t ≤ s, s)
  wait t s := max s t

theorem eagerScheduler_lawful : eagerScheduler.Lawful where
  currentTick_pos s := Nat.succ_pos s
  complete_lt s t h := by
    have hle : t ≤ s := by simpa [eagerScheduler] using h
    show t < s + 1
    omega
  isFree_later _ s := ⟨le_rfl, fun _ h => h⟩
  wait_later t s := by
    refine ⟨Nat.succ_le_succ (le_max_left s t), fun u h => ?_⟩
    have hle : u ≤ s := by simpa [eagerScheduler] using h
    simpa [eagerScheduler] using .inl hle
  wait_complete t s u h := by
    simpa [eagerScheduler] using .inr h

def freshBuffer : StreamState ℕ where
  buffer := {
    size_bytes := 256
    is_coherent := true
    usage := .stream
    non_coherent_atom_size := 64 }
  scheduler := 0

def usedBuffer : StreamState ℕ :=
  (freshBuffer.afterMap eagerScheduler 1 0 true).afterCommit eagerScheduler 0 0

theorem usedBuffer_run {guard : StreamState ℕ → StreamOp ℕ → Prop} (hg : guard freshBuffer (.map 1 0 true 0)) :
    Run StreamState.IsNew (StreamStep eagerScheduler) guard usedBuffer := by
  have hnew : freshBuffer.IsNew := ⟨256, true, .stream, 64, 0, by decide, rfl⟩
  exact .step (.start hnew) hg (.inr ⟨0, by decide, ⟨le_rfl, fun _ h => h⟩, rfl⟩)

theorem map_disjoint_sample : (usedBuffer.buffer.map eagerScheduler usedBuffer.scheduler 16 16 true).1 = some 16 ∧
      16 + (usedBuffer.afterMap eagerScheduler 16 16 true).buffer.mapped_size ≤
        (usedBuffer.afterMap eagerScheduler 16 16 true).buffer.size_bytes := by
  have hrun : Run StreamState.IsNew (StreamStep eagerScheduler) (fun st o => StreamOp.NoWrap st o) usedBuffer :=
    usedBuffer_run ⟨by decide, by decide, by decide⟩
  have hmap : (usedBuffer.buffer.map eagerScheduler usedBuffer.scheduler 16 16 true).1 = some 16 := by
    decide
  exact ⟨hmap, (map_disjoint eagerScheduler_lawful hrun ⟨by decide, by decide, by decide⟩
    (by decide) hmap rfl).2.1⟩

/-- An alignment near `2^64` makes the sum wrap, and the range is not in the buffer. -/
theorem map_wraps : eagerScheduler.Lawful ∧
    Run StreamState.IsNew (StreamStep eagerScheduler) (fun _ _ => True) usedBuffer ∧
    (usedBuffer.buffer.map eagerScheduler usedBuffer.scheduler 32 (2^64 - 16) true).1 = some (2^64 - 16) ∧
    usedBuffer.buffer.size_bytes = 256 :=
  ⟨eagerScheduler_lawful, usedBuffer_run trivial, by decide, rfl⟩

end ShadPS4.VideoCore
