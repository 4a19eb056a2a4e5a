import ShadPS4.Common.BitArraySpec
import ShadPS4.VideoCore.PageManager

/-!
# What the page manager does to a set of pages

The loop that joins the calls to the host is specified by what the host would permit if the pending call were made
now: for each page that the loop has passed this is the permission of the page's state.
-/

namespace ShadPS4.VideoCore

open ShadPS4.Common ShadPS4.Memory

variable {n : ℕ}

namespace PageState

variable {s s' : PageState} {track is_read : Bool}

/-- The state with one watcher more, or one less. -/
def bump (s : PageState) (track is_read : Bool) : PageState :=
  match is_read, track with
  | true, true => { s with num_read_watchers := s.num_read_watchers + 1 }
  | true, false => { s with num_read_watchers := s.num_read_watchers - 1 }
  | false, true => { s with num_write_watchers := s.num_write_watchers + 1 }
  | false, false => { s with num_write_watchers := s.num_write_watchers - 1 }

/-- The counter that is changed does not leave the range of its bit field. -/
def Fits (s : PageState) (track is_read : Bool) : Prop :=
  match is_read, track with
  | true, true => s.num_read_watchers.toNat + 1 < 2
  | true, false => 0 < s.num_read_watchers.toNat
  | false, true => s.num_write_watchers.toNat + 1 < 128
  | false, false => 0 < s.num_write_watchers.toNat

instance (s : PageState) (track is_read : Bool) : Decidable (s.Fits track is_read) := by
  unfold Fits
  split <;> infer_instance

/-- The page can be written but not read once the state has changed, and could not before. -/
def TurnsWriteOnly (s : PageState) (track is_read : Bool) : Prop :=
  (s.bump track is_read).perms = MemoryPermission.write ∧ s.perms ≠ MemoryPermission.write

instance (s : PageState) (track is_read : Bool) : Decidable (s.TurnsWriteOnly track is_read) :=
  inferInstanceAs (Decidable (_ ∧ _))

theorem eq_zero_iff {w : BitVec n} : w = 0 ↔ w.toNat = 0 := by
  rw [BitVec.toNat_eq]
  simp

theorem toNat_one (h : 1 < 2^n) : (1 : BitVec n).toNat = 1 := by
  simpa using Nat.mod_eq_of_lt h

theorem toNat_succ {w : BitVec n} (h : w.toNat + 1 < 2^n) : (w + 1).toNat = w.toNat + 1 := by
  have hone : (1 : BitVec n).toNat = 1 := toNat_one (by omega)
  rw [BitVec.toNat_add_of_lt (by omega), hone]

theorem toNat_pred {w : BitVec n} (h : 0 < w.toNat) : (w - 1).toNat = w.toNat - 1 := by
  have hone : (1 : BitVec n).toNat = 1 := toNat_one (by have := w.isLt; omega)
  rw [BitVec.toNat_sub_of_le (by rw [BitVec.le_def]; omega), hone]

theorem perms_eq_iff : s.perms = s'.perms ↔ (s.num_read_watchers = 0 ↔ s'.num_read_watchers = 0) ∧
      (s.num_write_watchers = 0 ↔ s'.num_write_watchers = 0) := by
  unfold perms readPerm writePerm
  split_ifs <;> simp_all

theorem addDelta_eq (h : s.Fits track is_read) : ∃ count,
    s.addDelta (if track then 1 else -1) is_read = .ok (s.bump track is_read, count) ∧
      ((count = 0 ∧ track = false ∨ count = 1 ∧ track = true) ↔ (s.bump track is_read).perms ≠ s.perms) := by
  obtain ⟨w, r⟩ := s
  cases is_read <;> cases track <;> unfold Fits at h <;> dsimp only at h
  · refine ⟨(w - 1).toNat, ?_, ?_⟩
    · have hne : w ≠ 0 := fun hw => by simp [hw] at h
      simpa [addDelta, bump] using hne
    · have hcount := toNat_pred h
      rw [ne_eq, perms_eq_iff]
      simp only [bump, eq_zero_iff, reduceCtorEq, and_true, and_false, or_false, true_and]
      omega
  · refine ⟨(w + 1).toNat, by simp [addDelta, bump], ?_⟩
    have hcount := toNat_succ h
    rw [ne_eq, perms_eq_iff]
    simp only [bump, eq_zero_iff, reduceCtorEq, and_true, and_false, false_or, true_and]
    omega
  · refine ⟨(r - 1).toNat, ?_, ?_⟩
    · have hne : r ≠ 0 := fun hr => by simp [hr] at h
      simpa [addDelta, bump] using hne
    · have hcount := toNat_pred h
      rw [ne_eq, perms_eq_iff]
      simp only [bump, eq_zero_iff, reduceCtorEq, and_true, and_false, or_false]
      omega
  · refine ⟨(r + 1).toNat, by simp [addDelta, bump], ?_⟩
    rw [ne_eq, perms_eq_iff]
    simp only [bump, eq_zero_iff, reduceCtorEq, and_true, and_false, false_or]
    omega

end PageState

/-! ## The loop -/

section Loop

variable {m₀ m : PageManager} {q : Pending} {track is_read : Bool} {update : ℕ → Bool}
  {first page : ℕ}

/-- What the host would permit if the pending call were made now. -/
def effective (m : PageManager) (q : Pending) (p : ℕ) : MemoryPermission :=
  if 0 < q.range_bytes ∧ q.range_begin ≤ p ∧ p * 4096 < q.range_begin * 4096 + q.range_bytes then
    q.perms
  else m.host p

theorem effective_idle (h : ¬ 0 < q.range_bytes) (p : ℕ) : effective m q p = m.host p :=
  if_neg fun hc => h hc.1

/-- A call is pending that would make its pages write-only. -/
def Pending.WriteOnly (q : Pending) : Prop :=
  0 < q.range_bytes ∧ q.perms = MemoryPermission.write

theorem releasePending_spec (m : PageManager) (q : Pending) : Sat (releasePending m q)
    (fun r => r.1.cached_pages = m.cached_pages ∧ (∀ p, r.1.host p = effective m q p) ∧
      r.2.range_bytes = 0 ∧ ¬ q.WriteOnly) (fun e => e = .writeOnly ∧ q.WriteOnly) := by
  unfold releasePending
  split_ifs with hpos
  · unfold PageManager.protect
    split_ifs with hwrite
    · apply Sat.pure
      refine ⟨rfl, fun p => ?_, rfl, fun h => hwrite h.2⟩
      have hle : q.range_begin * 4096 ≤ p * 4096 ↔ q.range_begin ≤ p := by omega
      simp only [effective, trackerBytesPerPage, hle]
      simp only [show 0 < q.range_bytes from hpos, true_and]
    · refine ⟨fun a ha => by simp [bind, Except.bind] at ha, fun e he => ?_⟩
      simp only [bind, Except.bind, Except.error.injEq] at he
      exact ⟨he.symm, hpos, not_not.mp hwrite⟩
  · apply Sat.pure
    exact ⟨rfl, fun p => (effective_idle hpos p).symm, Nat.eq_zero_of_not_pos hpos, fun h => hpos h.1⟩

/-- A page of the set, below `page`, was to turn write-only. -/
def TurnsBefore (m₀ : PageManager) (track is_read : Bool) (update : ℕ → Bool) (first page : ℕ) : Prop :=
  ∃ p, first ≤ p ∧ p < page ∧ update p = true ∧ (m₀.cached_pages p).TurnsWriteOnly track is_read

theorem turnsBefore_succ (hfirst : first ≤ page) : TurnsBefore m₀ track is_read update first (page + 1) ↔
      TurnsBefore m₀ track is_read update first page ∨
        update page = true ∧ (m₀.cached_pages page).TurnsWriteOnly track is_read := by
  constructor
  · rintro ⟨p, h1, h2, h3⟩
    rcases Nat.eq_or_lt_of_le (Nat.lt_succ_iff.mp h2) with rfl | hlt
    · exact .inr h3
    · exact .inl ⟨p, h1, hlt, h3⟩
  · rintro (⟨p, h1, h2, h3⟩ | h3)
    · exact ⟨p, h1, by omega, h3⟩
    · exact ⟨page, hfirst, by omega, h3⟩

/-- The loop has passed the pages from `first` to `page`, and started from `m₀`. -/
structure Loop (m₀ : PageManager) (track is_read : Bool) (update : ℕ → Bool) (first page : ℕ)
    (m : PageManager) (q : Pending) : Prop where
  states : ∀ p, m.cached_pages p = if first ≤ p ∧ p < page ∧ update p = true then
    (m₀.cached_pages p).bump track is_read else m₀.cached_pages p
  host : ∀ p, effective m q p = (m.cached_pages p).perms
  span : 0 < q.range_bytes → q.range_begin * 4096 + q.potential_range_bytes = page * 4096 ∧
    q.range_bytes ≤ q.potential_range_bytes
  alike : 0 < q.range_bytes → ∀ p, q.range_begin ≤ p → p < page →
    (m.cached_pages p).perms = q.perms
  turned : TurnsBefore m₀ track is_read update first page ↔ q.WriteOnly

theorem Loop.init (hhost : ∀ p, m.host p = (m.cached_pages p).perms) (first : ℕ)
    (perms : MemoryPermission) : Loop m track is_read update first first m { perms } where
  states p := by rw [if_neg fun h => by omega]
  host p := (effective_idle (Nat.lt_irrefl 0) p).trans (hhost p)
  span h := absurd h (Nat.lt_irrefl 0)
  alike h := absurd h (Nat.lt_irrefl 0)
  turned := ⟨fun ⟨p, h1, h2, _⟩ => by omega, fun h => absurd h.1 (Nat.lt_irrefl 0)⟩

/-- The round of a page, before its own change is made pending. -/
structure Round (m₀ : PageManager) (track is_read : Bool) (update : ℕ → Bool) (first page : ℕ)
    (m : PageManager) (q : Pending) : Prop where
  states : ∀ p, m.cached_pages p = if first ≤ p ∧ p < page + 1 ∧ update p = true then
    (m₀.cached_pages p).bump track is_read else m₀.cached_pages p
  host : ∀ p, effective m q p =
    if p = page then (m₀.cached_pages page).perms else (m.cached_pages p).perms
  perms : q.perms = (m.cached_pages page).perms
  span : 0 < q.range_bytes → q.range_begin * 4096 + q.potential_range_bytes = (page + 1) * 4096 ∧
    q.range_bytes ≤ q.potential_range_bytes
  alike : 0 < q.range_bytes → ∀ p, q.range_begin ≤ p → p < page + 1 →
    (m.cached_pages p).perms = q.perms
  turned : TurnsBefore m₀ track is_read update first page ↔ q.WriteOnly

theorem Round.start (h : Round m₀ track is_read update first page m q) (hfirst : first ≤ page)
    (hchanged : (m.cached_pages page).perms ≠ (m₀.cached_pages page).perms) :
    Loop m₀ track is_read update first (page + 1) m { q with
        range_begin := if q.range_bytes = 0 then page else q.range_begin
        potential_range_bytes := if q.range_bytes = 0 then 4096 else q.potential_range_bytes
        range_bytes := if q.range_bytes = 0 then 4096 else q.potential_range_bytes } := by
  have hspan := h.span
  have hupdate : update page = true := by
    by_contra hnot
    rw [h.states page, if_neg fun hc => hnot hc.2.2] at hchanged
    exact hchanged rfl
  have hstate : m.cached_pages page = (m₀.cached_pages page).bump track is_read := by
    rw [h.states page, if_pos ⟨hfirst, by omega, hupdate⟩]
  have hold : ∀ p ≠ page, effective m q p = (m.cached_pages p).perms := fun p hp => by
    rw [h.host p, if_neg hp]
  refine ⟨h.states, fun p => ?_, fun _ => ?_, fun _ p hp hlt => ?_, ?_⟩
  · -- Inside the range that is pending now the pages are alike; outside nothing changed.
    rcases Nat.eq_zero_or_pos q.range_bytes with hzero | hpos
    · have hidle := effective_idle (m := m) (q := q) (by omega) p
      simp only [effective, hzero, if_true]
      split_ifs with hin
      · rw [show p = page by omega, h.perms]
      · rw [← hidle, hold p (by omega)]
    · have hne : ¬ q.range_bytes = 0 := by omega
      simp only [effective, hne, if_false]
      split_ifs with hin
      · exact (h.alike hpos p hin.2.1 (by omega)).symm
      · rw [← hold p (by omega)]
        exact (if_neg (by omega)).symm
  · dsimp only
    split_ifs <;> omega
  · dsimp only at hp ⊢
    split_ifs at hp with hzero
    · rw [show p = page by omega, h.perms]
    · exact h.alike (by omega) p hp hlt
  · rw [turnsBefore_succ hfirst, h.turned]
    unfold Pending.WriteOnly PageState.TurnsWriteOnly
    rw [← hstate, ← h.perms]
    rw [← h.perms] at hchanged
    constructor
    · rintro (hpending | ⟨-, hwrite, -⟩)
      · refine ⟨?_, hpending.2⟩
        dsimp only
        split_ifs <;> omega
      · refine ⟨?_, hwrite⟩
        dsimp only
        split_ifs <;> omega
    · rintro ⟨-, hwrite⟩
      exact .inr ⟨hupdate, hwrite, fun hc => hchanged (hwrite.trans hc.symm)⟩

theorem Round.skip (h : Round m₀ track is_read update first page m q) (hfirst : first ≤ page)
    (hsame : (m.cached_pages page).perms = (m₀.cached_pages page).perms) :
    Loop m₀ track is_read update first (page + 1) m q := by
  refine ⟨h.states, fun p => ?_, h.span, h.alike, ?_⟩
  · rw [h.host p]
    split_ifs with hp
    · rw [hp, hsame]
    · rfl
  · rw [turnsBefore_succ hfirst, h.turned]
    constructor
    · rintro (hpending | ⟨hupdate, hwrite, hnot⟩)
      · exact hpending
      · -- A page that turns write-only does not keep its permission.
        rw [h.states page, if_pos ⟨hfirst, by omega, hupdate⟩] at hsame
        exact absurd (hsame.symm.trans hwrite) hnot
    · exact .inl

theorem Loop.round (h : Loop m₀ track is_read update first page m q) (hfirst : first ≤ page)
    (hstate : state = if update page = true then
      (m₀.cached_pages page).bump track is_read else m₀.cached_pages page) : Sat (if state.perms ≠ q.perms then do
        let (m, q) ← releasePending (m.setState page state) q
        return (m, { q with perms := state.perms })
      else if q.range_bytes ≠ 0 then
        return (m.setState page state,
          { q with potential_range_bytes := q.potential_range_bytes + trackerBytesPerPage })
      else return (m.setState page state, q))
    (fun r => Round m₀ track is_read update first page r.1 r.2)
    (fun e => e = .writeOnly ∧ TurnsBefore m₀ track is_read update first page) := by
  -- The state changes, the host does not.
  have hstates : ∀ p, (m.setState page state).cached_pages p =
      if first ≤ p ∧ p < page + 1 ∧ update p = true then (m₀.cached_pages p).bump track is_read
      else m₀.cached_pages p := by
    intro p
    unfold PageManager.setState
    dsimp only
    split_ifs with hp hin hin
    · rw [hstate, hp, if_pos (hp ▸ hin.2.2)]
    · rw [hstate, hp, if_neg fun hc => hin ⟨by omega, by omega, hp ▸ hc⟩]
    · rw [h.states p, if_pos ⟨hin.1, by omega, hin.2.2⟩]
    · rw [h.states p, if_neg fun hc => hin ⟨hc.1, by omega, hc.2.2⟩]
  have hpage : (m.setState page state).cached_pages page = state := if_pos rfl
  have hkeep : ∀ p ≠ page, (m.setState page state).cached_pages p = m.cached_pages p :=
    fun p hp => if_neg hp
  have heffective : ∀ p, effective (m.setState page state) q p =
      if p = page then (m₀.cached_pages page).perms
      else ((m.setState page state).cached_pages p).perms := by
    intro p
    rw [show effective (m.setState page state) q p = effective m q p from rfl, h.host p]
    split_ifs with hp
    · rw [hp, h.states page, if_neg (by omega)]
    · rw [hkeep p hp]
  have hspan := h.span
  split_ifs with hperms hbytes
  · apply Sat.bind (P := fun r => r.1.cached_pages = (m.setState page state).cached_pages ∧
      (∀ p, r.1.host p = effective (m.setState page state) q p) ∧ r.2.range_bytes = 0 ∧
      ¬ q.WriteOnly)
    · have hrelease := releasePending_spec (m.setState page state) q
      exact ⟨hrelease.1, fun e he => ⟨(hrelease.2 e he).1, h.turned.mpr (hrelease.2 e he).2⟩⟩
    · rintro ⟨m', q'⟩ ⟨hcached, hhost, hzero, hnot⟩
      have hidle : ¬ 0 < q'.range_bytes := by
        dsimp only at hzero
        omega
      apply Sat.pure
      refine ⟨fun p => ?_, fun p => ?_, ?_, fun hc => absurd hc hidle, fun hc => absurd hc hidle, ?_⟩
      · rw [← hstates p, ← hcached]
      · rw [effective_idle (q := { q' with perms := state.perms }) hidle, hhost p, heffective p, ← hcached]
      · dsimp only at hcached ⊢
        rw [hcached, hpage]
      · exact ⟨fun hc => absurd (h.turned.mp hc) hnot, fun hc => absurd hc.1 hidle⟩
  · have hp : q.perms = state.perms := (not_not.mp hperms).symm
    apply Sat.pure
    refine ⟨hstates, heffective, by rw [hpage]; exact hp, fun hpos => ?_, fun hpos p h1 h2 => ?_,
      h.turned⟩
    · dsimp only [trackerBytesPerPage] at hpos ⊢
      omega
    · rcases Nat.eq_or_lt_of_le (Nat.lt_succ_iff.mp h2) with rfl | hlt
      · rw [hpage]
        exact hp.symm
      · rw [hkeep p (by omega)]
        exact h.alike hpos p h1 hlt
  · have hp : q.perms = state.perms := (not_not.mp hperms).symm
    have hidle : ¬ 0 < q.range_bytes := by omega
    apply Sat.pure
    exact ⟨hstates, heffective, by rw [hpage]; exact hp, fun hc => absurd hc hidle,
      fun hc => absurd hc hidle, h.turned⟩

theorem watchPage_spec (h : Loop m₀ track is_read update first page m q) (hfirst : first ≤ page)
    (hfits : update page = true → (m₀.cached_pages page).Fits track is_read) :
    Sat (watchPage track is_read (update page) page m q)
      (fun r => Loop m₀ track is_read update first (page + 1) r.1 r.2)
      (fun e => e = .writeOnly ∧ TurnsBefore m₀ track is_read update first page) := by
  have hcached : m.cached_pages page = m₀.cached_pages page := by
    rw [h.states page, if_neg (by omega)]
  -- The count tells whether the permissions of the page changed.
  obtain ⟨state, count, hadd, hstate, hcount⟩ : ∃ state count, (m.cached_pages page).addDelta
        (if update page = true then (if track = true then 1 else -1) else 0) is_read =
        .ok (state, count) ∧
      state = (if update page = true then (m₀.cached_pages page).bump track is_read
        else m₀.cached_pages page) ∧
      ((update page = true ∧ (count = 0 ∧ track = false ∨ count = 1 ∧ track = true)) ↔
        state.perms ≠ (m₀.cached_pages page).perms) := by
    rw [hcached]
    cases hupdate : update page with
    | true =>
      obtain ⟨count, hadd, hcount⟩ := PageState.addDelta_eq (hfits hupdate)
      exact ⟨_, count, hadd, rfl, by simpa using hcount⟩
    | false =>
      cases is_read with
      | true => exact ⟨_, _, rfl, rfl, by simp⟩
      | false => exact ⟨_, _, rfl, rfl, by simp⟩
  unfold watchPage
  rw [hadd]
  apply Sat.bind (h.round hfirst hstate)
  rintro ⟨m', q'⟩ hround
  have hpage : m'.cached_pages page = state := by
    rw [hround.states page, hstate]
    split_ifs with h1 h2 h2
    · rfl
    · exact absurd h1.2.2 h2
    · exact absurd ⟨hfirst, by omega, h2⟩ h1
    · rfl
  dsimp only
  split_ifs with hchanged hzero
  · apply Sat.pure
    have hloop := hround.start hfirst (by rw [hpage]; exact hcount.mp hchanged)
    simpa [hzero, trackerBytesPerPage] using hloop
  · apply Sat.pure
    have hloop := hround.start hfirst (by rw [hpage]; exact hcount.mp hchanged)
    simpa [hzero] using hloop
  · apply Sat.pure
    exact hround.skip hfirst (by rw [hpage]; exact not_not.mp (mt hcount.mpr hchanged))

theorem TurnsBefore.mono (h : TurnsBefore m₀ track is_read update first page)
    (hle : page ≤ page') : TurnsBefore m₀ track is_read update first page' := by
  obtain ⟨p, h1, h2, h3⟩ := h
  exact ⟨p, h1, by omega, h3⟩

theorem watchPages_spec (h : Loop m₀ track is_read update first page m q)
    (hfirst : first ≤ page) (hfits : ∀ p, page ≤ p → p < page + count → update p = true →
      (m₀.cached_pages p).Fits track is_read) : Sat (watchPages track is_read update page count m q)
      (fun r => Loop m₀ track is_read update first (page + count) r.1 r.2)
      (fun e => e = .writeOnly ∧ TurnsBefore m₀ track is_read update first (page + count)) := by
  induction count generalizing page m q with
  | zero => exact Sat.pure h
  | succ count ih =>
    have hround := watchPage_spec h hfirst fun hup => hfits page (Nat.le_refl _) (by omega) hup
    apply Sat.bind
    · exact ⟨hround.1, fun e he => ⟨(hround.2 e he).1, (hround.2 e he).2.mono (by omega)⟩⟩
    · rintro ⟨m', q'⟩ hloop
      have hrest := ih hloop (by omega) fun p h1 h2 => hfits p (by omega) (by omega)
      rwa [Nat.add_right_comm, Nat.add_assoc] at hrest

end Loop

/-! ## Sets of pages -/

namespace PageManager

variable {m m' : PageManager} {track is_read : Bool} {pages pages' : ℕ → Prop}
  {result result' : Except PageFault PageManager}

def Agrees (m : PageManager) : Prop := ∀ p, m.host p = (m.cached_pages p).perms

/-- Every page of the set has its new state, the other pages have their old ones, and the host
agrees. -/
structure Updated (m : PageManager) (track is_read : Bool) (pages : ℕ → Prop) (m' : PageManager) :
    Prop where
  inside : ∀ p, pages p → m'.cached_pages p = (m.cached_pages p).bump track is_read
  outside : ∀ p, ¬ pages p → m'.cached_pages p = m.cached_pages p
  agrees : m'.Agrees

/-- The call updates a set of pages, or it is stopped because one of them was to turn write-only. -/
def Updates (m : PageManager) (track is_read : Bool) (pages : ℕ → Prop)
    (result : Except PageFault PageManager) : Prop :=
  Sat result
    (fun m' => m.Updated track is_read pages m' ∧
      ∀ p, pages p → ¬ (m.cached_pages p).TurnsWriteOnly track is_read)
    (fun e => e = .writeOnly ∧ ∃ p, pages p ∧ (m.cached_pages p).TurnsWriteOnly track is_read)

theorem updates_watchPages (hagrees : m.Agrees) (update : ℕ → Bool) (first count : ℕ)
    (perms : MemoryPermission) (hfits : ∀ p, first ≤ p → p < first + count → update p = true →
      (m.cached_pages p).Fits track is_read) :
    m.Updates track is_read (fun p => first ≤ p ∧ p < first + count ∧ update p = true) (do
      let (m, q) ← watchPages track is_read update first count m { perms }
      let (m, _) ← releasePending m q
      return m) := by
  have hloop := watchPages_spec (Loop.init hagrees first perms) (Nat.le_refl _) hfits
  have hturns : TurnsBefore m track is_read update first (first + count) ↔
      ∃ p, (first ≤ p ∧ p < first + count ∧ update p = true) ∧
        (m.cached_pages p).TurnsWriteOnly track is_read := by
    simp only [TurnsBefore, and_assoc]
  apply Sat.bind
  · exact ⟨hloop.1, fun e he => ⟨(hloop.2 e he).1, hturns.mp (hloop.2 e he).2⟩⟩
  · rintro ⟨m', q⟩ hend
    have hrelease := releasePending_spec m' q
    apply Sat.bind
    · exact ⟨hrelease.1,
        fun e he => ⟨(hrelease.2 e he).1, hturns.mp (hend.turned.mpr (hrelease.2 e he).2)⟩⟩
    · rintro ⟨m'', q'⟩ ⟨hcached, hhost, -, hnot⟩
      apply Sat.pure
      refine ⟨⟨fun p hp => ?_, fun p hp => ?_, fun p => ?_⟩, fun p hp hc => ?_⟩
      · rw [hcached, hend.states p, if_pos hp]
      · rw [hcached, hend.states p, if_neg hp]
      · rw [hhost p, hend.host p, hcached]
      · exact hnot (hend.turned.mp (hturns.mpr ⟨p, hp, hc⟩))

theorem Updates.congr (h : m.Updates track is_read pages result) (hpages : ∀ p, pages p ↔ pages' p) :
    m.Updates track is_read pages' result := by
  have heq : pages = pages' := funext fun p => propext (hpages p)
  rwa [← heq]

theorem Updates.unique (h : m.Updates track is_read pages result)
    (h' : m.Updates track is_read pages result') : result = result' := by
  match result, result', h, h' with
  | .error e, .error e', h, h' => rw [(h.2 e rfl).1, (h'.2 e' rfl).1]
  | .error e, .ok m', h, h' =>
    obtain ⟨-, p, hp, hturns⟩ := h.2 e rfl
    exact absurd hturns ((h'.1 m' rfl).2 p hp)
  | .ok m', .error e, h, h' =>
    obtain ⟨-, p, hp, hturns⟩ := h'.2 e rfl
    exact absurd hturns ((h.1 m' rfl).2 p hp)
  | .ok a, .ok b, h, h' =>
    have ha := (h.1 a rfl).1
    have hb := (h'.1 b rfl).1
    have hcached : a.cached_pages = b.cached_pages := by
      funext p
      by_cases hp : pages p
      · rw [ha.inside p hp, hb.inside p hp]
      · rw [ha.outside p hp, hb.outside p hp]
    have hhost : a.host = b.host := by
      funext p
      rw [ha.agrees p, hb.agrees p, hcached]
    calc Except.ok a = .ok ⟨a.cached_pages, a.host⟩ := rfl
      _ = .ok ⟨b.cached_pages, b.host⟩ := by rw [hcached, hhost]
      _ = .ok b := rfl

theorem Updates.eq_error (h : m.Updates track is_read pages result) (hp : pages p)
    (hturns : (m.cached_pages p).TurnsWriteOnly track is_read) : result = .error .writeOnly := by
  match result, h with
  | .error e, h => rw [(h.2 e rfl).1]
  | .ok m', h => exact absurd hturns ((h.1 m' rfl).2 p hp)

theorem Updates.none (hagrees : m.Agrees) : m.Updates track is_read (fun _ => False) (.ok m) := by
  apply Sat.pure
  exact ⟨⟨fun p hp => hp.elim, fun p _ => rfl, hagrees⟩, fun p hp => hp.elim⟩

theorem Updates.append {call : PageManager → Except PageFault PageManager} (h : m.Updates track is_read pages result)
    (hcall : ∀ m', m.Updated track is_read pages m' → m'.Updates track is_read pages' (call m'))
    (hdisjoint : ∀ p, pages p → ¬ pages' p) :
    m.Updates track is_read (fun p => pages p ∨ pages' p) (result >>= call) := by
  apply Sat.bind (P := fun m' => m.Updated track is_read pages m' ∧
    ∀ p, pages p → ¬ (m.cached_pages p).TurnsWriteOnly track is_read)
  · refine ⟨h.1, fun e he => ?_⟩
    obtain ⟨heq, p, hp, hturns⟩ := h.2 e he
    exact ⟨heq, p, .inl hp, hturns⟩
  · rintro m' ⟨hm', hnot⟩
    have hsecond := hcall m' hm'
    -- The pages of the second set have not changed yet.
    have hkeep : ∀ p, pages' p → m'.cached_pages p = m.cached_pages p :=
      fun p hp => hm'.outside p fun hc => hdisjoint p hc hp
    refine ⟨fun m'' hok => ?_, fun e he => ?_⟩
    · obtain ⟨hm'', hnot'⟩ := hsecond.1 m'' hok
      refine ⟨⟨fun p hp => ?_, fun p hp => ?_, hm''.agrees⟩, fun p hp => ?_⟩
      · by_cases hin : pages' p
        · rw [hm''.inside p hin, hkeep p hin]
        · rw [hm''.outside p hin, hm'.inside p (hp.resolve_right hin)]
      · rw [hm''.outside p fun hc => hp (.inr hc), hm'.outside p fun hc => hp (.inl hc)]
      · rcases hp with hp | hp
        · exact hnot p hp
        · rw [← hkeep p hp]
          exact hnot' p hp
    · obtain ⟨heq, p, hp, hturns⟩ := hsecond.2 e he
      exact ⟨heq, p, .inr hp, hkeep p hp ▸ hturns⟩

/-! ## The two functions -/

def InRange (addr size p : ℕ) : Prop := addr < (p + 1) * 4096 ∧ p * 4096 < addr + size

def InMask (base_addr : ℕ) (mask : RegionBits) (p : ℕ) : Prop :=
  ∃ i < 1024, p = base_addr / 4096 + i ∧ mask.bit i = true

theorem updatePageWatchers_updates (hagrees : m.Agrees) (haddr : addr < 2^40)
    (hend : addr + size ≤ 2^40) (hfits : ∀ p, InRange addr size p → (m.cached_pages p).Fits track is_read) :
    m.Updates track is_read (InRange addr size) (m.updatePageWatchers track is_read addr size) := by
  have hceil : addr / 4096 ≤ divCeil (addr + size) 4096 ∧ divCeil (addr + size) 4096 ≤ 268435456 := by
    unfold divCeil
    omega
  have hmem : ∀ p, InRange addr size p ↔
      addr / 4096 ≤ p ∧ p < addr / 4096 + (divCeil (addr + size) 4096 - addr / 4096) := by
    unfold InRange divCeil
    omega
  unfold updatePageWatchers trackerBytesPerPage numAddressPages
  rw [if_neg (by omega)]
  have hloop := updates_watchPages hagrees (fun _ => true)
    (addr / 4096) (divCeil (addr + size) 4096 - addr / 4096) (m.cached_pages (addr / 4096)).perms
    fun p h1 h2 _ => hfits p ((hmem p).mpr ⟨h1, h2⟩)
  apply hloop.congr
  intro p
  rw [hmem p]
  simp only [and_true]

theorem updatePageWatchersForRegion_updates (hagrees : m.Agrees)
    (halign : base_addr % 4194304 = 0) (hend : base_addr + 4194304 ≤ 2^40) (hany : mask.any = true)
    (hfits : ∀ p, InMask base_addr mask p → (m.cached_pages p).Fits track is_read) :
    m.Updates track is_read (InMask base_addr mask) (m.updatePageWatchersForRegion track is_read base_addr mask) := by
  -- The first range starts at the first page of the mask, and the last one ends behind the last.
  obtain ⟨hlpos, hlle, hlbit, hlafter⟩ := BitArray.lastRange_spec hany
  obtain ⟨i, hi, hbit⟩ := mask.any_iff.mp hany
  have hfirst : BitArray.NextRun mask 0 mask.firstRange := by
    rcases mask.firstRangeFrom_spec 0 with ⟨-, hno⟩ | hrun
    · rw [hno i (Nat.zero_le i) hi] at hbit
      exact absurd hbit (by decide)
    · exact hrun
  have hsize : 16 * bitsPerWord = 1024 := rfl
  have hpos := hfirst.pos
  have hle := hfirst.le_size
  have hones := hfirst.ones
  have hbefore := hfirst.before
  have hinside : ∀ i < 1024, mask.bit i = true → mask.firstRange.1 ≤ i ∧ i < mask.lastRange.2 := by
    intro j hj hset
    constructor
    · by_contra hlt
      rw [hbefore j (Nat.zero_le j) (by omega)] at hset
      exact absurd hset (by decide)
    · by_contra hge
      rw [hlafter j (by omega) hj] at hset
      exact absurd hset (by decide)
  unfold updatePageWatchersForRegion trackerBytesPerPage numPagesPerRegion numAddressPages
  dsimp only
  split_ifs with hone hbase hbounds
  · -- One range: the mask is a range of addresses.
    have hmem : ∀ p, InRange (base_addr + mask.firstRange.1 * 4096)
        ((mask.firstRange.2 - mask.firstRange.1) * 4096) p ↔ InMask base_addr mask p := by
      intro p
      unfold InRange InMask
      constructor
      · rintro ⟨h1, h2⟩
        exact ⟨p - base_addr / 4096, by omega, by omega, hones _ (by omega) (by omega)⟩
      · rintro ⟨j, hj, rfl, hset⟩
        have := hinside j hj hset
        omega
    apply Updates.congr _ hmem
    apply updatePageWatchers_updates hagrees (by omega) (by omega)
    exact fun p hp => hfits p ((hmem p).mp hp)
  · omega
  · omega
  · have hmem : ∀ p, (base_addr / 4096 + mask.firstRange.1 ≤ p ∧
        p < base_addr / 4096 + mask.firstRange.1 + (mask.lastRange.2 - mask.firstRange.1) ∧
        mask.get (p - base_addr / 4096) = true) ↔ InMask base_addr mask p := by
      intro p
      rw [BitArray.get_eq]
      constructor
      · rintro ⟨h1, h2, hset⟩
        exact ⟨p - base_addr / 4096, by omega, by omega, hset⟩
      · rintro ⟨j, hj, rfl, hset⟩
        have := hinside j hj hset
        rw [Nat.add_sub_cancel_left]
        exact ⟨by omega, by omega, hset⟩
    apply Updates.congr _ hmem
    apply updates_watchPages hagrees
    exact fun p h1 h2 hset => hfits p ((hmem p).mp ⟨h1, h2, hset⟩)

/-! ## Calls in parts -/

theorem updates_foldlM {ι : Type} {call : PageManager → ι → Except PageFault PageManager}
    {part : ι → ℕ → Prop} {parts : List ι} (hagrees : m.Agrees)
    (hdisjoint : parts.Pairwise fun a b => ∀ p, part a p → ¬ part b p)
    (hfits : ∀ a ∈ parts, ∀ p, part a p → (m.cached_pages p).Fits track is_read)
    (hcall : ∀ m : PageManager, ∀ a ∈ parts, m.Agrees → (∀ p, part a p → (m.cached_pages p).Fits track is_read) →
      m.Updates track is_read (part a) (call m a)) :
    m.Updates track is_read (fun p => ∃ a ∈ parts, part a p) (parts.foldlM call m) := by
  induction parts generalizing m with
  | nil =>
    apply (Updates.none hagrees).congr
    simp
  | cons a parts ih =>
    obtain ⟨hhead, htail⟩ := List.pairwise_cons.mp hdisjoint
    have hnot : ∀ p, part a p → ¬ ∃ b ∈ parts, part b p := fun p hp ⟨b, hb, hin⟩ =>
      hhead b hb p hp hin
    have hfirst := hcall m a (by simp) hagrees (hfits a (by simp))
    have hboth := hfirst.append (fun m' hm' => by
      apply ih hm'.agrees htail
      · intro b hb p hp
        rw [hm'.outside p fun hc => hnot p hc ⟨b, hb, hp⟩]
        exact hfits b (by simp [hb]) p hp
      · exact fun m b hb => hcall m b (by simp [hb])) hnot
    apply hboth.congr
    simp

def updateEach (m : PageManager) (track is_read : Bool) (order : List ℕ) : Except PageFault PageManager :=
  order.foldlM (fun m p => m.updatePageWatchers track is_read (p * trackerBytesPerPage)
    trackerBytesPerPage) m

def updateRuns (m : PageManager) (track is_read : Bool) (base_addr : ℕ) (mask : RegionBits) :
    Except PageFault PageManager :=
  mask.ranges.foldlM (fun m range => m.updatePageWatchers track is_read
    (base_addr + range.1 * trackerBytesPerPage) ((range.2 - range.1) * trackerBytesPerPage)) m

theorem updateEach_updates {order : List ℕ} (hagrees : m.Agrees) (hnodup : order.Nodup)
    (hlt : ∀ p ∈ order, p < 268435456) (hfits : ∀ p ∈ order, (m.cached_pages p).Fits track is_read) :
    m.Updates track is_read (· ∈ order) (m.updateEach track is_read order) := by
  have hone : ∀ a p, InRange (a * 4096) 4096 p ↔ p = a := by
    unfold InRange
    omega
  have hdisjoint : order.Pairwise fun a b => ∀ p, p = a → ¬ p = b :=
    hnodup.imp fun hne p hp hq => hne (hp.symm.trans hq)
  have heach : m.Updates track is_read (fun p => ∃ a ∈ order, p = a) (m.updateEach track is_read order) := by
    apply updates_foldlM hagrees hdisjoint
    · exact fun a ha p hp => hp ▸ hfits a ha
    · intro m a ha hm hfit
      have := hlt a ha
      apply Updates.congr _ (hone a)
      apply updatePageWatchers_updates hm
      · omega
      · omega
      · exact fun p hp => hfit p ((hone a p).mp hp)
  apply heach.congr
  simp

theorem updateRuns_updates {base_addr : ℕ} {mask : RegionBits} (hagrees : m.Agrees)
    (halign : base_addr % 4194304 = 0) (hend : base_addr + 4194304 ≤ 2^40)
    (hfits : ∀ p, InMask base_addr mask p → (m.cached_pages p).Fits track is_read) :
    m.Updates track is_read (InMask base_addr mask) (m.updateRuns track is_read base_addr mask) := by
  have hvisits := mask.ranges_visits
  have hsize : 16 * bitsPerWord = 1024 := rfl
  have hinside : ∀ r ∈ mask.ranges, r.1 < r.2 ∧ r.2 ≤ 1024 := fun r hr => by
    have := hvisits.inside r hr
    exact this.2
  have hmem : ∀ p, (∃ r ∈ mask.ranges, InRange (base_addr + r.1 * 4096) ((r.2 - r.1) * 4096) p) ↔
      InMask base_addr mask p := by
    intro p
    constructor
    · rintro ⟨r, hr, hin⟩
      have := hinside r hr
      unfold InRange at hin
      refine ⟨p - base_addr / 4096, by omega, by omega, ?_⟩
      exact (hvisits.bits _ (Nat.zero_le _) (by omega)).mpr ⟨r, hr, by omega, by omega⟩
    · rintro ⟨j, hj, rfl, hset⟩
      obtain ⟨r, hr, h1, h2⟩ := (hvisits.bits j (Nat.zero_le j) (by omega)).mp hset
      refine ⟨r, hr, ?_⟩
      unfold InRange
      omega
  have hdisjoint : mask.ranges.Pairwise fun r r' =>
      ∀ p, InRange (base_addr + r.1 * 4096) ((r.2 - r.1) * 4096) p →
        ¬ InRange (base_addr + r'.1 * 4096) ((r'.2 - r'.1) * 4096) p := by
    apply hvisits.ordered.imp_of_mem
    intro r r' hr hr' hlt p hp hp'
    unfold InRange at hp hp'
    omega
  have hruns : m.Updates track is_read
      (fun p => ∃ r ∈ mask.ranges, InRange (base_addr + r.1 * 4096) ((r.2 - r.1) * 4096) p)
      (m.updateRuns track is_read base_addr mask) := by
    apply updates_foldlM hagrees hdisjoint
    · exact fun r hr p hp => hfits p ((hmem p).mp ⟨r, hr, hp⟩)
    · intro m r hr hm hfit
      have := hinside r hr
      exact updatePageWatchers_updates hm (by omega) (by omega) hfit
  exact hruns.congr hmem

/-- Where no counter leaves its range, a call updates the pages of its range or of its mask and leaves the host in
agreement with them, unless one of the pages was to turn write-only. -/
theorem update_watchers_spec (hagrees : m.Agrees) : (∀ addr size, addr < 2^40 → addr + size ≤ 2^40 →
      (∀ p, InRange addr size p → (m.cached_pages p).Fits track is_read) →
      m.Updates track is_read (InRange addr size) (m.updatePageWatchers track is_read addr size) ∧
      ∀ order : List ℕ, order.Nodup → (∀ p, p ∈ order ↔ InRange addr size p) →
        m.updateEach track is_read order = m.updatePageWatchers track is_read addr size) ∧
    ∀ base_addr mask, base_addr % 4194304 = 0 → base_addr + 4194304 ≤ 2^40 → mask.any = true →
      (∀ p, InMask base_addr mask p → (m.cached_pages p).Fits track is_read) →
      m.Updates track is_read (InMask base_addr mask) (m.updatePageWatchersForRegion track is_read base_addr mask) ∧
      (∀ order : List ℕ, order.Nodup → (∀ p, p ∈ order ↔ InMask base_addr mask p) →
        m.updateEach track is_read order = m.updatePageWatchersForRegion track is_read base_addr mask) ∧
      m.updateRuns track is_read base_addr mask = m.updatePageWatchersForRegion track is_read base_addr mask := by
  constructor
  · intro addr size haddr hend hfits
    have hcall := updatePageWatchers_updates hagrees haddr hend hfits
    refine ⟨hcall, fun order hnodup hmem => ?_⟩
    have heach := updateEach_updates (m := m) hagrees hnodup (fun p hp => by
        have := (hmem p).mp hp
        unfold InRange at this
        omega)
      (fun p hp => hfits p ((hmem p).mp hp))
    exact (heach.congr hmem).unique hcall
  · intro base_addr mask halign hend hany hfits
    have hcall := updatePageWatchersForRegion_updates hagrees halign hend hany hfits
    refine ⟨hcall, fun order hnodup hmem => ?_, ?_⟩
    · have heach := updateEach_updates (m := m) hagrees hnodup (fun p hp => by
          obtain ⟨j, hj, heq, -⟩ := (hmem p).mp hp
          omega)
        (fun p hp => hfits p ((hmem p).mp hp))
      exact (heach.congr hmem).unique hcall
    · exact (updateRuns_updates hagrees halign hend hfits).unique hcall

theorem update_watchers_spec_sample : Updates {} true false (InMask 0 ((BitArray.clear.setRange 0 1).setRange 2 3))
      (updatePageWatchersForRegion {} true false 0 ((BitArray.clear.setRange 0 1).setRange 2 3)) := by
  have hagrees : Agrees {} := fun _ => (by decide : MemoryPermission.readWrite = PageState.perms {})
  have hany : (((BitArray.clear.setRange 0 1).setRange 2 3) : RegionBits).any = true := by
    decide
  have hfits : ∀ p, InMask 0 ((BitArray.clear.setRange 0 1).setRange 2 3) p →
      (({} : PageManager).cached_pages p).Fits true false :=
    fun p _ => (by decide : PageState.Fits {} true false)
  exact ((update_watchers_spec hagrees).2 0 _ (by omega) (by omega) hany hfits).1

/-- Reads of a page that can be written are watched: the page was to turn write-only. -/
theorem read_watcher_turns_writeOnly : Agrees {} ∧ (∀ p, InMask 0 (BitArray.clear.setRange 0 1) p →
      (({} : PageManager).cached_pages p).Fits true true) ∧ (BitArray.clear.setRange 0 1 : RegionBits).any = true ∧
    updatePageWatchersForRegion {} true true 0 (BitArray.clear.setRange 0 1) = .error .writeOnly := by
  have hagrees : Agrees {} := fun _ => (by decide : MemoryPermission.readWrite = PageState.perms {})
  have hfits : ∀ p, InMask 0 (BitArray.clear.setRange 0 1) p → (({} : PageManager).cached_pages p).Fits true true :=
    fun p _ => (by decide : PageState.Fits {} true true)
  have hany : (BitArray.clear.setRange 0 1 : RegionBits).any = true := by decide
  have hupdates := updatePageWatchersForRegion_updates hagrees (by omega) (by omega)
    hany hfits
  refine ⟨hagrees, hfits, hany, hupdates.eq_error (p := 0) ⟨0, by omega, by omega, ?_⟩ ?_⟩
  · decide
  · exact (by decide : PageState.TurnsWriteOnly {} true true)

end PageManager

end ShadPS4.VideoCore
