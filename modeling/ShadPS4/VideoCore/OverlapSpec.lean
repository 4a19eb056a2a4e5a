import ShadPS4.VideoCore.BufferCache

/-!
# The search for overlaps

What `ResolveOverlaps` finds for a range of whole pages: a range around it such that every registered buffer is
inside of the range that was found, and then is one of the overlaps, or outside of it.
-/

namespace ShadPS4.VideoCore

open Function
open Option (some.inj)

open ShadPS4.Common ShadPS4.Memory
open BufferCache (slot pageEntry)

variable {a page : ℕ}
variable {c : BufferCache} {id id' : ℕ} {b b' : Buffer}

/-- `CpuAddr() + SizeBytes()`. -/
def Buffer.stop (b : Buffer) : ℕ := b.cpu_addr + b.size_bytes

def Buffer.CoversPage (b : Buffer) (page : ℕ) : Prop :=
  b.cpu_addr ≤ page * 16384 ∧ page * 16384 < b.stop

/-- A registered buffer has some whole pages of the address space, and no search has picked it. -/
structure Buffer.Sound (b : Buffer) : Prop where
  aligned : b.cpu_addr % 16384 = 0
  pages : b.size_bytes % 16384 = 0
  pos : 0 < b.size_bytes
  inside : b.stop ≤ 2^40
  unpicked : b.is_picked = false

def BufferCache.Registered (c : BufferCache) (id : ℕ) (b : Buffer) : Prop :=
  c.slot_buffers.values id = some b ∧ b.is_deleted = false

structure BufferCache.Wf (c : BufferCache) : Prop where
  slots : c.slot_buffers.Wf
  sound : ∀ id b, c.Registered id b → b.Sound
  table : ∀ page id, c.page_table page = some id ↔ ∃ b, c.Registered id b ∧ b.CoversPage page
  nodup : c.pending_ops.Nodup
  pending : ∀ id, id ∈ c.pending_ops ↔
    ∃ b, c.slot_buffers.values id = some b ∧ b.is_deleted = true

theorem BufferCache.Registered.unique (h : c.Registered id b) (h' : c.Registered id b') : b = b' :=
  some.inj (h.1.symm.trans h'.1)

theorem BufferCache.Wf.entry (h : c.Wf) (hb : c.Registered id b) (h1 : b.cpu_addr ≤ a)
    (h2 : a < b.stop) : c.page_table (a / 16384) = some id := by
  have hsound := h.sound id b hb
  have h3 := hsound.aligned
  unfold Buffer.stop at h2
  refine (h.table _ _).mpr ⟨b, hb, by omega, ?_⟩
  unfold Buffer.stop
  omega

theorem BufferCache.Wf.unique (h : c.Wf) (hb : c.Registered id b) (hb' : c.Registered id' b') (h1 : b.cpu_addr ≤ a) (h2 : a < b.stop) (h3 : b'.cpu_addr ≤ a) (h4 : a < b'.stop) :
    id = id' :=
  some.inj ((h.entry hb h1 h2).symm.trans (h.entry hb' h3 h4))

theorem BufferCache.Wf.registered (h : c.Wf) (hpage : c.page_table page = some id) :
    ∃ b, c.Registered id b ∧ b.Sound ∧ b.CoversPage page := by
  obtain ⟨b, hb, hcovers⟩ := (h.table page id).mp hpage
  exact ⟨b, hb, h.sound id b hb, hcovers⟩

/-- What a search from an address on adds to the stream score at a page: the score of a buffer, at the
first page of it that is visited. -/
def BufferCache.firstScore (c : BufferCache) (first page : ℕ) : ℕ :=
  match (c.page_table page).bind c.slot_buffers.values with
  | some b => if page * 16384 = first ∨ (first < page * 16384 ∧ b.cpu_addr = page * 16384) then
      b.stream_score else 0
  | none => 0

/-- The stream score of the buffers that a search meets before a page. -/
@[irreducible] def BufferCache.scoreTo (c : BufferCache) (first page : ℕ) : ℕ :=
  ((List.range page).map (c.firstScore first)).sum

theorem scoreTo_succ (first page : ℕ) :
    c.scoreTo first (page + 1) = c.scoreTo first page + c.firstScore first page := by
  unfold BufferCache.scoreTo
  rw [List.range_succ, List.map_append, List.sum_append, List.map_singleton, List.sum_singleton]

/-- The buffer at which the stream score of a range passes the threshold. -/
def BufferCache.LeapsAt (c : BufferCache) (first stop : ℕ) (b : Buffer) : Prop :=
  ∃ page, page * 16384 < stop ∧ (c.page_table page).bind c.slot_buffers.values = some b ∧
    c.scoreTo first page ≤ streamLeapThreshold ∧ streamLeapThreshold < c.scoreTo first (page + 1)

theorem scoreTo_eq_zero (h : page * 16384 ≤ first) : c.scoreTo first page = 0 := by
  induction page with
  | zero =>
    unfold BufferCache.scoreTo
    rfl
  | succ page ih =>
    have hle : page * 16384 ≤ first := Nat.le_trans (Nat.mul_le_mul_right _ (Nat.le_succ page)) h
    rw [scoreTo_succ, ih hle, Nat.zero_add]
    unfold BufferCache.firstScore
    cases (c.page_table page).bind c.slot_buffers.values with
    | none => rfl
    | some b =>
      have hnot : ¬ (page * 16384 = first ∨ (first < page * 16384 ∧ b.cpu_addr = page * 16384)) := by omega
      simp only [hnot, if_false]

theorem firstScore_none (h : c.page_table page = none) : c.firstScore first page = 0 := by
  unfold BufferCache.firstScore
  rw [h]
  rfl

theorem firstScore_some (h : c.page_table page = some id) (hb : c.Registered id b) :
    c.firstScore first page = if page * 16384 = first ∨
      (first < page * 16384 ∧ b.cpu_addr = page * 16384) then b.stream_score else 0 := by
  unfold BufferCache.firstScore
  rw [h, Option.bind_some, hb.1]

abbrev leapSpace : ℕ := 0x200000

/-- A window around a range: registered buffers are inside or outside of it, and it has the space of
a stream leap, if there is one. -/
structure Window (c : BufferCache) (first stop low high : ℕ) : Prop where
  low_le : low ≤ first
  le_high : stop ≤ high
  closed : ∀ id b, c.Registered id b → b.cpu_addr < high → low < b.stop →
    low ≤ b.cpu_addr ∧ b.stop ≤ high
  leap_right : ∀ b, c.LeapsAt first stop b → stop < b.stop → min (b.stop + leapSpace) (2^40) ≤ high
  leap_left : ∀ b, c.LeapsAt first stop b → b.cpu_addr < first →
    2 * 16384 ≤ b.cpu_addr ∧ low ≤ max (2 * 16384) (b.cpu_addr - leapSpace)

/-! ## The search -/

variable {first stop low high : ℕ} {s : OverlapSearch}

structure Found (c : BufferCache) (first stop low high : ℕ) (s : OverlapSearch) : Prop where
  begin_aligned : s.begin_addr % 16384 = 0
  end_aligned : s.end_addr % 16384 = 0
  low_le : low ≤ s.begin_addr
  le_first : s.begin_addr ≤ first
  stop_le : stop ≤ s.end_addr
  le_high : s.end_addr ≤ high
  space : s.end_addr ≤ 2^40
  nodup : s.overlap_ids.Nodup
  inside : ∀ id ∈ s.overlap_ids, ∃ b, c.Registered id b ∧ s.begin_addr ≤ b.cpu_addr ∧
    b.stop ≤ s.end_addr
  slots_wf : s.slots.Wf
  picked : ∀ id ∈ s.overlap_ids, ∀ b, c.Registered id b →
    s.slots.values id = some { b with is_picked := true }
  others : ∀ id, id ∉ s.overlap_ids → s.slots.values id = c.slot_buffers.values id

/-- What holds in a search up to a stream leap. -/
structure Calm (c : BufferCache) (first stop : ℕ) (s : OverlapSearch) : Prop where
  ahead : first ≤ s.device_addr
  score : s.stream_score = c.scoreTo first (s.device_addr / 16384)
  low : s.stream_score ≤ streamLeapThreshold
  met : ∀ id ∈ s.overlap_ids, ∃ page, first ≤ page * 16384 ∧ page * 16384 < s.device_addr ∧
    c.page_table page = some id
  tail : ∀ page, stop ≤ page * 16384 → page * 16384 < s.end_addr →
    ∃ id ∈ s.overlap_ids, c.page_table page = some id

structure Searching (c : BufferCache) (first stop low high : ℕ) (s : OverlapSearch) : Prop
    extends Found c first stop low high s where
  aligned : s.device_addr % 16384 = 0
  begin_le : s.begin_addr ≤ s.device_addr
  le_end : s.device_addr ≤ s.end_addr
  seen : ∀ page id, s.begin_addr ≤ page * 16384 → page * 16384 < s.device_addr →
    c.page_table page = some id → id ∈ s.overlap_ids
  calm : s.has_stream_leap = false → Calm c first stop s

def OverlapSearch.rounds (s : OverlapSearch) : ℕ :=
  cachingNumPages + 1 - s.device_addr / 16384 +
    if s.has_stream_leap then 0 else cachingNumPages + 1

theorem Found.widen (h : Found c first stop low high s)
    (hids : s'.overlap_ids = s.overlap_ids) (hslots : s'.slots = s.slots)
    (hbegin : s'.begin_addr % 16384 = 0 ∧ low ≤ s'.begin_addr ∧ s'.begin_addr ≤ s.begin_addr)
    (hend : s'.end_addr % 16384 = 0 ∧ s.end_addr ≤ s'.end_addr ∧ s'.end_addr ≤ high ∧ s'.end_addr ≤ 2^40) :
    Found c first stop low high s' := by
  refine ⟨hbegin.1, hend.1, hbegin.2.1, hbegin.2.2.trans h.le_first, h.stop_le.trans hend.2.1,
    hend.2.2.1, hend.2.2.2, hids ▸ h.nodup, fun id hid => ?_, hslots ▸ h.slots_wf,
    fun id hid b hb => ?_, fun id hid => ?_⟩
  · obtain ⟨b, hb, h1, h2⟩ := h.inside id (hids ▸ hid)
    exact ⟨b, hb, hbegin.2.2.trans h1, h2.trans hend.2.1⟩
  · rw [hslots]
    exact h.picked id (hids ▸ hid) b hb
  · rw [hslots]
    exact h.others id (hids ▸ hid)

theorem expandEnd_eq (h : s.end_addr ≤ 2^40) :
    s.expandEnd leapSpace = { s with end_addr := min (s.end_addr + leapSpace) (2^40) } := by
  unfold OverlapSearch.expandEnd
  dsimp only
  rw [sub64_of_le h (by decide)]
  split_ifs with hlt
  · rw [Nat.min_eq_right (by omega)]
  · rw [Nat.min_eq_left (by omega), add64_of_lt (by omega)]

theorem expandBegin_eq (h : 2 * 16384 ≤ s.begin_addr) (hlt : s.begin_addr < 2^64) : s.expandBegin leapSpace = { s with
      begin_addr := max (2 * 16384) (s.begin_addr - leapSpace)
      device_addr := max (2 * 16384) (s.begin_addr - leapSpace) - 16384 } := by
  have hmin : cachingPageSize + devicePageSize = 32768 := rfl
  have hspace : leapSpace = 2097152 := rfl
  unfold OverlapSearch.expandBegin
  dsimp only
  rw [hmin, hspace, sub64_of_le h hlt]
  split_ifs with hgt
  · rw [Nat.max_eq_left (by omega)]
  · have hle : 2097152 ≤ s.begin_addr := by omega
    rw [Nat.max_eq_right (by omega), sub64_of_le hle hlt,
      sub64_of_le (show cachingPageSize ≤ s.begin_addr - 2097152 by unfold cachingPageSize; omega)
        (by omega)]

theorem Searching.advance (h : Searching c first stop low high s) (hc : c.Wf) (hlt : s.device_addr < s.end_addr)
    (hold : ∀ id, c.page_table (s.device_addr / 16384) = some id → id ∈ s.overlap_ids) :
    Searching c first stop low high { s with device_addr := s.device_addr + 16384 } := by
  have haligned := h.aligned
  have hend := h.end_aligned
  refine ⟨h.toFound.widen rfl rfl ⟨h.begin_aligned, h.low_le, le_rfl⟩
    ⟨h.end_aligned, le_rfl, h.le_high, h.space⟩, ?_, ?_, ?_, fun page id h1 h2 hid => ?_,
    fun hleap => ?_⟩
  · dsimp only
    omega
  · have := h.begin_le
    dsimp only
    omega
  · dsimp only
    omega
  · dsimp only at h1 h2
    rcases Nat.lt_or_ge (page * 16384) s.device_addr with hbefore | hhere
    · exact h.seen page id h1 hbefore hid
    · obtain rfl : page = s.device_addr / 16384 := by omega
      exact hold id hid
  · have hcalm := h.calm hleap
    refine ⟨Nat.le_add_right_of_le hcalm.ahead, ?_, hcalm.low, fun id hid => ?_, hcalm.tail⟩
    · -- Nothing is added to the score.
      have hzero : c.firstScore first (s.device_addr / 16384) = 0 := by
        cases hentry : c.page_table (s.device_addr / 16384) with
        | none => exact firstScore_none hentry
        | some id =>
          obtain ⟨page, h1, h2, hmet⟩ := hcalm.met id (hold id hentry)
          obtain ⟨b, hb, -, hcovers⟩ := hc.registered hmet
          have := hcovers.1
          rw [firstScore_some hentry hb, if_neg]
          omega
      have hnext : (s.device_addr + 16384) / 16384 = s.device_addr / 16384 + 1 := by omega
      rw [hnext, scoreTo_succ, hzero]
      exact hcalm.score
    · obtain ⟨page, h1, h2, hmet⟩ := hcalm.met id hid
      exact ⟨page, h1, Nat.lt_add_right _ h2, hmet⟩

/-- A search with a new overlap, before a stream leap. -/
def OverlapSearch.joined (s : OverlapSearch) (id : ℕ) (b : Buffer) : OverlapSearch :=
  { s with
    overlap_ids := s.overlap_ids ++ [id]
    slots := s.slots.set id { b with is_picked := true }
    begin_addr := min b.cpu_addr s.begin_addr
    end_addr := max b.stop s.end_addr
    stream_score := s.stream_score + b.stream_score }

theorem pick_eq (hb : b.Sound) : s.pick id b =
    if streamLeapThreshold < s.stream_score + b.stream_score ∧ s.has_stream_leap = false then
      let t := { s.joined id b with has_stream_leap := true }
      let t := if s.end_addr < b.stop then t.expandEnd leapSpace else t
      if b.cpu_addr < s.begin_addr then t.expandBegin leapSpace else t
    else s.joined id b := by
  have hstop : add64 b.cpu_addr b.size_bytes = b.stop := by
    have := hb.inside
    unfold Buffer.stop at this ⊢
    exact add64_of_lt (by omega)
  have hbegin : (if b.cpu_addr < s.begin_addr then b.cpu_addr else s.begin_addr) = min b.cpu_addr s.begin_addr := by
    split_ifs <;> omega
  have hend : (if s.end_addr < b.stop then b.stop else s.end_addr) = max b.stop s.end_addr := by
    split_ifs <;> omega
  have hspace : cachingPageSize * 128 = leapSpace := rfl
  unfold OverlapSearch.pick OverlapSearch.joined
  simp only [hstop, gt_iff_lt, hbegin, hend, hspace]

theorem Searching.join (h : Searching c first stop low high s) (hc : c.Wf)
    (hw : Window c first stop low high) (hlt : s.device_addr < s.end_addr)
    (hentry : c.page_table (s.device_addr / 16384) = some id) (hnew : id ∉ s.overlap_ids)
    (hb : c.Registered id b) : Found c first stop low high (s.joined id b) ∧
    (∀ page id', (s.joined id b).begin_addr ≤ page * 16384 → page * 16384 < s.device_addr + 16384 →
      c.page_table page = some id' → id' ∈ (s.joined id b).overlap_ids) ∧ (s.has_stream_leap = false →
      s.stream_score + b.stream_score = c.scoreTo first (s.device_addr / 16384 + 1) ∧ s.device_addr < stop ∧
      ∀ page, stop ≤ page * 16384 → page * 16384 < (s.joined id b).end_addr →
        ∃ id' ∈ (s.joined id b).overlap_ids, c.page_table page = some id') := by
  have haligned := h.aligned
  have hbegin := h.begin_aligned
  have hend := h.end_aligned
  have hsound := hc.sound id b hb
  have hcpu := hsound.aligned
  have hsize := hsound.pages
  have hspace := hsound.inside
  have hpage : s.device_addr / 16384 * 16384 = s.device_addr := by omega
  obtain ⟨hcov1, hcov2⟩ : b.CoversPage (s.device_addr / 16384) := by
    obtain ⟨b', hb', hcov⟩ := (hc.table _ _).mp hentry
    rwa [hb.unique hb']
  rw [hpage] at hcov1 hcov2
  have hlow := h.low_le
  have hhigh := h.le_high
  have hfrom := h.begin_le
  obtain ⟨hwin1, hwin2⟩ := hw.closed id b hb (by omega) (by omega)
  have hstop : b.stop % 16384 = 0 := by
    unfold Buffer.stop
    omega
  have hcovers : ∀ page, b.cpu_addr ≤ page * 16384 → page * 16384 < b.stop →
      c.page_table page = some id := fun page h1 h2 => (hc.table page id).mpr ⟨b, hb, h1, h2⟩
  have hids : ∀ id', id' ∈ s.overlap_ids ++ [id] ↔ id' ∈ s.overlap_ids ∨ id' = id := by simp
  have hfree : s.slots.values id = some b := (h.others id hnew).trans hb.1
  refine ⟨⟨?_, ?_, le_min hwin1 hlow, (min_le_right _ _).trans h.le_first,
    h.stop_le.trans (le_max_right _ _), max_le hwin2 hhigh, max_le hspace h.space, ?_,
    fun id' hid => ?_, h.slots_wf.set hfree _, fun id' hid b' hb' => ?_, fun id' hid => ?_⟩, ?_, ?_⟩
  · change min b.cpu_addr s.begin_addr % 16384 = 0
    omega
  · change max b.stop s.end_addr % 16384 = 0
    omega
  · refine List.nodup_append.mpr ⟨h.nodup, List.nodup_singleton id, fun x hx y hy => ?_⟩
    rw [List.mem_singleton.mp hy]
    rintro rfl
    exact hnew hx
  · rcases (hids id').mp hid with hold | rfl
    · obtain ⟨b', hb', h1, h2⟩ := h.inside id' hold
      exact ⟨b', hb', (min_le_right _ _).trans h1, h2.trans (le_max_right _ _)⟩
    · exact ⟨b, hb, min_le_left _ _, le_max_left _ _⟩
  · change update s.slots.values id _ id' = _
    rcases eq_or_ne id' id with rfl | hne
    · rw [update_self, hb'.unique hb]
    · rw [update_of_ne hne]
      exact h.picked id' (((hids id').mp hid).resolve_right hne) b' hb'
  · have hnot := mt (hids id').mpr hid
    rw [not_or] at hnot
    change update s.slots.values id _ id' = _
    rw [update_of_ne hnot.2]
    exact h.others id' hnot.1
  · -- The buffers of the pages up to this one.
    intro page id' h1 h2 hid
    rw [show (s.joined id b).overlap_ids = s.overlap_ids ++ [id] from rfl, hids]
    have h1 : min b.cpu_addr s.begin_addr ≤ page * 16384 := h1
    rcases Nat.lt_or_ge (page * 16384) s.begin_addr with hleft | hright
    · rw [hcovers page (by omega) (by omega)] at hid
      exact .inr (some.inj hid).symm
    · rcases Nat.lt_or_ge (page * 16384) s.device_addr with hbefore | hhere
      · exact .inl (h.seen page id' hright hbefore hid)
      · rw [show page = s.device_addr / 16384 by omega, hentry] at hid
        exact .inr (some.inj hid).symm
  · intro hleap
    have hcalm := h.calm hleap
    have hahead := hcalm.ahead
    have hle := h.le_first
    -- The page is the first one of the buffer that is visited.
    have hfirst : s.device_addr / 16384 * 16384 = first ∨
        (first < s.device_addr / 16384 * 16384 ∧ b.cpu_addr = s.device_addr / 16384 * 16384) := by
      by_contra hnot
      have hprev := hcovers (s.device_addr / 16384 - 1) (by omega) (by omega)
      exact hnew (h.seen _ _ (by omega) (by omega) hprev)
    have hscore := hcalm.score
    refine ⟨?_, ?_, fun page h1 h2 => ?_⟩
    · rw [scoreTo_succ, firstScore_some hentry hb, if_pos hfirst, hscore]
    · by_contra hge
      obtain ⟨id', hid, hsame⟩ := hcalm.tail (s.device_addr / 16384) (by omega) (by omega)
      rw [hentry] at hsame
      exact hnew (some.inj hsame ▸ hid)
    · have h2 : page * 16384 < max b.stop s.end_addr := h2
      rcases Nat.lt_or_ge (page * 16384) s.end_addr with hold | hbehind
      · obtain ⟨id', hid, htable⟩ := hcalm.tail page h1 hold
        exact ⟨id', (hids id').mpr (.inl hid), htable⟩
      · exact ⟨id, (hids id).mpr (.inr rfl), hcovers page (by omega) (by omega)⟩

theorem leap_start (ha : a % 16384 = 0) (hfar : 2 * 16384 ≤ a) :
    max (2 * 16384) (a - leapSpace) % 16384 = 0 ∧ 16384 ≤ max (2 * 16384) (a - leapSpace) ∧
      max (2 * 16384) (a - leapSpace) ≤ a := by
  unfold leapSpace
  omega

theorem leap_stop (ha : a % 16384 = 0) : min (a + leapSpace) (2^40) % 16384 = 0 := by
  unfold leapSpace
  omega

theorem Searching.leap (h : Searching c first stop low high s) (hc : c.Wf)
    (hw : Window c first stop low high) (hlt : s.device_addr < s.end_addr)
    (hentry : c.page_table (s.device_addr / 16384) = some id) (hnew : id ∉ s.overlap_ids)
    (hb : c.Registered id b) (hcalm : s.has_stream_leap = false)
    (hscore : streamLeapThreshold < s.stream_score + b.stream_score) :
    ∃ t, s.pick id b = t ∧ t.has_stream_leap = true ∧
      Searching c first stop low high { t with device_addr := add64 t.device_addr 16384 } := by
  obtain ⟨hfound, hseen, hnext⟩ := h.join hc hw hlt hentry hnew hb
  obtain ⟨hsum, hstop, -⟩ := hnext hcalm
  have hsound := hc.sound id b hb
  have hleaps : c.LeapsAt first stop b := by
    have hcalm := h.calm hcalm
    refine ⟨s.device_addr / 16384, by omega, by rw [hentry, Option.bind_some, hb.1], ?_, ?_⟩
    · rw [← hcalm.score]
      exact hcalm.low
    · rw [← hsum]
      exact hscore
  -- The end of the range is moved first.
  obtain ⟨t, ht, hbegin, hdevice, hids, hle, hleap, hgrown⟩ : ∃ t : OverlapSearch, (if s.end_addr < b.stop then
        ({ s.joined id b with has_stream_leap := true } : OverlapSearch).expandEnd leapSpace
        else { s.joined id b with has_stream_leap := true }) = t ∧
      t.begin_addr = min b.cpu_addr s.begin_addr ∧ t.device_addr = s.device_addr ∧
      t.overlap_ids = (s.joined id b).overlap_ids ∧ (s.joined id b).end_addr ≤ t.end_addr ∧
      t.has_stream_leap = true ∧ Found c first stop low high t := by
    split_ifs with hright
    · refine ⟨_, expandEnd_eq hfound.space, rfl, rfl, rfl, ?_, rfl, ?_⟩
      · exact le_min (Nat.le_add_right _ _) hfound.space
      · have hpast := hw.leap_right b hleaps (lt_of_le_of_lt h.stop_le hright)
        have hend : (s.joined id b).end_addr = b.stop := max_eq_left hright.le
        have hspace := hfound.space
        have haligned := hfound.end_aligned
        refine hfound.widen rfl rfl ⟨hfound.begin_aligned, hfound.low_le, le_rfl⟩ ?_
        rw [hend] at haligned hspace ⊢
        exact ⟨leap_stop haligned, le_min (Nat.le_add_right _ _) hspace, hpast, min_le_right _ _⟩
    · exact ⟨_, rfl, rfl, rfl, rfl, le_rfl, rfl, hfound.widen rfl rfl ⟨hfound.begin_aligned, hfound.low_le, le_rfl⟩
        ⟨hfound.end_aligned, le_rfl, hfound.le_high, hfound.space⟩⟩
  have hspace := hgrown.space
  have hend : max b.stop s.end_addr ≤ t.end_addr := hle
  have haligned := h.aligned
  have hend_aligned := h.end_aligned
  have hfrom := h.begin_le
  refine ⟨_, rfl, ?_⟩
  rw [pick_eq hsound, if_pos ⟨hscore, hcalm⟩]
  dsimp only
  rw [ht]
  split_ifs with hleft
  · -- The search starts again where the space was added.
    obtain ⟨hfar, hlow⟩ := hw.leap_left b hleaps (lt_of_lt_of_le hleft h.le_first)
    have hcpu := hsound.aligned
    have hstart : t.begin_addr = b.cpu_addr := by omega
    rw [expandBegin_eq (hstart ▸ hfar) (by omega), hstart]
    obtain ⟨hpage, hpos, hle'⟩ := leap_start hcpu hfar
    refine ⟨hleap, ?_⟩
    dsimp only
    generalize max (2 * 16384) (b.cpu_addr - leapSpace) = start at hlow hpage hpos hle' ⊢
    rw [add64_of_lt (by omega), Nat.sub_add_cancel hpos]
    refine ⟨hgrown.widen rfl rfl ⟨hpage, hlow, hstart ▸ hle'⟩
      ⟨hgrown.end_aligned, le_rfl, hgrown.le_high, hspace⟩, hpage, le_rfl, ?_,
      fun page id' h1 h2 => ?_, fun hno => ?_⟩
    · dsimp only
      omega
    · dsimp only at h1 h2
      omega
    · exact absurd (hleap.symm.trans hno) (by decide)
  · refine ⟨hleap, ?_⟩
    rw [hdevice, add64_of_lt (by have := h.space; omega)]
    refine ⟨hgrown.widen rfl rfl ⟨hgrown.begin_aligned, hgrown.low_le, le_rfl⟩
      ⟨hgrown.end_aligned, le_rfl, hgrown.le_high, hspace⟩, by dsimp only; omega, ?_, ?_,
      fun page id' h1 h2 hid => ?_, fun hno => ?_⟩
    · have := h.begin_le
      dsimp only
      omega
    · dsimp only
      omega
    · dsimp only at h1 h2 ⊢
      rw [hids]
      rw [hbegin] at h1
      exact hseen page id' h1 h2 hid
    · exact absurd (hleap.symm.trans hno) (by decide)

theorem Searching.visit (h : Searching c first stop low high s) (hc : c.Wf)
    (hw : Window c first stop low high) (hlt : s.device_addr < s.end_addr) :
    ∃ s' t, s.visit c.page_table = .ok s' ∧ t = { s' with device_addr := add64 s'.device_addr 16384 } ∧
      Searching c first stop low high t ∧ t.rounds < s.rounds := by
  have hspace := h.space
  have haligned := h.aligned
  have hadd : add64 s.device_addr 16384 = s.device_addr + 16384 := add64_of_lt (by omega)
  have hpage : s.device_addr / 16384 < cachingNumPages := by
    unfold cachingNumPages
    omega
  -- Without a stream leap one round less is left.
  have hrounds : ∀ t : OverlapSearch, t.device_addr = s.device_addr + 16384 →
      t.has_stream_leap = s.has_stream_leap → t.rounds < s.rounds := by
    intro t hdevice hleap
    unfold OverlapSearch.rounds
    rw [hdevice, hleap]
    omega
  unfold OverlapSearch.visit pageEntry
  rw [if_pos hpage]
  simp only [bind, Except.bind]
  cases hentry : c.page_table (s.device_addr / 16384) with
  | none =>
    refine ⟨s, _, rfl, rfl, ?_, ?_⟩
    · rw [hadd]
      exact h.advance hc hlt fun id hid => by rw [hentry] at hid; exact absurd hid (by simp)
    · exact hrounds _ hadd rfl
  | some id =>
    obtain ⟨b, hb, hsound, -⟩ := hc.registered hentry
    dsimp only
    by_cases hid : id ∈ s.overlap_ids
    · -- The overlap has been picked.
      rw [slot, h.picked id hid b hb]
      refine ⟨s, _, rfl, rfl, ?_, ?_⟩
      · rw [hadd]
        refine h.advance hc hlt fun id' hid' => ?_
        rw [hentry] at hid'
        exact some.inj hid' ▸ hid
      · exact hrounds _ hadd rfl
    · have hfree : s.slots.values id = some b := (h.others id hid).trans hb.1
      rw [slot, hfree]
      dsimp only
      rw [hsound.unpicked]
      by_cases hleap : streamLeapThreshold < s.stream_score + b.stream_score ∧ s.has_stream_leap = false
      · obtain ⟨t, ht, hleaps, hnext⟩ := h.leap hc hw hlt hentry hid hb hleap.2 hleap.1
        refine ⟨t, _, congrArg Except.ok ht, rfl, hnext, ?_⟩
        unfold OverlapSearch.rounds
        rw [hleaps, hleap.2]
        simp only [if_true, Bool.false_eq_true, if_false]
        omega
      · obtain ⟨hfound, hseen, hnext⟩ := h.join hc hw hlt hentry hid hb
        refine ⟨s.joined id b, _, ?_, rfl, ?_, hrounds _ hadd rfl⟩
        · have hpick : s.pick id b = s.joined id b := by
            rw [pick_eq hsound, if_neg hleap]
          exact congrArg Except.ok hpick
        · have hfrom := h.begin_le
          have hend : s.end_addr ≤ (s.joined id b).end_addr := le_max_right _ _
          have hend_aligned := hfound.end_aligned
          have hdevice : (s.joined id b).device_addr = s.device_addr := rfl
          rw [hdevice, hadd]
          refine ⟨hfound.widen rfl rfl ⟨hfound.begin_aligned, hfound.low_le, le_rfl⟩
            ⟨hfound.end_aligned, le_rfl, hfound.le_high, hfound.space⟩, by dsimp only; omega, ?_, ?_,
            hseen, fun hno => ?_⟩
          · have hle : (s.joined id b).begin_addr ≤ s.begin_addr := min_le_right _ _
            dsimp only
            omega
          · dsimp only
            omega
          · have hno : s.has_stream_leap = false := hno
            obtain ⟨hsum, -, htail⟩ := hnext hno
            have hcalm := h.calm hno
            have hahead := hcalm.ahead
            refine ⟨by dsimp only; omega, ?_, ?_, fun id' hid' => ?_, htail⟩
            · have hdiv : (s.device_addr + 16384) / 16384 = s.device_addr / 16384 + 1 := by omega
              rw [hdiv, ← hsum]
              rfl
            · exact Nat.le_of_not_lt fun hgt => hleap ⟨hgt, hno⟩
            · have hids : id' ∈ s.overlap_ids ++ [id] := hid'
              dsimp only
              rcases List.mem_append.mp hids with hold | hnew
              · obtain ⟨page, h1, h2, hmet⟩ := hcalm.met id' hold
                exact ⟨page, h1, Nat.lt_add_right _ h2, hmet⟩
              · rw [List.mem_singleton.mp hnew]
                exact ⟨s.device_addr / 16384, by omega, by omega, hentry⟩

theorem Searching.loop (h : Searching c first stop low high s) (hc : c.Wf)
    (hw : Window c first stop low high) (hfuel : s.rounds ≤ fuel) :
    ∃ s', s.loop c.page_table fuel = .ok s' ∧ Found c first stop low high s' ∧
      ∀ page id, s'.begin_addr ≤ page * 16384 → page * 16384 < s'.end_addr →
        c.page_table page = some id → id ∈ s'.overlap_ids := by
  induction fuel generalizing s with
  | zero =>
    have hspace := h.space
    have hend := h.le_end
    unfold OverlapSearch.rounds cachingNumPages at hfuel
    omega
  | succ fuel ih =>
    have haligned := h.aligned
    unfold OverlapSearch.loop divCeil cachingPageSize
    by_cases hlt : s.device_addr < s.end_addr
    · rw [if_pos (by omega)]
      obtain ⟨s', t, hvisit, ht, hnext, hrounds⟩ := h.visit hc hw hlt
      rw [hvisit]
      simp only [bind, Except.bind]
      rw [← ht]
      exact ih hnext (by omega)
    · rw [if_neg (by omega)]
      exact ⟨s, rfl, h.toFound, fun page id h1 h2 hid => h.seen page id h1 (by omega) hid⟩

theorem resolveOverlaps_spec (hc : c.Wf) (hw : Window c first stop low high)
    (hfirst : first % 16384 = 0) (hstop : stop % 16384 = 0) (hle : first ≤ stop) (hspace : stop ≤ 2^40)
    (hzero : first = 0 → ∀ page, page * 16384 < stop → c.page_table page = none) :
    ∃ s, c.resolveOverlaps first (stop - first) = .ok s ∧ Found c first stop low high s ∧
      ∀ page id, s.begin_addr ≤ page * 16384 → page * 16384 < s.end_addr →
        c.page_table page = some id → id ∈ s.overlap_ids := by
  have hadd : add64 first (stop - first) = stop := by
    rw [add64_of_lt (by omega)]
    omega
  have hfound : Found c first stop low high
      { device_addr := first, begin_addr := first, end_addr := stop, slots := c.slot_buffers } :=
    ⟨hfirst, hstop, hw.low_le, le_rfl, le_rfl, hw.le_high, hspace, List.nodup_nil, by simp,
      hc.slots, by simp, by simp⟩
  unfold BufferCache.resolveOverlaps
  rw [hadd]
  by_cases h0 : first = 0
  · rw [if_pos h0]
    refine ⟨_, rfl, hfound, fun page id _ h2 hid => ?_⟩
    rw [hzero h0 page h2] at hid
    exact absurd hid (by simp)
  · rw [if_neg h0]
    refine Searching.loop ⟨hfound, hfirst, le_rfl, hle, fun page id h1 h2 => ?_, fun _ => ?_⟩ hc hw ?_
    · dsimp only at h1 h2
      omega
    · refine ⟨le_rfl, (scoreTo_eq_zero ?_).symm, Nat.zero_le _, by simp, fun page h1 h2 => ?_⟩
      · dsimp only
        omega
      · dsimp only at h2
        omega
    · unfold OverlapSearch.rounds BufferCache.searchRounds
      simp only [Bool.false_eq_true, if_false]
      omega

end ShadPS4.VideoCore
