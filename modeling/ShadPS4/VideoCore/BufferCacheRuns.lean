import ShadPS4.Lib.Transition
import ShadPS4.VideoCore.OverlapSpec

/-!
# Runs of the buffer cache

The registered buffers have whole pages and do not overlap, and the page table leads to them, in every state that
requests and deletions reach.
-/

namespace ShadPS4.VideoCore

open Function List
open Option (some.inj)

open ShadPS4.Common ShadPS4.Memory
open BufferCache (slot pageEntry)

variable {addr size : ℕ}
variable {c c' c₁ : BufferCache} {id new_id : ℕ} {b : Buffer} {ids done : List ℕ} {start stop : ℕ}
  {s : OverlapSearch}

instance (b : Buffer) (page : ℕ) : Decidable (b.CoversPage page) :=
  inferInstanceAs (Decidable (_ ∧ _))

theorem slot_eq (h : slots.values id = some b) : slot slots id = .ok b := by
  unfold slot
  rw [h]

theorem changeRegister_spec (hslot : c.slot_buffers.values id = some b)
    (haligned : b.cpu_addr % 16384 = 0) (hpages : b.size_bytes % 16384 = 0) (hpos : 0 < b.size_bytes)
    (hstop : b.stop ≤ 2^40) (register : Bool) : c.changeRegister register id = .ok { c with
      page_table := fun page =>
        if b.CoversPage page then (if register then some id else none) else c.page_table page } := by
  have hadd : add64 b.cpu_addr b.size_bytes = b.stop := by
    unfold Buffer.stop at hstop ⊢
    exact add64_of_lt (by omega)
  have hlt : b.cpu_addr < b.stop := Nat.lt_add_of_pos_right hpos
  have hcovers : ∀ page, b.CoversPage page ↔ b.cpu_addr / 16384 ≤ page ∧ page < (b.stop + 16384 - 1) / 16384 := by
    intro page
    unfold Buffer.CoversPage
    omega
  unfold BufferCache.changeRegister divCeil cachingPageSize cachingNumPages
  rw [slot_eq hslot]
  simp only [bind, Except.bind, hadd, hcovers]
  rw [if_neg (by omega), if_pos (by omega)]
  rfl

/-! ## Joining -/

/-- The cache while a new buffer is joined with some of the overlaps, in terms of the cache before. -/
structure Joined (c : BufferCache) (ids done : List ℕ) (new_id start stop : ℕ) (c₁ : BufferCache) :
    Prop where
  slots : c₁.slot_buffers.Wf
  fresh : ∃ b, c₁.slot_buffers.values new_id = some b ∧ b.cpu_addr = start ∧ b.stop = stop ∧
    b.is_picked = false ∧ b.is_deleted = false ∧
    ∀ id ∈ done, ∀ b', c.Registered id b' → ∀ a, b'.cpu_addr ≤ a → a < b'.stop →
      b.data (a - start) = b'.data (a - b'.cpu_addr)
  deleted : ∀ id ∈ done, ∃ b, c₁.slot_buffers.values id = some b ∧ b.is_deleted = true
  waiting : ∀ id ∈ ids, id ∉ done → ∀ b, c.Registered id b →
    c₁.slot_buffers.values id = some { b with is_picked := true }
  others : ∀ id, id ≠ new_id → id ∉ ids → c₁.slot_buffers.values id = c.slot_buffers.values id
  table : ∀ page id, c₁.page_table page = some id ↔ c.page_table page = some id ∧ id ∉ done
  pending : c₁.pending_ops = c.pending_ops ++ done

theorem joinOverlap_spec (h : Joined c ids done new_id start stop c₁) (hc : c.Wf)
    (hnew : new_id ∉ ids) (hdone : ∀ id' ∈ done, ∀ b', c.Registered id' b' → start ≤ b'.cpu_addr)
    (hid : id ∈ ids) (hnot : id ∉ done) (hb : c.Registered id b) (hstart : start ≤ b.cpu_addr) (accumulate : Bool) :
    ∃ c2, BufferCache.joinOverlap new_id accumulate c₁ id = .ok c2 ∧
      Joined c ids (done ++ [id]) new_id start stop c2 := by
  obtain ⟨nb, hnb, rfl, hnstop, hnpicked, hndeleted, hdata⟩ := h.fresh
  have hsound := hc.sound id b hb
  have hslot := h.waiting id hid hnot b hb
  have hne : id ≠ new_id := fun heq => hnew (heq ▸ hid)
  have hspace := hsound.inside
  have hstop : b.stop = b.cpu_addr + b.size_bytes := rfl
  have hoffset : sub64 b.cpu_addr nb.cpu_addr = b.cpu_addr - nb.cpu_addr :=
    sub64_of_le hstart (by omega)
  -- The new buffer with what is copied into it.
  obtain ⟨nb', hnb'⟩ : ∃ nb' : Buffer, nb' = { nb with
      stream_score := if accumulate then nb.stream_score + (b.stream_score + 1) else nb.stream_score
      data := BufferCache.copyBuffer b.data nb.data (b.cpu_addr - nb.cpu_addr) b.size_bytes } :=
    ⟨_, rfl⟩
  have hset := h.slots.set hnb nb'
  have hslot' : (c₁.slot_buffers.set new_id nb').values id = some { b with is_picked := true } := by
    rw [← hslot]
    exact update_of_ne hne _ _
  unfold BufferCache.joinOverlap
  rw [slot_eq hnb, slot_eq hslot]
  simp only [bind, Except.bind, hoffset, ← hnb']
  unfold BufferCache.deleteBuffer
  rw [changeRegister_spec (b := { b with is_picked := true }) hslot' hsound.aligned hsound.pages
    hsound.pos hsound.inside]
  simp only [bind, Except.bind, slot_eq hslot']
  have hlater : ∀ id', id' ≠ id → id' ≠ new_id → ((c₁.slot_buffers.set new_id nb').set id
        { b with is_picked := true, is_deleted := true }).values id' =
        c₁.slot_buffers.values id' := fun id' h1 h2 =>
    (update_of_ne h1 _ _).trans (update_of_ne h2 _ _)
  refine ⟨_, rfl, hset.set hslot' _, ?_, fun id' hid' => ?_, fun id' hin hout b' hb' => ?_,
    fun id' h1 h2 => ?_, fun page id' => ?_, ?_⟩
  · refine ⟨nb', ?_, by rw [hnb'], by rw [hnb', ← hnstop]; rfl, by rw [hnb']; exact hnpicked,
      by rw [hnb']; exact hndeleted, fun id' hid' b' hb' a h1 h2 => ?_⟩
    · dsimp only
      exact (update_of_ne hne.symm _ _).trans (update_self ..)
    · rw [hnb']
      unfold BufferCache.copyBuffer
      dsimp only
      rcases mem_append.mp hid' with hold | hnow
      · -- What was copied before is not written again.
        rw [if_neg, hdata id' hold b' hb' a h1 h2]
        intro hin
        have hfrom := hdone id' hold b' hb'
        have hle : b.cpu_addr ≤ a := by omega
        exact hnot (hc.unique hb hb' hle (by omega) h1 h2 ▸ hold)
      · obtain rfl := mem_singleton.mp hnow
        obtain rfl := hb'.unique hb
        rw [if_pos (by omega)]
        congr 1
        omega
  · rcases mem_append.mp hid' with hold | hnow
    · have hid1 : id' ≠ id := fun heq => hnot (heq ▸ hold)
      have hid2 : id' ≠ new_id := by
        rintro rfl
        obtain ⟨x, hx, hdel⟩ := h.deleted _ hold
        rw [hnb] at hx
        rw [← some.inj hx, hndeleted] at hdel
        exact absurd hdel (by decide)
      rw [hlater id' hid1 hid2]
      exact h.deleted id' hold
    · rw [mem_singleton.mp hnow]
      exact ⟨_, update_self .., rfl⟩
  · rw [mem_append, mem_singleton, not_or] at hout
    rw [hlater id' hout.2 fun heq => hnew (heq ▸ hin)]
    exact h.waiting id' hin hout.1 b' hb'
  · dsimp only
    rw [hlater id' (fun heq => h2 (heq ▸ hid)) h1]
    exact h.others id' h1 h2
  · -- The pages of the overlap.
    have hpage : b.CoversPage page ↔ c.page_table page = some id := by
      rw [hc.table page id]
      refine ⟨fun hcov => ⟨b, hb, hcov⟩, ?_⟩
      rintro ⟨b', hb', hcov⟩
      rwa [hb.unique hb']
    dsimp only
    rw [mem_append, mem_singleton, not_or]
    split_ifs with hcov hins
    · exact absurd hins (by decide)
    · have hcov : c.page_table page = some id := hpage.mp hcov
      refine ⟨fun hno => absurd hno (by simp), fun hyes => ?_⟩
      rw [hcov] at hyes
      exact absurd (some.inj hyes.1).symm hyes.2.2
    · rw [h.table]
      refine ⟨fun hyes => ⟨hyes.1, hyes.2, ?_⟩, fun hyes => ⟨hyes.1, hyes.2.1⟩⟩
      rintro rfl
      exact hcov (hpage.mpr hyes.1)
  · dsimp only
    rw [h.pending, append_assoc]

theorem joinOverlaps_spec (h : Joined c ids done new_id start stop c₁) (hc : c.Wf)
    (hids : ids = done ++ rest) (hnodup : ids.Nodup) (hnew : new_id ∉ ids)
    (hin : ∀ id ∈ ids, ∃ b, c.Registered id b ∧ start ≤ b.cpu_addr) (accumulate : Bool) :
    ∃ c2, rest.foldlM (BufferCache.joinOverlap new_id accumulate) c₁ = .ok c2 ∧
      Joined c ids ids new_id start stop c2 := by
  induction rest generalizing done c₁ with
  | nil =>
    rw [append_nil] at hids
    exact ⟨c₁, rfl, hids ▸ h⟩
  | cons id rest ih =>
    have hid : id ∈ ids := by rw [hids]; exact mem_append_right _ (mem_cons_self ..)
    have hnot : id ∉ done := by
      rw [hids, nodup_append] at hnodup
      exact fun hmem => hnodup.2.2 id hmem id (mem_cons_self ..) rfl
    obtain ⟨b, hb, hstart⟩ := hin id hid
    have hdone : ∀ id' ∈ done, ∀ b', c.Registered id' b' → start ≤ b'.cpu_addr := by
      intro id' hid' b' hb'
      obtain ⟨b'', hb'', hle⟩ := hin id' (by rw [hids]; exact mem_append_left _ hid')
      rwa [hb'.unique hb'']
    obtain ⟨c2, hjoin, hjoined⟩ := joinOverlap_spec h hc hnew hdone hid hnot hb hstart accumulate
    rw [foldlM_cons, hjoin]
    exact ih hjoined (by rw [hids, append_assoc, singleton_append])

/-! ## Requests -/

/-- An address of guest memory holds a byte in the cache. -/
def BufferCache.Holds (c : BufferCache) (a : ℕ) (v : UInt8) : Prop :=
  ∃ id b, c.Registered id b ∧ b.cpu_addr ≤ a ∧ a < b.stop ∧ b.data (a - b.cpu_addr) = v

theorem Joined.register (h : Joined c ids ids new_id start stop c₁) (hc : c.Wf) (hnodup : ids.Nodup)
    (hunused : c.slot_buffers.values new_id = none) (hstart : start % 16384 = 0)
    (hstop : stop % 16384 = 0) (hlt : start < stop) (hspace : stop ≤ 2^40)
    (hin : ∀ id ∈ ids, ∃ b, c.Registered id b ∧ start ≤ b.cpu_addr ∧ b.stop ≤ stop)
    (hall : ∀ page id, start ≤ page * 16384 → page * 16384 < stop → c.page_table page = some id → id ∈ ids) :
    ∃ c' b, c₁.changeRegister true new_id = .ok c' ∧ c'.Wf ∧ c'.Registered new_id b ∧
      b.cpu_addr = start ∧ b.stop = stop ∧ ∀ a v, c.Holds a v → c'.Holds a v := by
  obtain ⟨b, hb, rfl, rfl, hpicked, hdeleted, hdata⟩ := h.fresh
  have hsize : b.stop = b.cpu_addr + b.size_bytes := rfl
  have hsound : b.Sound := ⟨hstart, by omega, by omega, hspace, hpicked⟩
  refine ⟨_, b, changeRegister_spec hb hstart hsound.pages hsound.pos hspace true, ?_, ⟨hb, hdeleted⟩, rfl, rfl, ?_⟩
  · -- The registered buffers are the new one and those that did not overlap.
    have hne : ∀ id x, c.slot_buffers.values id = some x → id ≠ new_id := by
      rintro id x hx rfl
      rw [hunused] at hx
      exact absurd hx (by simp)
    have hreg : ∀ id x, (c₁.slot_buffers.values id = some x ∧ x.is_deleted = false) ↔
        (id = new_id ∧ x = b) ∨ (id ∉ ids ∧ c.Registered id x) := by
      intro id x
      rcases eq_or_ne id new_id with rfl | hid
      · rw [hb]
        constructor
        · rintro ⟨hx, -⟩
          exact .inl ⟨rfl, (some.inj hx).symm⟩
        · rintro (⟨-, rfl⟩ | ⟨-, hx⟩)
          · exact ⟨rfl, hdeleted⟩
          · exact absurd rfl (hne id x hx.1)
      · by_cases hmem : id ∈ ids
        · obtain ⟨y, hy, hdel⟩ := h.deleted id hmem
          rw [hy]
          constructor
          · rintro ⟨hx, hno⟩
            rw [← some.inj hx, hdel] at hno
            exact absurd hno (by decide)
          · rintro (⟨heq, -⟩ | ⟨hnot, -⟩)
            · exact absurd heq hid
            · exact absurd hmem hnot
        · rw [h.others id hid hmem]
          constructor
          · exact fun hx => .inr ⟨hmem, hx⟩
          · rintro (⟨heq, -⟩ | ⟨-, hx⟩)
            · exact absurd heq hid
            · exact hx
    have hlive : ∀ id ∈ c.pending_ops, id ∉ ids := by
      intro id hid hmem
      obtain ⟨x, hx, hdel⟩ := (hc.pending id).mp hid
      obtain ⟨y, hy, -⟩ := hin id hmem
      rw [hy.1] at hx
      rw [← some.inj hx, hy.2] at hdel
      exact absurd hdel (by decide)
    refine ⟨h.slots, fun id x hx => ?_, fun page id => ?_, ?_, fun id => ?_⟩
    · rcases (hreg id x).mp hx with ⟨-, rfl⟩ | ⟨-, hx⟩
      · exact hsound
      · exact hc.sound id x hx
    · -- The page table.
      dsimp only
      constructor
      · intro hentry
        split_ifs at hentry with hcov
        · exact ⟨b, (hreg id b).mpr (.inl ⟨(some.inj hentry).symm, rfl⟩), hcov⟩
        · obtain ⟨hentry, hmem⟩ := (h.table page id).mp hentry
          obtain ⟨x, hx, hcovers⟩ := (hc.table page id).mp hentry
          exact ⟨x, (hreg id x).mpr (.inr ⟨hmem, hx⟩), hcovers⟩
      · rintro ⟨x, hx, hcovers⟩
        rcases (hreg id x).mp hx with ⟨rfl, rfl⟩ | ⟨hmem, hx⟩
        · rw [if_pos hcovers]
          rfl
        · have hentry := (hc.table page id).mpr ⟨x, hx, hcovers⟩
          rw [if_neg fun hcov => hmem (hall page id hcov.1 hcov.2 hentry)]
          exact (h.table page id).mpr ⟨hentry, hmem⟩
    · dsimp only
      rw [h.pending]
      refine List.nodup_append.mpr ⟨hc.nodup, hnodup, fun x hx y hy heq => ?_⟩
      exact hlive x hx (heq ▸ hy)
    · dsimp only
      rw [h.pending, mem_append]
      constructor
      · rintro (hid | hid)
        · obtain ⟨x, hx, hdel⟩ := (hc.pending id).mp hid
          exact ⟨x, (h.others id (hne id x hx) (hlive id hid)).trans hx, hdel⟩
        · exact h.deleted id hid
      · rintro ⟨x, hx, hdel⟩
        by_cases hmem : id ∈ ids
        · exact .inr hmem
        · have hid : id ≠ new_id := by
            rintro rfl
            rw [hb] at hx
            rw [← some.inj hx, hdeleted] at hdel
            exact absurd hdel (by decide)
          rw [h.others id hid hmem] at hx
          exact .inl ((hc.pending id).mpr ⟨x, hx, hdel⟩)
  · -- What an overlap held is in the new buffer.
    rintro a v ⟨id, x, hx, h1, h2, hv⟩
    by_cases hmem : id ∈ ids
    · obtain ⟨y, hy, hlow, hhigh⟩ := hin id hmem
      obtain rfl := hy.unique hx
      exact ⟨new_id, b, ⟨hb, hdeleted⟩, hlow.trans h1, Nat.lt_of_lt_of_le h2 hhigh,
        (hdata id hmem y hx a h1 h2).trans hv⟩
    · have hid : id ≠ new_id := by
        rintro rfl
        exact absurd (hunused.symm.trans hx.1) (by simp)
      exact ⟨id, x, ⟨(h.others id hid hmem).trans hx.1, hx.2⟩, h1, h2, hv⟩

/-- A range of whole pages can be joined with what it overlaps: a window around it is shorter than
4 GB, and if it has the first page it overlaps nothing. -/
def BufferCache.Joinable (c : BufferCache) (first stop : ℕ) : Prop :=
  (∃ low high, high < low + 2^32 ∧ Window c first stop low high) ∧
    (first = 0 → ∀ page, page * 16384 < stop → c.page_table page = none)

theorem createBuffer_spec (hc : c.Wf) (memory : ℕ → UInt8) (hsize : 0 < size) (hspace : addr + size ≤ 2^40)
    (hjoin : c.Joinable (alignDown addr 16384) (alignUp (addr + size) 16384)) :
    ∃ id c' b, c.createBuffer memory addr size = .ok (id, c') ∧ c'.Wf ∧ c'.Registered id b ∧
      b.cpu_addr ≤ addr ∧ addr + size ≤ b.stop ∧ ∀ a v, c.Holds a v → c'.Holds a v := by
  obtain ⟨⟨low, high, hshort, hw⟩, hzero⟩ := hjoin
  -- The pages of the request.
  have hfirst : alignDown addr 16384 % 16384 = 0 ∧ alignDown addr 16384 ≤ addr := by
    unfold alignDown
    omega
  have hstop : alignUp (addr + size) 16384 % 16384 = 0 ∧ addr + size ≤ alignUp (addr + size) 16384 ∧
      alignUp (addr + size) 16384 ≤ 2^40 := by
    unfold alignUp
    dsimp only
    split_ifs with hmod
    · omega
    · rw [add64_of_lt (by omega)]
      omega
  unfold BufferCache.createBuffer
  rw [show cachingPageSize = 16384 from rfl, add64_of_lt (show addr + size < 2^64 by omega)]
  generalize alignDown addr 16384 = first at hfirst hw hzero ⊢
  generalize alignUp (addr + size) 16384 = stop at hstop hw hzero ⊢
  have hlow := hw.low_le
  have hhigh := hw.le_high
  have hwanted : sub64 stop first % 2^32 = stop - first := by
    rw [sub64_of_le (by omega) (by omega), Nat.mod_eq_of_lt (by omega)]
  obtain ⟨s, hresolve, hfound, hall⟩ := resolveOverlaps_spec hc hw hfirst.1 hstop.1 (by omega)
    hstop.2.2 hzero
  have hbegin := hfound.le_first
  have hend := hfound.stop_le
  have hslow := hfound.low_le
  have hshigh := hfound.le_high
  have hsspace := hfound.space
  have haligned := hfound.begin_aligned
  have haligned' := hfound.end_aligned
  have hbytes : sub64 s.end_addr s.begin_addr % 2^32 = s.end_addr - s.begin_addr := by
    rw [sub64_of_le (by omega) (by omega), Nat.mod_eq_of_lt (by omega)]
  obtain ⟨nb, hnb⟩ : ∃ nb : Buffer, nb = {
      cpu_addr := s.begin_addr, size_bytes := s.end_addr - s.begin_addr, data := memory } := ⟨_, rfl⟩
  have hnstop : nb.stop = s.end_addr := by
    rw [hnb]
    exact Nat.add_sub_cancel' (show s.begin_addr ≤ s.end_addr by omega)
  obtain ⟨new_id, slots, hinsert, hwf, hfresh, hvalues⟩ := hfound.slots_wf.insert nb
  have hnew : new_id ∉ s.overlap_ids := by
    intro hmem
    obtain ⟨b, hb, -⟩ := hfound.inside new_id hmem
    rw [hfound.picked new_id hmem b hb] at hfresh
    exact absurd hfresh (by simp)
  have hunused : c.slot_buffers.values new_id = none := (hfound.others new_id hnew).symm.trans hfresh
  have hold : ∀ id, id ≠ new_id → slots.values id = s.slots.values id := by
    intro id hne
    rw [hvalues]
    exact update_of_ne hne _ _
  have hne : ∀ id ∈ s.overlap_ids, id ≠ new_id := fun id hid heq => hnew (heq ▸ hid)
  have hstart : Joined c s.overlap_ids [] new_id s.begin_addr s.end_addr
      { c with slot_buffers := slots } := by
    refine ⟨hwf, ⟨nb, ?_, by rw [hnb], hnstop, by rw [hnb], by rw [hnb], by simp⟩, by simp,
      fun id hid _ b hb => ?_, fun id h1 h2 => ?_, by simp, (append_nil _).symm⟩
    · dsimp only
      rw [hvalues, update_self]
    · exact (hold id (hne id hid)).trans (hfound.picked id hid b hb)
    · exact (hold id h1).trans (hfound.others id h2)
  have hin : ∀ id ∈ s.overlap_ids, ∃ b, c.Registered id b ∧ s.begin_addr ≤ b.cpu_addr := by
    intro id hid
    obtain ⟨b, hb, h1, -⟩ := hfound.inside id hid
    exact ⟨b, hb, h1⟩
  obtain ⟨c2, hfold, hj⟩ := joinOverlaps_spec hstart hc (nil_append _).symm hfound.nodup hnew hin !s.has_stream_leap
  obtain ⟨c', b, hregister, hwf', hb, hcpu, hbstop, hholds⟩ := hj.register hc hfound.nodup hunused
    haligned haligned' (by omega) hsspace hfound.inside hall
  refine ⟨new_id, c', b, ?_, hwf', hb, by omega, by omega, hholds⟩
  dsimp only
  rw [hwanted, hresolve]
  simp only [bind, Except.bind]
  rw [hbytes, ← hnb, hinsert]
  rw [hfold]
  dsimp only
  rw [hregister]
  rfl

/-- What is asked for: some bytes of the address space, not at address zero. -/
structure CacheRequest (addr size : ℕ) : Prop where
  addr_pos : 0 < addr
  size_pos : 0 < size
  size_lt : size < 2^32
  space : addr + size ≤ 2^40

/-- A request fits: the buffer of its first page covers it, or its pages can be joined with what they
overlap. -/
def BufferCache.Fits (c : BufferCache) (addr size : ℕ) : Prop :=
  (∃ id b, c.page_table (addr / 16384) = some id ∧ c.slot_buffers.values id = some b ∧
    b.isInBounds addr size = true) ∨
  c.Joinable (alignDown addr 16384) (alignUp (addr + size) 16384)

theorem findBuffer_spec (hc : c.Wf) (memory : ℕ → UInt8)
    (hrequest : CacheRequest addr size) (hfits : c.Fits addr size) :
    ∃ id c' b, c.findBuffer memory addr size = .ok (id, c') ∧ c'.Wf ∧ c'.Registered id b ∧
      b.cpu_addr ≤ addr ∧ addr + size ≤ b.stop ∧ ∀ a v, c.Holds a v → c'.Holds a v := by
  obtain ⟨hpos, hsize, -, hspace⟩ := hrequest
  have hpage : addr / 16384 < cachingNumPages := by
    unfold cachingNumPages
    omega
  -- A buffer of the first page is registered, and is in bounds when it covers the request.
  have hbounds : ∀ id b, c.page_table (addr / 16384) = some id → c.slot_buffers.values id = some b →
      c.Registered id b ∧ (b.isInBounds addr size = true ↔ b.cpu_addr ≤ addr ∧
        addr + size ≤ b.stop) := by
    intro id b hentry hslot
    obtain ⟨b', hb', hsound, -⟩ := hc.registered hentry
    obtain rfl := some.inj (hslot.symm.trans hb'.1)
    have hinside := hsound.inside
    unfold Buffer.stop at hinside
    refine ⟨hb', ?_⟩
    unfold Buffer.isInBounds Buffer.stop
    rw [add64_of_lt (by omega), add64_of_lt (by omega)]
    simp
  unfold BufferCache.findBuffer pageEntry
  rw [if_neg (by omega), show cachingPageSize = 16384 from rfl, if_pos hpage]
  simp only [bind, Except.bind]
  cases hentry : c.page_table (addr / 16384) with
  | none =>
    apply createBuffer_spec hc memory hsize hspace
    apply hfits.resolve_left
    rintro ⟨id, b, hsome, -⟩
    rw [hentry] at hsome
    exact absurd hsome (by simp)
  | some id =>
    obtain ⟨b, hb, -⟩ := hc.registered hentry
    obtain ⟨-, hiff⟩ := hbounds id b hentry hb.1
    dsimp only
    rw [slot_eq hb.1]
    dsimp only
    by_cases hin : b.isInBounds addr size = true
    · rw [if_pos hin]
      exact ⟨id, c, b, rfl, hc, hb, (hiff.mp hin).1, (hiff.mp hin).2, fun _ _ h => h⟩
    · rw [if_neg hin]
      apply createBuffer_spec hc memory hsize hspace
      apply hfits.resolve_left
      rintro ⟨id', b', hsome, hslot, hin'⟩
      obtain rfl := some.inj (hentry.symm.trans hsome)
      obtain rfl := some.inj (hb.1.symm.trans hslot)
      exact hin hin'

/-! ## Runs -/

/-- A call of the buffer cache, or a deferred operation. -/
inductive CacheOp
  | findBuffer (memory : ℕ → UInt8) (device_addr size : ℕ)
  | obtainBuffer (memory : ℕ → UInt8) (device_addr size : ℕ) (is_written gpu_modified : Bool)
    (buffer_id : Option ℕ)
  | deleteBuffer (buffer_id : ℕ)
  | runPending

def CacheOp.Leads (c : BufferCache) (op : CacheOp) (c' : BufferCache) : Prop :=
  match op with
  | .findBuffer memory device_addr size => ∃ id, c.findBuffer memory device_addr size = .ok (id, c')
  | .obtainBuffer memory device_addr size is_written gpu_modified buffer_id =>
    ∃ id, c.obtainBuffer memory device_addr size is_written gpu_modified buffer_id = .ok (id, c')
  | .deleteBuffer buffer_id => c.deleteBuffer buffer_id = .ok c'
  | .runPending => c.runPending = c'

/-- Requests are valid and fit, and what is deleted is registered. -/
def CacheOp.Fits (c : BufferCache) : CacheOp → Prop
  | .findBuffer _ device_addr size => CacheRequest device_addr size ∧ c.Fits device_addr size
  | .obtainBuffer _ device_addr size _ _ _ => CacheRequest device_addr size ∧ c.Fits device_addr size
  | .deleteBuffer buffer_id => ∃ b, c.Registered buffer_id b
  | .runPending => True

theorem deleteBuffer_spec (hc : c.Wf) (hb : c.Registered id b) : ∃ c', c.deleteBuffer id = .ok c' ∧ c'.Wf := by
  have hsound := hc.sound id b hb
  have hset := hc.slots.set hb.1 { b with is_deleted := true }
  unfold BufferCache.deleteBuffer
  rw [changeRegister_spec hb.1 hsound.aligned hsound.pages hsound.pos hsound.inside]
  simp only [bind, Except.bind, slot_eq hb.1]
  have hother : ∀ id', id' ≠ id → (c.slot_buffers.set id { b with is_deleted := true }).values id' =
      c.slot_buffers.values id' := fun id' hne => update_of_ne hne _ _
  have hself : (c.slot_buffers.set id { b with is_deleted := true }).values id =
      some { b with is_deleted := true } := update_self ..
  -- The other registered buffers stay.
  have hreg : ∀ id' x, ((c.slot_buffers.set id { b with is_deleted := true }).values id' = some x ∧
      x.is_deleted = false) ↔ id' ≠ id ∧ c.Registered id' x := by
    intro id' x
    rcases eq_or_ne id' id with rfl | hne
    · rw [hself]
      constructor
      · rintro ⟨hx, hno⟩
        rw [← some.inj hx] at hno
        exact absurd hno (by simp)
      · exact fun hx => absurd rfl hx.1
    · rw [hother id' hne]
      exact ⟨fun hx => ⟨hne, hx⟩, fun hx => hx.2⟩
  have hnot : id ∉ c.pending_ops := by
    intro hmem
    obtain ⟨x, hx, hdel⟩ := (hc.pending id).mp hmem
    rw [hb.1] at hx
    rw [← some.inj hx, hb.2] at hdel
    exact absurd hdel (by decide)
  refine ⟨_, rfl, hset, fun id' x hx => hc.sound id' x ((hreg id' x).mp hx).2, fun page id' => ?_, ?_, fun id' => ?_⟩
  · dsimp only
    constructor
    · intro hentry
      split_ifs at hentry with hcov hins
      · exact absurd hins (by decide)
      · obtain ⟨x, hx, hcovers⟩ := (hc.table page id').mp hentry
        refine ⟨x, (hreg id' x).mpr ⟨?_, hx⟩, hcovers⟩
        rintro rfl
        exact hcov (hb.unique hx ▸ hcovers)
    · rintro ⟨x, hx, hcovers⟩
      obtain ⟨hne, hx⟩ := (hreg id' x).mp hx
      rw [if_neg fun hcov => hne (hc.unique hx hb hcovers.1 hcovers.2 hcov.1 hcov.2)]
      exact (hc.table page id').mpr ⟨x, hx, hcovers⟩
  · refine List.nodup_append.mpr ⟨hc.nodup, nodup_singleton id, fun x hx y hy heq => ?_⟩
    exact hnot (mem_singleton.mp hy ▸ heq ▸ hx)
  · dsimp only
    rw [mem_append, mem_singleton, hc.pending]
    rcases eq_or_ne id' id with rfl | hne
    · rw [hself]
      exact ⟨fun _ => ⟨_, rfl, rfl⟩, fun _ => .inr rfl⟩
    · rw [hother id' hne]
      exact ⟨fun hx => hx.resolve_right hne, .inl⟩

theorem BufferCache.Wf.runPending (hc : c.Wf) : c.runPending.Wf := by
  unfold BufferCache.runPending
  cases hlist : c.pending_ops with
  | nil => exact hc
  | cons id rest =>
    have hnodup := hc.nodup
    rw [hlist, nodup_cons] at hnodup
    obtain ⟨x, hx, hdel⟩ := (hc.pending id).mp (hlist ▸ mem_cons_self ..)
    have hother : ∀ id', id' ≠ id → (c.slot_buffers.erase id).values id' =
        c.slot_buffers.values id' := fun id' hne => update_of_ne hne _ _
    have hself : (c.slot_buffers.erase id).values id = none := update_self ..
    have hreg : ∀ id' y, ((c.slot_buffers.erase id).values id' = some y ∧ y.is_deleted = false) ↔
        c.Registered id' y := by
      intro id' y
      rcases eq_or_ne id' id with rfl | hne
      · rw [hself]
        refine ⟨fun hy => absurd hy.1 (by simp), fun hy => ?_⟩
        rw [some.inj (hx.symm.trans hy.1), hy.2] at hdel
        exact absurd hdel (by decide)
      · rw [hother id' hne]
        rfl
    refine ⟨hc.slots.erase hx, fun id' y hy => hc.sound id' y ((hreg id' y).mp hy),
      fun page id' => ?_, hnodup.2, fun id' => ?_⟩
    · rw [hc.table]
      exact exists_congr fun y => and_congr_left fun _ => (hreg id' y).symm
    · have hmem := hc.pending id'
      rw [hlist, mem_cons] at hmem
      rcases eq_or_ne id' id with rfl | hne
      · rw [hself]
        exact ⟨fun hin => absurd hin hnodup.1, fun hy => by simp at hy⟩
      · rw [hother id' hne, ← hmem]
        exact ⟨.inr, fun hin => hin.resolve_left hne⟩

theorem obtainBuffer_eq (h : c.obtainBuffer memory addr size is_written gpu_modified buffer_id = .ok (found, c')) :
    c' = c ∨ ∃ id, c.findBuffer memory addr size = .ok (id, c') := by
  have hfind : ∀ {x : Option ℕ × BufferCache}, (do
      let r ← c.findBuffer memory addr size
      return (some r.1, r.2)) = Except.ok x → ∃ id, c.findBuffer memory addr size = .ok (id, x.2) := by
    intro x hx
    obtain ⟨⟨id, c2⟩, hfound, hret⟩ := bind_eq_ok.mp hx
    obtain rfl := pure_eq_ok.mp hret
    exact ⟨id, hfound⟩
  unfold BufferCache.obtainBuffer at h
  split_ifs at h with hstream
  · exact .inl (Prod.mk.inj (pure_eq_ok.mp h)).2.symm
  · cases buffer_id with
    | none => exact .inr (hfind h)
    | some buffer_id =>
      obtain ⟨buffer, -, h⟩ := bind_eq_ok.mp h
      split_ifs at h with hdeleted
      · exact .inr (hfind h)
      · exact .inl (Prod.mk.inj (pure_eq_ok.mp h)).2.symm

theorem CacheOp.Fits.wf {op : CacheOp} (h : op.Fits c) (hc : c.Wf) (hstep : op.Leads c c') : c'.Wf := by
  have hfind : ∀ {memory addr size id}, CacheRequest addr size ∧ c.Fits addr size →
      c.findBuffer memory addr size = .ok (id, c') → c'.Wf := by
    intro memory addr size id hfits hfound
    obtain ⟨id', c2, b, hspec, hwf, -⟩ := findBuffer_spec hc memory hfits.1 hfits.2
    rw [hspec] at hfound
    rwa [← (Prod.mk.inj (Except.ok.inj hfound)).2]
  cases op with
  | findBuffer memory addr size =>
    obtain ⟨id, hfound⟩ := hstep
    exact hfind h hfound
  | obtainBuffer memory addr size is_written gpu_modified buffer_id =>
    obtain ⟨id, hobtain⟩ := hstep
    rcases obtainBuffer_eq hobtain with rfl | ⟨id, hfound⟩
    · exact hc
    · exact hfind h hfound
  | deleteBuffer buffer_id =>
    obtain ⟨b, hb⟩ := h
    obtain ⟨c2, hdelete, hwf⟩ := deleteBuffer_spec hc hb
    rwa [← Except.ok.inj (hdelete.symm.trans hstep)]
  | runPending => exact hstep ▸ hc.runPending

/-- The states that operations lead to, from an empty cache on, when they all fit. -/
def CacheReachable : BufferCache → Prop :=
  Run (· = {}) (fun c op c' => CacheOp.Leads c op c') fun c op => CacheOp.Fits c op

theorem BufferCache.wf_new : ({} : BufferCache).Wf := by
  refine ⟨SlotVector.wf_new, ?_, ?_, nodup_nil, ?_⟩
  · rintro id b ⟨hslot, -⟩
    exact absurd hslot (by simp [SlotVector.new, SlotVector.reserve])
  · intro page id
    refine ⟨fun hno => absurd hno (by simp), ?_⟩
    rintro ⟨b, ⟨hslot, -⟩, -⟩
    exact absurd hslot (by simp [SlotVector.new, SlotVector.reserve])
  · intro id
    simp [SlotVector.new, SlotVector.reserve]

theorem CacheReachable.wf (h : CacheReachable c) : c.Wf :=
  Run.invariant h (fun _ hnew => hnew ▸ BufferCache.wf_new)
    fun _ _ _ hwf hfits hstep => hfits.wf hwf hstep

end ShadPS4.VideoCore
