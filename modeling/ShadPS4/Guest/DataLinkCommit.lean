import ShadPS4.Guest.DataLinkSpec

/-!
# The writes of the data linker

The targets that pass the overlap test share no byte, so that the words to write are disjoint, and after the sort
each ends before the next one starts.
-/

namespace ShadPS4.Guest

open List

variable {manifest : GuestLinkManifest} {imports : GuestImportPlan} {bias i : ℕ}
  {patches : List Patch} {p : Patch} {R : GuestDataLink → Prop} {file image : List UInt8}
  {expected : List ExpectedRange} {payload : GuestPayload}

/-! ## Disjoint targets -/

/-- Two targets share no address. -/
def TargetRange.Apart (a b : TargetRange) : Prop := a.stop ≤ b.start ∨ b.stop ≤ a.start

theorem overlapping_spec {ranges : List TargetRange} (hpos : ∀ a ∈ ranges, a.start < a.stop)
    (h : overlapping ranges = false) : ranges.Pairwise fun a b => a.stop ≤ b.start := by
  induction ranges with
  | nil => exact List.Pairwise.nil
  | cons a rest ih =>
    cases rest with
    | nil => exact pairwise_singleton _ _
    | cons b rest =>
      unfold overlapping at h
      rw [Bool.or_eq_false_iff, decide_eq_false_iff_not] at h
      have hrest := ih (fun c hc => hpos c (mem_cons_of_mem _ hc)) h.2
      refine List.Pairwise.cons (fun c hc => ?_) hrest
      rcases mem_cons.mp hc with rfl | hc
      · omega
      · have hb := hpos b (by simp)
        have hbc := (pairwise_cons.mp hrest).1 c hc
        omega

theorem apart_of_overlapping {ranges : List TargetRange} (hpos : ∀ a ∈ ranges, a.start < a.stop)
    (h : overlapping (ranges.insertionSort fun a b => a.start ≤ b.start) = false) :
    ranges.Pairwise TargetRange.Apart := by
  have hperm := perm_insertionSort (fun a b : TargetRange => a.start ≤ b.start) ranges
  have hsorted := overlapping_spec (fun a ha => hpos a (hperm.mem_iff.mp ha)) h
  refine (hperm.pairwise_iff fun hab => Or.symm hab).mp ?_
  exact hsorted.imp fun hab => .inl hab

theorem type_of_value (h : (relocationAction manifest imports relocation).value bias relocation = some v) :
    relocation.type = 1 ∨ relocation.type = 6 ∨ relocation.type = 7 ∨ relocation.type = 8 := by
  unfold relocationAction at h
  by_cases h0 : relocation.type = 0
  · rw [if_pos h0] at h
    simp [Action.value] at h
  · rw [if_neg h0] at h
    by_cases h8 : relocation.type = 8
    · exact .inr (.inr (.inr h8))
    · rw [if_neg h8] at h
      by_cases hs : relocation.type = 1 ∨ relocation.type = 6 ∨ relocation.type = 7
      · tauto
      · rw [if_neg hs] at h
        simp [Action.value] at h

theorem target_of_value (h : (relocationAction manifest imports relocation).value bias relocation = some v) :
    relocationTarget relocation = some ⟨relocation.address, relocation.address + 8⟩ := by
  have htype := type_of_value h
  unfold relocationTarget
  rw [if_neg (by omega), (linkKnows_word htype).2]

/-- Two words to write share no byte. -/
def Patch.Apart (a b : Patch) : Prop := a.offset + 8 ≤ b.offset ∨ b.offset + 8 ≤ a.offset

theorem patches_apart {segments : List GuestLoadSegment} {base : ℕ} {records : List GuestLinkRelocation}
    (hbase : ∀ segment ∈ segments, base ≤ segment.address)
    (hlinkable : ∀ r ∈ records, Linkable manifest imports segments bias r)
    (h : overlapping ((records.filterMap relocationTarget).insertionSort fun a b => a.start ≤ b.start) = false) :
    (records.filterMap (relocationPatch manifest imports base bias)).Pairwise Patch.Apart := by
  have hpos : ∀ a ∈ records.filterMap relocationTarget, a.start < a.stop := by
    intro a ha
    obtain ⟨r, -, hr⟩ := mem_filterMap.mp ha
    unfold relocationTarget at hr
    split_ifs at hr
    obtain rfl := Option.some.inj hr
    have : 0 < linkWidth r.type := by
      unfold linkWidth
      split_ifs <;> decide
    simp only
    omega
  have hapart := pairwise_filterMap.mp (apart_of_overlapping hpos h)
  refine pairwise_filterMap.mpr (hapart.imp_of_mem fun {r r'} hr hr' hrr p hp p' hp' => ?_)
  obtain ⟨v, hv, rfl⟩ := Option.map_eq_some_iff.mp hp
  obtain ⟨v', hv', rfl⟩ := Option.map_eq_some_iff.mp hp'
  have htargets := hrr _ (target_of_value hv) _ (target_of_value hv')
  obtain ⟨-, -, segment, hs, hlo, -⟩ := (hlinkable r hr).word v hv
  obtain ⟨-, -, segment', hs', hlo', -⟩ := (hlinkable r' hr').word v' hv'
  have hb := hbase segment hs
  have hb' := hbase segment' hs'
  unfold TargetRange.Apart at htargets
  unfold Patch.Apart
  simp only at htargets ⊢
  omega

theorem patches_sorted (h : patches.Pairwise Patch.Apart) :
    (patches.insertionSort fun a b => a.offset ≤ b.offset).Pairwise fun a b => a.offset + 8 ≤ b.offset := by
  have hperm := perm_insertionSort (fun a b : Patch => a.offset ≤ b.offset) patches
  have hle : (patches.insertionSort fun a b => a.offset ≤ b.offset).Pairwise
      fun a b => a.offset ≤ b.offset := by
    exact pairwise_insertionSort _ _
  have happ := (hperm.pairwise_iff fun hab => Or.symm hab).mpr h
  refine hle.imp₂ (fun a b hab hor => ?_) happ
  omega

/-! ## The writes -/

/-- The image after the words were written. -/
structure Patched (before : List UInt8) (patches : List Patch) (after : List UInt8) : Prop where
  length_eq : after.length = before.length
  word : ∀ p ∈ patches, ∀ i < 8, after[p.offset + i]? = some (leByte p.value i)
  other : ∀ j, (∀ p ∈ patches, ¬ (p.offset ≤ j ∧ j < p.offset + 8)) → after[j]? = before[j]?

/-- Two lists of words that differ only in the words kept. -/
def SameWords (patches patches' : List Patch) : Prop :=
  patches.map (fun p => (p.offset, p.value)) = patches'.map fun p => (p.offset, p.value)

theorem SameWords.exists_mem (h : SameWords patches patches') (hp : p ∈ patches) : ∃ q ∈ patches', q.offset = p.offset ∧ q.value = p.value := by
  have hmem : (p.offset, p.value) ∈ patches.map fun p => (p.offset, p.value) :=
    mem_map_of_mem hp
  rw [h] at hmem
  obtain ⟨q, hq, he⟩ := mem_map.mp hmem
  obtain ⟨h1, h2⟩ := Prod.mk.inj he
  exact ⟨q, hq, h1, h2⟩

theorem SameWords.pairwise (h : SameWords patches patches')
    (hp : patches'.Pairwise fun a b => a.offset + 8 ≤ b.offset) :
    patches.Pairwise fun a b => a.offset + 8 ≤ b.offset := by
  have hmap : ∀ l : List Patch, l.Pairwise (fun a b => a.offset + 8 ≤ b.offset) ↔
      (l.map fun p => (p.offset, p.value)).Pairwise fun a b => a.1 + 8 ≤ b.1 := by
    intro l
    rw [pairwise_map]
  rw [hmap, h, ← hmap]
  exact hp

theorem writePatches_sat (hapart : patches.Pairwise fun a b => a.offset + 8 ≤ b.offset)
    (hin : ∀ p ∈ patches, p.offset + 8 ≤ image.length) : Sat (patches.foldlM writePatch (image, [])) (fun state =>
      Patched image patches state.1 ∧ SameWords state.2 patches) (Fails R) := by
  apply Sat.foldlM (I := fun done (state : List UInt8 × List Patch) =>
    Patched image done state.1 ∧ SameWords state.2 done)
  · exact ⟨⟨rfl, by simp, fun _ _ => rfl⟩, rfl⟩
  · intro done p rest state hpatches hstate
    obtain ⟨hdone, hwords⟩ := hstate
    have hp : p.offset + 8 ≤ state.1.length := by
      rw [hdone.length_eq]
      exact hin p (by rw [hpatches]; simp)
    refine Sat.bind (Sat.read hp) fun original _ => ?_
    refine Sat.bind (Sat.write hp) fun out hout => Sat.pure ?_
    obtain ⟨hlen, hbytes⟩ := hout
    have hbefore : ∀ q ∈ done, q.offset + 8 ≤ p.offset := by
      intro q hq
      rw [hpatches] at hapart
      exact (pairwise_append.mp hapart).2.2 q hq p (by simp)
    refine ⟨⟨by rw [hlen, hdone.length_eq], fun q hq i hi => ?_, fun j hj => ?_⟩, ?_⟩
    · simp only
      rw [hbytes]
      rcases mem_append.mp hq with hq | hq
      · have hqp := hbefore q hq
        rw [if_neg (by omega)]
        exact hdone.word q hq i hi
      · rw [mem_singleton.mp hq, if_pos (by omega), Nat.add_sub_cancel_left]
    · simp only
      rw [hbytes, if_neg (hj p (by simp))]
      exact hdone.other j fun q hq => hj q (mem_append_left _ hq)
    · unfold SameWords at hwords ⊢
      rw [map_append, hwords, map_append]
      rfl

theorem verifyWrites_sat (hin : ∀ p ∈ patches, p.offset + 8 ≤ image.length ∧ leRead image p.offset 8 = p.value) :
    Sat (verifyWrites image patches) (fun verified => verified = true) (Fails R) := by
  apply Sat.foldlM (I := fun _ verified => verified = true)
  · rfl
  · intro done p rest verified hpatches hverified
    obtain ⟨hle, hread⟩ := hin p (by rw [hpatches]; simp)
    refine Sat.bind (Sat.read hle) fun value hvalue => Sat.pure ?_
    rw [hverified, hvalue, hread]
    simp

/-! ## The comparison with the file -/

/-- What the comparison relies on, from offset `i` on: the words and file ranges left are sorted, and
give every byte of the image. -/
structure Comparing (file image : List UInt8) (i : ℕ) (patches : List Patch)
    (expected : List ExpectedRange) : Prop where
  ahead : ∀ p ∈ patches, i ≤ p.offset ∧ p.offset + 8 ≤ image.length
  words : patches.Pairwise fun a b => a.offset + 8 ≤ b.offset
  ranges : expected.Pairwise fun a b => a.stop ≤ b.start
  backed : ∀ j, i ≤ j → j < image.length →
    (∀ p ∈ patches, ¬ (p.offset ≤ j ∧ j < p.offset + 8)) → ∀ e ∈ expected, e.start ≤ j →
    j < e.stop → image[j]? = file[e.physical + j - e.start]?
  zero : ∀ j, i ≤ j → j < image.length →
    (∀ p ∈ patches, ¬ (p.offset ≤ j ∧ j < p.offset + 8)) →
    (∀ e ∈ expected, ¬ (e.start ≤ j ∧ j < e.stop)) → image[j]? = some 0

theorem Comparing.skip (h : Comparing file image i (p :: patches) expected)
    (hi : p.offset = i) : Comparing file image (i + 8) patches expected := by
  have hp := pairwise_cons.mp h.words
  have hout : ∀ j, i + 8 ≤ j → (∀ q ∈ patches, ¬ (q.offset ≤ j ∧ j < q.offset + 8)) →
      ∀ q ∈ p :: patches, ¬ (q.offset ≤ j ∧ j < q.offset + 8) := by
    intro j hj hpatches q hq
    rcases mem_cons.mp hq with rfl | hq
    · omega
    · exact hpatches q hq
  refine ⟨fun q hq => ?_, hp.2, h.ranges, fun j hj hlt hnot => ?_, fun j hj hlt hnot => ?_⟩
  · have hq' := hp.1 q hq
    have hq'' := h.ahead q (mem_cons_of_mem _ hq)
    omega
  · exact h.backed j (by omega) hlt (hout j hj hnot)
  · exact h.zero j (by omega) hlt (hout j hj hnot)

theorem Comparing.drop (h : Comparing file image i patches expected) :
    Comparing file image i patches (expected.dropWhile fun range => decide (range.stop ≤ i)) := by
  have hsub : (expected.dropWhile fun range => decide (range.stop ≤ i)).Sublist expected :=
    dropWhile_sublist _
  refine ⟨h.ahead, h.words, h.ranges.sublist hsub, fun j hj hlt hnot e he => ?_,
    fun j hj hlt hnot hnone => ?_⟩
  · exact h.backed j hj hlt hnot e (hsub.subset he)
  · refine h.zero j hj hlt hnot fun e he => ?_
    rw [← takeWhile_append_dropWhile (p := fun range : ExpectedRange => decide (range.stop ≤ i))
      (l := expected), mem_append] at he
    rcases he with he | he
    · have hall := all_takeWhile (p := fun range : ExpectedRange => decide (range.stop ≤ i)) (l := expected)
      have hstop := all_eq_true.mp hall e he
      rw [decide_eq_true_eq] at hstop
      omega
    · exact hnone e he

theorem Comparing.step (h : Comparing file image i patches expected)
    (hi : ∀ p ∈ patches, p.offset ≠ i) : Comparing file image (i + 1) patches expected := by
  refine ⟨fun p hp => ?_, h.words, h.ranges, fun j hj => h.backed j (by omega),
    fun j hj => h.zero j (by omega)⟩
  have := h.ahead p hp
  have := hi p hp
  omega

theorem expectedByte_sat (h : Comparing file image i patches expected) (hlt : i < image.length)
    (hi : ∀ p ∈ patches, p.offset ≠ i) (hhead : ∀ e ∈ expected.head?, i < e.stop) :
    Sat (expectedByte file i expected) (fun byte => image[i]? = some byte) (Fails R) := by
  have hout : ∀ p ∈ patches, ¬ (p.offset ≤ i ∧ i < p.offset + 8) := by
    intro p hp
    have := (h.ahead p hp).1
    have := hi p hp
    omega
  cases expected with
  | nil => exact Sat.pure (h.zero i (Nat.le_refl _) hlt hout (by simp))
  | cons e rest =>
    have he : i < e.stop := hhead e rfl
    refine Sat.ite (fun hstart => ?_) fun hstart => ?_
    · have hbyte := h.backed i (Nat.le_refl _) hlt hout e (by simp) hstart he
      have hfile : e.physical + i - e.start < file.length := by
        rw [getElem?_eq_getElem hlt] at hbyte
        exact (List.getElem?_eq_some_iff.mp hbyte.symm).1
      refine (Sat.fetch hfile).mono fun byte hb => ?_
      rw [hbyte, hb]
    · -- The later ranges start behind the end of the first one.
      refine Sat.pure (h.zero i (Nat.le_refl _) hlt hout fun e' he' => ?_)
      rcases mem_cons.mp he' with rfl | he'
      · omega
      · have := (pairwise_cons.mp h.ranges).1 e' he'
        omega

theorem verifyUntouched_sat (hfuel : image.length < fuel + i)
    (hle : i ≤ image.length) (h : Comparing file image i patches expected) :
    Sat (verifyUntouched file image fuel i patches expected) (fun verified => verified = true) (Fails R) := by
  -- The induction is on the number of iterations left; the offset grows with each of them.
  induction fuel generalizing i patches expected with
  | zero => omega
  | succ fuel ih =>
    refine Sat.ite (fun _ => Sat.pure rfl) fun hlt => Sat.ite (fun hhead => ?_) fun hhead => ?_
    · cases patches with
      | nil => simp at hhead
      | cons p rest =>
        have hp := (h.ahead p (by simp)).2
        have hoffset : p.offset = i := by simpa using hhead
        exact ih (by omega) (by omega) (h.skip hoffset)
    · have hi : ∀ p ∈ patches, p.offset ≠ i := by
        intro p hp
        cases patches with
        | nil => simp at hp
        | cons q rest =>
          have hne : q.offset ≠ i := by simpa using hhead
          have hq := (h.ahead q (by simp)).1
          rcases mem_cons.mp hp with rfl | hp
          · exact hne
          · have := (pairwise_cons.mp h.words).1 p hp
            omega
      have hdrop := h.drop
      refine Sat.bind (expectedByte_sat hdrop (by omega) hi fun e he => ?_) fun byte hbyte => ?_
      · have := head?_dropWhile_not (fun range : ExpectedRange => decide (range.stop ≤ i)) expected
        rw [Option.mem_def.mp he] at this
        simpa using this
      · refine Sat.bind (Sat.fetch (by omega)) fun found hfound => ?_
        refine Sat.ite (fun hne => ?_) fun _ => ih (by omega) (by omega) (hdrop.step hi)
        rw [hbyte] at hfound
        exact absurd (Option.some.inj hfound).symm hne

/-! ## The file ranges -/

def expectedRange (base : ℕ) (segment : GuestLoadSegment) (offset : ℕ) : ExpectedRange :=
  ⟨segment.address - base, segment.address - base + segment.file_size, offset⟩

theorem expectedRanges_sat (h : payload.load_offsets.length = payload.image.plan.segments.length) :
    Sat (expectedRanges payload) (fun expected => expected =
      zipWith (expectedRange payload.image.plan.base) payload.image.plan.segments
        payload.load_offsets) (Fails R) := by
  have hloop : Sat (expectedRanges payload) (fun expected => expected =
      (zipWith (expectedRange payload.image.plan.base) payload.image.plan.segments
        payload.load_offsets).take payload.image.plan.segments.length) (Fails R) := by
    apply Sat.foldlM_range (I := fun i expected => expected =
      (zipWith (expectedRange payload.image.plan.base) payload.image.plan.segments
        payload.load_offsets).take i)
    · rfl
    · intro i hi expected hexpected
      refine Sat.bind (Sat.fetch hi) fun segment hsegment => ?_
      refine Sat.bind (Sat.fetch (by omega)) fun offset hoffset => Sat.pure ?_
      rw [take_add_one, ← hexpected, getElem?_zipWith, hsegment, hoffset]
      rfl
  rw [take_of_length_le (by rw [length_zipWith]; omega)] at hloop
  exact hloop

theorem exists_of_mem_expected (h : e ∈ zipWith (expectedRange base) segments offsets) :
    ∃ (i : ℕ) (segment : GuestLoadSegment) (offset : ℕ), segments[i]? = some segment ∧
      offsets[i]? = some offset ∧ e = expectedRange base segment offset := by
  obtain ⟨i, hi⟩ := mem_iff_getElem?.mp h
  rw [getElem?_zipWith] at hi
  split at hi
  · rename_i segment offset hs ho
    exact ⟨i, segment, offset, hs, ho, (Option.some.inj hi).symm⟩
  · simp at hi

/-- Two file ranges of disjoint segments, neither of which starts where the other does. -/
def ExpectedRange.Apart (a b : ExpectedRange) : Prop :=
  (a.start < b.start ∧ a.stop ≤ b.start) ∨ (b.start < a.start ∧ b.stop ≤ a.start)

theorem expected_sorted (h : Planned bytes file_size header plan) (offsets : List ℕ) :
    ((zipWith (expectedRange plan.base) plan.segments offsets).insertionSort
      fun a b => a.start ≤ b.start).Pairwise fun a b => a.stop ≤ b.start := by
  have hapart : (zipWith (expectedRange plan.base) plan.segments offsets).Pairwise ExpectedRange.Apart := by
    rw [pairwise_iff_getElem]
    intro i j hi hj hij
    rw [length_zipWith] at hi hj
    have hseg := List.pairwise_iff_getElem.mp h.apart i j (by omega) (by omega) hij
    have hi' := h.sound _ (getElem_mem (show i < plan.segments.length by omega))
    have hj' := h.sound _ (getElem_mem (show j < plan.segments.length by omega))
    have hbi := h.inside _ (getElem_mem (show i < plan.segments.length by omega))
    have hbj := h.inside _ (getElem_mem (show j < plan.segments.length by omega))
    have hmi := hi'.memory_pos
    have hmj := hj'.memory_pos
    have hfi := hi'.file_le
    have hfj := hj'.file_le
    rw [getElem_zipWith, getElem_zipWith]
    unfold ExpectedRange.Apart expectedRange
    unfold GuestLoadSegment.Apart at hseg
    simp only
    omega
  have hperm := perm_insertionSort (fun a b : ExpectedRange => a.start ≤ b.start)
    (zipWith (expectedRange plan.base) plan.segments offsets)
  have hle := pairwise_insertionSort (fun a b : ExpectedRange => a.start ≤ b.start)
    (zipWith (expectedRange plan.base) plan.segments offsets)
  refine hle.imp₂ (fun a b hab hor => ?_) ((hperm.pairwise_iff fun hab => Or.symm hab).mpr hapart)
  omega

theorem Staged.comparing (h : Staged file payload) (hpatched : Patched payload.image.bytes patches image)
    (hin : ∀ p ∈ patches, p.offset + 8 ≤ image.length)
    (hwords : patches.Pairwise fun a b => a.offset + 8 ≤ b.offset) :
    Comparing file image 0 patches ((zipWith (expectedRange payload.image.plan.base)
      payload.image.plan.segments payload.load_offsets).insertionSort fun a b => a.start ≤ b.start) := by
  obtain ⟨header, hplan⟩ := h.located.planned
  have hlen : image.length = payload.image.plan.image_size := by
    rw [hpatched.length_eq, h.length_eq]
  refine ⟨fun p hp => ⟨Nat.zero_le _, hin p hp⟩, hwords, expected_sorted hplan _,
    fun j _ hlt hnot e he hlo hhi => ?_, fun j _ hlt hnot hnone => ?_⟩
  · rw [mem_insertionSort] at he
    obtain ⟨i, segment, offset, hs, ho, rfl⟩ := exists_of_mem_expected he
    have hinside := hplan.inside segment (mem_of_getElem? hs)
    unfold expectedRange at hlo hhi ⊢
    simp only at hlo hhi ⊢
    have hbyte := h.backed i segment offset hs ho (payload.image.plan.base + j) ⟨by omega, by omega⟩
    rw [Nat.add_sub_cancel_left] at hbyte
    rw [hpatched.other j hnot, hbyte]
    congr 1
    omega
  · rw [hpatched.other j hnot]
    have hzero := h.zero (payload.image.plan.base + j) (by omega) (by omega) ?_
    · rw [Nat.add_sub_cancel_left] at hzero
      exact hzero
    · intro segment hsegment hbacks
      obtain ⟨i, hs⟩ := mem_iff_getElem?.mp hsegment
      have hi := (List.getElem?_eq_some_iff.mp hs).1
      obtain ⟨offset, ho⟩ : ∃ offset, payload.load_offsets[i]? = some offset :=
        ⟨_, getElem?_eq_getElem (by rw [h.located.length_eq]; exact hi)⟩
      refine hnone (expectedRange payload.image.plan.base segment offset) ?_ ?_
      · rw [mem_insertionSort, mem_iff_getElem?]
        refine ⟨i, ?_⟩
        rw [getElem?_zipWith, hs, ho]
      · unfold GuestLoadSegment.Backs at hbacks
        unfold expectedRange
        simp only
        omega

/-! ## The whole commit -/

theorem patch_inside {bytes : List UInt8} {file_size : ℕ} {header : GuestPreflight}
    {plan : GuestLoadPlan} (hplan : Planned bytes file_size header plan) {records : List GuestLinkRelocation}
    (hlinkable : ∀ r ∈ records, Linkable manifest imports plan.segments bias r) (hp : p ∈ records.filterMap (relocationPatch manifest imports plan.base bias)) :
    p.offset + 8 ≤ plan.image_size ∧ p.value < 2^64 := by
  obtain ⟨r, hr, hpatch⟩ := mem_filterMap.mp hp
  obtain ⟨v, hv, rfl⟩ := Option.map_eq_some_iff.mp hpatch
  obtain ⟨hpos, hlt, segment, hs, hlo, hhi, -⟩ := (hlinkable r hr).word v hv
  have hinside := hplan.inside segment hs
  simp only
  omega

/-- The result of a link whose writes were verified. -/
def LinkState.committed (state : LinkState) (image : List UInt8) : GuestDataLink :=
  { state.result.withImage image with
    writes_verified := true
    untouched_verified := true
    relative_applied := state.relative_count
    local_applied := state.local_count
    data_import_applied := state.import_count
    checksum_after := fnv1a64 image
    complete := decide (state.result.pending_imports + state.result.pending_bindings +
      state.result.pending_types = 0)
    valid := true }

theorem commitPatches_sat (hstaged : Staged file payload) {require_complete : Bool} {state : LinkState}
    (h : Linked payload manifest imports bias require_complete state) :
    Sat (commitPatches file state) (fun result => ∃ image,
      Patched payload.image.bytes (manifest.relocation_records.filterMap
        (relocationPatch manifest imports payload.image.plan.base bias)) image ∧
      result = state.committed image) (Fails R) := by
  obtain ⟨header, hplan⟩ := hstaged.located.planned
  have hpatches : state.patches = manifest.relocation_records.filterMap
      (relocationPatch manifest imports payload.image.plan.base bias) := by
    rw [h.state_eq]
    rfl
  have hover := h.overlapping_eq
  have hranges : state.ranges = manifest.relocation_records.filterMap relocationTarget := by
    rw [h.state_eq]
    rfl
  rw [hranges] at hover
  obtain rfl : state.result.payload = payload := by
    rw [h.state_eq]
    rfl
  have hsorted := patches_sorted (patches_apart (fun s hs => (hplan.inside s hs).1) h.linkable hover)
  rw [← hpatches] at hsorted
  have hperm := perm_insertionSort (fun a b : Patch => a.offset ≤ b.offset) state.patches
  have hinside : ∀ p ∈ state.patches.insertionSort fun a b => a.offset ≤ b.offset,
      p.offset + 8 ≤ state.result.payload.image.bytes.length ∧ p.value < 2^64 := by
    intro p hp
    have hmem := hperm.mem_iff.mp hp
    rw [hpatches] at hmem
    rw [hstaged.length_eq]
    exact patch_inside hplan h.linkable hmem
  refine Sat.bind (expectedRanges_sat hstaged.located.length_eq) fun expected hexpected => ?_
  refine Sat.bind (writePatches_sat hsorted fun p hp => (hinside p hp).1) fun out hout => ?_
  obtain ⟨image, patches⟩ := out
  obtain ⟨hpatched, hsame⟩ := hout
  -- The words kept beside the patches do not matter to the verification.
  have hkept : Patched state.result.payload.image.bytes patches image := by
    refine ⟨hpatched.length_eq, fun p hp i hi => ?_, fun j hj => hpatched.other j fun q hq => ?_⟩
    · obtain ⟨q, hq, ho, hv⟩ := hsame.exists_mem hp
      rw [← ho, ← hv]
      exact hpatched.word q hq i hi
    · obtain ⟨p, hp, ho, -⟩ := SameWords.exists_mem hsame.symm hq
      rw [← ho]
      exact hj p hp
  have hin : ∀ p ∈ patches, p.offset + 8 ≤ image.length ∧ p.value < 2^64 := by
    intro p hp
    obtain ⟨q, hq, ho, hv⟩ := hsame.exists_mem hp
    rw [← ho, ← hv, hpatched.length_eq]
    exact hinside q hq
  refine Sat.bind (verifyWrites_sat fun p hp => ⟨(hin p hp).1, ?_⟩) fun writes hwrites => ?_
  · rw [leRead_of_leByte (hkept.word p hp), Nat.mod_eq_of_lt (hin p hp).2]
  have hcompare := hstaged.comparing hkept (fun p hp => (hin p hp).1) (hsame.pairwise hsorted)
  rw [← hexpected] at hcompare
  refine Sat.bind (verifyUntouched_sat (by omega) (Nat.zero_le _) hcompare) fun same hsame' => ?_
  subst hwrites hsame'
  refine Sat.ite (fun hfalse => absurd hfalse (by simp)) fun _ => Sat.pure ⟨image, ?_, rfl⟩
  refine ⟨hpatched.length_eq, fun p hp => ?_, fun j hj => hpatched.other j fun p hp => ?_⟩
  · exact hpatched.word p (hperm.mem_iff.mpr (by rw [hpatches]; exact hp))
  · exact hj p (by rw [← hpatches]; exact hperm.mem_iff.mp hp)

end ShadPS4.Guest
