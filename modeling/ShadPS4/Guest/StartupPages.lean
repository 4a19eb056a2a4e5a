import ShadPS4.Guest.DataLinkResult

/-!
# `StartupPageFlags`

The pages of an image have the flags of the segments on them.
-/

namespace ShadPS4.Guest

open List

variable {n : ℕ} {plan : GuestLoadPlan}

/-- A page of `StartupPageFlags`. -/
def startupPageSize : ℕ := 4096

/-- The flags are added to a page; there is no result for a page that can be written and executed. -/
def markPage (flags : ℕ) (pages : List ℕ) (page : ℕ) : Option (List ℕ) :=
  let value := pages.getD page 0 ||| flags % 2^8
  if value &&& 3 = 3 then none else some (pages.set page value)

section

variable (plan : GuestLoadPlan)

/-- The turn of the loop of `StartupPageFlags` for a segment. -/
def markSegment (pages : List ℕ) (segment : GuestLoadSegment) : Option (List ℕ) :=
  if segment.memory_size = 0 ∨ segment.address < plan.base ∨ segment.flags &&& 0xfffffff8 ≠ 0 ∨
      segment.flags &&& 4 = 0 ∨ segment.address - plan.base > plan.image_size ∨
      segment.memory_size > plan.image_size - (segment.address - plan.base) then none
  else
    let offset := segment.address - plan.base
    let first := offset / startupPageSize
    let last := (offset + segment.memory_size - 1) / startupPageSize
    (range' first (last + 1 - first)).foldlM (markPage segment.flags) pages

def startupPageFlags : List ℕ :=
  if plan.valid = false ∨ plan.image_size = 0 ∨ plan.image_size > guestImageLimit ∨
      plan.image_size % startupPageSize ≠ 0 ∨ plan.base > uint64Max - plan.image_size then []
  else (plan.segments.foldlM (markSegment plan)
    (replicate (plan.image_size / startupPageSize) 0)).getD []

/-- The image is one of whole pages, and ends in the address space. -/
def GuestLoadPlan.Fits : Prop :=
  plan.image_size ≠ 0 ∧ plan.image_size ≤ guestImageLimit ∧
    plan.image_size % startupPageSize = 0 ∧ plan.base + plan.image_size < 2^64

/-- The segment is empty, out of the image or not readable, or has flags that are not known. -/
def GuestLoadSegment.Refused (segment : GuestLoadSegment) : Prop :=
  segment.memory_size = 0 ∨ segment.address < plan.base ∨
    plan.base + plan.image_size < segment.address + segment.memory_size ∨
    segment.flags.testBit 2 = false ∨ 2^3 ≤ segment.flags

def GuestLoadSegment.Meets (base : ℕ) (segment : GuestLoadSegment) (page : ℕ) : Prop :=
  segment.address < base + (page + 1) * startupPageSize ∧
    base + page * startupPageSize < segment.address + segment.memory_size

instance (base : ℕ) (segment : GuestLoadSegment) (page : ℕ) : Decidable (segment.Meets base page) :=
  inferInstanceAs (Decidable (_ ∧ _))

def addFlags (base page : ℕ) (segments : List GuestLoadSegment) (flags : ℕ) : ℕ :=
  segments.foldl (fun value segment =>
    if segment.Meets base page then value ||| segment.flags else value) flags

def pageFlags (page : ℕ) : ℕ := addFlags plan.base page plan.segments 0

/-- A page is met by a segment that can be written and by one that can be executed. -/
def Conflict (page : ℕ) : Prop :=
  (∃ segment ∈ plan.segments, segment.Meets plan.base page ∧ segment.flags.testBit 1 = true) ∧
    ∃ segment ∈ plan.segments, segment.Meets plan.base page ∧ segment.flags.testBit 0 = true

end

theorem and_three_iff (x : ℕ) : x &&& 3 = 3 ↔ x.testBit 1 = true ∧ x.testBit 0 = true := by
  rw [show x &&& 3 = x % 2^2 from Nat.and_two_pow_sub_one_eq_mod x 2,
    Nat.testBit_eq_decide_div_mod_eq, Nat.testBit_eq_decide_div_mod_eq, decide_eq_true_eq,
    decide_eq_true_eq]
  omega

theorem and_four_iff (x : ℕ) : x &&& 4 = 0 ↔ x.testBit 2 = false := by
  rw [show (4 : ℕ) = 2^2 from rfl, Nat.and_two_pow]
  cases x.testBit 2 <;> simp

theorem and_unknown_iff (hx : x < 2^32) : x &&& 0xfffffff8 ≠ 0 ↔ 2^3 ≤ x := by
  have hmask : ∀ i < 32, 3 ≤ i → Nat.testBit 0xfffffff8 i = true := by decide
  constructor
  · intro h
    by_contra hlt
    -- No bit is set in both.
    refine h (Nat.eq_of_testBit_eq fun i => ?_)
    rw [Nat.testBit_and, Nat.zero_testBit, Bool.and_eq_false_iff]
    rcases Nat.lt_or_ge i 3 with hi | hi
    · right
      have hlow : ∀ i < 3, Nat.testBit 0xfffffff8 i = false := by decide
      exact hlow i hi
    · left
      exact Nat.testBit_lt_two_pow (lt_of_lt_of_le (by omega) (Nat.pow_le_pow_right (by decide) hi))
  · intro hle h
    obtain ⟨i, hi, hbit⟩ := Nat.exists_ge_and_testBit_of_ge_two_pow hle
    have hlt : i < 32 := by
      by_contra hge
      rw [Nat.testBit_lt_two_pow (lt_of_lt_of_le hx (Nat.pow_le_pow_right (by decide) (by omega)))]
        at hbit
      cases hbit
    have hand : (x &&& 0xfffffff8).testBit i = true := by
      rw [Nat.testBit_and, hbit, hmask i hlt hi]
      rfl
    rw [h, Nat.zero_testBit] at hand
    cases hand

theorem testBit_addFlags (base page : ℕ) (segments : List GuestLoadSegment) (flags k : ℕ) :
    (addFlags base page segments flags).testBit k = true ↔ flags.testBit k = true ∨
      ∃ segment ∈ segments, segment.Meets base page ∧ segment.flags.testBit k = true := by
  induction segments generalizing flags with
  | nil => simp [addFlags]
  | cons segment rest ih =>
    have hstep : addFlags base page (segment :: rest) flags = addFlags base page rest
        (if segment.Meets base page then flags ||| segment.flags else flags) := rfl
    rw [hstep, ih, exists_mem_cons_iff, ← or_assoc]
    split
    · rename_i hmeets
      simp [hmeets]
    · rename_i hmeets
      simp [hmeets]

theorem addFlags_perm (base page : ℕ) (h : segments'.Perm segments) (flags : ℕ) :
    addFlags base page segments' flags = addFlags base page segments flags := by
  refine Nat.eq_of_testBit_eq fun k => ?_
  rw [Bool.eq_iff_iff, testBit_addFlags, testBit_addFlags]
  simp only [h.mem_iff]

/-! ## The loops -/

theorem getD_map_range (h : page < n) (g : ℕ → ℕ) : ((range n).map g).getD page 0 = g page := by
  simp [getD, h]

theorem set_map_range (g : ℕ → ℕ) (value : ℕ) : ((range n).map g).set page value =
      (range n).map fun i => if i = page then value else g i := by
  apply ext_getElem
  · simp
  · intro i hi hi'
    simp only [getElem_set, getElem_map, getElem_range]
    split <;> simp_all [eq_comm]

theorem markPages_spec (first count : ℕ) (g : ℕ → ℕ) (h : first + count ≤ n) (hflags : flags < 2^8) :
    ((∃ page, first ≤ page ∧ page < first + count ∧ (g page ||| flags) &&& 3 = 3) ∧
      (range' first count).foldlM (markPage flags) ((range n).map g) = none) ∨
    ((∀ page, first ≤ page → page < first + count → (g page ||| flags) &&& 3 ≠ 3) ∧
      (range' first count).foldlM (markPage flags) ((range n).map g) = some ((range n).map fun page =>
          if first ≤ page ∧ page < first + count then g page ||| flags else g page)) := by
  induction count generalizing first g with
  | zero =>
    refine .inr ⟨fun page _ _ => by omega, ?_⟩
    have hnone : ∀ page, ¬ (first ≤ page ∧ page < first + 0) := fun page => by omega
    simp only [hnone, if_false]
    rfl
  | succ count ih =>
    have hmark : markPage flags ((range n).map g) first =
        if (g first ||| flags) &&& 3 = 3 then none
        else some ((range n).map fun i => if i = first then g first ||| flags else g i) := by
      unfold markPage
      rw [getD_map_range (by omega), Nat.mod_eq_of_lt hflags]
      simp only [set_map_range]
    rw [range'_succ, foldlM_cons, hmark]
    by_cases hfirst : (g first ||| flags) &&& 3 = 3
    · rw [if_pos hfirst]
      exact .inl ⟨⟨first, by omega, by omega, hfirst⟩, rfl⟩
    · rw [if_neg hfirst]
      have hother : ∀ page, first + 1 ≤ page → (if page = first then g first ||| flags else g page) = g page :=
        fun page hpage => if_neg (by omega)
      have hrest := ih (first + 1) (fun i => if i = first then g first ||| flags else g i)
        (show first + 1 + count ≤ n by omega)
      rcases hrest with
        ⟨⟨page, hle, hlt, hpage⟩, hnone⟩ | ⟨hall, hsome⟩
      · rw [hother page hle] at hpage
        exact .inl ⟨⟨page, by omega, by omega, hpage⟩, hnone⟩
      · refine .inr ⟨fun page hle hlt => ?_, hsome.trans ?_⟩
        · rcases Nat.eq_or_lt_of_le hle with rfl | hlt'
          · exact hfirst
          · rw [← hother page hlt']
            exact hall page hlt' (by omega)
        · refine congrArg some (map_congr_left fun page _ => ?_)
          rcases Nat.lt_trichotomy page first with hpage | rfl | hpage
          · rw [if_neg (by omega), if_neg (by omega), if_neg (by omega)]
          · rw [if_neg (by omega), if_pos rfl, if_pos (by omega)]
          · rw [hother page hpage]
            exact if_congr (by omega) rfl rfl

theorem meets_iff {segment : GuestLoadSegment}
    (hbase : plan.base ≤ segment.address) (hpos : segment.memory_size ≠ 0) (page : ℕ) :
    segment.Meets plan.base page ↔ (segment.address - plan.base) / startupPageSize ≤ page ∧
        page < (segment.address - plan.base + segment.memory_size - 1) / startupPageSize + 1 := by
  unfold GuestLoadSegment.Meets startupPageSize
  omega

theorem markSegment_spec (hpages : plan.image_size % startupPageSize = 0)
    {segment : GuestLoadSegment} (hflags : segment.flags < 2^32) (g : ℕ → ℕ) :
    let n := plan.image_size / startupPageSize
    let next := fun page => if segment.Meets plan.base page then g page ||| segment.flags else g page
    ((segment.Refused plan ∨ ∃ page < n, segment.Meets plan.base page ∧ next page &&& 3 = 3) ∧
      markSegment plan ((range n).map g) segment = none) ∨
    (¬ segment.Refused plan ∧ (∀ page, segment.Meets plan.base page → next page &&& 3 ≠ 3) ∧
      markSegment plan ((range n).map g) segment = some ((range n).map next)) := by
  intro n next
  have hrefused : (segment.memory_size = 0 ∨ segment.address < plan.base ∨
      segment.flags &&& 0xfffffff8 ≠ 0 ∨ segment.flags &&& 4 = 0 ∨
      segment.address - plan.base > plan.image_size ∨
      segment.memory_size > plan.image_size - (segment.address - plan.base)) ↔
        segment.Refused plan := by
    have houtside : (segment.memory_size = 0 ∨ segment.address < plan.base ∨
        segment.address - plan.base > plan.image_size ∨
        segment.memory_size > plan.image_size - (segment.address - plan.base)) ↔
        segment.memory_size = 0 ∨ segment.address < plan.base ∨
          plan.base + plan.image_size < segment.address + segment.memory_size := by omega
    unfold GuestLoadSegment.Refused
    rw [and_unknown_iff hflags, and_four_iff]
    tauto
  unfold markSegment
  by_cases hbad : segment.Refused plan
  · exact .inl ⟨.inl hbad, if_pos (hrefused.mpr hbad)⟩
  · rw [if_neg (hrefused.not.mpr hbad)]
    obtain ⟨hpos, hbase, hend, -, hknown⟩ : segment.memory_size ≠ 0 ∧ plan.base ≤ segment.address ∧
        segment.address + segment.memory_size ≤ plan.base + plan.image_size ∧
        segment.flags.testBit 2 ≠ false ∧ segment.flags < 2^3 := by
      unfold GuestLoadSegment.Refused at hbad
      push Not at hbad
      exact hbad
    have hmeets := meets_iff hbase hpos
    simp only
    generalize hfirst : (segment.address - plan.base) / startupPageSize = first at hmeets ⊢
    generalize hlast : (segment.address - plan.base + segment.memory_size - 1) / startupPageSize = last at hmeets ⊢
    -- The pages of the segment lie in the image.
    have hle : first ≤ last + 1 := by
      rw [← hfirst, ← hlast]
      unfold startupPageSize
      omega
    have hin : last + 1 ≤ plan.image_size / startupPageSize := by
      rw [← hlast]
      unfold startupPageSize at hpages ⊢
      omega
    have hcount : first + (last + 1 - first) = last + 1 := by omega
    have hnext : ∀ page, segment.Meets plan.base page → next page = g page ||| segment.flags :=
      fun page hpage => if_pos hpage
    have hspec := markPages_spec first (last + 1 - first) g
      (show first + (last + 1 - first) ≤ n from hcount.trans_le hin)
      (show segment.flags < 2^8 by omega)
    rw [hcount] at hspec
    rcases hspec with ⟨⟨page, hpage, hlt, hconflict⟩, hnone⟩ | ⟨hall, hsome⟩
    · have hpage := (hmeets page).mpr ⟨hpage, hlt⟩
      refine .inl ⟨.inr ⟨page, lt_of_lt_of_le hlt hin, hpage, ?_⟩, hnone⟩
      rw [hnext page hpage]
      exact hconflict
    · refine .inr ⟨hbad, fun page hpage => ?_, hsome.trans ?_⟩
      · rw [hnext page hpage]
        exact hall page ((hmeets page).mp hpage).1 ((hmeets page).mp hpage).2
      · refine congrArg some (map_congr_left fun page _ => ?_)
        exact if_congr (hmeets page).symm rfl rfl

theorem markSegments_spec (hpages : plan.image_size % startupPageSize = 0)
    (hflags : ∀ segment ∈ segments, segment.flags < 2^32) (hg : ∀ page, g page &&& 3 ≠ 3) :
    let n := plan.image_size / startupPageSize
    let next := fun page => addFlags plan.base page segments (g page)
    (((∃ segment ∈ segments, segment.Refused plan) ∨ ∃ page, next page &&& 3 = 3) ∧
      segments.foldlM (markSegment plan) ((range n).map g) = none) ∨
    ((∀ segment ∈ segments, ¬ segment.Refused plan) ∧ (∀ page, next page &&& 3 ≠ 3) ∧
      segments.foldlM (markSegment plan) ((range n).map g) =
        some ((range n).map next)) := by
  induction segments generalizing g with
  | nil => exact .inr ⟨nofun, hg, rfl⟩
  | cons segment rest ih =>
    intro n next
    rw [foldlM_cons]
    rcases markSegment_spec hpages (hflags segment (by simp)) g with
      ⟨hbad, hnone⟩ | ⟨hgood, hclear, hsome⟩
    · rw [hnone]
      refine .inl ⟨?_, rfl⟩
      rcases hbad with hrefused | ⟨page, -, hpage, hconflict⟩
      · exact .inl ⟨segment, by simp, hrefused⟩
      · -- No flag of the page is lost behind the segment.
        refine .inr ⟨page, ?_⟩
        rw [and_three_iff] at hconflict ⊢
        have hkeep : ∀ k, (if segment.Meets plan.base page then g page ||| segment.flags
            else g page).testBit k = true → (next page).testBit k = true :=
          fun k hk => (testBit_addFlags plan.base page rest _ k).mpr (.inl hk)
        exact ⟨hkeep 1 hconflict.1, hkeep 0 hconflict.2⟩
    · rw [hsome]
      have hg' : ∀ page, (if segment.Meets plan.base page then g page ||| segment.flags
          else g page) &&& 3 ≠ 3 := by
        intro page
        by_cases hpage : segment.Meets plan.base page
        · exact hclear page hpage
        · rw [if_neg hpage]
          exact hg page
      rcases ih (fun s hs => hflags s (mem_cons_of_mem _ hs)) hg' with
        ⟨hbad, hnone⟩ | ⟨hrest, hpages', hall⟩
      · refine .inl ⟨hbad.imp_left fun ⟨s, hs, hrefused⟩ => ?_, hnone⟩
        exact ⟨s, mem_cons_of_mem _ hs, hrefused⟩
      · exact .inr ⟨forall_mem_cons.mpr ⟨hgood, hrest⟩, hpages', hall⟩

/-! ## The pages of a plan -/

theorem conflict_iff (plan : GuestLoadPlan) (page : ℕ) : pageFlags plan page &&& 3 = 3 ↔ Conflict plan page := by
  unfold pageFlags Conflict
  rw [and_three_iff, testBit_addFlags, testBit_addFlags, Nat.zero_testBit, Nat.zero_testBit]
  simp

theorem GuestLoadPlan.Fits.pages_pos (h : plan.Fits) : 0 < plan.image_size / startupPageSize := by
  obtain ⟨hpos, -, hpages, -⟩ := h
  unfold startupPageSize at hpages ⊢
  omega

theorem startupPageFlags_eq (hvalid : plan.valid = true) : (¬ plan.Fits ∧ startupPageFlags plan = []) ∨
      (plan.Fits ∧ startupPageFlags plan = (plan.segments.foldlM (markSegment plan)
        ((range (plan.image_size / startupPageSize)).map fun _ => 0)).getD []) := by
  have hguard : (plan.valid = false ∨ plan.image_size = 0 ∨ plan.image_size > guestImageLimit ∨
      plan.image_size % startupPageSize ≠ 0 ∨ plan.base > uint64Max - plan.image_size) ↔
        ¬ plan.Fits := by
    unfold GuestLoadPlan.Fits uint64Max guestImageLimit
    simp only [hvalid, Bool.true_eq_false, false_or]
    omega
  unfold startupPageFlags
  by_cases hfits : plan.Fits
  · right
    rw [if_neg (by rw [hguard]; exact not_not.mpr hfits), map_const', length_range]
    exact ⟨hfits, rfl⟩
  · exact .inl ⟨hfits, if_pos (hguard.mpr hfits)⟩

theorem startupPageFlags_cases (plan : GuestLoadPlan) (hvalid : plan.valid = true)
    (hflags : ∀ segment ∈ plan.segments, segment.flags < 2^32) :
    ((¬ plan.Fits ∨ (∃ segment ∈ plan.segments, segment.Refused plan) ∨
        ∃ page, Conflict plan page) ∧ startupPageFlags plan = []) ∨
    (plan.Fits ∧ (∀ segment ∈ plan.segments, ¬ segment.Refused plan) ∧
      (∀ page, ¬ Conflict plan page) ∧ startupPageFlags plan =
        (range (plan.image_size / startupPageSize)).map (pageFlags plan)) := by
  rcases startupPageFlags_eq hvalid with ⟨hfits, hempty⟩ | ⟨hfits, heq⟩
  · exact .inl ⟨.inl hfits, hempty⟩
  · rw [heq]
    have hzero : ∀ page : ℕ, (fun _ : ℕ => 0) page &&& 3 ≠ 3 := by simp
    rcases markSegments_spec hfits.2.2.1 hflags hzero with
      ⟨hbad, hnone⟩ | ⟨hgood, hclear, hsome⟩
    · rw [hnone]
      refine .inl ⟨.inr (hbad.imp_right fun ⟨page, hpage⟩ => ⟨page, ?_⟩), rfl⟩
      exact (conflict_iff plan page).mp hpage
    · rw [hsome]
      refine .inr ⟨hfits, hgood, fun page hpage => ?_, rfl⟩
      exact hclear page ((conflict_iff plan page).mpr hpage)

/-- The empty vector is returned for a plan that does not fit, a segment that is refused, and a page that can be
written and executed. -/
theorem startupPageFlags_spec (plan : GuestLoadPlan) (hvalid : plan.valid = true)
    (hflags : ∀ segment ∈ plan.segments, segment.flags < 2^32) :
    (startupPageFlags plan = [] ↔ ¬ plan.Fits ∨ (∃ segment ∈ plan.segments, segment.Refused plan) ∨
      ∃ page, Conflict plan page) ∧ (startupPageFlags plan ≠ [] → startupPageFlags plan =
      (range (plan.image_size / startupPageSize)).map (pageFlags plan)) ∧
    ∀ segments : List GuestLoadSegment, segments.Perm plan.segments →
      startupPageFlags { plan with segments } = startupPageFlags plan := by
  refine ⟨?_, ?_, fun segments hperm => ?_⟩
  · rcases startupPageFlags_cases plan hvalid hflags with ⟨hbad, hempty⟩ | ⟨hfits, hgood, hclear, heq⟩
    · exact iff_of_true hempty hbad
    · refine iff_of_false ?_ ?_
      · rw [heq, map_eq_nil_iff, range_eq_nil]
        exact hfits.pages_pos.ne'
      · rintro (hnot | ⟨segment, hmem, hrefused⟩ | ⟨page, hconflict⟩)
        · exact hnot hfits
        · exact hgood segment hmem hrefused
        · exact hclear page hconflict
  · intro hne
    rcases startupPageFlags_cases plan hvalid hflags with ⟨-, hempty⟩ | ⟨-, -, -, heq⟩
    · exact absurd hempty hne
    · exact heq
  · -- Neither the conditions nor the pages look at the order.
    have hsame : ∀ page, pageFlags { plan with segments } page = pageFlags plan page :=
      fun page => addFlags_perm plan.base page hperm 0
    have hconflict : ∀ page, Conflict { plan with segments } page ↔ Conflict plan page := by
      intro page
      rw [← conflict_iff, ← conflict_iff, hsame]
    have hflags' : ∀ segment ∈ segments, segment.flags < 2^32 :=
      fun segment hmem => hflags segment (hperm.mem_iff.mp hmem)
    rcases startupPageFlags_cases { plan with segments } hvalid hflags' with
      ⟨hbad, hempty⟩ | ⟨hfits, hgood, hclear, heq⟩ <;>
      rcases startupPageFlags_cases plan hvalid hflags with
        ⟨hbad', hempty'⟩ | ⟨hfits', hgood', hclear', heq'⟩
    · rw [hempty, hempty']
    · exfalso
      rcases hbad with hnot | ⟨segment, hmem, hrefused⟩ | ⟨page, hpage⟩
      · exact hnot hfits'
      · exact hgood' segment (hperm.mem_iff.mp hmem) hrefused
      · exact hclear' page ((hconflict page).mp hpage)
    · exfalso
      rcases hbad' with hnot | ⟨segment, hmem, hrefused⟩ | ⟨page, hpage⟩
      · exact hnot hfits
      · exact hgood segment (hperm.mem_iff.mpr hmem) hrefused
      · exact hclear page ((hconflict page).mpr hpage)
    · rw [heq, heq']
      exact map_congr_left fun page _ => hsame page

theorem startupPageFlags_spec_sample : let plan : GuestLoadPlan :=
      { valid := true, base := 0x400000, image_size := 0x4000,
        segments := [⟨0, 0x400000, 64, 64, 5, 0, 1⟩, ⟨0, 0x401100, 0, 64, 6, 1, 1⟩] }
    startupPageFlags plan =
      (range (plan.image_size / startupPageSize)).map (pageFlags plan) := by
  intro plan
  have hne : startupPageFlags plan ≠ [] := by decide
  exact (startupPageFlags_spec plan rfl (by decide)).2.1 hne

/-- A file whose only segment ends a byte below the end of the address space. -/
def topFile : List UInt8 :=
  [0x7f, 0x45, 0x4c, 0x46, 2, 1, 1, 9, 0, 0, 0, 0, 0, 0, 0, 0] ++ leBytes 0xfe10 2 ++
    leBytes 62 2 ++ leBytes 1 4 ++ leBytes (2^64 - 2^14) 8 ++ leBytes 64 8 ++ leBytes 0 12 ++
    leBytes 64 2 ++ leBytes 56 2 ++ leBytes 1 2 ++ leBytes 0 6 ++
  programHeader 1 5 0 (2^64 - 2^14) 64 (2^14 - 1)

/-- The load plan of the file: its image ends where the address space does. -/
def topPlan : GuestLoadPlan where
  valid := true
  raw_elf := true
  base := 2^64 - 2^14
  image_size := 2^14
  segments := [⟨0, 2^64 - 2^14, 64, 2^14 - 1, 5, 0, 1⟩]

/-- The file is planned, and no page flags are returned, though no segment is out of the image, not readable
or has unknown flags, and no page can be written. -/
theorem top_refused : returns (planGuestLoads topFile 120 false) = some topPlan ∧
    startupPageFlags topPlan = [] ∧ (∀ segment ∈ topPlan.segments, ¬ segment.Refused topPlan) ∧
    ∀ page, ¬ Conflict topPlan page := by
  refine ⟨by decide +kernel, by decide, ?_, ?_⟩
  · intro segment hmem
    obtain rfl := mem_singleton.mp hmem
    unfold GuestLoadSegment.Refused
    decide
  · rintro page ⟨⟨segment, hmem, -, hwritable⟩, -⟩
    obtain rfl := mem_singleton.mp hmem
    exact absurd hwritable (by decide)

end ShadPS4.Guest
