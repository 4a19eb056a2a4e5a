import ShadPS4.Rtc.TickSpec

/-!
# Moving a tick by months and years

`sceRtcTickAddMonths` and `sceRtcTickAddYears` move the date of a tick, and keep the time of the day.
-/

namespace ShadPS4.Rtc

open Option

open Calendar

variable {A : Arithmetic} {t t₁ t₂ time : OrbisRtcDateTime} {tick₁ tick₂ : ℕ} {lAdd : ℤ}

/-- The last lines of both functions: a date that is valid is written. -/
def writeMoved (A : Arithmetic) (time : OrbisRtcDateTime) (tick : ℕ) : Option (Code × Option ℕ) :=
  let timeIsValid := sceRtcCheckValid (some time)
  if timeIsValid = .ok then (sceRtcGetTick A (some time) (some tick)).map fun called => (.ok, called.pTick)
  else some (timeIsValid, some tick)

/-- The month of `sceRtcTickAddMonths`, from zero on, and its year. -/
def carryMonth (time : OrbisRtcDateTime) (lAdd : ℤ) : ℤ × ℕ :=
  let s : ℤ := if lAdd ≥ 0 then 1 else -1
  let year := (time.year + lAdd.tdiv 12) % 2^16
  let tempMonth := time.month + lAdd.tmod 12 - 1
  if tempMonth > 11 ∨ tempMonth < 0 then (tempMonth - s * 12, ((year + s) % 2^16).toNat)
  else (tempMonth, year.toNat)

/-- `sceRtcTickAddMonths`, with what the first tick is then. -/
def sceRtcTickAddMonths (A : Arithmetic) (pTick1 pTick2 : Option ℕ) (lAdd : ℤ) : Option (Code × Option ℕ) :=
  match pTick1, pTick2 with
  | some tick1, some tick2 =>
    if lAdd = 0 then some (.ok, some tick2)
    else do
      let time ← (← sceRtcSetTick A (some ⟨0, 0, 0, 0, 0, 0, 0⟩) (some tick1)).pTime
      let (tempMonth, year) := carryMonth time lAdd
      let month := (tempMonth + 1).toNat
      let lastDay := daysInMonth year month
      writeMoved A { time with year, month, day := if time.day > lastDay then lastDay else time.day } tick1
  | _, _ => some (.invalidPointer, pTick1)

def sceRtcTickAddYears (A : Arithmetic) (pTick1 pTick2 : Option ℕ) (lAdd : ℤ) : Option (Code × Option ℕ) :=
  match pTick1, pTick2 with
  | some tick1, some tick2 =>
    if lAdd = 0 then some (.ok, some tick2)
    else do
      let time ← (← sceRtcSetTick A (some ⟨0, 0, 0, 0, 0, 0, 0⟩) (some tick1)).pTime
      let year ← A.int (time.year + lAdd)
      writeMoved A { time with year := (year % 2^16).toNat } tick1
  | _, _ => some (.invalidPointer, pTick1)

/-! ## Moved dates -/

def validYear (t : OrbisRtcDateTime) (year : ℤ) : Option OrbisRtcDateTime :=
  if 1 ≤ year ∧ year ≤ 9999 then some { t with year := year.toNat } else none

/-- The date some months later, with a year that is counted in some way. -/
def OrbisRtcDateTime.addMonths (count : ℤ → ℤ) (t : OrbisRtcDateTime) (months : ℤ) : Option OrbisRtcDateTime :=
  let m : ℤ := 12 * t.year + (t.month - 1) + months
  let month := (m % 12).toNat + 1
  (validYear { t with month } (count (m / 12))).map fun moved =>
    { moved with day := min t.day (daysInMonth moved.year month) }

/-- The date some years later, if the month has that day. -/
def OrbisRtcDateTime.addYears (count : ℤ → ℤ) (t : OrbisRtcDateTime) (years : ℤ) : Option OrbisRtcDateTime :=
  (validYear t (count (t.year + years))).filter fun moved => decide (moved.day ≤ daysInMonth moved.year moved.month)

def Gives (tick : ℕ) (result : Option (Code × Option ℕ)) : Option OrbisRtcDateTime → Prop
  | some t => result = some (.ok, some t.microseconds)
  | none => ∃ code, code ≠ .ok ∧ result = some (code, some tick)

theorem not_gives_none (h : Gives tick₁ result moved) : result ≠ none := by
  rintro rfl
  cases moved with
  | none => obtain ⟨_, _, h⟩ := h; cases h
  | some => cases h

def short (year : ℤ) : ℤ := year % 2^16

theorem microseconds_inj (h : sceRtcCheckValid (some t) = .ok) (h' : sceRtcCheckValid (some t₁) = .ok)
    (heq : t.microseconds = t₁.microseconds) : t = t₁ := by
  have hset := sceRtcSetTick_spec (A := .checked) h t
  rw [heq, sceRtcSetTick_spec h' t] at hset
  exact (some.inj (Called.mk.inj (some.inj hset)).2.1).symm

theorem writeMoved_iff (h : sceRtcCheckValid (some time) = .ok) (x : ℕ) :
    writeMoved A time tick₁ = some (.ok, some x) ↔
      ∃ t', sceRtcGetTick A (some time) (some tick₁) = some ⟨.ok, some t', some x⟩ := by
  have hcalled (called : Called) (hget : sceRtcGetTick A (some time) (some tick₁) = some called) :
      called = ⟨.ok, some (fromMarch time), called.pTick⟩ := by
    unfold sceRtcGetTick at hget
    dsimp only at hget
    rw [h, if_neg (fun hne => hne rfl)] at hget
    obtain ⟨days, -, hget⟩ := bind_eq_some_iff.mp hget
    obtain ⟨msec, -, hget⟩ := bind_eq_some_iff.mp hget
    exact some.inj hget ▸ rfl
  unfold writeMoved
  rw [if_pos h, map_eq_some_iff]
  constructor
  · rintro ⟨called, hget, heq⟩
    have hform := hcalled called hget
    rw [(Prod.mk.inj heq).2] at hform
    exact ⟨_, hform ▸ hget⟩
  · rintro ⟨t', hget⟩
    exact ⟨_, hget, rfl⟩

/-- From the 36th minute of an hour on, there is no tick. -/
theorem minute_of_checked (h : sceRtcCheckValid (some t) = .ok)
    (hget : sceRtcGetTick .checked (some t) (some tick0) = some called) : t.minute < 36 := by
  unfold sceRtcGetTick at hget
  dsimp only at hget
  rw [h, if_neg (fun hne => hne rfl)] at hget
  obtain ⟨days, -, hget⟩ := bind_eq_some_iff.mp hget
  obtain ⟨msec, hmsec, -⟩ := bind_eq_some_iff.mp hget
  unfold tickMsec at hmsec
  obtain ⟨minute, hminute, -⟩ := bind_eq_some_iff.mp hmsec
  rw [fromMarch_time.2.1] at hminute
  apply Nat.lt_of_not_le
  intro hover
  have hover' : 2^31 ≤ (t.minute : ℤ) * 60000000 := by omega
  rw [Arithmetic.checked_int hover'] at hminute
  cases hminute

/-- What is written is the date that is to be written when they are the same, in the first 36 minutes of an hour; and
only then, where the language says what the tick is. -/
theorem gives_writeMoved (hmoved : ∀ t ∈ moved, sceRtcCheckValid (some t) = .ok) :
    ((if sceRtcCheckValid (some time) = .ok then some time else none) = moved → (∀ t ∈ moved, t.minute < 36) →
      Gives tick₁ (writeMoved A time tick₁) moved) ∧ (Gives tick₁ (writeMoved .checked time tick₁) moved →
      (if sceRtcCheckValid (some time) = .ok then some time else none) = moved ∧ ∀ t ∈ moved, t.minute < 36) := by
  split_ifs with hvalid
  · constructor
    · rintro rfl hminute
      exact (writeMoved_iff hvalid _).mpr ((sceRtcGetTick_iff hvalid tick₁).mpr (hminute _ rfl))
    · intro hgives
      cases moved with
      | none =>
        obtain ⟨code, hcode, hwrite⟩ := hgives
        unfold writeMoved at hwrite
        rw [if_pos hvalid] at hwrite
        obtain ⟨called, -, heq⟩ := Option.map_eq_some_iff.mp hwrite
        exact absurd (Prod.mk.inj heq).1.symm hcode
      | some t =>
        obtain ⟨t', hget⟩ := (writeMoved_iff hvalid _).mp hgives
        have hminute := minute_of_checked hvalid hget
        obtain ⟨t'', hget'⟩ := (sceRtcGetTick_iff (A := .checked) hvalid tick₁).mpr hminute
        have hticks := some.inj (Called.mk.inj (some.inj (hget.symm.trans hget'))).2.2
        obtain rfl := microseconds_inj (hmoved t rfl) hvalid hticks
        refine ⟨rfl, fun t ht => ?_⟩
        obtain rfl := some.inj ht
        exact hminute
  · have hwrite (A : Arithmetic) : writeMoved A time tick₁ = some (sceRtcCheckValid (some time), some tick₁) :=
      if_neg hvalid
    rw [hwrite, hwrite]
    cases moved with
    | none => exact ⟨fun _ _ => ⟨_, hvalid, rfl⟩, fun _ => ⟨rfl, nofun⟩⟩
    | some t => exact ⟨nofun, fun h => absurd (Prod.mk.inj (some.inj h)).1 hvalid⟩

/-! ## Both functions -/

theorem valid_iff (h : t.Proper) (year : ℕ) (day : ℕ) (hmonth : 1 ≤ month ∧ month ≤ 12)
    (hday : 1 ≤ day) : sceRtcCheckValid (some { t with year, month, day }) = .ok ↔
      (1 ≤ year ∧ year ≤ 9999) ∧ day ≤ daysInMonth year month := by
  obtain ⟨-, htime⟩ := h
  rw [sceRtcCheckValid_iff]
  constructor
  · rintro ⟨⟨⟨d, rfl, rfl, rfl⟩, hlast⟩, -⟩
    exact ⟨⟨d.year_pos, hlast⟩, d.day_le⟩
  · rintro ⟨⟨hyear, hlast⟩, hdays⟩
    exact ⟨⟨⟨⟨year, month, day, hyear, hmonth.1, hmonth.2, hday, hdays⟩, rfl, rfl, rfl⟩, hlast⟩, htime⟩

theorem carryMonth_eq (hmonth : 1 ≤ t.month ∧ t.month ≤ 12) (lAdd : ℤ) :
    carryMonth { t with year := t.year % 2^16 } lAdd =
      ((12 * (t.year : ℤ) + (t.month - 1) + lAdd) % 12,
        (((12 * (t.year : ℤ) + (t.month - 1) + lAdd) / 12) % 2^16).toNat) := by
  have hdiv := Int.mul_tdiv_add_tmod lAdd 12
  have hlt := Int.tmod_lt_of_pos lAdd (by decide : (0 : ℤ) < 12)
  have hgt := Int.lt_tmod_of_pos lAdd (by decide : (0 : ℤ) < 12)
  have hpos := Int.tmod_nonneg (a := lAdd) 12
  have hneg : lAdd < 0 → lAdd.tmod 12 ≤ 0 := fun h => by
    have hnonneg := Int.tmod_nonneg (a := -lAdd) 12 (by omega)
    rw [Int.neg_tmod] at hnonneg
    omega
  unfold carryMonth
  dsimp only
  split_ifs <;> ext <;> dsimp only <;> omega

theorem mem_validYear :
    moved ∈ validYear t year ↔ (1 ≤ year ∧ year ≤ 9999) ∧ { t with year := year.toNat } = moved := by
  unfold validYear
  split_ifs with hyear
  · exact ⟨fun h => ⟨hyear, some.inj h⟩, fun h => congrArg some h.2⟩
  · exact iff_of_false nofun fun h => hyear h.1

theorem OrbisRtcDateTime.Proper.month_day (h : t.Proper) : (1 ≤ t.month ∧ t.month ≤ 12) ∧ 1 ≤ t.day := by
  obtain ⟨⟨d, -, hmonth, hday⟩, -⟩ := h
  rw [← hmonth, ← hday]
  exact ⟨⟨d.month_pos, d.month_le⟩, d.day_pos⟩

theorem OrbisRtcDateTime.Proper.days (h : t.Proper) : 1 ≤ t.year ∧ t.day ≤ daysInMonth t.year t.month ∧ t.day ≤ 31 := by
  obtain ⟨⟨d, hyear, hmonth, hday⟩, -⟩ := h
  rw [← hyear, ← hmonth, ← hday]
  refine ⟨d.year_pos, d.day_le, d.day_le.trans ?_⟩
  unfold daysInMonth
  split_ifs <;> decide

/-- Dates that are moved by months are valid. -/
theorem OrbisRtcDateTime.Proper.addMonths_valid (h : t.Proper) {count : ℤ → ℤ} {months : ℤ} :
    ∀ moved ∈ t.addMonths count months, sceRtcCheckValid (some moved) = .ok := by
  intro moved hmoved
  obtain ⟨with_year, hyear, rfl⟩ := Option.map_eq_some_iff.mp hmoved
  obtain ⟨hyear, rfl⟩ := mem_validYear.mp hyear
  have hdays := daysInMonth_ge (count ((12 * (t.year : ℤ) + (t.month - 1) + months) / 12)).toNat
    (((12 * (t.year : ℤ) + (t.month - 1) + months) % 12).toNat + 1)
  have hday := h.month_day.2
  exact (valid_iff h _ _ (by dsimp only; omega) (by dsimp only; omega)).mpr ⟨by dsimp only; omega, Nat.min_le_right ..⟩

theorem OrbisRtcDateTime.Proper.addYears_valid (h : t.Proper) :
    ∀ moved ∈ t.addYears count years, sceRtcCheckValid (some moved) = .ok := by
  intro moved hmoved
  obtain ⟨hyear, hday⟩ := Option.filter_eq_some_iff.mp hmoved
  obtain ⟨hyear, rfl⟩ := mem_validYear.mp hyear
  exact (valid_iff h _ _ h.month_day.1 h.month_day.2).mpr ⟨by omega, of_decide_eq_true hday⟩

/-- The months are added to the date of the first tick, whose year is counted in 16 bits. -/
theorem tickAddMonths_eq (h : t₁.Proper) (hlast : t₁.year < 600000) (hadd : lAdd ≠ 0) :
    ∃ time, sceRtcTickAddMonths A (some t₁.microseconds) (some tick₂) lAdd = writeMoved A time t₁.microseconds ∧
      (if sceRtcCheckValid (some time) = .ok then some time else none) = t₁.addMonths short lAdd := by
  obtain ⟨hmonth, hday⟩ := h.month_day
  have hcarry := carryMonth_eq hmonth lAdd
  generalize hm : 12 * (t₁.year : ℤ) + (t₁.month - 1) + lAdd = m at hcarry
  have hnext : (m % 12 + 1).toNat = (m % 12).toNat + 1 := by omega
  refine ⟨{ t₁ with
    year := (m / 12 % 2^16).toNat
    month := (m % 12).toNat + 1
    day := min t₁.day (daysInMonth (m / 12 % 2^16).toNat ((m % 12).toNat + 1)) }, ?_, ?_⟩
  · unfold sceRtcTickAddMonths
    dsimp only
    rw [if_neg hadd, h.setTick hlast, bind_eq_bind, bind_some, bind_eq_bind, bind_some, hcarry]
    dsimp only
    rw [hnext]
    congr 2
    split_ifs <;> omega
  · have hdays := daysInMonth_ge (m / 12 % 2^16).toNat ((m % 12).toNat + 1)
    have hmonth' : 1 ≤ (m % 12).toNat + 1 ∧ (m % 12).toNat + 1 ≤ 12 := by omega
    have hvalid := valid_iff h (m / 12 % 2^16).toNat
      (min t₁.day (daysInMonth (m / 12 % 2^16).toNat ((m % 12).toNat + 1))) hmonth' (by omega)
    unfold OrbisRtcDateTime.addMonths validYear short
    dsimp only
    rw [hm]
    by_cases hyear : 1 ≤ m / 12 % 2^16 ∧ m / 12 % 2^16 ≤ 9999
    · rw [if_pos hyear, if_pos (hvalid.mpr ⟨by omega, Nat.min_le_right ..⟩)]
      rfl
    · rw [if_neg hyear, if_neg fun hok => hyear (by have hyears := (hvalid.mp hok).1; omega)]
      rfl

theorem tickAddYears_eq (h : t₁.Proper) (hlast : t₁.year < 600000) (hadd : lAdd ≠ 0) (hlow : -2^31 ≤ lAdd)
    (hhigh : (t₁.year % 2^16 : ℕ) + lAdd < 2^31) :
    ∃ time, sceRtcTickAddYears A (some t₁.microseconds) (some tick₂) lAdd = writeMoved A time t₁.microseconds ∧
      (if sceRtcCheckValid (some time) = .ok then some time else none) = t₁.addYears short lAdd := by
  obtain ⟨hmonth, hday⟩ := h.month_day
  have hint := Arithmetic.int_eq A (x := (t₁.year % 2^16 : ℕ) + lAdd) (by omega) hhigh
  have hcount : ((t₁.year % 2^16 : ℕ) + lAdd) % 2^16 = (t₁.year + lAdd) % 2^16 := by omega
  refine ⟨{ t₁ with year := ((t₁.year + lAdd) % 2^16).toNat }, ?_, ?_⟩
  · unfold sceRtcTickAddYears
    dsimp only
    rw [if_neg hadd, h.setTick hlast, bind_eq_bind, bind_some, bind_eq_bind, bind_some]
    rw [hint, bind_eq_bind, bind_some, hcount]
  · have hvalid := valid_iff h ((t₁.year + lAdd) % 2^16).toNat t₁.day hmonth hday
    unfold OrbisRtcDateTime.addYears validYear short
    by_cases hyear : 1 ≤ (t₁.year + lAdd) % 2^16 ∧ (t₁.year + lAdd) % 2^16 ≤ 9999
    · rw [if_pos hyear, filter_some]
      refine if_congr ?_ rfl rfl
      rw [hvalid, decide_eq_true_eq]
      exact and_iff_right ⟨by omega, by omega⟩
    · rw [if_neg hyear, if_neg fun hok => hyear (by have hyears := (hvalid.mp hok).1; omega)]
      rfl

/-! ## When the date of the second tick is moved -/

/-- The dates are the same when the years are counted in 16 bits and the days up to the last one of a month. -/
def OrbisRtcDateTime.Alike (lastDay : ℕ) (t₁ t₂ : OrbisRtcDateTime) : Prop :=
  t₁.year % 2^16 = t₂.year % 2^16 ∧ min t₁.day lastDay = min t₂.day lastDay ∧
    { t₁ with year := t₂.year, day := t₂.day } = t₂

/-- The date of the second tick can be moved, not past the 36th minute of an hour, and that of the first one is
like it; or neither can be moved. -/
def Settled (add : (ℤ → ℤ) → OrbisRtcDateTime → ℤ → Option OrbisRtcDateTime) (lastDay : OrbisRtcDateTime → ℕ)
    (t₁ t₂ : OrbisRtcDateTime) (lAdd : ℤ) : Prop :=
  if lAdd = 0 then t₂.year ≤ 9999
  else match add id t₂ lAdd with
    | some t => t₁.Alike (lastDay t) t₂ ∧ t₂.minute < 36
    | none => add short t₁ lAdd = none

theorem addMonths_eq_some (hm : 12 * (t.year : ℤ) + (t.month - 1) + months = m) :
    t.addMonths count months = some t₁ ↔ (1 ≤ count (m / 12) ∧ count (m / 12) ≤ 9999) ∧ { t with
        year := (count (m / 12)).toNat
        month := (m % 12).toNat + 1
        day := min t.day (daysInMonth (count (m / 12)).toNat ((m % 12).toNat + 1)) } = t₁ := by
  subst hm
  unfold OrbisRtcDateTime.addMonths validYear
  dsimp only
  split_ifs with hyear
  · exact ⟨fun h => ⟨hyear, some.inj h⟩, fun h => congrArg some h.2⟩
  · exact iff_of_false nofun fun h => hyear h.1

theorem addYears_eq_some : t.addYears count years = some t₁ ↔
      ((1 ≤ count (t.year + years) ∧ count (t.year + years) ≤ 9999) ∧
        { t with year := (count (t.year + years)).toNat } = t₁) ∧ t₁.day ≤ daysInMonth t₁.year t₁.month := by
  unfold OrbisRtcDateTime.addYears
  rw [filter_eq_some_iff, decide_eq_true_eq]
  exact and_congr_left' mem_validYear

theorem addMonths_alike (h1 : t₁.Proper) (h2 : t₂.Proper) (hmoved : t₂.addMonths id lAdd = some t) :
    t₁.addMonths short lAdd = some t ↔ t₁.Alike (daysInMonth t.year t.month) t₂ := by
  obtain ⟨hyear, rfl⟩ := (addMonths_eq_some rfl).mp hmoved
  have hmonth1 := h1.month_day.1
  have hmonth2 := h2.month_day.1
  rw [addMonths_eq_some rfl, OrbisRtcDateTime.ext_iff]
  unfold OrbisRtcDateTime.Alike short
  rw [OrbisRtcDateTime.ext_iff]
  dsimp only [id] at hyear ⊢
  constructor
  · rintro ⟨-, hy, hm, hd, htime⟩
    rw [hy, hm] at hd
    exact ⟨by omega, hd, rfl, by omega, rfl, htime⟩
  · rintro ⟨hy, hd, -, hm, -, htime⟩
    have hsame : (12 * (t₁.year : ℤ) + (t₁.month - 1) + lAdd) / 12 % 2^16 =
        (12 * (t₂.year : ℤ) + (t₂.month - 1) + lAdd) / 12 := by omega
    have hsame' : (12 * (t₁.year : ℤ) + (t₁.month - 1) + lAdd) % 12 =
        (12 * (t₂.year : ℤ) + (t₂.month - 1) + lAdd) % 12 := by omega
    rw [hsame, hsame']
    exact ⟨hyear, rfl, rfl, hd, htime⟩

theorem addYears_alike (h1 : t₁.Proper) (h2 : t₂.Proper) (hmoved : t₂.addYears id lAdd = some t) :
    t₁.addYears short lAdd = some t ↔ t₁.Alike 31 t₂ := by
  obtain ⟨⟨hyear, rfl⟩, hday⟩ := addYears_eq_some.mp hmoved
  have hday1 := h1.days.2.2
  have hday2 := h2.days.2.2
  rw [addYears_eq_some, OrbisRtcDateTime.ext_iff]
  unfold OrbisRtcDateTime.Alike short
  rw [OrbisRtcDateTime.ext_iff]
  dsimp only [id] at hyear hday ⊢
  constructor
  · rintro ⟨⟨-, hy, hm, hd, htime⟩, -⟩
    exact ⟨by omega, congrArg (min · 31) hd, rfl, hm, rfl, htime⟩
  · rintro ⟨hy, hd, -, hm, -, htime⟩
    have hsame : ((t₁.year : ℤ) + lAdd) % 2^16 = t₂.year + lAdd := by omega
    rw [hsame]
    exact ⟨⟨hyear, rfl, hm, by omega, htime⟩, hday⟩

/-- The date that is the target. -/
theorem addMonths_reaches (h : t.Proper) {year month day : ℕ} {months : ℤ}
    (hmonths : 12 * (year : ℤ) + (month - 1) + months = 12 * t.year + (t.month - 1))
    (hday : min day (daysInMonth t.year t.month) = t.day) :
    OrbisRtcDateTime.addMonths id { t with year, month, day } months = if t.year ≤ 9999 then some t else none := by
  obtain ⟨hmonth, -⟩ := h.month_day
  have hpos := h.days.1
  have hy : (12 * (t.year : ℤ) + (t.month - 1)) / 12 = t.year := by omega
  have hm : ((12 * (t.year : ℤ) + (t.month - 1)) % 12).toNat + 1 = t.month := by omega
  unfold OrbisRtcDateTime.addMonths validYear id
  dsimp only
  rw [hmonths, hy, hm]
  split_ifs with hvalid hyear hyear
  · refine congrArg some (OrbisRtcDateTime.ext rfl rfl ?_ rfl rfl rfl rfl)
    exact hday
  · omega
  · omega
  · rfl

theorem addMonths_back (h : t.Proper) (hlast : t.year ≤ 9999) (hmoved : t.addMonths id lAdd = some t₁)
    (hday : t₁.day = t.day) : t₁.addMonths id (-lAdd) = some t := by
  obtain ⟨hyear, rfl⟩ := (addMonths_eq_some rfl).mp hmoved
  dsimp only [id] at hyear hday
  refine (addMonths_reaches h ?_ ?_).trans (if_pos hlast)
  · dsimp only [id]
    omega
  · exact (congrArg (min · (daysInMonth t.year t.month)) hday).trans (Nat.min_eq_left h.days.2.1)

/-- With one way of arithmetic or another, the first tick is that of the date when the condition holds; and only then
where the language says what is computed. -/
def GivesWhen (run : Arithmetic → Option (Code × Option ℕ)) (tick : ℕ) (moved : Option OrbisRtcDateTime)
    (condition : Prop) : Prop :=
  (condition → ∀ A, Gives tick (run A) moved) ∧ (Gives tick (run .checked) moved → condition)

/-- A function that moves the date of the first tick, or that returns the second tick when nothing is added. -/
theorem givesWhen_settled  (hzero : lAdd = 0 → (add id t₂ 0 = if t₂.year ≤ 9999 then some t₂ else none) ∧
      ∀ A, run A = some (.ok, some t₂.microseconds)) (hrun : lAdd ≠ 0 → ∀ A, ∃ time, run A = writeMoved A time tick ∧
      (if sceRtcCheckValid (some time) = .ok then some time else none) = add short t₁ lAdd)
    (hmoved : ∀ t, add id t₂ lAdd = some t → sceRtcCheckValid (some t) = .ok ∧ t.minute = t₂.minute ∧
      (add short t₁ lAdd = some t ↔ t₁.Alike (lastDay t) t₂)) :
    GivesWhen run tick (add id t₂ lAdd) (Settled add lastDay t₁ t₂ lAdd) := by
  unfold GivesWhen Settled
  by_cases hadd : lAdd = 0
  · obtain ⟨hadd2, hrun⟩ := hzero hadd
    rw [if_pos hadd, hadd, hadd2]
    by_cases hyear : t₂.year ≤ 9999
    · rw [if_pos hyear]
      exact ⟨fun _ A => hrun A, fun _ => hyear⟩
    · rw [if_neg hyear]
      refine ⟨fun h => absurd h hyear, ?_⟩
      rintro ⟨code, hcode, heq⟩
      rw [hrun] at heq
      exact absurd (Prod.mk.inj (some.inj heq)).1.symm hcode
  · rw [if_neg hadd]
    have hcondition : (match add id t₂ lAdd with
          | some t => t₁.Alike (lastDay t) t₂ ∧ t₂.minute < 36
          | none => add short t₁ lAdd = none) ↔
        add short t₁ lAdd = add id t₂ lAdd ∧ ∀ t ∈ add id t₂ lAdd, t.minute < 36 := by
      cases hadd2 : add id t₂ lAdd with
      | none => exact ⟨fun h => ⟨h, nofun⟩, fun h => h.1⟩
      | some t =>
        obtain ⟨-, hminute, halike⟩ := hmoved t hadd2
        rw [halike, ← hminute]
        refine and_congr_right' ⟨fun h t' ht' => some.inj ht' ▸ h, fun h => h t rfl⟩
    rw [hcondition]
    have hvalid : ∀ t ∈ add id t₂ lAdd, sceRtcCheckValid (some t) = .ok := fun t ht => (hmoved t ht).1
    constructor
    · rintro ⟨heq, hminute⟩ A
      obtain ⟨time, hwrite, hadd1⟩ := hrun hadd A
      rw [hwrite]
      exact (gives_writeMoved hvalid).1 (hadd1.trans heq) hminute
    · intro hgives
      obtain ⟨time, hwrite, hadd1⟩ := hrun hadd .checked
      rw [hwrite] at hgives
      obtain ⟨heq, hminute⟩ := (gives_writeMoved (A := .checked) hvalid).2 hgives
      exact ⟨hadd1.symm.trans heq, hminute⟩

theorem OrbisRtcDateTime.Proper.year_lt (h : t.Proper) (htick : t.microseconds < 2^64) : t.year < 600000 := by
  obtain ⟨⟨d, hyear, hmonth, hday⟩, -⟩ := h
  have hnumber : daysBefore t.year t.month t.day = d.number := by
    rw [← hyear, ← hmonth, ← hday]
    rfl
  have hyears := daysBeforeYear_eq 599999
  unfold OrbisRtcDateTime.microseconds at htick
  have hlt : d.year < 599999 + 1 := d.year_lt (by omega)
  omega

theorem OrbisRtcDateTime.Proper.microseconds_lt (h : t.Proper) (hyear : t.year ≤ 9999) : t.microseconds < 2^64 := by
  obtain ⟨⟨d, hd, hmonth, hday⟩, htime⟩ := h
  have hnumber : daysBefore t.year t.month t.day = d.number := by
    rw [← hd, ← hmonth, ← hday]
    rfl
  have hlt : d.number < daysBeforeYear (9999 + 1) := Nat.lt_of_lt_of_le d.number_lt (daysBeforeYear_mono (by omega))
  have hyears := daysBeforeYear_eq 9999
  unfold OrbisRtcDateTime.microseconds
  omega

/-- Both functions move the date of the second tick exactly when it is the same as that of the first, up to its year
modulo `2^16` and days past the end of a month, and not past the 36th minute of an hour, or when there is no date for
either; and what is moved by months, and not to a shorter one, is moved back. -/
theorem tickAdd_iff (h₁ : t₁.Proper) (h₂ : t₂.Proper) (htick : t₁.microseconds < 2^64) (hadd : -2^31 ≤ lAdd) :
    GivesWhen (fun A => sceRtcTickAddMonths A (some t₁.microseconds) (some t₂.microseconds) lAdd) t₁.microseconds
      (t₂.addMonths id lAdd)
      (Settled (fun count => OrbisRtcDateTime.addMonths count) (fun t => daysInMonth t.year t.month) t₁ t₂ lAdd) ∧
    GivesWhen (fun A => sceRtcTickAddYears A (some t₁.microseconds) (some t₂.microseconds) lAdd) t₁.microseconds
      (t₂.addYears id lAdd) (Settled (fun count => OrbisRtcDateTime.addYears count) (fun _ => 31) t₁ t₂ lAdd ∧
        (t₁.year % 2^16 : ℕ) + lAdd < 2^31) ∧
    ∀ t, t₂.year ≤ 9999 → t₂.addMonths id lAdd = some t → t.day = t₂.day → t.addMonths id (-lAdd) = some t₂ := by
  have hlast := h₁.year_lt htick
  refine ⟨?_, ?_, fun t hyear hmoved hday => addMonths_back h₂ hyear hmoved hday⟩
  · refine givesWhen_settled ?_ (fun hadd A => tickAddMonths_eq h₁ hlast hadd) ?_
    · rintro rfl
      exact ⟨addMonths_reaches h₂ (Int.add_zero _) (Nat.min_eq_left h₂.days.2.1), fun _ => rfl⟩
    · intro t hmoved
      refine ⟨h₂.addMonths_valid t hmoved, ?_, addMonths_alike h₁ h₂ hmoved⟩
      obtain ⟨-, rfl⟩ := (addMonths_eq_some rfl).mp hmoved
      rfl
  · by_cases hhigh : (t₁.year % 2^16 : ℕ) + lAdd < 2^31
    · rw [and_iff_left hhigh]
      refine givesWhen_settled ?_ (fun hne A => tickAddYears_eq h₁ hlast hne hadd hhigh) ?_
      · rintro rfl
        refine ⟨?_, fun _ => rfl⟩
        have hpos := h₂.days.1
        by_cases hyear : t₂.year ≤ 9999
        · rw [if_pos hyear]
          exact addYears_eq_some.mpr ⟨⟨by dsimp only [id]; omega, by congr 1⟩, h₂.days.2.1⟩
        · rw [if_neg hyear]
          refine eq_none_iff_forall_ne_some.mpr fun t ht => ?_
          have hyears := (addYears_eq_some.mp ht).1.1
          dsimp only [id] at hyears
          omega
      · intro t hmoved
        refine ⟨h₂.addYears_valid t hmoved, ?_, addYears_alike h₁ h₂ hmoved⟩
        obtain ⟨⟨-, rfl⟩, -⟩ := addYears_eq_some.mp hmoved
        rfl
    · refine ⟨fun h => absurd h.2 hhigh, fun hgives => absurd ?_ (not_gives_none hgives)⟩
      have hnone := Arithmetic.checked_int (Int.not_lt.mp hhigh)
      unfold sceRtcTickAddYears
      dsimp only
      rw [if_neg (by omega), h₁.setTick hlast, bind_eq_bind, bind_some, bind_eq_bind,
        bind_some]
      rw [hnone]
      rfl

theorem leapDay_proper : OrbisRtcDateTime.Proper ⟨2000, 2, 29, 1, 2, 3, 4⟩ :=
  (OrbisRtcDateTime.proper_of_valid (by decide)).1

/-- A year after the leap day of 2000. -/
theorem tickAdd_iff_leapDay : Gives (OrbisRtcDateTime.microseconds ⟨2000, 2, 29, 1, 2, 3, 4⟩)
    (sceRtcTickAddMonths .checked (some (OrbisRtcDateTime.microseconds ⟨2000, 2, 29, 1, 2, 3, 4⟩))
      (some (OrbisRtcDateTime.microseconds ⟨2000, 2, 29, 1, 2, 3, 4⟩)) 12) (some ⟨2001, 2, 28, 1, 2, 3, 4⟩) := by
  refine (@tickAdd_iff _ _ 12 leapDay_proper leapDay_proper (leapDay_proper.microseconds_lt ?_) ?_).1.1 ?_ .checked
  case refine_1 | refine_2 => decide
  exact ⟨⟨rfl, rfl, rfl⟩, by decide⟩

/-- A month is added to the first of February, and the tick that is written is of the first of January before. -/
theorem tickAddMonths_first_tick : ¬ ∃ A, Gives 0
    (sceRtcTickAddMonths A (some 0) (some (OrbisRtcDateTime.microseconds ⟨1, 2, 1, 0, 0, 0, 0⟩)) 1)
    (OrbisRtcDateTime.addMonths id ⟨1, 2, 1, 0, 0, 0, 0⟩ 1) := by
  have hmoved : OrbisRtcDateTime.addMonths id ⟨1, 2, 1, 0, 0, 0, 0⟩ 1 = some ⟨1, 3, 1, 0, 0, 0, 0⟩ := by decide
  refine not_exists.mpr fun A => ?_
  rw [hmoved]
  unfold Gives
  cases A with
  | checked => decide
  | wrapping => decide

end ShadPS4.Rtc
