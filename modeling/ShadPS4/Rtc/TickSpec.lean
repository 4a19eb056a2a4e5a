import Mathlib.Tactic.Ring
import ShadPS4.Rtc.Tick

/-!
# Ticks are microseconds since the year 1

A tick is the number of microseconds since the first instant of the year 1, and the two conversions are inverse to
each other, in the minutes whose number of microseconds is an `int`.
-/

namespace ShadPS4.Rtc

open Option (some.inj bind_eq_bind bind_some some_inj)

open Calendar

variable {x : ℤ}
variable {A : Arithmetic} {t t₀ : OrbisRtcDateTime} {d : Date} {tick tick₀ : ℕ}

namespace Arithmetic

theorem int_eq (A : Arithmetic) (h : -2^31 ≤ x) (h' : x < 2^31) : A.int x = some x := by
  cases A with
  | checked => exact if_pos ⟨h, h'⟩
  | wrapping =>
    have hbmod : x.bmod (2^32) = x := by
      apply Int.bmod_eq_of_le
      · omega
      · omega
    exact congrArg some hbmod

theorem checked_int (h : 2^31 ≤ x) : checked.int x = none := by
  unfold int
  dsimp only
  rw [if_neg (fun hx => Int.not_le.mpr hx.2 h)]

theorem wrapping_int (h : 2^31 ≤ x) (h' : x < 2^32) : wrapping.int x = some (x - 2^32) := by
  have hmod : x % (2^32 : ℕ) = x := Int.emod_eq_of_lt (by omega) (by omega)
  have hbmod : x.bmod (2^32) = x - (2^32 : ℕ) := by
    rw [Int.bmod_def, hmod, if_neg (by omega)]
  unfold int
  dsimp only
  rw [hbmod]
  norm_num

theorem u32_eq (A : Arithmetic) (n : ℕ) (hx : x = n) (hn : n < 2^32) : A.u32 x = some n := by
  subst hx
  cases A with
  | checked =>
    unfold u32
    dsimp only
    rw [if_pos ⟨Int.natCast_nonneg n, by omega⟩, Int.toNat_natCast]
  | wrapping =>
    show some ((n : ℤ) % 2^32).toNat = some n
    congr 1
    omega

end Arithmetic

/-- The microseconds from the first instant of the year 1 to a date and time. -/
def OrbisRtcDateTime.microseconds (t : OrbisRtcDateTime) : ℕ :=
  (((daysBefore t.year t.month t.day * 24 + t.hour) * 60 + t.minute) * 60 + t.second) * 1000000 +
    t.microsecond

theorem sceRtcCheckValid_iff : sceRtcCheckValid (some t) = .ok ↔
    ((∃ d : Date, d.year = t.year ∧ d.month = t.month ∧ d.day = t.day) ∧ t.year ≤ 9999) ∧
      t.hour < 24 ∧ t.minute < 60 ∧ t.second < 60 ∧ t.microsecond < 1000000 := by
  unfold sceRtcCheckValid
  constructor
  · intro h
    dsimp only at h
    split_ifs at h with hyear hmonth hday hlast hhour hminute hsecond hmicrosecond
    exact ⟨⟨⟨⟨t.year, t.month, t.day, by omega, by omega, by omega, by omega, by omega⟩, rfl, rfl, rfl⟩,
      by omega⟩, by omega, by omega, by omega, by omega⟩
  · rintro ⟨⟨⟨d, hyear, hmonth, hday⟩, hlast⟩, hhour, hminute, hsecond, hmicrosecond⟩
    have hyear' := d.year_pos
    have hmonth' := d.month_pos
    have hmonth'' := d.month_le
    have hday' := d.day_pos
    have hday'' := d.day_le
    rw [hyear, hmonth] at hday''
    dsimp only
    rw [if_neg (by omega), if_neg (by omega), if_neg (by omega), if_neg (by omega), if_neg (by omega),
      if_neg (by omega), if_neg (by omega), if_neg (by omega)]

/-! ## From a date to its tick -/

theorem tickDays_spec (hyear : d.year = t.year) (hmonth : d.month = t.month) (hday : d.day = t.day)
    (hlast : t.year ≤ 9999) : tickDays A (fromMarch t) = some d.number := by
  have hy : (fromMarch t).year = d.marchYear := by
    unfold fromMarch Date.marchYear
    rw [hmonth, hyear]
    split_ifs <;> rfl
  have hm : (fromMarch t).month = d.marchMonth := by
    unfold fromMarch Date.marchMonth
    rw [hmonth]
    split_ifs <;> rfl
  have hd : (fromMarch t).day = d.day := by
    unfold fromMarch
    rw [hday]
    split_ifs <;> rfl
  have hmarchYear : d.marchYear ≤ 9999 := by
    unfold Date.marchYear
    split_ifs <;> omega
  obtain ⟨hmarchMonth, hmarchDay, -, -⟩ := d.day_le_march
  have hnumber := d.number_eq_march
  unfold Date.marchDay at hnumber
  unfold tickDays
  rw [hy, hm, hd]
  generalize d.marchYear = y at *
  generalize d.marchMonth = m at *
  have hhundred : A.int (100 * ((y : ℤ) / 100)) = some (100 * ((y : ℤ) / 100)) :=
    A.int_eq (by omega) (by omega)
  have hya : A.int (y - 100 * ((y : ℤ) / 100)) = some (y - 100 * ((y : ℤ) / 100)) :=
    A.int_eq (by omega) (by omega)
  have hcenturies : A.int (146097 * ((y : ℤ) / 100)) = some (146097 * ((y : ℤ) / 100)) :=
    A.int_eq (by omega) (by omega)
  have hyears : A.int (1461 * (y - 100 * ((y : ℤ) / 100))) = some (1461 * (y - 100 * ((y : ℤ) / 100))) :=
    A.int_eq (by omega) (by omega)
  have hmonths : A.int (153 * (m : ℤ)) = some (153 * (m : ℤ)) := A.int_eq (by omega) (by omega)
  have hmonths' : A.int (153 * (m : ℤ) + 2) = some (153 * (m : ℤ) + 2) := A.int_eq (by omega) (by omega)
  simp only [hhundred, hya, hcenturies, hyears, hmonths, hmonths', bind_eq_bind, bind_some,
    Int.shiftRight_eq_div_pow]
  rw [A.int_eq (by omega) (by omega), bind_some, Int.tdiv_eq_ediv_of_nonneg (by omega),
    A.int_eq (by omega) (by omega), bind_some, A.int_eq (by omega) (by omega), bind_some]
  have hdays : 146097 * ((y : ℤ) / 100) / (2^2 : ℕ) + 1461 * (y - 100 * ((y : ℤ) / 100)) / (2^2 : ℕ) +
      (153 * (m : ℤ) + 2) / 5 + d.day = (d.number + 307 : ℕ) := by
    have hrest : (y : ℤ) - 100 * ((y : ℤ) / 100) = (y % 100 : ℕ) := by omega
    rw [hnumber, hrest]
    push_cast
    ring
  rw [hdays, some_inj]
  omega

theorem fromMarch_time : (fromMarch t).hour = t.hour ∧ (fromMarch t).minute = t.minute ∧
    (fromMarch t).second = t.second ∧ (fromMarch t).microsecond = t.microsecond := by
  unfold fromMarch
  split_ifs
  · exact ⟨rfl, rfl, rfl, rfl⟩
  · exact ⟨rfl, rfl, rfl, rfl⟩

theorem tickMsec_spec (hhour : t.hour < 24) (hminute : t.minute < 36) (hsecond : t.second < 60)
    (hmicrosecond : t.microsecond < 1000000) : tickMsec A (fromMarch t) =
      some (((t.hour * 60 + t.minute) * 60 + t.second) * 1000000 + t.microsecond) := by
  obtain ⟨hh, hm, hs, hus⟩ := fromMarch_time (t := t)
  unfold tickMsec
  rw [hh, hm, hs, hus, A.int_eq (by omega) (by omega), A.int_eq (by omega) (by omega)]
  simp only [bind_eq_bind, bind_some, some_inj]
  omega

theorem tickMsec_overflow (hhour : t.hour < 24) (hminute : 36 ≤ t.minute) (hminute' : t.minute < 60)
    (hsecond : t.second < 60) (hmicrosecond : t.microsecond < 1000000) (h : tickMsec A (fromMarch t) = some msec) :
    msec + 2^32 = ((t.hour * 60 + t.minute) * 60 + t.second) * 1000000 + t.microsecond ∨
      msec + 2^32 = ((t.hour * 60 + t.minute) * 60 + t.second) * 1000000 + t.microsecond + 2^64 := by
  obtain ⟨hh, hm, hs, hus⟩ := fromMarch_time (t := t)
  unfold tickMsec at h
  rw [hh, hm, hs, hus, A.int_eq (x := (t.second : ℤ) * 1000000) (by omega) (by omega)] at h
  have hover : 2^31 ≤ (t.minute : ℤ) * 60000000 := by omega
  cases A with
  | checked =>
    rw [Arithmetic.checked_int hover] at h
    cases h
  | wrapping =>
    rw [Arithmetic.wrapping_int hover (by omega)] at h
    simp only [bind_eq_bind, bind_some, some_inj] at h
    generalize hx : (t.hour : ℤ) * 3600000000 + ((t.minute : ℤ) * 60000000 - 2^32) +
      (t.second : ℤ) * 1000000 + t.microsecond = x at h
    rcases lt_or_ge x 0 with hneg | hpos
    · have hmod : x % 2^64 = x + 2^64 := by
        rw [← Int.add_emod_right, Int.emod_eq_of_lt (by omega) (by omega)]
      exact .inr (by omega)
    · have hmod : x % 2^64 = x := Int.emod_eq_of_lt hpos (by omega)
      exact .inl (by omega)

theorem sceRtcGetTick_iff (h : sceRtcCheckValid (some t) = .ok) (tick₀ : ℕ) :
    (∃ t', sceRtcGetTick A (some t) (some tick₀) = some ⟨.ok, some t', some t.microseconds⟩) ↔ t.minute < 36 := by
  obtain ⟨⟨⟨d, hyear, hmonth, hday⟩, hlast⟩, hhour, hminute, hsecond, hmicrosecond⟩ :=
    sceRtcCheckValid_iff.mp h
  have hnumber : daysBefore t.year t.month t.day = d.number := by
    rw [← hyear, ← hmonth, ← hday]
    rfl
  have hbound : d.number < 2^22 := by
    have hlt := d.number_lt
    have hmono : daysBeforeYear (d.year + 1) ≤ daysBeforeYear (9999 + 1) :=
      daysBeforeYear_mono (by omega)
    have hend := daysBeforeYear_eq 9999
    omega
  have hrun : sceRtcGetTick A (some t) (some tick₀) = (tickMsec A (fromMarch t)).bind fun msec =>
      some ⟨.ok, some (fromMarch t), some ((d.number * 86400000000 % 2^64 + msec) % 2^64)⟩ := by
    unfold sceRtcGetTick
    dsimp only
    rw [h, if_neg (fun hne => hne rfl), tickDays_spec hyear hmonth hday hlast]
    rfl
  unfold OrbisRtcDateTime.microseconds
  rw [hrun, hnumber]
  constructor
  · rintro ⟨t', hcalled⟩
    obtain ⟨msec, hmsec, hcalled⟩ := Option.bind_eq_some_iff.mp hcalled
    have htick := some.inj (Called.mk.inj (some.inj hcalled)).2.2
    apply Nat.lt_of_not_le
    intro hover
    have hmsec' := tickMsec_overflow hhour hover hminute hsecond hmicrosecond hmsec
    omega
  · intro hshort
    rw [tickMsec_spec hhour hshort hsecond hmicrosecond]
    refine ⟨fromMarch t, ?_⟩
    rw [bind_some]
    congr 3
    omega

/-! ## From a tick to its date -/

theorem tickCentury_spec (hc : c < 6000) (hpos : 1 ≤ n)
    (hn : n ≤ 36524 ∨ (n = 36525 ∧ c % 4 = 3)) (hdays : days + 307 = 146097 * c / 4 + n) :
    tickCentury A days = some (c, n - 1) := by
  obtain ⟨hle, hly, hld⟩ := century_eq hpos hn
  have hj : A.u32 (((days + 307) <<< 2 : ℕ) - 1) = some (4 * (146097 * c / 4 + n) - 1) := by
    exact A.u32_eq _ (by omega) (by omega)
  have hcentury : A.u32 (146097 * c) = some (146097 * c) := A.u32_eq _ (by omega) (by omega)
  unfold tickCentury
  simp only [hj, hly, hcentury, bind_eq_bind, bind_some, Nat.shiftRight_eq_div_pow]
  rw [A.u32_eq (4 * (146097 * c / 4 + n) - 1 - 146097 * c) (by omega) (by omega), bind_some]
  exact congrArg (fun ld => some (c, ld)) hld

theorem tickYear_spec (hr : r < 100) (hpos : 1 ≤ n) (hn : n ≤ 365 ∨ (n = 366 ∧ r % 4 = 3)) :
    tickYear A (1461 * r / 4 + n - 1) = some (r, n) := by
  obtain ⟨hle, hj, hld⟩ := year_eq hpos hn
  generalize hdays : 1461 * r / 4 + n - 1 = days at *
  have hshift : A.u32 (days <<< 2 : ℕ) = some (4 * days) := by
    exact A.u32_eq _ (by omega) (by omega)
  have hthree : A.u32 ((4 * days : ℕ) + 3) = some (4 * days + 3) := A.u32_eq _ (by omega) (by omega)
  have hseven : A.u32 ((4 * days : ℕ) + 7) = some (4 * days + 7) := A.u32_eq _ (by omega) (by omega)
  have hyears : A.u32 (1461 * r) = some (1461 * r) := A.u32_eq _ (by omega) (by omega)
  unfold tickYear
  simp only [hshift, hthree, hj, hseven, hyears, bind_eq_bind, bind_some, Nat.shiftRight_eq_div_pow]
  rw [A.u32_eq (4 * days + 7 - 1461 * r) (by omega) (by omega), bind_some]
  exact congrArg (fun ld => some (r, ld)) hld

theorem tickMonth_spec (d : Date) : tickMonth A d.marchDay = some (d.marchMonth, d.day) := by
  obtain ⟨hmonth, hday⟩ := d.marchMonth_eq
  obtain ⟨hpos, hmarchDay⟩ := d.marchDay_le
  generalize d.marchDay = n at *
  have hfive : A.u32 (5 * n) = some (5 * n) := A.u32_eq _ (by omega) (by omega)
  have hthree : A.u32 ((5 * n : ℕ) - 3) = some (5 * n - 3) := A.u32_eq _ (by omega) (by omega)
  have htwo : A.u32 ((5 * n : ℕ) + 2) = some (5 * n + 2) := A.u32_eq _ (by omega) (by omega)
  have hmonths : A.u32 (153 * d.marchMonth) = some (153 * d.marchMonth) := A.u32_eq _ (by omega) (by omega)
  unfold tickMonth
  simp only [hfive, hthree, hmonth, htwo, hmonths, bind_eq_bind, bind_some]
  rw [A.u32_eq (5 * n + 2 - 153 * d.marchMonth) (by omega) (by omega), bind_some]
  exact congrArg (fun ld => some (d.marchMonth, ld)) hday

theorem tickDate_spec (d : Date) (hlast : d.year < 600000) : tickDate A d.number = some (d.year, d.month, d.day) := by
  have hmarchYear : d.marchYear < 600000 := by
    unfold Date.marchYear
    split_ifs <;> omega
  have hnumber := d.number_eq_march
  rw [Nat.add_assoc] at hnumber
  obtain ⟨hpos, hmarchDay⟩ := d.marchDay_le
  have hmonth := d.day_le_march.1
  -- The last day of a year is that before a leap year.
  have hleap : d.marchDay ≤ 365 ∨ (d.marchDay = 366 ∧ d.marchYear % 100 % 4 = 3 ∧
      (d.marchYear % 100 ≠ 99 ∨ d.marchYear / 100 % 4 = 3)) := by
    refine hmarchDay.imp_right fun ⟨heq, hleap⟩ => ⟨heq, ?_⟩
    unfold IsLeap at hleap
    omega
  have hr : d.marchYear % 100 < 100 := Nat.mod_lt _ (by decide)
  have hcentury : tickCentury A d.number =
      some (d.marchYear / 100, 1461 * (d.marchYear % 100) / 4 + d.marchDay - 1) := by
    refine tickCentury_spec (by omega) (by omega) ?_ hnumber
    omega
  have hrest := tickYear_spec (A := A) hr hpos (hleap.imp_right fun h => ⟨h.1, h.2.1⟩)
  unfold tickDate
  simp only [hcentury, hrest, tickMonth_spec, bind_eq_bind, bind_some]
  rw [A.u32_eq (100 * (d.marchYear / 100)) (by omega) (by omega), bind_some,
    A.u32_eq d.marchYear (by omega) (by omega), bind_some]
  rcases d.year_of_march with ⟨hlt, hyear', hmonth'⟩ | ⟨hge, hyear', hmonth'⟩
  · rw [if_pos hlt, A.u32_eq (d.marchMonth + 3) (by omega) (by omega), bind_some, hyear', hmonth']
  · rw [if_neg (Nat.not_lt.mpr hge), A.u32_eq (d.marchYear + 1) (by omega) (by omega),
      A.u32_eq (d.marchMonth - 9) (by omega) (by omega), bind_some, bind_some, hyear', hmonth']

def OrbisRtcDateTime.Proper (t : OrbisRtcDateTime) : Prop :=
  (∃ d : Date, d.year = t.year ∧ d.month = t.month ∧ d.day = t.day) ∧
    t.hour < 24 ∧ t.minute < 60 ∧ t.second < 60 ∧ t.microsecond < 1000000

theorem OrbisRtcDateTime.proper_of_valid (h : sceRtcCheckValid (some t) = .ok) : t.Proper ∧ t.year ≤ 9999 := by
  obtain ⟨⟨hdate, hlast⟩, htime⟩ := sceRtcCheckValid_iff.mp h
  exact ⟨⟨hdate, htime⟩, hlast⟩

/-- The year is stored modulo `2^16`. -/
theorem OrbisRtcDateTime.Proper.setTick (h : t.Proper) (hlast : t.year < 600000) (t₀ : OrbisRtcDateTime) :
    sceRtcSetTick A (some t₀) (some t.microseconds) =
      some ⟨.ok, some { t with year := t.year % 2^16 }, some t.microseconds⟩ := by
  obtain ⟨⟨d, hyear, hmonth, hday⟩, hhour, hminute, hsecond, hmicrosecond⟩ := h
  have hnumber : daysBefore t.year t.month t.day = d.number := by
    rw [← hyear, ← hmonth, ← hday]
    rfl
  have hmonth' := d.month_le
  have hday' := d.day_le_march.2.1
  have hmicroseconds : t.microseconds = d.number * 86400000000 +
      (((t.hour * 60 + t.minute) * 60 + t.second) * 1000000 + t.microsecond) := by
    unfold OrbisRtcDateTime.microseconds
    rw [hnumber]
    ring
  have hdays : t.microseconds / 86400000000 = d.number := by omega
  have hmsec : t.microseconds % 86400000000 =
      ((t.hour * 60 + t.minute) * 60 + t.second) * 1000000 + t.microsecond := by omega
  unfold sceRtcSetTick
  dsimp only
  rw [hdays, hmsec, tickDate_spec d (hyear ▸ hlast)]
  show some (Called.mk .ok (some (OrbisRtcDateTime.mk _ _ _ _ _ _ _)) _) = _
  congr 3
  ext
  all_goals dsimp only
  · omega
  · omega
  · omega
  · omega
  · omega
  · omega
  · omega

theorem sceRtcSetTick_spec (h : sceRtcCheckValid (some t) = .ok) (t₀ : OrbisRtcDateTime) :
    sceRtcSetTick A (some t₀) (some t.microseconds) = some ⟨.ok, some t, some t.microseconds⟩ := by
  obtain ⟨hproper, hlast⟩ := OrbisRtcDateTime.proper_of_valid h
  rw [hproper.setTick (by omega), Nat.mod_eq_of_lt (by omega)]

/-! ## Both ways -/

def OrbisRtcDateTime.newYear (year : ℕ) : OrbisRtcDateTime := ⟨year, 1, 1, 0, 0, 0, 0⟩

theorem newYear_microseconds (year : ℕ) :
    (OrbisRtcDateTime.newYear year).microseconds = daysBeforeYear year * 86400000000 := by
  show (((daysBeforeYear year + 0 + 0) * 24 + 0) * 60 + 0) * 60 * 1000000 + 0 = _
  ring

theorem exists_proper (tick : ℕ) : ∃ t : OrbisRtcDateTime, t.Proper ∧ t.microseconds = tick ∧
    t.minute = tick / 60000000 % 60 ∧ ∀ year, tick < (OrbisRtcDateTime.newYear year).microseconds → t.year < year := by
  obtain ⟨d, hd⟩ := Date.exists_number (tick / 86400000000)
  refine ⟨⟨d.year, d.month, d.day, tick % 86400000000 / 3600000000, tick / 60000000 % 60,
    tick / 1000000 % 60, tick % 1000000⟩, ⟨⟨d, rfl, rfl, rfl⟩, ?_, ?_, ?_, ?_⟩, ?_, rfl, fun year htick => ?_⟩
  · show tick % 86400000000 / 3600000000 < 24
    omega
  · exact Nat.mod_lt _ (by decide)
  · exact Nat.mod_lt _ (by decide)
  · exact Nat.mod_lt _ (by decide)
  · show (((d.number * 24 + tick % 86400000000 / 3600000000) * 60 + tick / 60000000 % 60) * 60 +
      tick / 1000000 % 60) * 1000000 + tick % 1000000 = tick
    omega
  · rw [newYear_microseconds] at htick
    exact d.year_lt (by omega)

theorem exists_microseconds (htick : tick < (OrbisRtcDateTime.newYear 10000).microseconds) :
    ∃ t, sceRtcCheckValid (some t) = .ok ∧ t.microseconds = tick ∧ t.minute = tick / 60000000 % 60 := by
  obtain ⟨t, ⟨hdate, htime⟩, hmicroseconds, hminute, hyear⟩ := exists_proper tick
  exact ⟨t, sceRtcCheckValid_iff.mpr ⟨⟨hdate, Nat.le_of_lt_succ (hyear 10000 htick)⟩, htime⟩, hmicroseconds, hminute⟩

/-- The tick of a date and time is the number of microseconds since the year 1, and leads back. -/
def Inverts (A : Arithmetic) (t : OrbisRtcDateTime) : Prop :=
  ∀ tick₀ t₀, (∃ t', sceRtcGetTick A (some t) (some tick₀) = some ⟨.ok, some t', some t.microseconds⟩) ∧
    sceRtcSetTick A (some t₀) (some t.microseconds) = some ⟨.ok, some t, some t.microseconds⟩

/-- The date and time of a tick is valid, and leads back. -/
def Reverts (A : Arithmetic) (tick : ℕ) : Prop :=
  ∀ tick₀ t₀, ∃ t, sceRtcSetTick A (some t₀) (some tick) = some ⟨.ok, some t, some tick⟩ ∧
    sceRtcCheckValid (some t) = .ok ∧
    ∃ t', sceRtcGetTick A (some t) (some tick₀) = some ⟨.ok, some t', some tick⟩

/-- The conversions are inverse to each other exactly in the first 36 minutes of an hour. -/
theorem sceRtcGetTick_sceRtcSetTick (A : Arithmetic) (t : OrbisRtcDateTime) (tick : ℕ)
    (ht : sceRtcCheckValid (some t) = .ok) (htick : tick < (OrbisRtcDateTime.newYear 10000).microseconds) :
    (Inverts A t ↔ t.minute < 36) ∧ (Reverts A tick ↔ tick / 60000000 % 60 < 36) := by
  constructor
  · constructor
    · intro h
      exact (sceRtcGetTick_iff ht 0).mp (h 0 t).1
    · intro hminute tick₀ t₀
      exact ⟨(sceRtcGetTick_iff ht tick₀).mpr hminute, sceRtcSetTick_spec ht t₀⟩
  · obtain ⟨t, ht, rfl, hminute⟩ := exists_microseconds htick
    rw [← hminute]
    constructor
    · intro h
      obtain ⟨t', hset, -, hget⟩ := h 0 t
      -- The date and time of the tick are known.
      rw [sceRtcSetTick_spec ht t] at hset
      obtain rfl := some.inj (Called.mk.inj (some.inj hset)).2.1
      exact (sceRtcGetTick_iff ht 0).mp hget
    · intro hshort tick₀ t₀
      exact ⟨t, sceRtcSetTick_spec ht t₀, ht, (sceRtcGetTick_iff ht tick₀).mpr hshort⟩

theorem sceRtcGetTick_sceRtcSetTick_leapDay : (Inverts .checked ⟨2000, 2, 29, 23, 35, 59, 999999⟩ ↔ 35 < 36) ∧
      (Reverts .checked 2159999999 ↔ 2159999999 / 60000000 % 60 < 36) :=
  sceRtcGetTick_sceRtcSetTick .checked ⟨2000, 2, 29, 23, 35, 59, 999999⟩ 2159999999 (by decide) (by
    have hyear : daysBeforeYear 2 = 365 := by decide
    have hmono : daysBeforeYear 2 ≤ daysBeforeYear 10000 := daysBeforeYear_mono (by decide)
    rw [newYear_microseconds]
    omega)

/-- At 00:36 on the first of January of the year 1 the number of microseconds of the minutes is no `int`. -/
theorem sceRtcGetTick_minute36 : sceRtcCheckValid (some ⟨1, 1, 1, 0, 36, 0, 0⟩) = .ok ∧
    sceRtcGetTick .checked (some ⟨1, 1, 1, 0, 36, 0, 0⟩) (some 0) = none ∧
    sceRtcGetTick .wrapping (some ⟨1, 1, 1, 0, 36, 0, 0⟩) (some 0) =
      some ⟨.ok, some ⟨0, 10, 1, 0, 36, 0, 0⟩, some 18446744071574584320⟩ ∧
    OrbisRtcDateTime.microseconds ⟨1, 1, 1, 0, 36, 0, 0⟩ = 2160000000 :=
  ⟨by decide, by decide, by decide, by decide⟩

end ShadPS4.Rtc
