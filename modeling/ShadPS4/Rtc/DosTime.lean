import ShadPS4.Rtc.TickSpec

/-!
# What the getters of the real-time clock do to a date and time

`sceRtcGetTime_t` and `sceRtcGetWin32FileTime` use `sceRtcGetTick`, which counts the month and the year of the
object from March on.
-/

namespace ShadPS4.Rtc

open Option (some.inj bind_eq_some_iff)

/-- The functions that read a date and time. -/
inductive Getter
  | tick | time_t | win32FileTime | dosTime
deriving DecidableEq

variable {A : Arithmetic} {t : OrbisRtcDateTime} {getter : Getter} {out : ℕ} {called : Called}

def UNIX_EPOCH_TICKS : ℕ := 0xdcbffeff2bc000

def WIN32_FILETIME_EPOCH_TICKS : ℕ := 0xb36168b6a58000

/-- What `sceRtcGetDosTime` writes. -/
def orDosTime (time : OrbisRtcDateTime) (dosTime : ℕ) : ℕ :=
  let dosTime := dosTime ||| ((time.second / 2) &&& 0x1F)
  let dosTime := dosTime ||| (time.minute &&& 0x3F) <<< 5
  let dosTime := dosTime ||| (time.hour &&& 0x1F) <<< 11
  let dosTime := dosTime ||| (time.day &&& 0x1F) <<< 16
  let dosTime := dosTime ||| (time.month &&& 0x0F) <<< 21
  -- The year may be before 1980.
  dosTime ||| (((time.year : ℤ) - 1980) % 0x80).toNat <<< 25

def sceRtcGetDosTime (pTime : Option OrbisRtcDateTime) (dosTime : Option ℕ) : Called :=
  match pTime, dosTime with
  | some time, some dos =>
    let isValid := sceRtcCheckValid pTime
    if isValid ≠ .ok then ⟨isValid, pTime, dosTime⟩ else ⟨.ok, pTime, some (orDosTime time dos)⟩
  | _, _ => ⟨.invalidPointer, pTime, dosTime⟩

/-- `sceRtcGetTime_t` and `sceRtcGetWin32FileTime`: the time since an epoch, in the unit of one of them. -/
def getSince (epoch : ℕ) (unit : ℕ → ℕ) (A : Arithmetic) (pTime : Option OrbisRtcDateTime) (out : Option ℕ) :
    Option Called :=
  match pTime, out with
  | some _, some _ =>
    let isValid := sceRtcCheckValid pTime
    if isValid ≠ .ok then some ⟨isValid, pTime, out⟩
    else (sceRtcGetTick A pTime (some 0)).map fun called =>
      { called with pTick := called.pTick.map fun tick => if tick < epoch then 0 else unit (tick - epoch) }
  | _, _ => some ⟨.invalidPointer, pTime, out⟩

def sceRtcGetTime_t := getSince UNIX_EPOCH_TICKS (· / 1000000)

def sceRtcGetWin32FileTime := getSince WIN32_FILETIME_EPOCH_TICKS (· * 10 % 2^64)

/-- `sceRtcSetDosTime`, where the date is in a signed word of 16 bits. -/
def sceRtcSetDosTime (dosTime : ℕ) : OrbisRtcDateTime :=
  let days : ℤ := ((dosTime >>> 16 : ℕ) : ℤ).bmod (2^16)
  { microsecond := 0
    second := (dosTime <<< 1) &&& 0x3e
    minute := (dosTime >>> 5) &&& 0x3f
    hour := (dosTime &&& 0xf800) >>> 0xb
    day := (days % 0x20).toNat
    month := ((days >>> (5 : ℕ)) % 0x10).toNat
    year := ((days >>> (9 : ℕ) + 1980) % 2^16).toNat }

/-- A call on an object, with an output that has a value. -/
def Getter.call (A : Arithmetic) (time : OrbisRtcDateTime) (out : ℕ) : Getter → Option Called
  | tick => sceRtcGetTick A (some time) (some out)
  | time_t => sceRtcGetTime_t A (some time) (some out)
  | win32FileTime => sceRtcGetWin32FileTime A (some time) (some out)
  | dosTime => some (sceRtcGetDosTime (some time) (some out))

/-- Calls one after the other, with the object after them and what they return and write. -/
def calls (A : Arithmetic) (time : OrbisRtcDateTime) :
    List (Getter × ℕ) → Option (OrbisRtcDateTime × List (Code × Option ℕ))
  | [] => some (time, [])
  | (getter, out) :: rest => do
    let called ← getter.call A time out
    let (time, results) ← calls A (← called.pTime) rest
    some (time, (called.code, called.pTick) :: results)

/-- The calls leave the object as it is, and return what they return as the first, into an output that is zero. -/
def Pure (A : Arithmetic) (t : OrbisRtcDateTime) (getters : List (Getter × ℕ)) : Prop :=
  ∃ results, calls A t getters = some (t, results) ∧
    List.Forall₂ (fun getter result => ∃ called, getter.1.call A t 0 = some called ∧
      (called.code, called.pTick) = result) getters results

/-- What is written for the years that there are leads back to the date and time, in steps of two seconds. -/
def DosInverts (t : OrbisRtcDateTime) : Prop :=
  1980 ≤ t.year → t.year ≤ 2107 →
    sceRtcSetDosTime (orDosTime t 0) = { t with second := t.second / 2 * 2, microsecond := 0 }

/-! ## Bits -/

theorem orDosTime_eq (out : ℕ) : orDosTime t out = out ||| orDosTime t 0 := by
  unfold orDosTime
  rw [Nat.zero_or]
  simp only [Nat.or_assoc]

theorem or_shiftLeft (i : ℕ) (h : low < 2^i) : low ||| high <<< i = low + high * 2^i := by
  rw [Nat.or_comm, ← Nat.shiftLeft_add_eq_or_of_lt h, Nat.shiftLeft_eq, Nat.add_comm]

/-- The fields of a date and time side by side. -/
theorem orDosTime_fields (h : sceRtcCheckValid (some t) = .ok) : orDosTime t 0 =
    t.second / 2 + t.minute * 2^5 + t.hour * 2^11 + t.day * 2^16 + t.month * 2^21 +
      (((t.year : ℤ) - 1980) % 0x80).toNat * 2^25 := by
  obtain ⟨⟨hdate, -⟩, hhour, hminute, hsecond, -⟩ := sceRtcCheckValid_iff.mp h
  obtain ⟨d, -, hmonth, hday⟩ := hdate
  have hmonth' := d.month_le
  have hday' := d.day_le_march.2.1
  have hmask (x i : ℕ) (hx : x < 2^i) : x &&& 2^i - 1 = x := by
    rw [Nat.and_two_pow_sub_one_eq_mod, Nat.mod_eq_of_lt hx]
  have hsecond' : t.second / 2 &&& 31 = t.second / 2 := hmask _ 5 (by omega)
  have hminute' : t.minute &&& 63 = t.minute := hmask _ 6 (by omega)
  have hhour' : t.hour &&& 31 = t.hour := hmask _ 5 (by omega)
  have hday'' : t.day &&& 31 = t.day := hmask _ 5 (by omega)
  have hmonth'' : t.month &&& 15 = t.month := hmask _ 4 (by omega)
  unfold orDosTime
  dsimp only
  rw [Nat.zero_or, hsecond', hminute', hhour', hday'', hmonth'', or_shiftLeft 5 (by omega),
    or_shiftLeft 11 (by omega), or_shiftLeft 16 (by omega), or_shiftLeft 21 (by omega), or_shiftLeft 25 (by omega)]

/-- The date and time that is side by side in a word. -/
theorem sceRtcSetDosTime_fields (hsecond : second < 2^5)
    (hminute : minute < 2^6) (hhour : hour < 2^5) (hday : day < 2^5) (hmonth : month < 2^4) (hyear : year < 2^7) :
    sceRtcSetDosTime (second + minute * 2^5 + hour * 2^11 + day * 2^16 + month * 2^21 + year * 2^25) =
      ⟨if year < 64 then year + 1980 else year + 1852, month, day, hour, minute, second * 2, 0⟩ := by
  generalize hdos : second + minute * 2^5 + hour * 2^11 + day * 2^16 + month * 2^21 + year * 2^25 = dos
  have hsecond' : (dos <<< 1) &&& 62 = dos % 32 * 2 := by
    have hmask : (62 : ℕ) = (2^5 - 1) <<< 1 := rfl
    rw [hmask, ← Nat.shiftLeft_and_distrib, Nat.and_two_pow_sub_one_eq_mod, Nat.shiftLeft_eq]
  have hminute' : (dos >>> 5) &&& 63 = dos / 2^5 % 64 := by
    rw [Nat.shiftRight_eq_div_pow]
    exact Nat.and_two_pow_sub_one_eq_mod _ 6
  have hhour' : (dos &&& 63488) >>> 11 = dos / 2^11 % 32 := by
    rw [Nat.shiftRight_and_distrib, Nat.shiftRight_eq_div_pow]
    exact Nat.and_two_pow_sub_one_eq_mod _ 5
  unfold sceRtcSetDosTime
  dsimp only
  rw [hsecond', hminute', hhour', Nat.shiftRight_eq_div_pow, Int.shiftRight_eq_div_pow, Int.shiftRight_eq_div_pow,
    Int.bmod_def]
  clear hsecond' hminute' hhour'
  ext
  all_goals dsimp only
  · split_ifs <;> omega
  · split_ifs <;> omega
  · split_ifs <;> omega
  all_goals omega

theorem dosInverts_iff (h : sceRtcCheckValid (some t) = .ok) : DosInverts t ↔ (2044 ≤ t.year → 2107 < t.year) := by
  obtain ⟨⟨⟨d, -, hmonth, hday⟩, -⟩, hhour, hminute, hsecond, -⟩ := sceRtcCheckValid_iff.mp h
  have hmonth' := d.month_le
  have hday' := d.day_le_march.2.1
  unfold DosInverts
  rw [orDosTime_fields h, sceRtcSetDosTime_fields (by omega) (by omega) (by omega) (by omega) (by omega) (by omega),
    OrbisRtcDateTime.ext_iff]
  dsimp only
  constructor
  · intro hinverts hlate
    by_contra hlast
    have hyear := (hinverts (by omega) (by omega)).1
    split_ifs at hyear <;> omega
  · intro hyear hearly hlast
    split_ifs <;> omega

/-! ## Calls -/

/-- The months of a date. Where the month and the year are counted from March on, there are three less. -/
def OrbisRtcDateTime.months (t : OrbisRtcDateTime) : ℤ := 12 * t.year + t.month

theorem fromMarch_months (h : sceRtcCheckValid (some t) = .ok) : (fromMarch t).months < t.months := by
  obtain ⟨⟨⟨d, hyear, hmonth, -⟩, -⟩, -⟩ := sceRtcCheckValid_iff.mp h
  have hyear' := d.year_pos
  unfold fromMarch OrbisRtcDateTime.months
  split_ifs
  · dsimp only
    omega
  · dsimp only
    omega

theorem sceRtcGetTick_time (h : sceRtcGetTick A (some t) (some out) = some called) :
    called.pTime = some (if sceRtcCheckValid (some t) = .ok then fromMarch t else t) := by
  unfold sceRtcGetTick at h
  dsimp only at h
  split_ifs at h with hvalid
  · rw [if_neg hvalid]
    exact some.inj h ▸ rfl
  · obtain ⟨days, -, h⟩ := bind_eq_some_iff.mp h
    obtain ⟨msec, -, h⟩ := bind_eq_some_iff.mp h
    rw [if_pos (not_not.mp hvalid)]
    exact some.inj h ▸ rfl

theorem getSince_time (h : getSince epoch unit A (some t) (some out) = some called) :
    called.pTime = some (if sceRtcCheckValid (some t) = .ok then fromMarch t else t) := by
  unfold getSince at h
  dsimp only at h
  split_ifs at h with hvalid
  · rw [if_neg hvalid]
    exact some.inj h ▸ rfl
  · obtain ⟨called', hget, heq⟩ := Option.map_eq_some_iff.mp h
    have htime := sceRtcGetTick_time hget
    rw [← heq]
    exact htime

theorem Getter.call_time (h : getter.call A t out = some called) : called.pTime = some
    (if getter ≠ .dosTime ∧ sceRtcCheckValid (some t) = .ok then fromMarch t else t) := by
  have hne (hgetter : getter ≠ .dosTime) : (getter ≠ .dosTime ∧ sceRtcCheckValid (some t) = .ok) =
      (sceRtcCheckValid (some t) = .ok) := propext (and_iff_right hgetter)
  cases getter with
  | tick =>
    simp only [hne (by decide)]
    exact sceRtcGetTick_time h
  | time_t =>
    have hget : getSince UNIX_EPOCH_TICKS (· / 1000000) A (some t) (some out) = some called := h
    simp only [hne (by decide)]
    exact getSince_time hget
  | win32FileTime =>
    have hget : getSince WIN32_FILETIME_EPOCH_TICKS (· * 10 % 2^64) A (some t) (some out) = some called := h
    simp only [hne (by decide)]
    exact getSince_time hget
  | dosTime =>
    rw [if_neg fun hne => hne.1 rfl, ← some.inj h]
    unfold sceRtcGetDosTime
    dsimp only
    split_ifs <;> rfl

/-- No call adds months to the object. -/
theorem calls_months : ∀ {t t' : OrbisRtcDateTime} {results},
    calls A t getters = some (t', results) → t'.months ≤ t.months := by
  induction getters with
  | nil =>
    intro t t' results h
    obtain rfl := (Prod.mk.inj (some.inj h)).1
    exact Int.le_refl _
  | cons head rest ih =>
    intro t t' results h
    obtain ⟨called, hcall, h⟩ := bind_eq_some_iff.mp h
    obtain ⟨t1, htime, h⟩ := bind_eq_some_iff.mp h
    obtain ⟨⟨t2, results'⟩, hrest, h⟩ := bind_eq_some_iff.mp h
    obtain rfl := (Prod.mk.inj (some.inj h)).1
    refine (ih hrest).trans ?_
    obtain rfl := some.inj ((Getter.call_time hcall).symm.trans htime)
    split_ifs with hvalid
    · exact (fromMarch_months hvalid.2).le
    · exact Int.le_refl _

theorem pure_cons (h : sceRtcCheckValid (some t) = .ok) :
    Pure A t ((getter, out) :: rest) ↔ (getter = .dosTime ∧ orDosTime t out = orDosTime t 0) ∧ Pure A t rest := by
  have hdos (out : ℕ) : Getter.call A t out .dosTime = some ⟨.ok, some t, some (orDosTime t out)⟩ :=
    congrArg some (if_neg (not_not.mpr h))
  constructor
  · rintro ⟨results, hcalls, hall⟩
    obtain ⟨called, hcall, hcalls⟩ := bind_eq_some_iff.mp hcalls
    obtain ⟨t1, htime, hcalls⟩ := bind_eq_some_iff.mp hcalls
    obtain ⟨⟨t2, results'⟩, hrest, hcalls⟩ := bind_eq_some_iff.mp hcalls
    obtain ⟨rfl, rfl⟩ := Prod.mk.inj (some.inj hcalls)
    obtain ⟨hfirst, hall'⟩ := List.forall₂_cons.mp hall
    have hmonths := calls_months hrest
    obtain rfl := some.inj ((Getter.call_time hcall).symm.trans htime)
    by_cases hgetter : getter = .dosTime
    · subst hgetter
      obtain ⟨called', hcall', heq⟩ := hfirst
      rw [hdos] at hcall hcall'
      rw [← some.inj hcall, ← some.inj hcall'] at heq
      exact ⟨⟨rfl, (some.inj (Prod.mk.inj heq).2).symm⟩, _, hrest, hall'⟩
    · -- A date that is earlier is not restored.
      rw [if_pos ⟨hgetter, h⟩] at hmonths
      exact absurd hmonths (Int.not_le.mpr (fromMarch_months h))
  · rintro ⟨⟨rfl, hout⟩, results, hrest, hall⟩
    refine ⟨(.ok, some (orDosTime t out)) :: results, ?_, .cons ⟨_, hdos 0, by rw [hout]⟩ hall⟩
    unfold calls
    rw [hdos, Option.bind_eq_bind, Option.bind_some]
    rw [Option.bind_eq_bind, Option.bind_some, hrest]
    rfl

/-- An object is left as it is exactly by calls of `sceRtcGetDosTime` alone, each with an output without other bits;
and the years from 2044 to 2107 do not come back. -/
theorem getters_iff (h : sceRtcCheckValid (some t) = .ok) (getters : List (Getter × ℕ)) :
    Pure A t getters ∧ DosInverts t ↔
      (∀ getter ∈ getters, getter.1 = .dosTime ∧ getter.2 ||| orDosTime t 0 = orDosTime t 0) ∧
        (2044 ≤ t.year → 2107 < t.year) := by
  refine and_congr ?_ (dosInverts_iff h)
  induction getters with
  | nil => exact iff_of_true ⟨[], rfl, .nil⟩ nofun
  | cons head rest ih => rw [pure_cons h, ih, List.forall_mem_cons, ← orDosTime_eq]

/-- A leap day of which the bits are asked twice. -/
theorem getters_iff_leapDay : Pure .checked ⟨2000, 2, 29, 1, 2, 3, 4⟩ [(.dosTime, 0), (.dosTime, 1)] ∧
    DosInverts ⟨2000, 2, 29, 1, 2, 3, 4⟩ :=
  (getters_iff (by decide) _).mpr ⟨by decide, by decide⟩

/-- The second tick of an object is another one, a DOS time has the bits of the output, and of 2044 there is none. -/
theorem getters_history : (∀ A, ¬ Pure A ⟨2000, 1, 1, 0, 0, 0, 0⟩ [(.tick, 0), (.tick, 0)]) ∧
    (∀ A, ¬ Pure A ⟨2000, 1, 1, 0, 0, 0, 0⟩ [(.dosTime, 2)]) ∧ ¬ DosInverts ⟨2044, 1, 1, 0, 0, 0, 0⟩ := by
  refine ⟨fun A h => ?_, fun A h => ?_, fun h => ?_⟩
  · exact absurd ((pure_cons (by decide)).mp h).1.1 (by decide)
  · exact absurd ((pure_cons (by decide)).mp h).1.2 (by decide)
  · exact absurd ((dosInverts_iff (by decide)).mp h) (by decide)

end ShadPS4.Rtc
