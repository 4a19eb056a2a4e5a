import ShadPS4.Lib.Calendar

/-!
# Ticks of the real-time clock

`sceRtcGetTick` and `sceRtcSetTick` convert a date and time to microseconds, and back. They count years from March
on.
-/

namespace ShadPS4.Rtc

/-- What is made of a result that is out of range. -/
inductive Arithmetic
  | checked
  | wrapping

namespace Arithmetic

/-- The result of an operation on `int`. -/
def int : Arithmetic → ℤ → Option ℤ
  | checked, x => if -2^31 ≤ x ∧ x < 2^31 then some x else none
  | wrapping, x => some (x.bmod (2^32))

/-- The result of an operation on `u32`. -/
def u32 : Arithmetic → ℤ → Option ℕ
  | checked, x => if 0 ≤ x ∧ x < 2^32 then some x.toNat else none
  | wrapping, x => some (x % 2^32).toNat

end Arithmetic

@[ext]
structure OrbisRtcDateTime where
  year : ℕ
  month : ℕ
  day : ℕ
  hour : ℕ
  minute : ℕ
  second : ℕ
  microsecond : ℕ
deriving DecidableEq

inductive Code
  | ok | invalidPointer | invalidYear | invalidMonth | invalidDay | invalidHour | invalidMinute
  | invalidSecond | invalidMicrosecond
deriving DecidableEq

/-- What a function returns, and what the pointers refer to then. -/
structure Called where
  code : Code
  pTime : Option OrbisRtcDateTime
  pTick : Option ℕ
deriving DecidableEq

def sceRtcCheckValid : Option OrbisRtcDateTime → Code
  | none => .invalidPointer
  | some time =>
    if time.year = 0 ∨ time.year > 9999 then .invalidYear
    else if time.month = 0 ∨ time.month > 12 then .invalidMonth
    else if time.day = 0 then .invalidDay
    else if time.day > Calendar.daysInMonth time.year time.month then .invalidDay
    else if time.hour ≥ 24 then .invalidHour
    else if time.minute ≥ 60 then .invalidMinute
    else if time.second ≥ 60 then .invalidSecond
    else if time.microsecond ≥ 1000000 then .invalidMicrosecond
    else .ok

variable (A : Arithmetic)

/-- The month and the year are counted from March on. -/
def fromMarch (time : OrbisRtcDateTime) : OrbisRtcDateTime :=
  if time.month > 2 then { time with month := time.month - 3 }
  else { time with month := time.month + 9, year := time.year - 1 }

/-- `days` of `sceRtcGetTick`, before its unit is changed. -/
def tickDays (time : OrbisRtcDateTime) : Option ℕ := do
  let c : ℤ := time.year / 100
  let ya ← A.int (time.year - (← A.int (100 * c)))
  let days ← A.int ((← A.int (146097 * c)) >>> (2 : ℕ) + (← A.int (1461 * ya)) >>> (2 : ℕ))
  let month ← A.int ((← A.int (153 * time.month)) + 2)
  let days ← A.int (days + month.tdiv 5)
  let days ← A.int (days + time.day)
  some (((days % 2^64).toNat + (2^64 - 307)) % 2^64)

/-- `msec` of `sceRtcGetTick`. -/
def tickMsec (time : OrbisRtcDateTime) : Option ℕ := do
  let minute ← A.int (time.minute * 60000000)
  let second ← A.int (time.second * 1000000)
  some ((time.hour * 3600000000 + minute + second + time.microsecond) % 2^64).toNat

def sceRtcGetTick (pTime : Option OrbisRtcDateTime) (pTick : Option ℕ) : Option Called :=
  match pTime, pTick with
  | some time, some _ =>
    let isTimeValid := sceRtcCheckValid pTime
    if isTimeValid ≠ .ok then some ⟨isTimeValid, pTime, pTick⟩
    else do
      let time := fromMarch time
      let days ← tickDays A time
      let msec ← tickMsec A time
      some ⟨.ok, some time, some ((days * 86400000000 % 2^64 + msec) % 2^64)⟩
  | _, _ => some ⟨.invalidPointer, pTime, pTick⟩

/-- `ly` and `ld` of `sceRtcSetTick`, when `ly` is the century. -/
def tickCentury (days : ℕ) : Option (ℕ × ℕ) := do
  let j ← A.u32 (((days + 307) <<< 2 : ℕ) - 1)
  let ly := j / 146097
  let j ← A.u32 (j - (← A.u32 (146097 * ly)))
  some (ly, j >>> 2)

/-- `j` and `ld` of `sceRtcSetTick`, when `j` is the year in the century. -/
def tickYear (ld : ℕ) : Option (ℕ × ℕ) := do
  let j := (← A.u32 ((← A.u32 (ld <<< 2 : ℕ)) + 3)) / 1461
  let ld ← A.u32 ((← A.u32 ((← A.u32 (ld <<< 2 : ℕ)) + 7)) - (← A.u32 (1461 * j)))
  some (j, ld >>> 2)

/-- `lm` and `ld` of `sceRtcSetTick`, when `lm` is the month. -/
def tickMonth (ld : ℕ) : Option (ℕ × ℕ) := do
  let lm := (← A.u32 ((← A.u32 (5 * ld)) - 3)) / 153
  let ld ← A.u32 ((← A.u32 ((← A.u32 (5 * ld)) + 2)) - (← A.u32 (153 * lm)))
  some (lm, ld / 5)

/-- The year, the month and the day of `sceRtcSetTick`. -/
def tickDate (days : ℕ) : Option (ℕ × ℕ × ℕ) := do
  let (ly, ld) ← tickCentury A days
  let (j, ld) ← tickYear A ld
  let (lm, ld) ← tickMonth A ld
  let ly ← A.u32 ((← A.u32 (100 * ly)) + j)
  if lm < 10 then some (ly, ← A.u32 (lm + 3), ld)
  else some (← A.u32 (ly + 1), ← A.u32 (lm - 9), ld)

/-- `sceRtcSetTick`. The fields are stored modulo `2^16`, and the microseconds modulo `2^32`. -/
def sceRtcSetTick (pTime : Option OrbisRtcDateTime) (pTick : Option ℕ) : Option Called :=
  match pTime, pTick with
  | some _, some tick => do
    let (year, month, day) ← tickDate A (tick / 86400000000)
    let msec := tick % 86400000000
    some {
      code := .ok
      pTime := some {
        year := year % 2^16
        month := month % 2^16
        day := day % 2^16
        hour := msec / 3600000000 % 2^16
        minute := msec % 3600000000 / 60000000 % 2^16
        second := msec % 3600000000 % 60000000 / 1000000 % 2^16
        microsecond := msec % 3600000000 % 60000000 % 1000000 % 2^32 }
      pTick }
  | _, _ => some ⟨.invalidPointer, pTime, pTick⟩

end ShadPS4.Rtc
