import Mathlib.Tactic.Ring

/-!
# `KernelClock`

The clock of the guest counts ticks of the host from an epoch, and is read in microseconds. The product of the
ticks and `10^6` need not be a word, so the seconds and the rest of the ticks are converted apart.
-/

namespace ShadPS4.Uwp

inductive KernelClockService where
  | microseconds
  | counter
  | frequency
deriving DecidableEq

structure KernelClock where
  frequency : UInt64 := 0
  epoch : UInt64 := 0

def uint64Max : UInt64 := 0xffffffffffffffff

namespace KernelClock

variable (clock : KernelClock) (now : UInt64)

def valid : Bool := decide (clock.frequency > 0) && decide (clock.frequency ≤ uint64Max / 1000000)

/-- `ticks` of `Read`. -/
def ticks : UInt64 := now - clock.epoch

/-- `seconds` of `Read`. -/
def seconds : UInt64 := clock.ticks now / clock.frequency

/-- `fractional` of `Read`. -/
def fractional : UInt64 := clock.ticks now % clock.frequency * 1000000 / clock.frequency

/-- `Read`: the value, if it returns `true`. -/
def read (service : KernelClockService) : Option UInt64 :=
  if ¬ clock.valid then none
  else if service = .frequency then some clock.frequency
  else if now < clock.epoch then none
  else if service = .counter then some (clock.ticks now)
  else if service ≠ .microseconds then none
  else if clock.seconds now > (uint64Max - clock.fractional now) / 1000000 then none
  else some (clock.seconds now * 1000000 + clock.fractional now)

/-- The time since the epoch in whole microseconds. -/
def microseconds : ℕ := (now.toNat - clock.epoch.toNat) * 10^6 / clock.frequency.toNat

/-! ## The conversion -/

theorem mul_div_split (ticks scale frequency : ℕ) (h : 0 < frequency) : ticks * scale / frequency =
      ticks / frequency * scale + ticks % frequency * scale / frequency := by
  calc ticks * scale / frequency
      = (frequency * (ticks / frequency) + ticks % frequency) * scale / frequency := by
        rw [Nat.div_add_mod]
    _ = (frequency * (ticks / frequency * scale) + ticks % frequency * scale) / frequency := by
        rw [Nat.add_mul, Nat.mul_assoc]
    _ = ticks / frequency * scale + ticks % frequency * scale / frequency := by
        rw [Nat.mul_add_div h]

variable {clock now}

theorem frequency_bounds (h : clock.valid = true) :
    0 < clock.frequency.toNat ∧ clock.frequency.toNat * 10^6 < 2^64 := by
  unfold valid at h
  rw [Bool.and_eq_true, decide_eq_true_eq, decide_eq_true_eq] at h
  obtain ⟨hpos, hle⟩ := h
  have hpos : 0 < clock.frequency.toNat := UInt64.lt_iff_toNat_lt.mp hpos
  have hle : clock.frequency.toNat ≤ (2^64 - 1) / 1000000 := UInt64.le_iff_toNat_le.mp hle
  omega

theorem toNat_ticks (h : clock.epoch ≤ now) : (clock.ticks now).toNat = now.toNat - clock.epoch.toNat :=
  UInt64.toNat_sub_of_le _ _ h

section

variable (h : clock.valid = true)

include h

theorem toNat_product : (clock.ticks now % clock.frequency * 1000000).toNat =
      (clock.ticks now).toNat % clock.frequency.toNat * 10^6 := by
  obtain ⟨hpos, hlt⟩ := frequency_bounds h
  have hmod := Nat.mod_lt (clock.ticks now).toNat hpos
  rw [UInt64.toNat_mul, UInt64.toNat_mod]
  exact Nat.mod_eq_of_lt (Nat.lt_of_le_of_lt (Nat.mul_le_mul_right _ (Nat.le_of_lt hmod)) hlt)

theorem toNat_fractional : (clock.fractional now).toNat =
        (clock.ticks now).toNat % clock.frequency.toNat * 10^6 / clock.frequency.toNat ∧
      (clock.fractional now).toNat < 10^6 := by
  obtain ⟨hpos, -⟩ := frequency_bounds h
  have heq : (clock.fractional now).toNat =
      (clock.ticks now).toNat % clock.frequency.toNat * 10^6 / clock.frequency.toNat := by
    unfold fractional
    rw [UInt64.toNat_div, toNat_product h]
  refine ⟨heq, ?_⟩
  rw [heq, Nat.div_lt_iff_lt_mul hpos, Nat.mul_comm]
  exact Nat.mul_lt_mul_of_pos_left (Nat.mod_lt _ hpos) (by decide)

theorem microseconds_eq (hnow : clock.epoch ≤ now) : clock.microseconds now =
      (clock.seconds now).toNat * 10^6 + (clock.fractional now).toNat := by
  obtain ⟨hpos, -⟩ := frequency_bounds h
  unfold microseconds seconds
  rw [mul_div_split _ _ _ hpos, (toNat_fractional h).1, UInt64.toNat_div, toNat_ticks hnow]

theorem guard_iff (hnow : clock.epoch ≤ now) :
    clock.seconds now > (uint64Max - clock.fractional now) / 1000000 ↔ 2^64 ≤ clock.microseconds now := by
  obtain ⟨-, hfractional⟩ : _ ∧ (clock.fractional now).toNat < 10^6 := toNat_fractional h
  have hle : clock.fractional now ≤ uint64Max := UInt64.le_iff_toNat_le.mpr (by
    show _ ≤ 2^64 - 1
    omega)
  have hmax : ((uint64Max - clock.fractional now) / 1000000).toNat =
      (2^64 - 1 - (clock.fractional now).toNat) / 10^6 := by
    rw [UInt64.toNat_div, UInt64.toNat_sub_of_le _ _ hle]
    rfl
  rw [microseconds_eq h hnow, gt_iff_lt, UInt64.lt_iff_toNat_lt, hmax]
  omega

/-! ## Reading the clock -/

theorem read_microseconds_eq (hnow : clock.epoch ≤ now) : clock.read now .microseconds =
      if 2^64 ≤ clock.microseconds now then none
      else some (clock.seconds now * 1000000 + clock.fractional now) := by
  unfold read
  rw [if_neg (not_not.mpr h), if_neg (by decide), if_neg (UInt64.not_lt.mpr hnow),
    if_neg (by decide), if_neg (not_not.mpr rfl)]
  simp only [guard_iff h hnow]

theorem toNat_of_read (hnow : clock.epoch ≤ now) (hread : clock.read now .microseconds = some value) :
    value.toNat = clock.microseconds now ∧ clock.microseconds now < 2^64 ∧
      (clock.seconds now * 1000000).toNat = (clock.seconds now).toNat * 10^6 := by
  rw [read_microseconds_eq h hnow] at hread
  obtain ⟨hfits, hvalue⟩ := Option.ite_none_left_eq_some.mp hread
  have heq := microseconds_eq h hnow
  have hseconds : (clock.seconds now * 1000000).toNat = (clock.seconds now).toNat * 10^6 := by
    rw [UInt64.toNat_mul]
    exact Nat.mod_eq_of_lt (by
      show (clock.seconds now).toNat * 10^6 < 2^64
      omega)
  refine ⟨?_, by omega, hseconds⟩
  rw [← Option.some.inj hvalue, UInt64.toNat_add, hseconds, heq]
  exact Nat.mod_eq_of_lt (by omega)

end

theorem microseconds_mono (h : now ≤ later) : clock.microseconds now ≤ clock.microseconds later := by
  have hle := UInt64.le_iff_toNat_le.mp h
  exact Nat.div_le_div_right (Nat.mul_le_mul_right _ (by omega))

variable (clock now) in
structure ReadsMicroseconds : Prop where
  value : ∀ value, clock.read now .microseconds = some value ↔ value.toNat = clock.microseconds now
  succeeds : (clock.read now .microseconds).isSome ↔ clock.microseconds now < 2^64
  ticks : (clock.ticks now).toNat + clock.epoch.toNat = now.toNat
  product : (clock.ticks now % clock.frequency * 1000000).toNat =
    (clock.ticks now).toNat % clock.frequency.toNat * 10^6
  guard : (uint64Max - clock.fractional now).toNat + (clock.fractional now).toNat = 2^64 - 1
  sum : ∀ value, clock.read now .microseconds = some value →
    (clock.seconds now * 1000000).toNat = (clock.seconds now).toNat * 10^6 ∧
      value.toNat = (clock.seconds now).toNat * 10^6 + (clock.fractional now).toNat
  mono : ∀ later value value', now ≤ later → clock.read now .microseconds = some value →
    clock.read later .microseconds = some value' → value ≤ value'

/-- Reading a clock that is valid converts the ticks since the epoch exactly, and nothing wraps. -/
theorem read_microseconds_spec (h : clock.valid = true) (hnow : clock.epoch ≤ now) : clock.ReadsMicroseconds now := by
  have hvalue : ∀ value : UInt64, value.toNat = clock.microseconds now →
      clock.read now .microseconds = some value := by
    intro value hvalue
    have hlt : clock.microseconds now < 2^64 := hvalue ▸ value.toNat_lt
    have hread : clock.read now .microseconds = some (clock.seconds now * 1000000 + clock.fractional now) := by
      rw [read_microseconds_eq h hnow, if_neg (by omega)]
    rw [hread]
    have := (toNat_of_read h hnow hread).1
    exact congrArg some (UInt64.toNat_inj.mp (by omega))
  constructor
  case value => exact fun value => ⟨fun hread => (toNat_of_read h hnow hread).1, hvalue value⟩
  case succeeds =>
    rw [Option.isSome_iff_exists]
    constructor
    · rintro ⟨value, hread⟩
      exact (toNat_of_read h hnow hread).2.1
    · intro hlt
      exact ⟨UInt64.ofNat (clock.microseconds now), hvalue _ (UInt64.toNat_ofNat_of_lt' hlt)⟩
  case ticks =>
    rw [toNat_ticks hnow]
    have := UInt64.le_iff_toNat_le.mp hnow
    omega
  case product => exact toNat_product h
  case guard =>
    obtain ⟨-, hfractional⟩ : _ ∧ (clock.fractional now).toNat < 10^6 := toNat_fractional h
    have hmax : uint64Max.toNat = 2^64 - 1 := rfl
    rw [UInt64.toNat_sub_of_le _ _ (UInt64.le_iff_toNat_le.mpr (by omega))]
    omega
  case sum =>
    intro value hread
    obtain ⟨hval, -, hseconds⟩ := toNat_of_read h hnow hread
    exact ⟨hseconds, hval.trans (microseconds_eq h hnow)⟩
  case mono =>
    intro later value value' hle hread hread'
    rw [UInt64.le_iff_toNat_le, (toNat_of_read h hnow hread).1, (toNat_of_read h (UInt64.le_trans hnow hle) hread').1]
    exact microseconds_mono hle

theorem read_microseconds_spec_sample :
    KernelClock.ReadsMicroseconds { frequency := 10000000, epoch := 5 } 123456789 :=
  read_microseconds_spec (by decide) (by decide)

end KernelClock

end ShadPS4.Uwp
