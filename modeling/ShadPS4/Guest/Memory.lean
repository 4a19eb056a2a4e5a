import Mathlib.Data.List.Pairwise
import ShadPS4.Lib.Machine

/-!
# Authorised memory services of the guest harness

The harness gives the guest three memory services, copy, set and compare, over a fixed set of host ranges.
-/

namespace ShadPS4.Guest

variable {ranges : List GuestMemoryRange} {a count first pointer q second : ℕ} {write : Bool}
  {mem : ℕ → UInt8} {service : GuestMemoryService}

/-- `GuestMemoryService`. -/
inductive GuestMemoryService where
  | Copy
  | Set
  | Compare
  | other (value : ℤ)
deriving DecidableEq

/-- `GuestMemoryRange`: a span of host bytes and its permission. -/
structure GuestMemoryRange where
  /-- the address of the span's first byte -/
  data : ℕ
  size : ℕ
  writable : Bool
deriving DecidableEq

structure GuestMemoryResult where
  valid : Bool
  value : ℕ

def maxTransfer : ℕ := 1024 * 1024

/-- The loop of `GuestMemory::Valid`: each range is not null, not empty, does not wrap around the
address space, and meets none of the ranges before it. -/
def validLoop (seen : List GuestMemoryRange) : List GuestMemoryRange → Bool
  | [] => true
  | range :: rest =>
    if range.data = 0 ∨ range.size = 0 ∨ range.size > uint64Max - range.data then false
    else if seen.any fun other =>
        decide (range.data < add64 other.data other.size ∧ other.data < add64 range.data range.size)
      then false
    else validLoop (seen ++ [range]) rest

section

variable (ranges : List GuestMemoryRange)

def valid : Bool :=
  if ranges = [] ∨ ranges.length > 64 then false else validLoop [] ranges

/-- The first loop of `GuestMemory::Find`: the range that holds the pointer decides, and no range after it is
looked at. -/
def findInside (pointer count : ℕ) (write : Bool) : List GuestMemoryRange → Option (Option ℕ)
  | [] => none
  | range :: rest =>
    if pointer ≥ range.data ∧ pointer - range.data < range.size then
      if (write ∧ ¬ range.writable) ∨ count > range.size - (pointer - range.data) then some none
      else some (some (range.data + (pointer - range.data)))
    else findInside pointer count write rest

/-- The second loop of `GuestMemory::Find`: a pointer one past the end of a range. -/
def findEnd (pointer : ℕ) (write : Bool) : List GuestMemoryRange → Option ℕ
  | [] => none
  | range :: rest =>
    if (¬ write ∨ range.writable) ∧ pointer = add64 range.data range.size then
      some (range.data + range.size)
    else findEnd pointer write rest

/-- `GuestMemory::Find`: the host pointer for a block, or none. -/
def find (pointer count : ℕ) (write : Bool) : Option ℕ :=
  match findInside pointer count write ranges with
  | some result => result
  | none => if count = 0 then findEnd pointer write ranges else none

/-- What a service leaves behind. -/
structure Outcome where
  result : GuestMemoryResult
  /-- the host memory after the call -/
  mem : ℕ → UInt8
  reads : List ℕ
  writes : List ℕ

/-- A call that is refused: `return {}`. -/
def refused (mem : ℕ → UInt8) : Outcome := ⟨⟨false, 0⟩, mem, [], []⟩

/-- One byte of host memory is written. -/
def store (mem : ℕ → UInt8) (a : ℕ) (byte : UInt8) : ℕ → UInt8 :=
  fun x => if x = a then byte else mem x

/-- `std::memset`, byte by byte from the first one. -/
def memset (destination : ℕ) (byte : UInt8) : ℕ → (ℕ → UInt8) → ℕ → UInt8
  | 0, mem => mem
  | n + 1, mem => memset (destination + 1) byte n (store mem destination byte)

/-- `std::memcpy`, byte by byte from the first one. -/
def memcpy (destination source : ℕ) : ℕ → (ℕ → UInt8) → ℕ → UInt8
  | 0, mem => mem
  | n + 1, mem => memcpy (destination + 1) (source + 1) n (store mem destination (mem source))

/-- `std::memcmp`: the difference of the first two bytes that differ. Only its sign is specified. -/
def memcmp (mem : ℕ → UInt8) (first second : ℕ) : ℕ → ℤ
  | 0 => 0
  | n + 1 =>
    if mem first = mem second then memcmp mem (first + 1) (second + 1) n
    else (mem first).toNat - (mem second).toNat

def block (start count : ℕ) : List ℕ := (List.range count).map (start + ·)

def signValue (compared : ℤ) : ℕ := if compared < 0 then uint64Max else if compared > 0 then 1 else 0

def invoke (service : GuestMemoryService)
    (first second count : ℕ) (mem : ℕ → UInt8) : Outcome :=
  if ¬ valid ranges ∨ count > maxTransfer ∨
      (service ≠ .Copy ∧ service ≠ .Set ∧ service ≠ .Compare) then refused mem
  else
    let destination := find ranges first count (service ≠ .Compare)
    let source := if service = .Set then none else find ranges second count false
    match destination with
    | none => refused mem
    | some destination =>
      if service ≠ .Set ∧ source = none then refused mem
      -- An overlapping copy is refused, since `memcpy` does not define it.
      else if service = .Copy ∧ count ≠ 0 ∧ first < add64 second count ∧
          second < add64 first count then refused mem
      else if count = 0 then ⟨⟨true, if service = .Compare then 0 else first⟩, mem, [], []⟩
      else match service, source with
        | .Set, _ =>
          ⟨⟨true, first⟩, memset destination (UInt8.ofNat second) count mem, [],
            block destination count⟩
        | .Copy, some source =>
          ⟨⟨true, first⟩, memcpy destination source count mem, block source count,
            block destination count⟩
        | _, some source =>
          ⟨⟨true, signValue (memcmp mem destination source count)⟩, mem,
            block destination count ++ block source count, []⟩
        | _, none => refused mem

end

/-! ## The ranges -/

/-- The block of `count` bytes at `pointer` lies in the range. -/
def GuestMemoryRange.Contains (range : GuestMemoryRange) (pointer count : ℕ) : Prop :=
  range.data ≤ pointer ∧ pointer + count ≤ range.data + range.size

/-- No byte lies in both ranges. -/
def GuestMemoryRange.Apart (range other : GuestMemoryRange) : Prop :=
  range.data + range.size ≤ other.data ∨ other.data + other.size ≤ range.data

instance : Std.Symm GuestMemoryRange.Apart := ⟨fun _ _ h => h.symm⟩

/-- A range is not null, not empty, and ends inside the address space. -/
def GuestMemoryRange.Sound (range : GuestMemoryRange) : Prop :=
  0 < range.data ∧ 0 < range.size ∧ range.data + range.size < 2^64

/-- What `GuestMemory::Valid` establishes of the ranges. -/
structure Authorised (ranges : List GuestMemoryRange) : Prop where
  sound : ∀ range ∈ ranges, range.Sound
  apart : ranges.Pairwise GuestMemoryRange.Apart

theorem validLoop_spec {seen : List GuestMemoryRange} (hs : ∀ r ∈ seen, r.Sound)
    (h : validLoop seen ranges = true) : Authorised ranges ∧ ∀ r ∈ ranges, ∀ o ∈ seen, r.Apart o := by
  induction ranges generalizing seen with
  | nil => exact ⟨⟨by simp, List.Pairwise.nil⟩, by simp⟩
  | cons range rest ih =>
    unfold validLoop at h
    -- The two tests of the loop body, on the range itself and against those before it.
    by_cases h1 : range.data = 0 ∨ range.size = 0 ∨ range.size > uint64Max - range.data
    · rw [if_pos h1] at h
      exact absurd h (by simp)
    have hrange : range.Sound := by
      unfold GuestMemoryRange.Sound
      unfold uint64Max at h1
      omega
    split_ifs at h with h2
    have hapart : ∀ o ∈ seen, range.Apart o := by
      intro o ho
      have hne : ¬ (range.data < add64 o.data o.size ∧ o.data < add64 range.data range.size) := by
        intro hov
        exact h2 (List.any_eq_true.mpr ⟨o, ho, by simpa using hov⟩)
      rw [add64_of_lt (hs o ho).2.2, add64_of_lt hrange.2.2] at hne
      unfold GuestMemoryRange.Apart
      omega
    have hs' : ∀ r ∈ seen ++ [range], r.Sound := by
      intro r hr
      rcases List.mem_append.mp hr with hr | hr
      · exact hs r hr
      · rw [List.mem_singleton.mp hr]
        exact hrange
    obtain ⟨hrest, hcross⟩ := ih hs' h
    refine ⟨⟨?_, ?_⟩, ?_⟩
    · exact List.forall_mem_cons.mpr ⟨hrange, hrest.sound⟩
    · refine List.pairwise_cons.mpr ⟨fun o ho => ?_, hrest.apart⟩
      exact (hcross o ho range (by simp)).symm
    · refine List.forall_mem_cons.mpr ⟨hapart, fun r hr o ho => ?_⟩
      exact hcross r hr o (List.mem_append_left _ ho)

theorem valid_spec (h : valid ranges = true) : Authorised ranges := by
  unfold valid at h
  split_ifs at h
  exact (validLoop_spec (by simp) h).1

theorem Authorised.contains_unique (ha : Authorised ranges) (hc : 0 < count) {r r' : GuestMemoryRange} (hr : r ∈ ranges)
    (hr' : r' ∈ ranges) (h : r.Contains pointer count) (h' : r'.Contains pointer count) : r = r' := by
  by_contra hne
  have hapart : r.Apart r' := ha.apart.forall hr hr' hne
  unfold GuestMemoryRange.Apart GuestMemoryRange.Contains at *
  omega

theorem findInside_spec (h : findInside pointer count write ranges = some (some q)) :
    q = pointer ∧ ∃ r ∈ ranges, r.Contains pointer count ∧ (write = true → r.writable = true) := by
  induction ranges with
  | nil => simp [findInside] at h
  | cons range rest ih =>
    unfold findInside at h
    by_cases hin : pointer ≥ range.data ∧ pointer - range.data < range.size
    · rw [if_pos hin] at h
      split_ifs at h with hbad
      · exact absurd h (by simp)
      · have hq : range.data + (pointer - range.data) = q := by simpa using h
        rw [not_or, not_and, not_not] at hbad
        refine ⟨by omega, range, by simp, ⟨hin.1, ?_⟩, hbad.1⟩
        omega
    · rw [if_neg hin] at h
      obtain ⟨hq, r, hr, hspec⟩ := ih h
      exact ⟨hq, r, List.mem_cons_of_mem _ hr, hspec⟩

theorem findEnd_spec (ha : ∀ r ∈ ranges, r.Sound) (h : findEnd pointer write ranges = some q) :
    q = pointer ∧ ∃ r ∈ ranges, r.Contains pointer 0 ∧ (write = true → r.writable = true) := by
  induction ranges with
  | nil => simp [findEnd] at h
  | cons range rest ih =>
    have hsound := ha range (by simp)
    unfold findEnd at h
    split_ifs at h with hend
    · obtain ⟨hperm, hp⟩ := hend
      rw [add64_of_lt hsound.2.2] at hp
      have hq : range.data + range.size = q := by simpa using h
      refine ⟨by omega, range, by simp, ?_, fun hw => ?_⟩
      · unfold GuestMemoryRange.Contains
        omega
      · simpa [hw] using hperm
    · obtain ⟨hq, r, hr, hspec⟩ := ih (fun r hr => ha r (List.mem_cons_of_mem _ hr)) h
      exact ⟨hq, r, List.mem_cons_of_mem _ hr, hspec⟩

theorem find_spec (ha : Authorised ranges) (h : find ranges pointer count write = some q) :
    q = pointer ∧ ∃ r ∈ ranges, r.Contains pointer count ∧ (write = true → r.writable = true) := by
  unfold find at h
  split at h
  · rename_i result hin
    subst h
    exact findInside_spec hin
  · split_ifs at h with hc
    subst hc
    exact findEnd_spec ha.sound h

/-! ## The services -/

theorem memset_spec (destination : ℕ) (byte : UInt8) (n : ℕ) (mem : ℕ → UInt8) (a : ℕ) :
    memset destination byte n mem a = if destination ≤ a ∧ a < destination + n then byte else mem a := by
  induction n generalizing destination mem with
  | zero => rw [if_neg (by omega), memset]
  | succ n ih =>
    rw [memset, ih]
    unfold store
    grind

theorem memcpy_spec (destination source n : ℕ) (mem : ℕ → UInt8)
    (h : destination + n ≤ source ∨ source + n ≤ destination) (a : ℕ) : memcpy destination source n mem a =
      if destination ≤ a ∧ a < destination + n then mem (source + (a - destination))
      else mem a := by
  induction n generalizing destination source mem with
  | zero => rw [if_neg (by omega), memcpy]
  | succ n ih =>
    rw [memcpy, ih (destination + 1) (source + 1) _ (by omega)]
    unfold store
    by_cases ha : destination ≤ a ∧ a < destination + (n + 1)
    · rw [if_pos ha]
      by_cases hd : a = destination
      · subst hd
        rw [if_neg (by omega), if_pos rfl, Nat.sub_self, Nat.add_zero]
      · -- The rest of the source was not touched by the first byte written.
        rw [if_pos (by omega), if_neg (by omega)]
        congr 1
        omega
    · rw [if_neg ha, if_neg (by omega), if_neg (by omega)]

/-- The place where two blocks first differ. -/
def FirstDiff (mem : ℕ → UInt8) (first second n k : ℕ) : Prop :=
  k < n ∧ mem (first + k) ≠ mem (second + k) ∧ ∀ j < k, mem (first + j) = mem (second + j)

theorem memcmp_spec (mem : ℕ → UInt8) (first second n : ℕ) :
    ((∀ k < n, mem (first + k) = mem (second + k)) ∧ memcmp mem first second n = 0) ∨
    ∃ k, FirstDiff mem first second n k ∧
      memcmp mem first second n = (mem (first + k)).toNat - (mem (second + k)).toNat := by
  induction n generalizing first second with
  | zero => exact .inl ⟨fun k hk => absurd hk (by omega), rfl⟩
  | succ n ih =>
    unfold memcmp
    by_cases h0 : mem first = mem second
    · rw [if_pos h0]
      rcases ih (first + 1) (second + 1) with ⟨hall, hz⟩ | ⟨k, ⟨hk, hne, hbelow⟩, hv⟩
      · refine .inl ⟨fun k hk => ?_, hz⟩
        rcases k with _ | k
        · exact h0
        · have := hall k (by omega)
          rwa [show first + 1 + k = first + (k + 1) by omega,
            show second + 1 + k = second + (k + 1) by omega] at this
      · rw [show first + 1 + k = first + (k + 1) by omega,
          show second + 1 + k = second + (k + 1) by omega] at hne hv
        refine .inr ⟨k + 1, ⟨by omega, hne, fun j hj => ?_⟩, hv⟩
        rcases j with _ | j
        · exact h0
        · have := hbelow j (by omega)
          rwa [show first + 1 + j = first + (j + 1) by omega,
            show second + 1 + j = second + (j + 1) by omega] at this
    · rw [if_neg h0]
      exact .inr ⟨0, ⟨by omega, h0, fun j hj => absurd hj (by omega)⟩, rfl⟩

theorem mem_block {start : ℕ} : a ∈ block start count ↔ start ≤ a ∧ a < start + count := by
  unfold block
  rw [List.mem_map]
  constructor
  · rintro ⟨k, hk, rfl⟩
    have := List.mem_range.mp hk
    omega
  · intro h
    exact ⟨a - start, List.mem_range.mpr (by omega), by omega⟩

/-! ## The sandbox boundary -/

/-- Some range holds the block, and is writable where `write` asks for it. -/
def Grants (ranges : List GuestMemoryRange) (pointer count : ℕ) (write : Prop) : Prop :=
  ∃ r ∈ ranges, r.Contains pointer count ∧ (write → r.writable = true)

/-- Exactly one range holds the block. -/
def Single (ranges : List GuestMemoryRange) (pointer count : ℕ) : Prop :=
  ∃! r, r ∈ ranges ∧ r.Contains pointer count

theorem Authorised.single (ha : Authorised ranges) (hc : 0 < count) {write : Prop} (h : Grants ranges pointer count write) :
    Single ranges pointer count := by
  obtain ⟨r, hr, hin, -⟩ := h
  exact ⟨r, ⟨hr, hin⟩, fun r' ⟨hr', hin'⟩ => ha.contains_unique hc hr' hr hin' hin⟩

/-- What an accepted call leaves behind. -/
def accepted (service : GuestMemoryService) (first second count : ℕ) (mem : ℕ → UInt8) : Outcome :=
  if count = 0 then ⟨⟨true, if service = .Compare then 0 else first⟩, mem, [], []⟩
  else match service with
    | .Set => ⟨⟨true, first⟩, memset first (UInt8.ofNat second) count mem, [], block first count⟩
    | .Copy => ⟨⟨true, first⟩, memcpy first second count mem, block second count, block first count⟩
    | _ => ⟨⟨true, signValue (memcmp mem first second count)⟩, mem,
        block first count ++ block second count, []⟩

/-- What a call must satisfy to be accepted. -/
structure Accepts (ranges : List GuestMemoryRange) (service : GuestMemoryService)
    (first second count : ℕ) : Prop where
  known : service = .Copy ∨ service = .Set ∨ service = .Compare
  destination : Grants ranges first count (service ≠ .Compare)
  source : service ≠ .Set → Grants ranges second count False
  apart : service = .Copy → count ≠ 0 → first + count ≤ second ∨ second + count ≤ first

theorem Authorised.end_lt (ha : Authorised ranges) {write : Prop} (h : Grants ranges pointer count write) :
    pointer + count < 2^64 := by
  obtain ⟨r, hr, hin, -⟩ := h
  have := (ha.sound r hr).2.2
  unfold GuestMemoryRange.Contains at hin
  omega

theorem invoke_cases (hv : valid ranges = true) (service : GuestMemoryService) (first second count : ℕ) :
    (∀ mem, invoke ranges service first second count mem = refused mem) ∨
      (Accepts ranges service first second count ∧ ∀ mem,
        invoke ranges service first second count mem = accepted service first second count mem) := by
  have ha := valid_spec hv
  unfold invoke
  by_cases hpre : ¬ valid ranges ∨ count > maxTransfer ∨ (service ≠ .Copy ∧ service ≠ .Set ∧ service ≠ .Compare)
  · exact .inl fun mem => if_pos hpre
  simp only [if_neg hpre]
  have hknown : service = .Copy ∨ service = .Set ∨ service = .Compare := by tauto
  cases hd : find ranges first count (service ≠ .Compare) with
  | none => exact .inl fun mem => rfl
  | some destination =>
    obtain ⟨rfl, hfirst⟩ := find_spec ha hd
    have hgrant : Grants ranges destination count (service ≠ .Compare) := by
      simpa [Grants] using hfirst
    rcases hknown with rfl | rfl | rfl
    · -- A copy: the source is looked up as well, and the two blocks must not meet.
      cases hs : find ranges second count false with
      | none => exact .inl fun mem => by simp
      | some source =>
        obtain ⟨rfl, hsecond⟩ := find_spec ha hs
        have hgrant2 : Grants ranges source count False := by simpa [Grants] using hsecond
        have e1 := add64_of_lt (ha.end_lt hgrant)
        have e2 := add64_of_lt (ha.end_lt hgrant2)
        by_cases hov : count ≠ 0 ∧ destination < source + count ∧ source < destination + count
        · exact .inl fun mem => by simp [e1, e2, hov]
        · refine .inr ⟨⟨.inl rfl, hgrant, fun _ => hgrant2, fun _ hc => by omega⟩, fun mem => ?_⟩
          simp only [e1, e2, accepted]
          by_cases hc : count = 0
          · simp [hc]
          · simp [hc]
            omega
    · refine .inr ⟨⟨.inr (.inl rfl), hgrant, by simp, by simp⟩, fun mem => ?_⟩
      by_cases hc : count = 0 <;> simp [hc, accepted]
    · cases hs : find ranges second count false with
      | none => exact .inl fun mem => by simp
      | some source =>
        obtain ⟨rfl, hsecond⟩ := find_spec ha hs
        have hgrant2 : Grants ranges source count False := by simpa [Grants] using hsecond
        refine .inr ⟨⟨.inr (.inr rfl), hgrant, fun _ => hgrant2, by simp⟩, fun mem => ?_⟩
        by_cases hc : count = 0 <;> simp [hc, accepted]

theorem signValue_diff {b : ℕ} (h : mem a ≠ mem b) :
    signValue ((mem a).toNat - (mem b).toNat) = if mem a < mem b then uint64Max else 1 := by
  have hne : (mem a).toNat ≠ (mem b).toNat := fun he => h (UInt8.toNat_inj.mp he)
  have hlt : mem a < mem b ↔ (mem a).toNat < (mem b).toNat := UInt8.lt_iff_toNat_lt
  unfold signValue
  by_cases h' : mem a < mem b
  · rw [if_pos h', if_pos (by have := hlt.mp h'; omega)]
  · rw [if_neg h', if_neg (by have := mt hlt.mpr h'; omega),
      if_pos (by have := mt hlt.mpr h'; omega)]

/-- The contract of a memory service: what the call `invoke ranges service first second count` may
write and read, and what it computes. -/
structure Confined (ranges : List GuestMemoryRange) (service : GuestMemoryService)
    (first second count : ℕ) (mem : ℕ → UInt8) (out : Outcome) : Prop where
  writes : ∀ a ∈ out.writes, first ≤ a ∧ a < first + count ∧ Single ranges first count ∧
    ∀ r ∈ ranges, r.Contains first count → r.writable = true
  frame : ∀ a, a ∉ out.writes → out.mem a = mem a
  refused : out.result.valid = false → out.mem = mem
  readonly : ∀ r ∈ ranges, r.Contains first count → r.writable = false → out.mem = mem
  /-- Only bytes of the second block are read, which lies in exactly one range, or bytes of the first
  block by a comparison. -/
  reads : ∀ a ∈ out.reads,
    (service ≠ .Set ∧ second ≤ a ∧ a < second + count ∧ Single ranges second count) ∨
      (service = .Compare ∧ first ≤ a ∧ a < first + count ∧ Single ranges first count)
  /-- No byte but those read is observed: the result and the bytes written are the same in every
  memory that agrees on them. -/
  observes : ∀ mem', (∀ a ∈ out.reads, mem' a = mem a) →
    (invoke ranges service first second count mem').result = out.result ∧
      ∀ a ∈ out.writes, (invoke ranges service first second count mem').mem a = out.mem a
  single : out.result.valid = true → 0 < count →
    Single ranges first count ∧ (service ≠ .Set → Single ranges second count)
  /-- A call of length zero needs addresses inside or one past the end of ranges with the permission.
  -/
  zero : out.result.valid = true → count = 0 →
    (∃ r ∈ ranges, r.data ≤ first ∧ first ≤ r.data + r.size ∧
      (service ≠ .Compare → r.writable = true)) ∧
    (service ≠ .Set → ∃ r ∈ ranges, r.data ≤ second ∧ second ≤ r.data + r.size)
  copy : out.result.valid = true → service = .Copy → out.result.value = first ∧
    ∀ a, out.mem a = if first ≤ a ∧ a < first + count then mem (second + (a - first)) else mem a
  set : out.result.valid = true → service = .Set → out.result.value = first ∧
    ∀ a, out.mem a = if first ≤ a ∧ a < first + count then UInt8.ofNat second else mem a
  compare : out.result.valid = true → service = .Compare → out.mem = mem ∧
    (((∀ k < count, mem (first + k) = mem (second + k)) ∧ out.result.value = 0) ∨
      ∃ k, FirstDiff mem first second count k ∧ out.result.value =
        if mem (first + k) < mem (second + k) then uint64Max else 1)

theorem confined_refused (h : ∀ mem, invoke ranges service first second count mem = refused mem) :
    Confined ranges service first second count mem (refused mem) where
  writes := by simp [ShadPS4.Guest.refused]
  frame _ _ := rfl
  refused _ := rfl
  readonly _ _ _ _ := rfl
  reads := by simp [ShadPS4.Guest.refused]
  observes mem' _ := by rw [h]; exact ⟨rfl, by simp [ShadPS4.Guest.refused]⟩
  single := by simp [ShadPS4.Guest.refused]
  zero := by simp [ShadPS4.Guest.refused]
  copy := by simp [ShadPS4.Guest.refused]
  set := by simp [ShadPS4.Guest.refused]
  compare := by simp [ShadPS4.Guest.refused]

/-- The byte that a service leaves at an address of its first block. -/
def newByte (service : GuestMemoryService) (first second : ℕ) (mem : ℕ → UInt8) (a : ℕ) : UInt8 :=
  match service with
  | .Copy => mem (second + (a - first))
  | .Set => UInt8.ofNat second
  | _ => mem a

theorem accepted_mem (h : Accepts ranges service first second count) (mem : ℕ → UInt8)
    (a : ℕ) : (accepted service first second count mem).mem a =
      if first ≤ a ∧ a < first + count then newByte service first second mem a else mem a := by
  unfold accepted
  by_cases hc : count = 0
  · rw [if_pos hc]
    exact (if_neg (by omega)).symm
  rw [if_neg hc]
  rcases h.known with rfl | rfl | rfl
  · exact memcpy_spec first second count mem (h.apart rfl hc) a
  · exact memset_spec first _ count mem a
  · split_ifs <;> rfl

theorem mem_accepted_writes (h : service = .Copy ∨ service = .Set ∨ service = .Compare) :
    a ∈ (accepted service first second count mem).writes ↔ service ≠ .Compare ∧ first ≤ a ∧ a < first + count := by
  unfold accepted
  by_cases hc : count = 0
  · rw [if_pos hc]
    simp only [List.not_mem_nil, false_iff]
    omega
  rw [if_neg hc]
  rcases h with rfl | rfl | rfl <;> simp [mem_block]

theorem mem_accepted_reads (h : service = .Copy ∨ service = .Set ∨ service = .Compare) :
    a ∈ (accepted service first second count mem).reads ↔ (service ≠ .Set ∧ second ≤ a ∧ a < second + count) ∨
        (service = .Compare ∧ first ≤ a ∧ a < first + count) := by
  unfold accepted
  by_cases hc : count = 0
  · rw [if_pos hc]
    simp only [List.not_mem_nil, false_iff]
    omega
  rw [if_neg hc]
  rcases h with rfl | rfl | rfl <;> simp [mem_block, or_comm]

theorem accepted_valid (service : GuestMemoryService) (first second count : ℕ) (mem : ℕ → UInt8) :
    (accepted service first second count mem).result.valid = true := by
  unfold accepted
  by_cases hc : count = 0
  · rw [if_pos hc]
  · rw [if_neg hc]
    cases service <;> rfl

theorem accepted_compare (first second count : ℕ) (mem : ℕ → UInt8) :
    (accepted .Compare first second count mem).result.value = signValue (memcmp mem first second count) := by
  unfold accepted
  by_cases hc : count = 0
  · rw [if_pos hc, hc]
    rfl
  · rw [if_neg hc]

theorem memcmp_congr {mem' : ℕ → UInt8} {n : ℕ} (h1 : ∀ a, first ≤ a → a < first + n → mem' a = mem a)
    (h2 : ∀ a, second ≤ a → a < second + n → mem' a = mem a) :
    memcmp mem' first second n = memcmp mem first second n := by
  induction n generalizing first second with
  | zero => rfl
  | succ n ih =>
    unfold memcmp
    rw [h1 first (by omega) (by omega), h2 second (by omega) (by omega),
      ih (fun a h h' => h1 a (by omega) (by omega)) (fun a h h' => h2 a (by omega) (by omega))]

theorem accepted_result_congr {mem' : ℕ → UInt8} (hk : service = .Copy ∨ service = .Set ∨ service = .Compare)
    (h : ∀ a ∈ (accepted service first second count mem).reads, mem' a = mem a) :
    (accepted service first second count mem').result = (accepted service first second count mem).result := by
  rcases hk with rfl | rfl | rfl
  · unfold accepted
    split_ifs <;> rfl
  · unfold accepted
    split_ifs <;> rfl
  · have hcmp : memcmp mem' first second count = memcmp mem first second count := by
      refine memcmp_congr (fun a ha ha' => ?_) (fun a ha ha' => ?_)
      · exact h a ((mem_accepted_reads (by simp)).mpr (.inr ⟨rfl, ha, ha'⟩))
      · exact h a ((mem_accepted_reads (by simp)).mpr (.inl ⟨by simp, ha, ha'⟩))
    unfold accepted
    rw [hcmp]
    split_ifs <;> rfl

theorem confined_accepted (ha : Authorised ranges) (h : Accepts ranges service first second count) (hinv : ∀ mem,
      invoke ranges service first second count mem = accepted service first second count mem) (mem : ℕ → UInt8) :
    Confined ranges service first second count mem (accepted service first second count mem) where
  writes a hw := by
    obtain ⟨hs, hlo, hhi⟩ := (mem_accepted_writes h.known).mp hw
    refine ⟨hlo, hhi, ha.single (by omega) h.destination, fun r hr hin => ?_⟩
    obtain ⟨r', hr', hin', hwr⟩ := h.destination
    rw [ha.contains_unique (by omega) hr hr' hin hin']
    exact hwr hs
  frame a hw := by
    rw [mem_accepted_writes h.known] at hw
    rw [accepted_mem h]
    -- Outside the first block nothing is written, and a comparison writes nothing at all.
    rcases h.known with rfl | rfl | rfl
    · rw [if_neg (by simpa using hw)]
    · rw [if_neg (by simpa using hw)]
    · split_ifs <;> rfl
  refused hv := by
    rw [accepted_valid] at hv
    exact absurd hv (by simp)
  readonly r hr hin hro := by
    funext a
    rw [accepted_mem h]
    by_cases hblock : first ≤ a ∧ a < first + count
    · rw [if_pos hblock]
      obtain ⟨r', hr', hin', hwr⟩ := h.destination
      have hrr : r' = r := ha.contains_unique (by omega) hr' hr hin' hin
      have hcompare : service = .Compare := by
        by_contra hne
        rw [hrr, hro] at hwr
        exact absurd (hwr hne) (by simp)
      rw [hcompare]
      rfl
    · rw [if_neg hblock]
  reads a hread := by
    rcases (mem_accepted_reads h.known).mp hread with ⟨hs, hlo, hhi⟩ | ⟨hs, hlo, hhi⟩
    · exact .inl ⟨hs, hlo, hhi, ha.single (by omega) (h.source hs)⟩
    · exact .inr ⟨hs, hlo, hhi, ha.single (by omega) h.destination⟩
  observes mem' hagree := by
    rw [hinv]
    refine ⟨accepted_result_congr h.known hagree, fun a hw => ?_⟩
    obtain ⟨hs, hlo, hhi⟩ := (mem_accepted_writes h.known).mp hw
    rw [accepted_mem h, accepted_mem h, if_pos ⟨hlo, hhi⟩, if_pos ⟨hlo, hhi⟩]
    rcases h.known with rfl | rfl | rfl
    · exact hagree _ ((mem_accepted_reads (by simp)).mpr (.inl ⟨by simp, by omega, by omega⟩))
    · rfl
    · exact absurd rfl hs
  single _ hc := ⟨ha.single hc h.destination, fun hs => ha.single hc (h.source hs)⟩
  zero _ hc := by
    subst hc
    refine ⟨?_, fun hs => ?_⟩
    · obtain ⟨r, hr, ⟨hlo, hhi⟩, hw⟩ := h.destination
      exact ⟨r, hr, hlo, hhi, hw⟩
    · obtain ⟨r, hr, ⟨hlo, hhi⟩, -⟩ := h.source hs
      exact ⟨r, hr, hlo, hhi⟩
  copy _ hs := by
    subst hs
    refine ⟨?_, fun a => accepted_mem h mem a⟩
    unfold accepted
    by_cases hc : count = 0
    · rw [if_pos hc]
      rfl
    · rw [if_neg hc]
  set _ hs := by
    subst hs
    refine ⟨?_, fun a => accepted_mem h mem a⟩
    unfold accepted
    by_cases hc : count = 0
    · rw [if_pos hc]
      rfl
    · rw [if_neg hc]
  compare _ hs := by
    subst hs
    refine ⟨funext fun a => ?_, ?_⟩
    · rw [accepted_mem h]
      split_ifs <;> rfl
    · rw [accepted_compare]
      rcases memcmp_spec mem first second count with ⟨hall, hz⟩ | ⟨k, hk, hv⟩
      · exact .inl ⟨hall, by rw [hz]; rfl⟩
      · exact .inr ⟨k, hk, by rw [hv, signValue_diff hk.2.1]⟩

/-- For every set of ranges that `Valid` accepts, every service and every pair of blocks, a call of
`Invoke` stays within its contract. -/
theorem invoke_confined (ranges : List GuestMemoryRange) (hv : valid ranges = true)
    (service : GuestMemoryService) (first second count : ℕ) (mem : ℕ → UInt8) :
    Confined ranges service first second count mem (invoke ranges service first second count mem) := by
  rcases invoke_cases hv service first second count with h | ⟨h, hinv⟩
  · rw [h mem]
    exact confined_refused h
  · rw [hinv mem]
    exact confined_accepted (valid_spec hv) h hinv mem

theorem invoke_confined_adjacent : valid [⟨4096, 64, true⟩, ⟨4160, 64, false⟩] = true ∧
      Confined [⟨4096, 64, true⟩, ⟨4160, 64, false⟩] .Copy 4096 4160 16 (fun a => UInt8.ofNat a)
        (invoke [⟨4096, 64, true⟩, ⟨4160, 64, false⟩] .Copy 4096 4160 16 (fun a => UInt8.ofNat a)) :=
  ⟨by decide, invoke_confined _ (by decide) _ _ _ _ _⟩

/-! ## Sessions -/

/-- The calls of a guest, one after the other: what they return, and the memory after them. -/
def session (ranges : List GuestMemoryRange) :
    List (GuestMemoryService × ℕ × ℕ × ℕ) → (ℕ → UInt8) → List GuestMemoryResult × (ℕ → UInt8)
  | [], mem => ([], mem)
  | (service, first, second, count) :: requests, mem =>
    let out := invoke ranges service first second count mem
    let (results, mem) := session ranges requests out.mem
    (out.result :: results, mem)

/-- Some range holds the byte, and is writable where `write` asks for it. -/
def Reaches (ranges : List GuestMemoryRange) (write : Prop) (a : ℕ) : Prop :=
  ∃ r ∈ ranges, r.data ≤ a ∧ a < r.data + r.size ∧ (write → r.writable = true)

theorem Grants.reaches {write : Prop} (h : Grants ranges pointer count write) (hle : pointer ≤ a)
    (hlt : a < pointer + count) : Reaches ranges write a := by
  obtain ⟨r, hr, hin, hwrite⟩ := h
  unfold GuestMemoryRange.Contains at hin
  exact ⟨r, hr, by omega, by omega, hwrite⟩

/-- A guest sees nothing outside the ranges in any session, and changes nothing that is not writable: what the calls
return, and what they leave in the ranges, does not depend on a byte outside of them. -/
theorem session_isolated (hv : valid ranges = true) (requests : List (GuestMemoryService × ℕ × ℕ × ℕ))
    (mem mem' : ℕ → UInt8) (hsame : ∀ a, Reaches ranges False a → mem' a = mem a) :
    (session ranges requests mem').1 = (session ranges requests mem).1 ∧
    (∀ a, Reaches ranges False a → (session ranges requests mem').2 a = (session ranges requests mem).2 a) ∧
    ∀ a, ¬ Reaches ranges True a → (session ranges requests mem).2 a = mem a := by
  induction requests generalizing mem mem' with
  | nil => exact ⟨rfl, hsame, fun _ _ => rfl⟩
  | cons request requests ih =>
    obtain ⟨service, first, second, count⟩ := request
    unfold session
    dsimp only
    rcases invoke_cases hv service first second count with h | ⟨h, hinv⟩
    · rw [h, h]
      obtain ⟨hresults, hrest⟩ := ih mem mem' hsame
      exact ⟨congrArg _ hresults, hrest⟩
    · rw [hinv, hinv]
      have hread (a : ℕ) (ha : a ∈ (accepted service first second count mem).reads) : mem' a = mem a := by
        rcases (mem_accepted_reads h.known).mp ha with ⟨hs, hle, hlt⟩ | ⟨hs, hle, hlt⟩
        · exact hsame a ((h.source hs).reaches hle hlt)
        · obtain ⟨r, hr, hle, hlt, -⟩ := h.destination.reaches hle hlt
          exact hsame a ⟨r, hr, hle, hlt, nofun⟩
      obtain ⟨hresults, hleft, hkept⟩ := ih (accepted service first second count mem).mem
        (accepted service first second count mem').mem fun a ha => by
          rw [accepted_mem h, accepted_mem h]
          split_ifs with hin
          · rcases h.known with rfl | rfl | rfl
            · exact hsame _ ((h.source (by decide)).reaches (by omega) (by omega))
            · rfl
            · exact hsame a ha
          · exact hsame a ha
      refine ⟨congrArg₂ _ (accepted_result_congr h.known hread) hresults, hleft, fun a ha => ?_⟩
      rw [hkept a ha, accepted_mem h]
      split_ifs with hin
      · by_cases hs : service = .Compare
        · rw [hs]
          rfl
        · obtain ⟨r, hr, hle, hlt, hw⟩ := h.destination.reaches hin.1 hin.2
          exact absurd ⟨r, hr, hle, hlt, fun _ => hw hs⟩ ha
      · rfl

theorem session_isolated_adjacent :
    (session [⟨4096, 64, true⟩, ⟨4160, 64, false⟩] [(.Copy, 4096, 4160, 16)] fun a => UInt8.ofNat (4095 - a)).1 =
      (session [⟨4096, 64, true⟩, ⟨4160, 64, false⟩] [(.Copy, 4096, 4160, 16)] fun _ => 0).1 := by
  refine (session_isolated (by decide) _ _ _ ?_).1
  rintro a ⟨r, hr, hle, -⟩
  have hge : ∀ r ∈ ([⟨4096, 64, true⟩, ⟨4160, 64, false⟩] : List GuestMemoryRange), 4096 ≤ r.data := by decide
  rw [Nat.sub_eq_zero_of_le (by have := hge r hr; omega)]
  rfl

end ShadPS4.Guest
