import Mathlib.Data.List.Pairwise
import ShadPS4.Guest.Payload

/-!
# What the payload stages establish

Each stage is specified by what it has checked when it succeeds, and never faults: `Header` for the prefix,
`Planned` for the load plan, `Located` for the bytes of the segments in the file, and `Staged` for the image.
-/

namespace ShadPS4.Guest

open List
open Option (some.inj)

variable {bytes file : List UInt8} {file_size headers i n offset : ℕ} {segment : GuestLoadSegment}
  {raw_elf : Bool} {blocks : List Block} {payload : GuestPayload}

/-! ## The prefix -/

/-- What `InspectGuestPrefix` has checked of a prefix of a file when it accepts it. -/
structure Header (bytes : List UInt8) (file_size : ℕ) (header : GuestPreflight) : Prop where
  valid : header.header_valid = true
  length_le : bytes.length ≤ file_size
  elf_le : header.elf_offset + 64 ≤ bytes.length
  container : header.self_container = decide (leRead bytes 0 4 = 0x1d3d154f)
  self : header.self_container = true → header.elf_offset = 32 + leRead bytes 24 2 * 32
  table_le : header.elf_offset + leRead bytes (header.elf_offset + 32) 8 +
    header.program_headers * 56 ≤ file_size

theorem inspectSelfHeader_sat (hv : result.header_valid = false) :
    Sat (inspectSelfHeader bytes result) (fun r => r.header_valid = false ∧
      r.self_container = result.self_container ∧ r.elf_offset + 64 ≤ bytes.length ∧
      r.elf_offset = 32 + leRead bytes 24 2 * 32) (Fails (·.header_valid = false)) := by
  refine Sat.bind (Sat.failIf fun _ => hv) fun _ h32 => ?_
  refine Sat.bind (Sat.fetch (by omega)) fun b4 _ => ?_
  refine Sat.bind (Sat.fetch (by omega)) fun b5 _ => ?_
  refine Sat.bind (Sat.fetch (by omega)) fun b6 _ => ?_
  refine Sat.bind (Sat.fetch (by omega)) fun b7 _ => ?_
  refine Sat.bind (Sat.fetch (by omega)) fun b8 _ => ?_
  refine Sat.bind (Sat.fetch (by omega)) fun b9 _ => ?_
  refine Sat.bind (Sat.failIf fun _ => hv) fun _ _ => ?_
  refine Sat.bind (Sat.read (by omega)) fun segments hsegments => ?_
  refine Sat.bind (Sat.failIf fun _ => hv) fun _ helf => ?_
  simp only at helf
  -- The loop over the block table changes only the two flags.
  apply Sat.foldlM_range (I := fun _ (r : GuestPreflight) => r.header_valid = false ∧
    r.self_container = result.self_container ∧ r.elf_offset + 64 ≤ bytes.length ∧
    r.elf_offset = 32 + leRead bytes 24 2 * 32)
  · exact ⟨hv, rfl, by simp only; omega, by simp only [hsegments]⟩
  · intro i hi r hr
    exact Sat.bind (Sat.read (by omega)) fun flags _ => Sat.pure hr

theorem inspectElfHeader_sat
    (hv : result.header_valid = false) (hle : bytes.length ≤ file_size) (hoff : result.elf_offset ≤ bytes.length)
    (hc : result.self_container = decide (leRead bytes 0 4 = 0x1d3d154f))
    (hs : result.self_container = true → result.elf_offset = 32 + leRead bytes 24 2 * 32) :
    Sat (inspectElfHeader bytes file_size result) (Header bytes file_size) (Fails (·.header_valid = false)) := by
  unfold inspectElfHeader
  refine Sat.bind (Sat.failIf fun _ => hv) fun _ h64 => ?_
  refine Sat.bind (Sat.read (by omega)) fun magic _ => ?_
  refine Sat.bind (Sat.failIf fun _ => hv) fun _ _ => ?_
  refine Sat.bind (Sat.fetch (by omega)) fun b4 _ => ?_
  refine Sat.bind (Sat.fetch (by omega)) fun b5 _ => ?_
  refine Sat.bind (Sat.fetch (by omega)) fun b6 _ => ?_
  refine Sat.bind (Sat.read (by omega)) fun machine _ => ?_
  refine Sat.bind (Sat.read (by omega)) fun version _ => ?_
  refine Sat.bind (Sat.failIf fun _ => hv) fun _ _ => ?_
  refine Sat.bind (Sat.read (by omega)) fun header_size _ => ?_
  refine Sat.bind (Sat.failIf fun _ => hv) fun _ _ => ?_
  refine Sat.bind (Sat.read (by omega)) fun type _ => ?_
  refine Sat.bind (Sat.failIf fun _ => hv) fun _ _ => ?_
  refine Sat.bind (Sat.read (by omega)) fun entry _ => ?_
  refine Sat.bind (Sat.read (by omega)) fun program_headers _ => ?_
  refine Sat.bind (Sat.read (by omega)) fun header_bytes _ => ?_
  refine Sat.bind (Sat.failIf fun _ => hv) fun _ _ => ?_
  refine Sat.bind (Sat.read (by omega)) fun phoff hphoff => ?_
  refine Sat.bind (Sat.failIf fun _ => hv) fun _ htable => ?_
  refine Sat.bind (Sat.fetch (by omega)) fun b7 _ => ?_
  refine Sat.bind (Sat.fetch (by omega)) fun b8 _ => ?_
  simp only at htable
  exact Sat.pure {
    valid := rfl
    length_le := hle
    elf_le := by simp only; omega
    container := hc
    self := hs
    table_le := by simp only [← hphoff]; omega }

theorem inspectGuestPrefix_sat (bytes : List UInt8) (file_size : ℕ) :
    Sat (inspectGuestPrefix bytes file_size) (Header bytes file_size) (Fails (·.header_valid = false)) := by
  unfold inspectGuestPrefix
  refine Sat.bind (Sat.failIf fun _ => rfl) fun _ hsize => ?_
  refine Sat.bind (Sat.read (by omega)) fun magic hmagic => ?_
  refine Sat.ite (fun _ => ?_) fun hmag => ?_
  · refine Sat.bind (inspectSelfHeader_sat rfl) fun r ⟨hv, hc, hoff, hs⟩ => ?_
    exact inspectElfHeader_sat hv (by omega) (by omega) (by rw [hc, hmagic]) fun _ => hs
  · refine Sat.bind (Sat.pure rfl) fun r hr => ?_
    subst hr
    exact inspectElfHeader_sat rfl (by omega) (Nat.zero_le _) (by rw [hmagic]) fun h => absurd h hmag

/-! ## The load plan -/

/-- Two segments share no address. -/
def GuestLoadSegment.Apart (segment other : GuestLoadSegment) : Prop :=
  segment.address + segment.memory_size ≤ other.address ∨
    other.address + other.memory_size ≤ segment.address

instance : Std.Symm GuestLoadSegment.Apart := ⟨fun _ _ h => h.symm⟩

/-- What the loop over the program headers has checked of a segment. -/
structure GuestLoadSegment.Sound (segment : GuestLoadSegment) (file_size headers : ℕ)
    (raw_elf : Bool) : Prop where
  memory_pos : 0 < segment.memory_size
  file_le : segment.file_size ≤ segment.memory_size
  end_lt : segment.address + segment.memory_size < 2^64
  index_lt : segment.program_index < headers
  in_file : raw_elf = true → segment.file_offset + segment.file_size ≤ file_size

/-- The invariant of the loop over the program headers. -/
structure Loading (file_size headers : ℕ) (raw_elf : Bool) (state : LoadState) : Prop where
  valid : state.plan.valid = false
  raw : state.plan.raw_elf = raw_elf
  sound : ∀ segment ∈ state.plan.segments, segment.Sound file_size headers raw_elf
  apart : state.plan.segments.Pairwise GuestLoadSegment.Apart
  bounds : ∀ segment ∈ state.plan.segments,
    state.low ≤ segment.address ∧ segment.address + segment.memory_size ≤ state.high

theorem checkSegment_sat (hv : plan.valid = false) :
    Sat (checkSegment plan segment alignment) (fun _ => segment.file_size ≤ segment.memory_size)
      (Fails (·.valid = false)) := by
  refine Sat.bind (Sat.failIf fun _ => hv) fun _ _ => ?_
  refine Sat.bind (Sat.failIf fun _ => hv) fun _ _ => ?_
  refine Sat.bind (Sat.failIf fun _ => hv) fun _ hfile => ?_
  exact (Sat.failIf fun _ => hv).mono fun _ _ => by omega

theorem placeSegment_sat (h : Loading file_size headers raw_elf state)
    (hfile : segment.file_size ≤ segment.memory_size) (hmem : segment.memory_size ≠ 0)
    (hindex : segment.program_index < headers) :
    Sat (placeSegment file_size entry state segment) (Loading file_size headers raw_elf)
      (Fails (·.valid = false)) := by
  refine Sat.bind (Sat.failIf fun _ => h.valid) fun _ hend => ?_
  refine Sat.bind (Sat.failIf fun _ => h.valid) fun _ hin => ?_
  refine Sat.bind (Sat.failIf fun _ => h.valid) fun _ hover => ?_
  have hlimit : segment.memory_size ≤ guestImageLimit := by omega
  have hend' : segment.address + segment.memory_size < 2^64 := by
    unfold guestImageLimit at hlimit
    unfold uint64Max at hend
    omega
  have hapart : ∀ previous ∈ state.plan.segments, previous.Apart segment := by
    intro previous hp
    have hno : ¬ (segment.address < previous.address + previous.memory_size ∧
        previous.address < segment.address + segment.memory_size) := by
      intro hc
      exact hover (any_eq_true.mpr ⟨previous, hp, decide_eq_true hc⟩)
    unfold GuestLoadSegment.Apart
    omega
  refine Sat.pure ⟨h.valid, h.raw, ?_, ?_, ?_⟩
  · intro s hs
    rcases mem_append.mp hs with hs | hs
    · exact h.sound s hs
    · rw [mem_singleton.mp hs]
      refine ⟨by omega, hfile, hend', hindex, fun hraw => ?_⟩
      rw [h.raw, hraw] at hin
      simp only [true_and] at hin
      omega
  · refine pairwise_append.mpr ⟨h.apart, pairwise_singleton _ _, fun a ha b hb => ?_⟩
    rw [mem_singleton.mp hb]
    exact hapart a ha
  · intro s hs
    rcases mem_append.mp hs with hs | hs
    · have := h.bounds s hs
      simp only
      omega
    · rw [mem_singleton.mp hs]
      simp only
      omega

theorem planSegment_sat (h : Loading file_size headers raw_elf state)
    (hi : i < headers) (hoff : offset + 56 ≤ bytes.length) :
    Sat (planSegment bytes file_size relro entry i offset state)
      (Loading file_size headers raw_elf) (Fails (·.valid = false)) := by
  refine Sat.bind (Sat.read (by omega)) fun type _ => ?_
  refine Sat.ite (fun _ => Sat.pure h) fun _ => ?_
  refine Sat.bind (Sat.read (by omega)) fun file_offset _ => ?_
  refine Sat.bind (Sat.read (by omega)) fun address _ => ?_
  refine Sat.bind (Sat.read (by omega)) fun size _ => ?_
  refine Sat.bind (Sat.read (by omega)) fun memory_size _ => ?_
  refine Sat.bind (Sat.read (by omega)) fun flags _ => ?_
  refine Sat.bind (Sat.read (by omega)) fun alignment _ => ?_
  refine Sat.bind (checkSegment_sat h.valid) fun _ hfile => ?_
  exact Sat.ite (fun _ => Sat.pure h) fun hmem => placeSegment_sat h hfile hmem hi

/-- What `PlanGuestLoads` has checked of a plan when it is valid. -/
structure Planned (bytes : List UInt8) (file_size : ℕ) (header : GuestPreflight)
    (plan : GuestLoadPlan) : Prop where
  valid : plan.valid = true
  inspected : returns (inspectGuestPrefix bytes file_size) = some header
  accepted : Header bytes file_size header
  table_le : header.elf_offset + leRead bytes (header.elf_offset + 32) 8 +
    header.program_headers * 56 ≤ bytes.length
  raw : plan.raw_elf = !header.self_container
  sound : ∀ segment ∈ plan.segments,
    segment.Sound file_size header.program_headers plan.raw_elf
  apart : plan.segments.Pairwise GuestLoadSegment.Apart
  segments_ne : plan.segments ≠ []
  inside : ∀ segment ∈ plan.segments, plan.base ≤ segment.address ∧
    segment.address + segment.memory_size ≤ plan.base + plan.image_size
  pages : plan.image_size % guestPageSize = 0
  budget : plan.image_size ≤ guestImageLimit

theorem roundPages_spec {span : ℕ} (h : span ≤ guestImageLimit) :
    span ≤ (span + guestPageSize - 1) / guestPageSize * guestPageSize ∧
      (span + guestPageSize - 1) / guestPageSize * guestPageSize ≤ guestImageLimit := by
  unfold guestPageSize guestImageLimit at *
  omega

theorem planGuestLoads_sat (bytes : List UInt8) (file_size : ℕ) (relro : Bool) :
    Sat (planGuestLoads bytes file_size relro)
      (fun plan => ∃ header, Planned bytes file_size header plan) (Fails (·.valid = false)) := by
  refine Sat.bind (Sat.call (inspectGuestPrefix_sat bytes file_size)) fun header ⟨hret, hor⟩ => ?_
  refine Sat.bind (Sat.failIf fun _ => rfl) fun _ hvalid => ?_
  have hheader : Header bytes file_size header := by
    rcases hor with h | h
    · exact h
    · exact absurd h hvalid
  have helf := hheader.elf_le
  refine Sat.bind (Sat.read (by omega)) fun phoff hphoff => ?_
  refine Sat.bind (Sat.failIf fun _ => rfl) fun _ _ => ?_
  refine Sat.bind (Sat.failIf fun _ => rfl) fun _ htable => ?_
  have hle : header.elf_offset + phoff + header.program_headers * 56 ≤ bytes.length := by omega
  have hloop : Sat ((range header.program_headers).foldlM
      (fun state i => planSegment bytes file_size relro header.entry i
        (header.elf_offset + phoff + i * 56) state)
      { plan := { ({} : GuestLoadPlan) with raw_elf := !header.self_container },
        low := uint64Max, high := 0, executable_entry := false })
      (Loading file_size header.program_headers (!header.self_container))
      (Fails (·.valid = false)) := by
    apply Sat.foldlM_range (I := fun _ => Loading file_size header.program_headers (!header.self_container))
    · exact ⟨rfl, rfl, by simp, by simp, by simp⟩
    · intro i hi state hstate
      exact planSegment_sat hstate hi (by omega)
  refine Sat.bind hloop fun state hstate => ?_
  refine Sat.bind (Sat.failIf fun _ => hstate.valid) fun _ hne => ?_
  refine Sat.bind (Sat.failIf fun _ => hstate.valid) fun _ _ => ?_
  refine Sat.bind (Sat.failIf fun _ => hstate.valid) fun _ hspan => ?_
  have hround := roundPages_spec (Nat.le_of_not_gt hspan)
  refine Sat.pure ⟨header, rfl, hret, hheader, by rw [← hphoff]; exact hle, hstate.raw, ?_,
    hstate.apart, hne, fun segment hs => ?_, Nat.mul_mod_left _ _, hround.2⟩
  · rw [hstate.raw]
    exact hstate.sound
  · have hb := hstate.bounds segment hs
    simp only at hround ⊢
    omega

/-! ## The segments in the file -/

def headerBytes (file : List UInt8) : List UInt8 := file.take (min file.length guestPrefixLimit)

theorem headerBytes_length_le (file : List UInt8) : (headerBytes file).length ≤ file.length := by
  unfold headerBytes
  rw [length_take]
  omega

theorem leRead_headerBytes {count : ℕ} (h : offset + count ≤ (headerBytes file).length) :
    leRead (headerBytes file) offset count = leRead file offset count := by
  unfold headerBytes at h ⊢
  rw [length_take] at h
  exact leRead_take (by omega)

/-- Entry `j` of the SELF block table is the block of program header `index`. -/
structure IsBlock (file : List UInt8) (index j : ℕ) : Prop where
  loadable : leRead file (32 + j * 32) 8 &&& 0x800 ≠ 0
  id : (leRead file (32 + j * 32) 8 >>> 20) &&& 0xfff = index

/-- Entry `j` is the only one of the first `n` that is the block of program header `index`. -/
def OnlyBlock (file : List UInt8) (n index j : ℕ) : Prop :=
  ∀ j', (j' < n ∧ IsBlock file index j') ↔ j' = j

/-- A block found in the table has the place and size of the only entry for its program header. -/
structure Block.Found (file : List UInt8) (n index : ℕ) (block : Block) : Prop where
  in_file : block.offset + block.size ≤ file.length
  entry : ∃ j, OnlyBlock file n index j ∧ block.offset = leRead file (40 + j * 32) 8 ∧
    block.size = leRead file (48 + j * 32) 8

/-- The invariant of the loop over the block table, after `n` entries. -/
structure Blocks (file : List UInt8) (headers n : ℕ) (blocks : List Block) : Prop where
  length_eq : blocks.length = headers
  found : ∀ (index : ℕ) (block : Block), blocks[index]? = some block → block.present = true →
    block.Found file n index
  absent : ∀ (index : ℕ) (block : Block), blocks[index]? = some block → block.present = false →
    ∀ j < n, ¬ IsBlock file index j

theorem Blocks.skip (h : Blocks file headers n blocks)
    (hn : ∀ index < headers, ¬ IsBlock file index n) : Blocks file headers (n + 1) blocks where
  length_eq := h.length_eq
  found index block hb hp := by
    have hindex : index < headers := by
      rw [← h.length_eq]
      exact (List.getElem?_eq_some_iff.mp hb).1
    obtain ⟨hin, j, hj, hoff, hsize⟩ := h.found index block hb hp
    refine ⟨hin, j, fun j' => ?_, hoff, hsize⟩
    rw [← hj j']
    constructor
    · rintro ⟨hlt, hblock⟩
      have hne : j' ≠ n := fun he => hn index hindex (he ▸ hblock)
      exact ⟨by omega, hblock⟩
    · rintro ⟨hlt, hblock⟩
      exact ⟨by omega, hblock⟩
  absent index block hb hp j hj := by
    have hindex : index < headers := by
      rw [← h.length_eq]
      exact (List.getElem?_eq_some_iff.mp hb).1
    by_cases hjn : j = n
    · rw [hjn]
      exact hn index hindex
    · exact h.absent index block hb hp j (by omega)

theorem Blocks.set (h : Blocks file headers n blocks) {index : ℕ} {old block : Block}
    (hold : blocks[index]? = some old) (hp : old.present = false) (hblock : IsBlock file index n)
    (hin : block.offset + block.size ≤ file.length) (hoff : block.offset = leRead file (40 + n * 32) 8)
    (hsize : block.size = leRead file (48 + n * 32) 8) (hpresent : block.present = true) :
    Blocks file headers (n + 1) (blocks.set index block) := by
  have hlt : index < blocks.length := (List.getElem?_eq_some_iff.mp hold).1
  have hother : ∀ i, i ≠ index → ¬ IsBlock file i n := by
    intro i hi hb
    exact hi (hb.id.symm.trans hblock.id)
  refine ⟨by rw [length_set, h.length_eq], fun i b hb hpb => ?_, fun i b hb hpb j hj => ?_⟩
  · by_cases hi : index = i
    · subst hi
      rw [getElem?_set_self hlt] at hb
      obtain rfl := some.inj hb
      refine ⟨hin, n, fun j' => ?_, hoff, hsize⟩
      -- No earlier entry is one for this program header.
      constructor
      · rintro ⟨hj', hb'⟩
        by_contra hne
        exact h.absent index old hold hp j' (by omega) hb'
      · rintro rfl
        exact ⟨by omega, hblock⟩
    · rw [getElem?_set_ne hi] at hb
      obtain ⟨hin', j, hj, hoff', hsize'⟩ := h.found i b hb hpb
      refine ⟨hin', j, fun j' => ?_, hoff', hsize'⟩
      rw [← hj j']
      constructor
      · rintro ⟨hlt', hb'⟩
        have hne : j' ≠ n := fun he => hother i (Ne.symm hi) (he ▸ hb')
        exact ⟨by omega, hb'⟩
      · rintro ⟨hlt', hb'⟩
        exact ⟨by omega, hb'⟩
  · by_cases hi : index = i
    · subst hi
      rw [getElem?_set_self hlt] at hb
      obtain rfl := some.inj hb
      rw [hpresent] at hpb
      exact absurd hpb (by simp)
    · rw [getElem?_set_ne hi] at hb
      by_cases hjn : j = n
      · rw [hjn]
        exact hother i (Ne.symm hi)
      · exact h.absent i b hb hpb j (by omega)

def Refused (payload : GuestPayload) : Prop :=
  payload.image.plan.valid = false ∨ payload.image.error ≠ ""

theorem readBlock_sat (hle : 32 + i * 32 + 32 ≤ file.length)
    (h : Blocks file headers i state.blocks) : Sat (readBlock file payload metadata_end state i)
      (fun state => Blocks file headers (i + 1) state.blocks) (Fails Refused) := by
  refine Sat.bind (Sat.read (by omega)) fun flags hflags => ?_
  refine Sat.bind (Sat.read (by omega)) fun offset hoffset => ?_
  refine Sat.bind (Sat.read (by omega)) fun size hsize => ?_
  refine Sat.bind (Sat.read (by omega)) fun memory_size _ => ?_
  refine Sat.bind (Sat.failIf fun _ => .inr (by simp [GuestPayload.failed])) fun _ hin => ?_
  refine Sat.bind (Sat.failIf fun _ => .inr (by simp [GuestPayload.failed])) fun _ _ => ?_
  refine Sat.ite (fun haux => ?_) fun hload => ?_
  · refine Sat.pure (h.skip fun index _ hb => hb.loadable ?_)
    rw [← hflags]
    exact haux
  · refine Sat.bind (Sat.failIf fun _ => .inr (by simp [GuestPayload.failed])) fun _ hindex => ?_
    refine Sat.bind (Sat.fetch (by omega)) fun block hblock => ?_
    refine Sat.bind (Sat.failIf fun _ => .inr (by simp [GuestPayload.failed])) fun _ hp => ?_
    refine Sat.bind (Sat.failIf fun _ => .inr (by simp [GuestPayload.failed])) fun _ _ => ?_
    refine Sat.bind (Sat.put (by omega)) fun blocks hblocks => ?_
    subst hblocks
    have hentry : IsBlock file ((flags >>> 20) &&& 0xfff) i := ⟨by rw [← hflags]; exact hload,
      by rw [← hflags]⟩
    exact Sat.pure (h.set hblock (by simpa using hp) hentry (by simp only; omega) hoffset hsize rfl)

/-- The file bytes of a segment lie at `offset` in the file, for a SELF in the only block of its
program header. -/
structure LoadedAt (file : List UInt8) (raw_elf : Bool) (segment : GuestLoadSegment)
    (offset : ℕ) : Prop where
  in_file : offset + segment.file_size ≤ file.length
  block : raw_elf = false → 0 < segment.file_size →
    ∃ j, OnlyBlock file (leRead file 24 2) segment.program_index j ∧
      offset = leRead file (40 + j * 32) 8 ∧ segment.file_size = leRead file (48 + j * 32) 8

/-- What `PlanGuestPayloadFile` has checked of a payload that it accepts. -/
structure Located (file : List UInt8) (payload : GuestPayload) : Prop where
  planned : ∃ header, Planned (headerBytes file) file.length header payload.image.plan
  error_eq : payload.image.error = ""
  length_eq : payload.load_offsets.length = payload.image.plan.segments.length
  loaded : ∀ (i : ℕ) (segment : GuestLoadSegment) (offset : ℕ),
    payload.image.plan.segments[i]? = some segment → payload.load_offsets[i]? = some offset →
    LoadedAt file payload.image.plan.raw_elf segment offset

theorem mapBlock_sat (hi : i < blocks.length) (hph : ph + 56 ≤ file.length) :
    Sat (mapBlock file blocks payload i ph) (fun p => p.image = payload.image ∧
      p.load_offsets = payload.load_offsets) (Fails Refused) := by
  refine Sat.bind (Sat.fetch hi) fun block _ => ?_
  refine Sat.ite (fun _ => Sat.pure ⟨rfl, rfl⟩) fun _ => ?_
  refine Sat.bind (Sat.read (by omega)) fun logical _ => ?_
  refine Sat.bind (Sat.read (by omega)) fun size _ => ?_
  refine Sat.bind (Sat.failIf fun _ => .inr (by simp [GuestPayload.failed])) fun _ _ => ?_
  refine Sat.bind (Sat.failIf fun _ => .inr (by simp [GuestPayload.failed])) fun _ _ => ?_
  exact Sat.pure ⟨rfl, rfl⟩

/-- The offsets found for the segments done. -/
structure Locating (file : List UInt8) (raw_elf : Bool) (image : GuestStagedImage)
    (done : List GuestLoadSegment) (payload : GuestPayload) : Prop where
  image_eq : payload.image = image
  length_eq : payload.load_offsets.length = done.length
  loaded : ∀ (i : ℕ) (segment : GuestLoadSegment) (offset : ℕ), done[i]? = some segment →
    payload.load_offsets[i]? = some offset → LoadedAt file raw_elf segment offset

theorem Locating.append (h : Locating file raw_elf image done payload) (hl : LoadedAt file raw_elf segment offset) :
    Locating file raw_elf image (done ++ [segment])
      { payload with load_offsets := payload.load_offsets ++ [offset] } where
  image_eq := h.image_eq
  length_eq := by simp [h.length_eq]
  loaded i s o hs ho := by
    by_cases hi : i < done.length
    · rw [getElem?_append_left hi] at hs
      rw [getElem?_append_left (by rw [h.length_eq]; exact hi)] at ho
      exact h.loaded i s o hs ho
    · have hi' : i = done.length := by
        have := (List.getElem?_eq_some_iff.mp hs).1
        rw [length_append, length_singleton] at this
        omega
      rw [getElem?_append_right (by omega)] at hs
      rw [getElem?_append_right (by rw [h.length_eq]; omega), h.length_eq] at ho
      rw [hi', Nat.sub_self, getElem?_cons_zero] at hs ho
      rw [← some.inj hs, ← some.inj ho]
      exact hl

theorem locateSegment_sat (hb : Blocks file headers (leRead file 24 2) blocks)
     (h : Locating file raw_elf image done payload)
    (hindex : segment.program_index < headers) : Sat (locateSegment blocks payload segment)
      (Locating file raw_elf image (done ++ [segment])) (Fails Refused) := by
  refine Sat.ite (fun hzero => ?_) fun hpos => ?_
  · exact Sat.pure (h.append ⟨by omega, fun _ hp => by omega⟩)
  · refine Sat.bind (Sat.fetch (by rw [hb.length_eq]; exact hindex)) fun block hblock => ?_
    refine Sat.bind (Sat.failIf fun _ => .inr (by simp [GuestPayload.failed])) fun _ hp => ?_
    refine Sat.bind (Sat.failIf fun _ => .inr (by simp [GuestPayload.failed])) fun _ hsize => ?_
    obtain ⟨hin, j, hj, hoff, hsz⟩ := hb.found _ block hblock (by simpa using hp)
    refine Sat.pure (h.append ⟨by omega, fun _ _ => ⟨j, hj, hoff, by omega⟩⟩)

theorem planSelfPayload_sat {header : GuestPreflight}
    (hplan : Planned (headerBytes file) file.length header payload.image.plan)
    (hself : header.self_container = true) (herr : payload.image.error = "") (hoffsets : payload.load_offsets = []) :
    Sat (planSelfPayload file header payload) (Located file) (Fails Refused) := by
  have hlen := headerBytes_length_le file
  have helf := hplan.accepted.elf_le
  have hcount : header.elf_offset = 32 + leRead file 24 2 * 32 := by
    rw [hplan.accepted.self hself, leRead_headerBytes (by
      omega)]
  have hraw : payload.image.plan.raw_elf = false := by rw [hplan.raw, hself]; rfl
  refine Sat.bind (Sat.failIf fun _ => .inr (by simp [GuestPayload.failed])) fun _ _ => ?_
  refine Sat.bind (Sat.read (by omega)) fun phoff hphoff => ?_
  refine Sat.bind (Sat.read (by omega)) fun metadata_size _ => ?_
  refine Sat.bind (Sat.read (by omega)) fun metadata_extra _ => ?_
  refine Sat.bind (Sat.failIf fun _ => .inr (by simp [GuestPayload.failed])) fun _ _ => ?_
  refine Sat.bind (Sat.read (by omega)) fun count hc => ?_
  subst hphoff hc
  -- The block table.
  have hblocks : Sat ((range (leRead file 24 2)).foldlM (readBlock file payload (metadata_size + metadata_extra))
      { blocks := replicate header.program_headers {}, ranges := [] })
      (fun state => Blocks file header.program_headers (leRead file 24 2) state.blocks)
      (Fails Refused) := by
    apply Sat.foldlM_range (I := fun n (state : BlockState) =>
      Blocks file header.program_headers n state.blocks)
    · refine ⟨length_replicate, fun index block hb hp => ?_, fun _ _ _ _ j hj => by omega⟩
      obtain rfl := eq_of_mem_replicate (mem_of_getElem? hb)
      exact absurd hp (by simp)
    · intro i hi state hstate
      exact readBlock_sat (by omega) hstate
  refine Sat.bind hblocks fun state hstate => ?_
  -- The logical ranges, which leave the image and the offsets as they are.
  have hmap : Sat ((range state.blocks.length).foldlM (fun payload i =>
      mapBlock file state.blocks payload i
        (header.elf_offset + leRead file (header.elf_offset + 32) 8 + i * 56)) payload)
      (fun p => p.image = payload.image ∧ p.load_offsets = payload.load_offsets)
      (Fails Refused) := by
    apply Sat.foldlM_range (I := fun _ (p : GuestPayload) => p.image = payload.image ∧
      p.load_offsets = payload.load_offsets)
    · exact ⟨rfl, rfl⟩
    · intro i hi p ⟨hp1, hp2⟩
      have hi' := hi
      rw [hstate.length_eq] at hi'
      refine (mapBlock_sat hi (by omega)).mono fun q ⟨hq1, hq2⟩ => ?_
      exact ⟨hq1.trans hp1, hq2.trans hp2⟩
  refine Sat.bind hmap fun p ⟨hp1, hp2⟩ => ?_
  -- The place of each segment.
  have hlocate : Sat (p.image.plan.segments.foldlM (locateSegment state.blocks) p)
      (Locating file false payload.image p.image.plan.segments) (Fails Refused) := by
    apply Sat.foldlM (I := Locating file false payload.image)
    · exact ⟨hp1, by simp [hp2, hoffsets], fun i s o hs => by simp at hs⟩
    · intro done segment rest q hsegs hq
      have hmem : segment ∈ payload.image.plan.segments := by
        rw [← hp1, hsegs]
        simp
      exact locateSegment_sat hstate hq (hplan.sound segment hmem).index_lt
  refine hlocate.mono fun q hq => ?_
  refine ⟨⟨header, by rw [hq.image_eq]; exact hplan⟩, by rw [hq.image_eq]; exact herr, ?_, ?_⟩
  · rw [hq.image_eq, hq.length_eq, hp1]
  · rw [hq.image_eq, ← hp1, hp1, hraw, ← hp1]
    exact hq.loaded

theorem planGuestPayloadFile_sat (file : List UInt8) :
    Sat (planGuestPayloadFile file) (Located file) (Fails Refused) := by
  refine Sat.bind (Sat.failIf fun _ => .inl rfl) fun _ _ => ?_
  refine Sat.bind (Sat.call (planGuestLoads_sat _ _ _)) fun plan ⟨_, hor⟩ => ?_
  refine Sat.bind (Sat.failIf fun hv => .inl hv) fun _ hvalid => ?_
  have hplan : ∃ header, Planned (headerBytes file) file.length header plan := by
    rcases hor with h | h
    · exact h
    · exact absurd h hvalid
  obtain ⟨header, hplan⟩ := hplan
  refine Sat.bind (Sat.call (inspectGuestPrefix_sat _ _)) fun header' ⟨hret, _⟩ => ?_
  -- The headers are read a second time, with the same result.
  obtain rfl : header' = header := by
    have h1 := hplan.inspected
    exact some.inj (hret.symm.trans h1)
  refine Sat.ite (fun hraw => ?_) fun hraw => ?_
  · refine Sat.pure ⟨⟨header', hplan⟩, rfl, by simp, fun i segment offset hs ho => ?_⟩
    simp only [getElem?_map, hs, Option.map_some, Option.some.injEq] at ho
    subst ho
    have hsound := hplan.sound segment (mem_of_getElem? hs)
    exact ⟨hsound.in_file hraw, fun h => by rw [hraw] at h; exact absurd h (by simp)⟩
  · refine planSelfPayload_sat hplan ?_ rfl rfl
    have := hplan.raw
    simpa [hraw] using this

/-! ## The image -/

/-- The address lies in the file-backed part of the segment. -/
def GuestLoadSegment.Backs (segment : GuestLoadSegment) (a : ℕ) : Prop :=
  segment.address ≤ a ∧ a < segment.address + segment.file_size

/-- The image after the first `n` segments of a payload were copied. -/
structure Copying (file : List UInt8) (start : GuestPayload) (n : ℕ) (payload : GuestPayload) :
    Prop where
  plan_eq : payload.image.plan = start.image.plan
  error_eq : payload.image.error = start.image.error
  offsets_eq : payload.load_offsets = start.load_offsets
  ranges_eq : payload.file_ranges = start.file_ranges
  length_eq : payload.image.bytes.length = start.image.plan.image_size
  backed : ∀ (i : ℕ) (segment : GuestLoadSegment) (offset : ℕ), i < n →
    start.image.plan.segments[i]? = some segment → start.load_offsets[i]? = some offset →
    ∀ a, segment.Backs a →
      payload.image.bytes[a - start.image.plan.base]? = file[offset + (a - segment.address)]?
  zero : ∀ a, start.image.plan.base ≤ a →
    a < start.image.plan.base + start.image.plan.image_size →
    (∀ (i : ℕ) (segment : GuestLoadSegment), i < n →
      start.image.plan.segments[i]? = some segment → ¬ segment.Backs a) →
    payload.image.bytes[a - start.image.plan.base]? = some 0

theorem Planned.apart_of_ne (h : Planned bytes file_size header plan)
    (hs : plan.segments[i]? = some s) (ht : plan.segments[j]? = some t) (hne : i ≠ j) : s.Apart t := by
  obtain ⟨hi, rfl⟩ := List.getElem?_eq_some_iff.mp hs
  obtain ⟨hj, rfl⟩ := List.getElem?_eq_some_iff.mp ht
  rcases Nat.lt_or_gt_of_ne hne with hlt | hlt
  · exact pairwise_iff_getElem.mp h.apart i j hi hj hlt
  · exact (pairwise_iff_getElem.mp h.apart j i hj hi hlt).symm

theorem copySegment_sat (hstart : Located file start) (hn : n < start.load_offsets.length)
    (h : Copying file start n payload) :
    Sat (copySegment file payload n) (Copying file start (n + 1)) (Fails fun _ => False) := by
  obtain ⟨header, hplan⟩ := hstart.planned
  have hn' : n < payload.image.plan.segments.length := by
    rw [h.plan_eq, ← hstart.length_eq]
    exact hn
  refine Sat.bind (Sat.fetch hn') fun segment hsegment => ?_
  refine Sat.bind (Sat.fetch (by rw [h.offsets_eq]; exact hn)) fun offset hoffset => ?_
  rw [h.plan_eq] at hsegment
  rw [h.offsets_eq] at hoffset
  have hmem := mem_of_getElem? hsegment
  have hsound := hplan.sound segment hmem
  have hinside := hplan.inside segment hmem
  have hfile := hsound.file_le
  have hload := (hstart.loaded n segment offset hsegment hoffset).in_file
  have hfit : segment.address - payload.image.plan.base + segment.file_size ≤ payload.image.bytes.length := by
    rw [h.plan_eq, h.length_eq]
    omega
  refine Sat.bind (Sat.copyN hload hfit) fun bytes ⟨hlen, hbytes⟩ => ?_
  rw [h.plan_eq] at hbytes
  refine Sat.pure ⟨h.plan_eq, h.error_eq, h.offsets_eq, h.ranges_eq, hlen.trans h.length_eq,
    fun i s o hi hs ho a ha => ?_, fun a hlo hhi hnone => ?_⟩
  · simp only
    rw [hbytes]
    by_cases hin : i = n
    · -- The segment just copied.
      subst hin
      obtain rfl : segment = s := some.inj (hsegment.symm.trans hs)
      obtain rfl : offset = o := some.inj (hoffset.symm.trans ho)
      obtain ⟨halo, hahi⟩ := ha
      rw [if_pos (by omega)]
      congr 1
      omega
    · -- An earlier segment, which shares no address with it.
      have hs_mem := mem_of_getElem? hs
      have hs_inside := hplan.inside s hs_mem
      have hs_file := (hplan.sound s hs_mem).file_le
      have happ := hplan.apart_of_ne hs hsegment hin
      obtain ⟨halo, hahi⟩ := ha
      unfold GuestLoadSegment.Apart at happ
      rw [if_neg (by omega)]
      exact h.backed i s o (by omega) hs ho a ⟨halo, hahi⟩
  · simp only
    have hself := hnone n segment (by omega) hsegment
    unfold GuestLoadSegment.Backs at hself
    rw [hbytes, if_neg (by omega)]
    exact h.zero a hlo hhi fun i s hi hs => hnone i s (by omega) hs

/-- A staged payload: the segments have their file bytes, and the rest of the image is zero. -/
structure Staged (file : List UInt8) (payload : GuestPayload) : Prop where
  located : Located file payload
  length_eq : payload.image.bytes.length = payload.image.plan.image_size
  backed : ∀ (i : ℕ) (segment : GuestLoadSegment) (offset : ℕ),
    payload.image.plan.segments[i]? = some segment → payload.load_offsets[i]? = some offset →
    ∀ a, segment.Backs a →
      payload.image.bytes[a - payload.image.plan.base]? = file[offset + (a - segment.address)]?
  zero : ∀ a, payload.image.plan.base ≤ a →
    a < payload.image.plan.base + payload.image.plan.image_size →
    (∀ segment ∈ payload.image.plan.segments, ¬ segment.Backs a) →
    payload.image.bytes[a - payload.image.plan.base]? = some 0
  bss_verified : payload.bss_verified = true
  plan_eq : ∃ start, returns (planGuestPayloadFile file) = some start ∧
    start.image.plan = payload.image.plan

theorem allZero_sat (h : start ≤ stop) (hle : stop ≤ bytes.length)
    (hz : ∀ j, start ≤ j → j < stop → bytes[j]? = some 0) :
    Sat (allZero bytes start stop) (fun zero => zero = true) F := by
  unfold allZero
  rw [if_pos ⟨h, hle⟩]
  refine Sat.pure ?_
  rw [all_eq_true]
  intro x hx
  obtain ⟨k, hk⟩ := mem_iff_getElem?.mp hx
  rw [getElem?_drop, getElem?_take] at hk
  split_ifs at hk with hlt
  rw [hz (start + k) (by omega) hlt] at hk
  rw [← some.inj hk]
  rfl

theorem stageGuestPayload_sat (file : List UInt8) : Sat (stageGuestPayload file) (fun payload => (Refused payload ∧
      returns (planGuestPayloadFile file) = some payload) ∨ Staged file payload) (Fails fun _ => False) := by
  refine Sat.bind (Sat.call (planGuestPayloadFile_sat file)) fun start ⟨hret, hor⟩ => ?_
  refine Sat.ite (fun href => Sat.pure (.inl ⟨href, hret⟩)) fun href => ?_
  have hstart : Located file start := by
    rcases hor with h | h
    · exact h
    · exact absurd h href
  obtain ⟨header, hplan⟩ := hstart.planned
  have hcopy : Sat ((range start.load_offsets.length).foldlM (copySegment file)
      { start with image := { start.image with
          bytes := replicate start.image.plan.image_size 0 } })
      (Copying file start start.load_offsets.length) (Fails fun _ => False) := by
    apply Sat.foldlM_range (I := Copying file start)
    · refine ⟨rfl, rfl, rfl, rfl, length_replicate, fun i s o hi => absurd hi (by omega),
        fun a hlo hhi _ => ?_⟩
      rw [getElem?_replicate, if_pos (by omega)]
    · intro i hi payload hpayload
      exact copySegment_sat hstart hi hpayload
  refine Sat.bind hcopy fun payload hpayload => ?_
  have hzero : ∀ a, start.image.plan.base ≤ a → a < start.image.plan.base + start.image.plan.image_size →
      (∀ segment ∈ start.image.plan.segments, ¬ segment.Backs a) →
      payload.image.bytes[a - start.image.plan.base]? = some 0 := by
    intro a hlo hhi hnone
    exact hpayload.zero a hlo hhi fun i s _ hs => hnone s (mem_of_getElem? hs)
  -- The memory of a segment behind its file bytes belongs to no segment's file bytes.
  have hbss : Sat (payload.image.plan.segments.foldlM (fun verified segment => do
      let zero ← allZero (R := GuestPayload) payload.image.bytes
        (segment.address - payload.image.plan.base + segment.file_size)
        (segment.address - payload.image.plan.base + segment.memory_size)
      pure (verified && zero)) true) (fun verified => verified = true) (Fails fun _ => False) := by
    apply Sat.foldlM (I := fun _ verified => verified = true)
    · rfl
    · intro done segment rest verified hsegs hverified
      rw [hpayload.plan_eq] at hsegs ⊢
      have hmem : segment ∈ start.image.plan.segments := by rw [hsegs]; simp
      have hinside := hplan.inside segment hmem
      have hfile := (hplan.sound segment hmem).file_le
      have hz : ∀ j, segment.address - start.image.plan.base + segment.file_size ≤ j →
          j < segment.address - start.image.plan.base + segment.memory_size →
          payload.image.bytes[j]? = some 0 := by
        intro j hlo hhi
        have hnone : ∀ other ∈ start.image.plan.segments, ¬ other.Backs (start.image.plan.base + j) := by
          rintro other hother ⟨hblo, hbhi⟩
          have hofile := (hplan.sound other hother).file_le
          by_cases he : other = segment
          · subst he
            omega
          · have hap := hplan.apart.forall hother hmem he
            unfold GuestLoadSegment.Apart at hap
            omega
        have hbyte := hzero (start.image.plan.base + j) (by omega) (by omega) hnone
        rwa [Nat.add_sub_cancel_left] at hbyte
      have hlen : segment.address - start.image.plan.base + segment.memory_size ≤ payload.image.bytes.length := by
        rw [hpayload.length_eq]
        omega
      refine Sat.bind (allZero_sat (by omega) hlen hz) fun zero hzero' => Sat.pure ?_
      rw [hverified, hzero']
      rfl
  refine Sat.bind hbss fun verified hverified => ?_
  refine Sat.pure (.inr ⟨⟨⟨header, ?_⟩, ?_, ?_, ?_⟩, ?_, ?_, ?_, hverified, ⟨start, hret, hpayload.plan_eq.symm⟩⟩)
  · simp only [hpayload.plan_eq]
    exact hplan
  · simp only [hpayload.error_eq]
    exact hstart.error_eq
  · simp only [hpayload.plan_eq, hpayload.offsets_eq]
    exact hstart.length_eq
  · simp only [hpayload.plan_eq, hpayload.offsets_eq]
    exact hstart.loaded
  · simp only [hpayload.plan_eq]
    exact hpayload.length_eq
  · simp only [hpayload.plan_eq, hpayload.offsets_eq]
    intro i segment offset hs ho
    exact hpayload.backed i segment offset (List.getElem?_eq_some_iff.mp ho).1 hs ho
  · simp only [hpayload.plan_eq]
    exact hzero

/-- For every file, the two payload stages access nothing out of bounds. -/
theorem stageGuestPayload_exact (file : List UInt8) :
    (∃ planned, returns (planGuestPayloadFile file) = some planned) ∧
    ∃ payload, returns (stageGuestPayload file) = some payload ∧
      (payload.image.plan.valid = true → payload.image.error = "" →
        let plan := payload.image.plan
        (payload.image.bytes.length = plan.image_size ∧
          plan.image_size % guestPageSize = 0 ∧ plan.image_size ≤ guestImageLimit) ∧
        (plan.segments.Pairwise GuestLoadSegment.Apart ∧
          ∀ segment ∈ plan.segments, plan.base ≤ segment.address ∧
            segment.address + segment.memory_size ≤ plan.base + plan.image_size) ∧
        (payload.load_offsets.length = plan.segments.length ∧
          ∀ (i : ℕ) (segment : GuestLoadSegment) (offset : ℕ), plan.segments[i]? = some segment →
            payload.load_offsets[i]? = some offset →
            offset + segment.file_size ≤ file.length ∧
            (leRead file 0 4 = 0x1d3d154f → 0 < segment.file_size →
              ∃ j, OnlyBlock file (leRead file 24 2) segment.program_index j ∧
                leRead file (40 + j * 32) 8 ≤ offset ∧ offset + segment.file_size ≤
                  leRead file (40 + j * 32) 8 + leRead file (48 + j * 32) 8) ∧
            ∀ a, segment.Backs a → payload.image.bytes[a - plan.base]? =
              file[offset + (a - segment.address)]?) ∧
        (∀ a, plan.base ≤ a → a < plan.base + plan.image_size →
          (∀ segment ∈ plan.segments, ¬ segment.Backs a) →
          payload.image.bytes[a - plan.base]? = some 0) ∧
        payload.bss_verified = true) := by
  obtain ⟨planned, hplanned, -⟩ := (planGuestPayloadFile_sat file).exists_returns
  obtain ⟨payload, hpayload, hor⟩ := (stageGuestPayload_sat file).exists_returns
  refine ⟨⟨planned, hplanned⟩, payload, hpayload, fun hvalid herror => ?_⟩
  have hnot : ¬ Refused payload := by
    rintro (h | h)
    · rw [hvalid] at h
      exact absurd h (by simp)
    · exact h herror
  have hstaged : Staged file payload := by
    rcases hor with (h | h) | h
    · exact absurd h.1 hnot
    · exact h
    · exact absurd h id
  obtain ⟨header, hplan⟩ := hstaged.located.planned
  refine ⟨⟨hstaged.length_eq, hplan.pages, hplan.budget⟩, ⟨hplan.apart, hplan.inside⟩,
    ⟨hstaged.located.length_eq, fun i segment offset hs ho => ?_⟩, hstaged.zero,
    hstaged.bss_verified⟩
  have hload := hstaged.located.loaded i segment offset hs ho
  refine ⟨hload.in_file, fun hmagic hpos => ?_, hstaged.backed i segment offset hs ho⟩
  -- The magic number tells a container, in the prefix as in the file.
  have hlen := hplan.accepted.elf_le
  have hraw : payload.image.plan.raw_elf = false := by
    rw [hplan.raw, hplan.accepted.container, leRead_headerBytes (by omega), hmagic]
    rfl
  obtain ⟨j, hj, hoff, hsize⟩ := hload.block hraw hpos
  exact ⟨j, hj, by omega, by omega⟩

end ShadPS4.Guest
