import Mathlib.Tactic.Ring

/-!
# Fibers

A fiber runs on the stack of its thread or on one of its own, which is offered when it is initialized, or when a
thread runs it or switches to it.
-/

namespace ShadPS4.Fiber

open Function

def kFiberSignature0 : BitVec 32 := 0xdef1649c

def kFiberSignature1 : BitVec 32 := 0xb37592a0

def kFiberOptSignature : BitVec 32 := 0xbb40e64d

def kFiberStackSignature : BitVec 64 := 0x7149f2ca7149f2ca

def kFiberStackSizeCheck : BitVec 64 := 0xdeadbeefdeadbeef

def contextMinimumSize : ℕ := 512

/-- The longest name; a fiber keeps no more characters. -/
def maxNameLength : ℕ := 31

inductive FiberError
  | null | alignment | range | invalid | permission | state

inductive FiberState
  | run | idle | terminated
deriving DecidableEq

/-- `FiberFlags::ContextSizeCheck` -/
def contextSizeCheck : BitVec 32 := 0x10

/-- `FiberFlags::SetFpuRegs` -/
def setFpuRegs : BitVec 32 := 0x100

/-- `Common::ElfInfo::FW_350` -/
def fw350 : BitVec 32 := 0x3500000

/-- `OrbisFiber`. A null pointer is zero. -/
structure OrbisFiber where
  magic_start : BitVec 32
  state : FiberState
  entry : ℕ
  arg_on_initialize : BitVec 64
  addr_context : ℕ
  size_context : ℕ
  name : List UInt8
  context : ℕ
  flags : BitVec 32
  context_start : ℕ
  context_end : ℕ
  magic_end : BitVec 32

/-- The words of memory, by their addresses. -/
abbrev Words := ℕ → BitVec 64

/-- What a thread knows of the fiber that it runs. -/
structure OrbisFiberContext where
  current_fiber : ℕ
  prev_fiber : ℕ
  return_val : ℕ

/-- A fiber, the memory, and the context of the calling thread. -/
structure Machine where
  fiber : OrbisFiber
  mem : Words
  tcb_fiber : Option OrbisFiberContext

/-- The loop that fills a stack, with the number of its turns. -/
def fillFrom (mem : Words) (stack_ptr : ℕ) : ℕ → Words
  | 0 => mem
  | turns + 1 => fillFrom (update mem stack_ptr kFiberStackSizeCheck) (stack_ptr + 8) turns

/-- The signature at the start of a stack, and the pattern behind it if it is asked for. -/
def signStack (mem : Words) (start stop : ℕ) (check : Bool) : Words :=
  let mem := update mem start kFiberStackSignature
  if check then fillFrom mem (start + 8) ((stop - (start + 8) + 7) / 8) else mem

section

variable (m : Machine)

def attachContext (addr_context size_context : ℕ) : Except FiberError Machine :=
  if size_context ≠ 0 ∧ size_context < contextMinimumSize then .error .range
  else if size_context % 16 ≠ 0 then .error .invalid
  else if addr_context = 0 ∨ size_context = 0 then .error .invalid
  else if m.fiber.addr_context ≠ 0 then .error .invalid
  else .ok { m with
    fiber := { m.fiber with
      addr_context, size_context, context_start := addr_context, context_end := addr_context + size_context }
    mem := signStack m.mem addr_context (addr_context + size_context) (m.fiber.flags &&& contextSizeCheck ≠ 0) }

def userFlags (flags build_ver : BitVec 32) (context_size_check : Bool) : BitVec 32 :=
  let user_flags := if fw350.ule build_ver then flags ||| setFpuRegs else flags
  if context_size_check then user_flags ||| contextSizeCheck else user_flags

/-- `sceFiberInitializeImpl`, for the fiber at an address. -/
def fiberInitialize (fiber : ℕ) (name : Option (List UInt8)) (entry : ℕ)
    ( arg_on_initialize : BitVec 64) (addr_context size_context : ℕ) (opt_param : Option (ℕ × BitVec 32))
    (flags build_ver : BitVec 32) (context_size_check : Bool) : Except FiberError Machine :=
  match name with
  | none => .error .null
  | some name =>
    if fiber = 0 ∨ entry = 0 then .error .null
    else if fiber % 8 ≠ 0 ∨ addr_context % 16 ≠ 0 then .error .alignment
    else if ∃ opt ∈ opt_param, opt.1 % 8 ≠ 0 then .error .alignment
    else if size_context ≠ 0 ∧ size_context < contextMinimumSize then .error .range
    else if size_context % 16 ≠ 0 then .error .invalid
    else if addr_context = 0 ∧ size_context ≠ 0 then .error .invalid
    else if addr_context ≠ 0 ∧ size_context = 0 then .error .invalid
    else if ∃ opt ∈ opt_param, opt.2 ≠ kFiberOptSignature then .error .invalid
    else .ok { m with
      fiber := {
        magic_start := kFiberSignature0
        state := .idle
        entry, arg_on_initialize, addr_context, size_context
        name := name.take maxNameLength
        context := 0
        flags := userFlags flags build_ver context_size_check
        context_start := if addr_context ≠ 0 then addr_context else m.fiber.context_start
        context_end := if addr_context ≠ 0 then addr_context + size_context else m.fiber.context_end
        magic_end := kFiberSignature1 }
      -- The stack is filled for the flags of the caller, not for those that the fiber gets.
      mem := if addr_context ≠ 0 then
        signStack m.mem addr_context (addr_context + size_context) (flags &&& contextSizeCheck ≠ 0) else m.mem }

/-! ## Running a fiber and switching to one -/

/-- The exchange of the state. Other threads may have changed it until then. -/
def claim (seen : FiberState) : Except FiberError Unit × Machine :=
  if seen = .idle then (.ok (), { m with fiber := { m.fiber with state := .run } })
  else (.error .state, { m with fiber := { m.fiber with state := seen } })

/-- What `sceFiberRunImpl` and `sceFiberSwitchImpl` do up to where the fiber is claimed. -/
def enter (permitted : Bool) (m : Machine) (fiber addr_context size_context : ℕ) (seen : FiberState) :
    Except FiberError Unit × Machine :=
  if fiber = 0 then (.error .null, m)
  else if fiber % 8 ≠ 0 ∨ addr_context % 16 ≠ 0 then (.error .alignment, m)
  else if m.fiber.magic_start ≠ kFiberSignature0 ∨ m.fiber.magic_end ≠ kFiberSignature1 then (.error .invalid, m)
  else if ¬ permitted then (.error .permission, m)
  else
    match if addr_context ≠ 0 ∨ size_context ≠ 0 then attachContext m addr_context size_context else .ok m with
    | .error res => (.error res, m)
    | .ok m => claim m seen

def runImpl (fiber addr_context size_context : ℕ) (seen : FiberState) :
    Except FiberError Unit × Machine :=
  let r := enter m.tcb_fiber.isNone m fiber addr_context size_context seen
  match r.1 with
  | .ok () => (.ok (), { r.2 with tcb_fiber := some ⟨fiber, 0, 0⟩ })
  | .error _ => r

/-- The thread must run a fiber. -/
def switchImpl (fiber addr_context size_context : ℕ) (seen : FiberState) :
    Except FiberError Unit × Machine :=
  enter m.tcb_fiber.isSome m fiber addr_context size_context seen

/-- A call that fails leaves everything as it was, but for what others make of the state of the fiber. -/
def FailsCleanly (seen : FiberState) (r : Except FiberError Unit × Machine) : Prop :=
  ∀ e, r.1 = .error e → r.2 = m ∨ r.2 = { m with fiber := { m.fiber with state := seen } }

/-- A stack is offered that the fiber can get. -/
def Attaches (addr_context size_context : ℕ) : Prop :=
  addr_context ≠ 0 ∧ contextMinimumSize ≤ size_context ∧ size_context % 16 = 0 ∧ m.fiber.addr_context = 0

/-- The checks before a stack is attached succeed. -/
def Passes (fiber addr_context : ℕ) : Prop :=
  fiber ≠ 0 ∧ fiber % 8 = 0 ∧ addr_context % 16 = 0 ∧ m.fiber.magic_start = kFiberSignature0 ∧
    m.fiber.magic_end = kFiberSignature1

theorem attachContext_eq (addr_context size_context : ℕ) :
    (∃ e, attachContext m addr_context size_context = .error e) ∨ Attaches m addr_context size_context ∧
      ∃ m', attachContext m addr_context size_context = .ok m' ∧ m'.fiber.addr_context = addr_context := by
  unfold attachContext
  split_ifs with hrange haligned hnull hown
  · exact .inl ⟨_, rfl⟩
  · exact .inl ⟨_, rfl⟩
  · exact .inl ⟨_, rfl⟩
  · exact .inl ⟨_, rfl⟩
  · obtain ⟨haddr, hsize⟩ := not_or.mp hnull
    exact .inr ⟨⟨haddr, Nat.not_lt.mp fun hlt => hrange ⟨hsize, hlt⟩, not_not.mp haligned, not_not.mp hown⟩,
      _, rfl, rfl⟩

end

theorem Attaches.not_error
    (h : Attaches m addr_context size_context) : attachContext m addr_context size_context ≠ .error e := by
  obtain ⟨haddr, hsize, haligned, hown⟩ := h
  unfold contextMinimumSize at hsize
  unfold attachContext contextMinimumSize
  rw [if_neg (by omega), if_neg (by omega), if_neg (by omega), if_neg (by omega)]
  exact nofun

theorem enter_iff (permitted : Bool) (m : Machine) (fiber addr_context size_context : ℕ) (seen : FiberState) :
    FailsCleanly m seen (enter permitted m fiber addr_context size_context seen) ↔
      ¬ (Passes m fiber addr_context ∧ permitted = true ∧ Attaches m addr_context size_context ∧ seen ≠ .idle) := by
  unfold enter
  split_ifs with hnull haligned hmagic hpermitted hoffered
  · exact iff_of_true (fun _ _ => .inl rfl) fun h => h.1.1 hnull
  · exact iff_of_true (fun _ _ => .inl rfl) fun h => haligned.elim (· h.1.2.1) (· h.1.2.2.1)
  · exact iff_of_true (fun _ _ => .inl rfl) fun h => hmagic.elim (· h.1.2.2.2.1) (· h.1.2.2.2.2)
  · rcases attachContext_eq m addr_context size_context with ⟨e, herror⟩ | ⟨hattaches, m', hm', haddr⟩
    · rw [herror]
      exact iff_of_true (fun _ _ => .inl rfl) fun h => h.2.2.1.not_error herror
    · rw [hm']
      unfold claim
      split_ifs with hseen
      · exact iff_of_true nofun fun h => h.2.2.2 hseen
      · -- The stack is attached, and the fiber cannot be claimed.
        refine iff_of_false (fun h => ?_) (not_not.mpr ⟨⟨hnull, ?_⟩, hpermitted, hattaches, hseen⟩)
        · have hkept : m'.fiber.addr_context = m.fiber.addr_context := by
            rcases h _ rfl with hm | hm
            · exact congrArg (·.fiber.addr_context) hm
            · exact congrArg (·.fiber.addr_context) hm
          exact hattaches.1 (haddr.symm.trans (hkept.trans hattaches.2.2.2))
        · rw [not_or, not_not, not_not] at haligned hmagic
          exact ⟨haligned.1, haligned.2, hmagic⟩
  · dsimp only
    unfold claim
    split_ifs with hseen
    · exact iff_of_true nofun fun h => h.2.2.2 hseen
    · exact iff_of_true (fun _ _ => .inr rfl) fun h => hoffered (.inl h.2.2.1.1)
  · exact iff_of_true (fun _ _ => .inl rfl) fun h => hpermitted h.2.1

/-- A call that runs a fiber or switches to it fails without a trace, unless it offers a stack that the fiber can
get while the fiber is not idle. -/
theorem failsCleanly_iff (m : Machine) (fiber addr_context size_context : ℕ) (seen : FiberState) :
    (FailsCleanly m seen (runImpl m fiber addr_context size_context seen) ↔
      ¬ (Passes m fiber addr_context ∧ m.tcb_fiber.isNone = true ∧ Attaches m addr_context size_context ∧
        seen ≠ .idle)) ∧ (FailsCleanly m seen (switchImpl m fiber addr_context size_context seen) ↔
      ¬ (Passes m fiber addr_context ∧ m.tcb_fiber.isSome = true ∧ Attaches m addr_context size_context ∧
        seen ≠ .idle)) := by
  refine ⟨?_, enter_iff ..⟩
  rw [← enter_iff]
  unfold runImpl
  generalize enter _ m fiber addr_context size_context seen = r
  obtain ⟨e | _, m'⟩ := r
  · exact Iff.rfl
  · exact iff_of_true nofun nofun

/-- A fiber without a stack of its own, as it runs on the stack of some thread. -/
def running : Machine where
  fiber := ⟨kFiberSignature0, .run, 1, 0, 0, 0, [], 0, 0, 0, 0, kFiberSignature1⟩
  mem := fun _ => 0
  tcb_fiber := none

/-- Another thread offers a stack to a fiber that runs: the call fails, and the fiber has the stack. -/
theorem running_attached : (runImpl running 8 4096 512 .run).1 = .error .state ∧
    (runImpl running 8 4096 512 .run).2.fiber.addr_context = 4096 ∧
    ¬ FailsCleanly running .run (runImpl running 8 4096 512 .run) := by
  refine ⟨rfl, rfl, fun h => ?_⟩
  rcases h .state rfl with h | h
  · exact absurd (congrArg (·.fiber.addr_context) h) (by decide)
  · exact absurd (congrArg (·.fiber.addr_context) h) (by decide)

/-! ## The margin of a stack -/

/-- `OrbisFiberInfo`, behind its size. -/
structure OrbisFiberInfo where
  entry : ℕ
  arg_on_initialize : BitVec 64
  addr_context : ℕ
  size_context : ℕ
  name : List UInt8
  size_context_margin : BitVec 64

/-- The loop of `sceFiberGetInfo`, with a bound on its turns, and where it ends. -/
def marginFrom (mem : Words) (stack_end : ℕ) : ℕ → ℕ → Option ℕ
  | 0, _ => none
  | turns + 1, stack_ptr =>
    if stack_ptr < stack_end then
      marginFrom mem stack_end turns (if mem stack_ptr = kFiberStackSizeCheck then stack_ptr + 8 else stack_ptr)
    else some stack_ptr

def sizeContextMargin (m : Machine) (turns : ℕ) : Option (BitVec 64) :=
  if m.fiber.flags &&& contextSizeCheck ≠ 0 ∧ m.fiber.addr_context ≠ 0 then
    if m.mem m.fiber.context_start = kFiberStackSignature then
      (marginFrom m.mem m.fiber.context_end turns (m.fiber.context_start + 8)).map
        fun stack_ptr => BitVec.ofNat 64 (stack_ptr - (m.fiber.context_start + 8))
    else some 0
  else some (-1)

/-- `sceFiberGetInfo`, with a bound on the turns of its loop. -/
def getInfo (m : Machine) (fiber fiber_info : ℕ) (size : BitVec 64) (turns : ℕ) :
    Option (Except FiberError OrbisFiberInfo) :=
  if fiber = 0 ∨ fiber_info = 0 then some (.error .null)
  else if fiber % 8 ≠ 0 ∨ fiber_info % 8 ≠ 0 then some (.error .alignment)
  else if size ≠ 128 then some (.error .invalid)
  else if m.fiber.magic_start ≠ kFiberSignature0 ∨ m.fiber.magic_end ≠ kFiberSignature1 then
    some (.error .invalid)
  else (sizeContextMargin m turns).map fun size_context_margin => .ok {
    entry := m.fiber.entry
    arg_on_initialize := m.fiber.arg_on_initialize
    addr_context := m.fiber.addr_context
    size_context := m.fiber.size_context
    name := m.fiber.name.take maxNameLength
    size_context_margin }

/-- The arguments of `sceFiberGetInfo` are accepted. -/
def Asks (m : Machine) (fiber fiber_info : ℕ) (size : BitVec 64) : Prop :=
  (fiber ≠ 0 ∧ fiber_info ≠ 0) ∧ (fiber % 8 = 0 ∧ fiber_info % 8 = 0) ∧ size = 128 ∧
    m.fiber.magic_start = kFiberSignature0 ∧ m.fiber.magic_end = kFiberSignature1

/-- A fiber got a stack while the check was on. -/
inductive SetUp : Machine → Prop
  | initialized {m m' : Machine} {fiber entry addr_context size_context : ℕ} {name : Option (List UInt8)}
    { arg_on_initialize : BitVec 64} {opt_param : Option (ℕ × BitVec 32)} {flags build_ver : BitVec 32}
    (h : fiberInitialize m fiber name entry arg_on_initialize addr_context size_context opt_param flags
      build_ver true = .ok m') (haddr : addr_context ≠ 0) : SetUp m'
  | attached {m m' : Machine} {addr_context size_context : ℕ} (hcheck : m.fiber.flags &&& contextSizeCheck ≠ 0)
    (h : attachContext m addr_context size_context = .ok m') : SetUp m'

/-- From some word of the stack on, and not below, it was written since. -/
structure WrittenFrom (m₀ m : Machine) (w : ℕ) : Prop where
  flags : m.fiber.flags = m₀.fiber.flags
  addr_context : m.fiber.addr_context = m₀.fiber.addr_context
  context_start : m.fiber.context_start = m₀.fiber.context_start
  context_end : m.fiber.context_end = m₀.fiber.context_end
  pos : 1 ≤ w
  lt : m.fiber.context_start + 8 * w < m.fiber.context_end
  below : ∀ i < w, m.mem (m.fiber.context_start + 8 * i) = m₀.mem (m.fiber.context_start + 8 * i)
  written : m.mem (m.fiber.context_start + 8 * w) ≠ kFiberStackSizeCheck

/-- The call returns, and reports what is left of a stack. -/
def Reports (m : Machine) (fiber fiber_info : ℕ) (size : BitVec 64) : Prop :=
  ∃ turns r, getInfo m fiber fiber_info size turns = some r ∧ ∀ info, r = .ok info →
    ∀ m₀ w, SetUp m₀ → WrittenFrom m₀ m w → info.size_context_margin = BitVec.ofNat 64 (8 * (w - 1))

theorem fillFrom_of_lt (h : a < stack_ptr) : fillFrom mem stack_ptr turns a = mem a := by
  induction turns generalizing mem stack_ptr with
  | zero => rfl
  | succ turns ih => rw [fillFrom, ih (Nat.lt_add_right 8 h), update_of_ne (Nat.ne_of_lt h)]

theorem signStack_start (mem : Words) (start stop : ℕ) (check : Bool) :
    signStack mem start stop check start = kFiberStackSignature := by
  unfold signStack
  split_ifs
  · rw [fillFrom_of_lt (Nat.lt_add_of_pos_right (by decide)), update_self]
  · rw [update_self]

theorem flags_or_check (flags : BitVec 32) : (flags ||| contextSizeCheck) &&& contextSizeCheck ≠ 0 := by
  intro h
  have hbit := congrArg (·.getLsbD 4) h
  simp [contextSizeCheck] at hbit

theorem of_guard {p : Prop} [Decidable p] {e : FiberError} {x : Except FiberError Machine} {m : Machine}
    (h : (if p then .error e else x) = .ok m) : x = .ok m := by
  split_ifs at h
  exact h

/-- However it was set up, the stack is signed. -/
theorem SetUp.signed {m : Machine} (h : SetUp m) : m.fiber.flags &&& contextSizeCheck ≠ 0 ∧
    m.fiber.addr_context ≠ 0 ∧ m.mem m.fiber.context_start = kFiberStackSignature := by
  cases h with
  | @initialized m0 _ fiber entry addr_context size_context name _ _ flags build_ver h haddr =>
    cases name with
    | none => cases h
    | some name =>
      iterate 8 replace h := of_guard h
      obtain rfl := Except.ok.inj h
      refine ⟨flags_or_check _, haddr, ?_⟩
      dsimp only
      rw [if_pos haddr, if_pos haddr]
      exact signStack_start ..
  | @attached m0 _ addr_context size_context hcheck h =>
    rcases attachContext_eq m0 addr_context size_context with ⟨e, herror⟩ | ⟨hattaches, -⟩
    · rw [herror] at h
      cases h
    · unfold attachContext at h
      iterate 4 replace h := of_guard h
      obtain rfl := Except.ok.inj h
      exact ⟨hcheck, hattaches.1, signStack_start ..⟩

/-- The loop ends only if it finds the pattern everywhere. -/
theorem marginFrom_pattern
    (h : marginFrom mem stack_end turns stack_ptr = some result) (hi : stack_ptr + 8 * i < stack_end) :
    mem (stack_ptr + 8 * i) = kFiberStackSizeCheck := by
  induction turns generalizing stack_ptr i with
  | zero => cases h
  | succ turns ih =>
    rw [marginFrom, if_pos (Nat.lt_of_le_of_lt (Nat.le_add_right ..) hi)] at h
    split_ifs at h with hword
    · cases i with
      | zero => exact hword
      | succ i =>
        have hnext : stack_ptr + 8 * (i + 1) = stack_ptr + 8 + 8 * i := by omega
        rw [hnext] at hi ⊢
        exact ih h hi
    · -- The loop does not move.
      exact absurd (ih h (i := 0) (Nat.lt_of_le_of_lt (Nat.le_add_right ..) hi)) hword

theorem exists_marginFrom (h : ∀ i, stack_ptr + 8 * i < stack_end → mem (stack_ptr + 8 * i) = kFiberStackSizeCheck) :
    ∃ turns result, marginFrom mem stack_end turns stack_ptr = some result := by
  obtain ⟨n, hn⟩ : ∃ n, stack_end ≤ stack_ptr + n := ⟨stack_end, Nat.le_add_left ..⟩
  induction n using Nat.strongRecOn generalizing stack_ptr with
  | ind n ih =>
    by_cases hlt : stack_ptr < stack_end
    · obtain ⟨turns, result, hresult⟩ := @ih (n - 8) (by omega) (stack_ptr + 8)
        (fun i hi => by
          have hnext : stack_ptr + 8 + 8 * i = stack_ptr + 8 * (i + 1) := by omega
          rw [hnext] at hi ⊢
          exact h (i + 1) hi) (by omega)
      exact ⟨turns + 1, result, by rw [marginFrom, if_pos hlt, if_pos (show mem stack_ptr = _ from h 0 hlt), hresult]⟩
    · exact ⟨1, stack_ptr, by rw [marginFrom, if_neg hlt]⟩

theorem getInfo_of_asks (h : Asks m fiber fiber_info size) : getInfo m fiber fiber_info size turns =
      (sizeContextMargin m turns).map fun margin => .ok ⟨m.fiber.entry, m.fiber.arg_on_initialize,
        m.fiber.addr_context, m.fiber.size_context, m.fiber.name.take maxNameLength, margin⟩ := by
  obtain ⟨hnull, haligned, hsize, hmagic⟩ := h
  unfold getInfo
  rw [if_neg (by tauto), if_neg (by tauto), if_neg (not_not.mpr hsize), if_neg (by tauto)]

/-- `sceFiberGetInfo` returns, and reports what is left, exactly when it is not asked about a signed stack with a
word behind the signature that is not the pattern. -/
theorem reports_iff (m : Machine) (fiber fiber_info : ℕ) (size : BitVec 64) :
    Reports m fiber fiber_info size ↔ (Asks m fiber fiber_info size →
      m.fiber.flags &&& contextSizeCheck ≠ 0 → m.fiber.addr_context ≠ 0 →
      m.mem m.fiber.context_start = kFiberStackSignature →
      ∀ i, m.fiber.context_start + 8 + 8 * i < m.fiber.context_end →
        m.mem (m.fiber.context_start + 8 + 8 * i) = kFiberStackSizeCheck) := by
  have hwords (m₀ : Machine) (w : ℕ) (hsetUp : SetUp m₀) (hw : WrittenFrom m₀ m w) :
      m.fiber.flags &&& contextSizeCheck ≠ 0 ∧ m.fiber.addr_context ≠ 0 ∧
        m.mem m.fiber.context_start = kFiberStackSignature := by
    obtain ⟨hflags, haddr, hsigned⟩ := hsetUp.signed
    rw [← hw.flags] at hflags
    rw [← hw.addr_context] at haddr
    exact ⟨hflags, haddr, (hw.below 0 hw.pos).trans (hw.context_start ▸ hsigned)⟩
  constructor
  · rintro ⟨turns, r, hr, -⟩ hasks hflags haddr hsigned i hi
    rw [getInfo_of_asks hasks, sizeContextMargin, if_pos ⟨hflags, haddr⟩, if_pos hsigned, Option.map_map] at hr
    obtain ⟨result, hresult, -⟩ := Option.map_eq_some_iff.mp hr
    exact marginFrom_pattern hresult hi
  · intro h
    by_cases hasks : Asks m fiber fiber_info size
    · obtain ⟨turns, margin, hmargin⟩ : ∃ turns margin, sizeContextMargin m turns = some margin := by
        unfold sizeContextMargin
        split_ifs with hchecked hsigned
        · obtain ⟨turns, result, hresult⟩ := exists_marginFrom (h hasks hchecked.1 hchecked.2 hsigned)
          exact ⟨turns, _, by rw [hresult]; rfl⟩
        · exact ⟨0, _, rfl⟩
        · exact ⟨0, _, rfl⟩
      refine ⟨turns, _, by rw [getInfo_of_asks hasks, hmargin]; rfl, fun info _ m₀ w hsetUp hw => ?_⟩
      -- A stack that was written is not all pattern.
      obtain ⟨hflags, haddr, hsigned⟩ := hwords m₀ w hsetUp hw
      have hword := h hasks hflags haddr hsigned (w - 1)
      have hnext : m.fiber.context_start + 8 + 8 * (w - 1) = m.fiber.context_start + 8 * w := by
        have hpos := hw.pos
        omega
      rw [hnext] at hword
      exact absurd (hword hw.lt) hw.written
    · refine ⟨0, ?_⟩
      unfold Asks at hasks
      unfold getInfo
      split_ifs with hnull haligned hsize hmagic
      · exact ⟨_, rfl, nofun⟩
      · exact ⟨_, rfl, nofun⟩
      · exact ⟨_, rfl, nofun⟩
      · exact ⟨_, rfl, nofun⟩
      · tauto

/-- A fiber that was initialized with a stack of 512 bytes, and used its last word. -/
def used : Machine where
  fiber := ⟨kFiberSignature0, .run, 1, 0, 4096, 512, [], 0, contextSizeCheck, 4096, 4608, kFiberSignature1⟩
  mem := update (signStack (fun _ => 0) 4096 4608 true) 4600 1
  tcb_fiber := none

theorem used_not_reported : ¬ Reports used 8 8 128 := by
  rw [reports_iff]
  intro h
  have hword := h (by unfold Asks; decide) (by decide) (by decide) (by decide) 62 (by decide)
  exact absurd hword (by decide)

end ShadPS4.Fiber
