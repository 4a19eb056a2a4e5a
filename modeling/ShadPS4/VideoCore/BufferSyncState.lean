import Mathlib.Data.List.Basic

/-!
# `BufferSyncState`

The access that a buffer was last declared for. An access is declared for the bytes from an offset to the end of
the buffer, but the state is that of the whole buffer.
-/

namespace ShadPS4.VideoCore

inductive BufferAccess
  | initial
  | general
  | vertexRead
  | indexRead
  | indirectRead
  | shaderRead
  | shaderWrite
  | transferRead
  | transferWrite
deriving DecidableEq

structure BufferTransition where
  before : BufferAccess
  after : BufferAccess
  offset : ℕ
  size : ℕ
deriving DecidableEq

structure BufferSyncState where
  current : BufferAccess := .initial

def BufferSyncState.transition (s : BufferSyncState) (next : BufferAccess)
    (offset buffer_size : ℕ) : BufferSyncState × Option BufferTransition :=
  if s.current = next then (s, none)
  else if buffer_size ≤ offset then (s, none)
  else ({ s with current := next }, some ⟨s.current, next, offset, buffer_size - offset⟩)

/-- What one `Transition` declares: an access of the bytes from an offset on. -/
structure BufferCall where
  next : BufferAccess
  offset : ℕ

def BufferCall.Covers (c : BufferCall) (buffer_size b : ℕ) : Prop := c.offset ≤ b ∧ b < buffer_size

def BufferTransition.Covers (t : BufferTransition) (b : ℕ) : Prop :=
  t.offset ≤ b ∧ b < t.offset + t.size

def BufferSyncState.emitted (buffer_size : ℕ) : BufferSyncState → List BufferCall → List (Option BufferTransition)
  | _, [] => []
  | s, c :: calls =>
    let (s, t) := s.transition c.next c.offset buffer_size
    t :: s.emitted buffer_size calls

variable {s : BufferSyncState} {c : BufferCall} {calls : List BufferCall} {buffer_size b j k : ℕ}

theorem BufferSyncState.transition_spec (h : c.offset < buffer_size) :
    s.transition c.next c.offset buffer_size = (⟨c.next⟩, if s.current = c.next then none
      else some ⟨s.current, c.next, c.offset, buffer_size - c.offset⟩) := by
  unfold transition
  by_cases heq : s.current = c.next
  · rw [if_pos heq, if_pos heq, ← heq]
  · rw [if_neg heq, if_neg (Nat.not_le.mpr h), if_neg heq]

/-- The access that a state and the calls before the `k`-th leave. -/
def BufferSyncState.accessBefore (s : BufferSyncState) (calls : List BufferCall) (k : ℕ) : BufferAccess :=
  match k with
  | 0 => s.current
  | k + 1 => (calls[k]?.map (·.next)).getD s.current

theorem BufferSyncState.emitted_getElem? (hin : ∀ c ∈ calls, c.offset < buffer_size) (hk : calls[k]? = some c) :
    (s.emitted buffer_size calls)[k]? = some (if s.accessBefore calls k = c.next then none
        else some ⟨s.accessBefore calls k, c.next, c.offset, buffer_size - c.offset⟩) := by
  induction calls generalizing s k with
  | nil => simp at hk
  | cons d calls ih =>
    simp only [emitted, transition_spec (hin d List.mem_cons_self)]
    cases k with
    | zero =>
      rw [List.getElem?_cons_zero, Option.some.injEq] at hk
      rw [hk, List.getElem?_cons_zero]
      rfl
    | succ k =>
      rw [List.getElem?_cons_succ] at hk ⊢
      rw [ih (fun c hc => hin c (List.mem_cons_of_mem d hc)) hk]
      -- The first call is the one before the next, or is not seen any more.
      have hbefore : accessBefore ⟨d.next⟩ calls k = s.accessBefore (d :: calls) (k + 1) := by
        cases k with
        | zero => rfl
        | succ k =>
          have hlt : k < calls.length := by
            have := (List.getElem?_eq_some_iff.mp hk).1
            omega
          simp [accessBefore, List.getElem?_eq_getElem hlt]
      rw [hbefore]

/-- The calls `j` and `k` are about the byte, and no call between them is. -/
structure ConsecutiveCalls (buffer_size : ℕ) (calls : List BufferCall) (b j k : ℕ) : Prop where
  lt : j < k
  covers : ∀ i c, (i = j ∨ i = k) → calls[i]? = some c → c.Covers buffer_size b
  between : ∀ i c, j < i → i < k → calls[i]? = some c → ¬ c.Covers buffer_size b

/-- The call `k` emits a transition that covers the byte, from the access given. -/
def EmitsFrom (buffer_size : ℕ) (calls : List BufferCall) (k b : ℕ) (before : BufferAccess) : Prop :=
  ∃ t, (BufferSyncState.emitted buffer_size {} calls)[k]? = some (some t) ∧ t.Covers b ∧
    t.before = before

end ShadPS4.VideoCore
