import ShadPS4.Lib.Transition
import Mathlib.Data.Int.Bitwise

/-!
# Thread-specific data

A slot of the key table is used for one key after another, and counts them. A value that a thread has stored
belongs to the key that the slot was used for then.
-/

namespace ShadPS4.Kernel.PthreadSpec

open Function

variable {s : State × Values}

def pthreadKeysMax : ℕ := 256

def pthreadDestructorIterations : ℕ := 4

structure Key where
  allocated : Bool
  seqno : ℕ
  /-- none is the null pointer -/
  destructor : Option ℕ

structure Elem where
  /-- zero is the null pointer -/
  data : ℕ
  seqno : ℕ

/-- What a `Pthread` has of its own data. -/
structure Specific where
  specific : Option (ℕ → Elem)
  specific_data_count : ℤ

structure State where
  keytable : ℕ → Key
  threads : ℕ → Specific

/-- Neither keys nor data. -/
def initial : State := ⟨fun _ => ⟨false, 0, none⟩, fun _ => ⟨none, 0⟩⟩

inductive Posix
  | ok
  | eagain
  | einval
  | enomem
deriving DecidableEq

section

variable (st : State)

/-- The slot that the next key uses. -/
def State.free : Option ℕ :=
  (List.range pthreadKeysMax).find? fun key => !(st.keytable key).allocated

def State.keyCreate (destructor : Option ℕ) : State × Posix × Option ℕ :=
  match st.free with
  | some key =>
    ({ st with
      keytable := update st.keytable key
        ⟨true, ((st.keytable key).seqno + 1) % 2^32, destructor⟩ }, .ok, some key)
  | none => (st, .eagain, none)

/-- `posix_pthread_key_delete`. A key is compared as an unsigned number. -/
def State.keyDelete (key : ℕ) : State × Posix :=
  if key ≥ pthreadKeysMax then (st, .einval)
  else if ¬ (st.keytable key).allocated then (st, .einval)
  else
    ({ st with keytable := update st.keytable key { st.keytable key with allocated := false } },
      .ok)

/-- The values of a thread, which are null before there is room for them. -/
def State.elems (t : ℕ) : ℕ → Elem := (st.threads t).specific.getD fun _ => ⟨0, 0⟩

def State.put (t : ℕ) (elems : ℕ → Elem) (specific_data_count : ℤ) : State :=
  { st with threads := update st.threads t ⟨some elems, specific_data_count⟩ }

/-- `posix_pthread_setspecific`, when there is memory for the values or not. -/
def State.setspecific (t key value : ℕ) (memory : Bool) : State × Posix :=
  let count := (st.threads t).specific_data_count
  if (st.threads t).specific.isNone ∧ ¬ memory then (st, .enomem)
  else if key ≥ pthreadKeysMax then (st.put t (st.elems t) count, .einval)
  else if ¬ (st.keytable key).allocated then (st.put t (st.elems t) count, .einval)
  else
    (st.put t (update (st.elems t) key ⟨value, (st.keytable key).seqno⟩)
      (if (st.elems t key).data = 0 then if value ≠ 0 then count + 1 else count
      else if value = 0 then count - 1 else count), .ok)

def State.getspecific (t key : ℕ) : ℕ :=
  match (st.threads t).specific with
  | none => 0
  | some elems =>
    if key ≥ pthreadKeysMax then 0
    else if (st.keytable key).allocated ∧ (elems key).seqno = (st.keytable key).seqno then
      (elems key).data
    else 0

/-- The visit of a slot in `_thread_cleanupspecific`, and the destructor that is called with a value. -/
def State.cleanupKey (t key : ℕ) : State × Option (ℕ × ℕ) :=
  let elem := st.elems t key
  let cleared := st.put t (update (st.elems t) key { elem with data := 0 })
    ((st.threads t).specific_data_count - 1)
  if (st.keytable key).allocated ∧ elem.data ≠ 0 then
    (cleared, if elem.seqno = (st.keytable key).seqno then
      (st.keytable key).destructor.map (·, elem.data) else none)
  else if elem.data ≠ 0 then (cleared, none)
  else (st, none)

end

/-! ## Steps -/

inductive Op
  | keyCreate (destructor : Option ℕ)
  | keyDelete (key : ℕ)
  | setspecific (t key value : ℕ) (memory : Bool)
  | cleanup (t key : ℕ)

/-- What the threads have stored since the keys were created, by thread and key. -/
abbrev Values := ℕ → ℕ → ℕ

/-- A value is stored for a key, or for all threads when it is created. -/
def Values.set (values : Values) (t key value : ℕ) : Values :=
  update values t (update (values t) key value)

/-- The state after an operation, and the values that are stored. -/
def step (s : State × Values) : Op → State × Values
  | .keyCreate destructor =>
    ((s.1.keyCreate destructor).1, fun t key =>
      if s.1.free = some key then 0 else s.2 t key)
  | .keyDelete key => ((s.1.keyDelete key).1, s.2)
  | .setspecific t key value memory =>
    let r := s.1.setspecific t key value memory
    (r.1, if r.2 = .ok then s.2.set t key value else s.2)
  | .cleanup t key => ((s.1.cleanupKey t key).1, s.2.set t key 0)

/-- No slot is used for more keys than can be told apart, and slots are visited that there are. -/
def Allowed (s : State × Values) : Op → Prop
  | .keyCreate _ => ∀ key ∈ s.1.free, (s.1.keytable key).seqno + 1 < 2^32
  | .cleanup _ key => key < pthreadKeysMax
  | _ => True

instance (s : State × Values) (o : Op) : Decidable (Allowed s o) :=
  match o with
  | .keyCreate _ => inferInstanceAs (Decidable (∀ key ∈ s.1.free, (s.1.keytable key).seqno + 1 < 2^32))
  | .keyDelete _ => .isTrue trivial
  | .setspecific .. => .isTrue trivial
  | .cleanup _ key => inferInstanceAs (Decidable (key < pthreadKeysMax))

/-- The operations of all threads while a destructor runs, as far as they are allowed. -/
def during (os : List Op) (s : State × Values) : State × Values :=
  os.foldl (fun s o => if Allowed s o then step s o else s) s

/-- One turn of the loops of `_thread_cleanupspecific`, and the calls of destructors. -/
def visit (others : ℕ → List Op) (t key : ℕ) (s : (State × Values) × List (ℕ × ℕ)) :
    (State × Values) × List (ℕ × ℕ) :=
  if 0 < (s.1.1.threads t).specific_data_count then
    let cleaned := step s.1 (.cleanup t key)
    match (s.1.1.cleanupKey t key).2 with
    | none => (cleaned, s.2)
    | some call => (during (others s.2.length) cleaned, s.2 ++ [call])
  else s

/-- The first turns of the loops, slot by slot and round by round. -/
def visits (others : ℕ → List Op) (t : ℕ) (s : State × Values) : ℕ → (State × Values) × List (ℕ × ℕ)
  | 0 => (s, [])
  | n + 1 => visit others t (n % pthreadKeysMax) (visits others t s n)

/-- The loops with some turns, and what is done after them. -/
def cleanupTurns (turns : ℕ) (others : ℕ → List Op) (t : ℕ) (s : State × Values) : State × List (ℕ × ℕ) :=
  let r := visits others t s turns
  ({ r.1.1 with
    threads := update r.1.1.threads t
      ⟨none, (r.1.1.threads t).specific_data_count⟩ }, r.2)

/-- `_thread_cleanupspecific`, and the calls of destructors. -/
def cleanupspecific : (ℕ → List Op) → ℕ → State × Values → State × List (ℕ × ℕ) :=
  cleanupTurns (pthreadDestructorIterations * pthreadKeysMax)

/-! ## What is kept -/

def stored (elems : ℕ → Elem) : ℕ := (List.range pthreadKeysMax).countP fun key => (elems key).data ≠ 0

variable {st st' : State} {values values' : Values} {t key : ℕ}

/-- What holds between the steps. -/
structure Kept (st : State) (values : Values) : Prop where
  count : ∀ t, (st.threads t).specific_data_count = stored (st.elems t)
  seqno : ∀ t key, (st.elems t key).seqno ≤ (st.keytable key).seqno
  value : ∀ t key, values t key =
    if (st.elems t key).seqno = (st.keytable key).seqno then (st.elems t key).data else 0

theorem countP_update (elems : ℕ → Elem) (elem : Elem) (h : key < n) :
    (List.range n).countP (fun k => (update elems key elem k).data ≠ 0) +
      (if (elems key).data ≠ 0 then 1 else 0) =
    (List.range n).countP (fun k => (elems k).data ≠ 0) + (if elem.data ≠ 0 then 1 else 0) := by
  induction n with
  | zero => exact absurd h (Nat.not_lt_zero key)
  | succ n ih =>
    simp only [List.range_succ, List.countP_append, List.countP_singleton]
    rcases eq_or_ne key n with rfl | hne
    · have hsame : (List.range key).countP (fun k => (update elems key elem k).data ≠ 0) =
          (List.range key).countP fun k => (elems k).data ≠ 0 := by
        refine List.countP_congr fun k hk => ?_
        rw [update_of_ne (Nat.ne_of_lt (List.mem_range.mp hk))]
      rw [hsame, update_self]
      simp only [decide_eq_true_eq]
      omega
    · have := ih (by omega)
      rw [update_of_ne hne.symm]
      omega

theorem elems_put : (st.put t elems count).elems u = if u = t then elems else st.elems u := by
  unfold State.elems State.put
  dsimp only
  split_ifs with hu
  · rw [hu, update_self]
    rfl
  · rw [update_of_ne hu]

section

variable (h : Kept st values)

include h

/-- A slot of a thread is written. -/
theorem Kept.put (hkey : key < pthreadKeysMax) (elem : Elem) (count : ℤ)
    (hseqno : elem.seqno ≤ (st.keytable key).seqno)
    (hcount : count = (st.threads t).specific_data_count + (if elem.data ≠ 0 then 1 else 0) -
      (if (st.elems t key).data ≠ 0 then 1 else 0)) :
    Kept (st.put t (Function.update (st.elems t) key elem) count) (values.set t key
      (if elem.seqno = (st.keytable key).seqno then elem.data else 0)) := by
  constructor
  · intro u
    rw [elems_put]
    split_ifs with hu
    · have hupdate := countP_update (st.elems t) elem hkey
      have hbefore := h.count t
      unfold stored at *
      unfold State.put
      dsimp only
      rw [hu, update_self]
      dsimp only
      split_ifs at hupdate hcount <;> omega
    · unfold State.put
      dsimp only
      rw [update_of_ne hu]
      exact h.count u
  · intro u k
    rw [elems_put]
    split_ifs with hu
    · rcases eq_or_ne k key with rfl | hk
      · rwa [update_self]
      · rw [update_of_ne hk]
        exact h.seqno t k
    · exact h.seqno u k
  · intro u k
    unfold Values.set
    rw [elems_put]
    show _ = if _ = (st.keytable k).seqno then _ else 0
    rcases eq_or_ne u t with rfl | hu
    · rw [if_pos rfl, update_self]
      rcases eq_or_ne k key with rfl | hk
      · rw [update_self, update_self]
      · rw [update_of_ne hk, update_of_ne hk]
        exact h.value u k
    · rw [if_neg hu, update_of_ne hu]
      exact h.value u k

theorem Kept.keyCreate (hfew : ∀ key ∈ st.free, (st.keytable key).seqno + 1 < 2^32) :
    Kept (st.keyCreate destructor).1 fun t key => if st.free = some key then 0 else values t key := by
  unfold State.keyCreate
  cases hfree : st.free with
  | none => exact ⟨h.count, h.seqno, fun t k => by rw [if_neg (by simp)]; exact h.value t k⟩
  | some key =>
    have hseqno : ((st.keytable key).seqno + 1) % 2^32 = (st.keytable key).seqno + 1 :=
      Nat.mod_eq_of_lt (hfew key hfree)
    dsimp only
    rw [hseqno]
    refine ⟨h.count, fun u k => ?_, fun u k => ?_⟩
    · have hle := h.seqno u k
      show (st.elems u k).seqno ≤ (Function.update st.keytable key _ k).seqno
      rcases eq_or_ne k key with rfl | hk
      · rw [update_self]
        exact Nat.le_succ_of_le hle
      · rwa [update_of_ne hk]
    · show _ = if (st.elems u k).seqno = (Function.update st.keytable key _ k).seqno then
        (st.elems u k).data else 0
      rcases eq_or_ne k key with rfl | hk
      · -- What was stored belongs to an earlier key.
        have hle := h.seqno u k
        rw [update_self, if_pos rfl, if_neg (by dsimp only; omega)]
      · rw [update_of_ne hk, if_neg fun heq => hk (Option.some.inj heq).symm]
        exact h.value u k

theorem Kept.keyDelete : Kept (st.keyDelete key).1 values := by
  unfold State.keyDelete
  split
  · exact h
  split
  · exact h
  have hkey (k : ℕ) : (Function.update st.keytable key
      { st.keytable key with allocated := false } k).seqno = (st.keytable k).seqno := by
    rcases eq_or_ne k key with rfl | hk
    · rw [update_self]
    · rw [update_of_ne hk]
  refine ⟨h.count, fun u k => (hkey k).symm ▸ h.seqno u k, fun u k => ?_⟩
  rw [hkey]
  exact h.value u k

theorem Kept.setspecific {value : ℕ} {memory : Bool} : Kept (st.setspecific t key value memory).1
      (if (st.setspecific t key value memory).2 = .ok then values.set t key value else values) := by
  have hroom : Kept (st.put t (st.elems t) (st.threads t).specific_data_count) values := by
    have helems (u : ℕ) : (st.put t (st.elems t) (st.threads t).specific_data_count).elems u = st.elems u := by
      rw [elems_put]
      split_ifs with hu
      · rw [hu]
      · rfl
    refine ⟨fun u => ?_, fun u k => (helems u).symm ▸ h.seqno u k, fun u k => (helems u).symm ▸ h.value u k⟩
    rw [helems, ← h.count]
    unfold State.put
    dsimp only
    rcases eq_or_ne u t with rfl | hu
    · rw [update_self]
    · rw [update_of_ne hu]
  unfold State.setspecific
  by_cases hmemory : (st.threads t).specific.isNone ∧ ¬ memory
  · rw [if_pos hmemory, if_neg nofun]
    exact h
  rw [if_neg hmemory]
  by_cases hmax : key ≥ pthreadKeysMax
  · rw [if_pos hmax, if_neg nofun]
    exact hroom
  rw [if_neg hmax]
  by_cases hallocated : ¬ (st.keytable key).allocated
  · rw [if_pos hallocated, if_neg nofun]
    exact hroom
  rw [if_neg hallocated, if_pos rfl]
  have hput (count : ℤ) := h.put (t := t) (Nat.not_le.mp hmax) ⟨value, (st.keytable key).seqno⟩ count (Nat.le_refl _)
  dsimp only at hput ⊢
  rw [if_pos rfl] at hput
  apply hput
  split_ifs <;> omega

theorem Kept.cleanupKey (hkey : key < pthreadKeysMax) : Kept (st.cleanupKey t key).1 (values.set t key 0) := by
  unfold State.cleanupKey
  dsimp only
  by_cases hdata : (st.elems t key).data = 0
  · -- There is nothing to take.
    have hnone : values t key = 0 := by rw [h.value, hdata, ite_self]
    rw [if_neg fun hallocated => hallocated.2 hdata, if_neg (not_not.mpr hdata)]
    unfold Values.set
    rw [← hnone, update_eq_self, update_eq_self]
    exact h
  · have hput := h.put (t := t) hkey { st.elems t key with data := 0 }
      ((st.threads t).specific_data_count - 1) (h.seqno t key)
      (by rw [if_pos hdata, if_neg (by simp)]; omega)
    rw [ite_self] at hput
    split
    · exact hput
    · exact hput

theorem Kept.getspecific : st.getspecific t key =
    if key < pthreadKeysMax ∧ (st.keytable key).allocated then values t key else 0 := by
  rw [h.value]
  unfold State.getspecific State.elems
  split
  next hnone => simp [hnone]
  next elems hsome =>
    rw [hsome, Option.getD_some]
    by_cases hmax : key ≥ pthreadKeysMax
    · rw [if_pos hmax, if_neg (by omega)]
    · by_cases hallocated : (st.keytable key).allocated
      · rw [if_neg hmax, if_pos (⟨Nat.not_le.mp hmax, hallocated⟩ : _ ∧ _)]
        simp only [hallocated, true_and]
      · rw [if_neg hmax, if_neg fun hand => hallocated hand.1, if_neg fun hand => hallocated hand.2]

end

/-! ## Runs -/

theorem Kept.step (h : Kept s.1 s.2) (ho : Allowed s o) : Kept (step s o).1 (step s o).2 := by
  cases o with
  | keyCreate destructor => exact h.keyCreate ho
  | keyDelete key => exact h.keyDelete
  | setspecific t key value memory => exact h.setspecific
  | cleanup t key => exact h.cleanupKey ho

theorem Kept.during (h : Kept s.1 s.2) (os : List Op) : Kept (during os s).1 (during os s).2 := by
  induction os generalizing s with
  | nil => exact h
  | cons o os ih =>
    refine ih ?_
    dsimp only
    split_ifs with ho
    · exact h.step ho
    · exact h

theorem Kept.visits (h : Kept s.1 s.2) (others : ℕ → List Op) (t n : ℕ) :
    Kept (visits others t s n).1.1 (visits others t s n).1.2 := by
  induction n with
  | zero => exact h
  | succ n ih =>
    have hcleaned := ih.step (o := .cleanup t (n % pthreadKeysMax)) (Nat.mod_lt n (by decide))
    unfold PthreadSpec.visits visit
    split
    · split
      · exact hcleaned
      · exact hcleaned.during _
    · exact ih

/-- The destructor that is called gets the value that the thread reads. -/
theorem Kept.call (h : Kept st values) (hkey : key < pthreadKeysMax) : (st.cleanupKey t key).2 =
    if st.getspecific t key = 0 then none else (st.keytable key).destructor.map (·, st.getspecific t key) := by
  rw [h.getspecific, h.value]
  simp only [hkey, true_and]
  unfold State.cleanupKey
  by_cases hdata : (st.elems t key).data = 0
  · simp [hdata]
  · by_cases hallocated : (st.keytable key).allocated
    · by_cases hseqno : (st.elems t key).seqno = (st.keytable key).seqno
      · simp [hdata, hallocated, hseqno]
      · simp [hdata, hallocated, hseqno]
    · simp [hdata, hallocated]

theorem cleanupKey_data : ((st.cleanupKey t key).1.elems t key).data = 0 := by
  unfold State.cleanupKey
  dsimp only
  by_cases hdata : (st.elems t key).data = 0
  · rw [if_neg fun hallocated => hallocated.2 hdata, if_neg (not_not.mpr hdata)]
    exact hdata
  · rw [if_pos hdata]
    split
    · rw [elems_put, if_pos rfl, update_self]
    · rw [elems_put, if_pos rfl, update_self]

theorem cleanupTurns_calls : (cleanupTurns turns others t s).2 = (visits others t s turns).2 := rfl

theorem stored_eq_zero (h : stored elems = 0) (hkey : key < pthreadKeysMax) : (elems key).data = 0 := by
  have hnone := List.countP_eq_zero.mp h key (List.mem_range.mpr hkey)
  simpa using hnone

end ShadPS4.Kernel.PthreadSpec
