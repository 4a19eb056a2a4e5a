import ShadPS4.Kernel.EventFlag

/-!
# The order of the waiting threads

Semaphores and event flags put a waiting thread into a list by its priority, and their loops run through the list
from its front.
-/

namespace ShadPS4.Kernel

open Function List
open Option (some.inj)

variable {o : EvfOp}

theorem pairwise_insert {α : Type} {R : α → α → Prop} {p : α → Bool} {x : α} {l : List α}
    (h : l.Pairwise R) (hbefore : ∀ a ∈ l, p a = true → R a x) (hafter : ∀ a ∈ l, p a = false → R x a)
    (htrans : ∀ a b, R x a → R a b → R x b) : (l.takeWhile p ++ x :: l.dropWhile p).Pairwise R := by
  induction l with
  | nil => simp
  | cons a l ih =>
    obtain ⟨ha, hl⟩ := List.pairwise_cons.mp h
    cases hp : p a with
    | true =>
      rw [takeWhile_cons_of_pos hp, dropWhile_cons_of_pos hp, cons_append, pairwise_cons]
      refine ⟨fun b hb => ?_, ih hl (fun b hb => hbefore b (mem_cons_of_mem a hb))
        fun b hb => hafter b (mem_cons_of_mem a hb)⟩
      rcases mem_append.mp hb with hb | hb
      · exact ha b ((takeWhile_sublist p).mem hb)
      · rcases mem_cons.mp hb with rfl | hb
        · exact hbefore a mem_cons_self hp
        · exact ha b ((dropWhile_sublist p).mem hb)
    | false =>
      have hx := hafter a mem_cons_self hp
      rw [takeWhile_cons_of_neg (by simp [hp]), dropWhile_cons_of_neg (by simp [hp])]
      refine List.pairwise_cons.mpr ⟨fun b hb => ?_, h⟩
      rcases mem_cons.mp hb with rfl | hb
      · exact hx
      · exact htrans a b hx (ha b hb)

theorem mem_insert {α : Type} {p : α → Bool} {x y : α} {l : List α}
    (h : y ∈ l.takeWhile p ++ x :: l.dropWhile p) : y = x ∨ y ∈ l := by
  rcases mem_append.mp h with hin | hin
  · exact .inr ((takeWhile_sublist p).mem hin)
  · exact (mem_cons.mp hin).imp_right (dropWhile_sublist p).mem

/-- A list of calls is in the order of their numbers of priority, and those with the same number are in
the order in which they came. -/
def Ordered (prio : ℕ → ℤ) (calls : List ℕ) : Prop :=
  calls.Pairwise fun a b => prio a < prio b ∨ (prio a = prio b ∧ a < b)

theorem Ordered.insert {prio : ℕ → ℤ} {calls : List ℕ} {new : ℕ} (h : Ordered prio calls)
    (hnew : ∀ a ∈ calls, a < new) {p : ℕ → Bool} (hp : ∀ a, p a = true ↔ prio a ≤ prio new) :
    Ordered prio (calls.takeWhile p ++ new :: calls.dropWhile p) := by
  apply pairwise_insert h
  · intro a ha hle
    have := (hp a).mp hle
    have := hnew a ha
    omega
  · intro a _ hgt
    have hlt : ¬ prio a ≤ prio new := fun hle => by simp [(hp a).mpr hle] at hgt
    omega
  · omega

theorem Ordered.congr (h : Ordered prio calls)
    (hsub : calls'.Sublist calls) (hsame : ∀ a ∈ calls, prio' a = prio a) : Ordered prio' calls' := by
  refine (h.sublist hsub).imp_of_mem fun ha hb hab => ?_
  rw [hsame _ (hsub.mem ha), hsame _ (hsub.mem hb)]
  exact hab

/-! ## Semaphores -/

def SemState.prio (st : SemState) (id : ℕ) : ℤ := (st.calls id).thread.priority

/-- The waiting threads of a semaphore are in order, and came before the next call. -/
structure SemState.InOrder (st : SemState) : Prop where
  mode : st.sem.is_fifo = false
  lt_next : ∀ id ∈ st.sem.wait_list, id < st.next
  ordered : Ordered st.prio st.sem.wait_list

variable {st st' : SemState}

theorem SemState.InOrder.shrink (h : st.InOrder) (hmode : st'.sem.is_fifo = st.sem.is_fifo)
    (hsub : st'.sem.wait_list.Sublist st.sem.wait_list) (hnext : st.next ≤ st'.next)
    (hprio : ∀ id < st.next, st'.prio id = st.prio id) : st'.InOrder :=
  ⟨hmode.trans h.mode, fun id hid => Nat.lt_of_lt_of_le (h.lt_next id (hsub.mem hid)) hnext,
    h.ordered.congr hsub fun a ha => hprio a (h.lt_next a ha)⟩

theorem SemState.prio_newCall {need_count : ℤ} {timeout : Option ℕ} {priority : ℕ}
    {result : Option SemResult} {id : ℕ} (hid : id < st.next) :
    (st.newCall need_count timeout priority result).prio id = st.prio id := by
  show (((update st.calls st.next _ id).thread.priority : ℕ) : ℤ) = _
  rw [update_of_ne (Nat.ne_of_lt hid)]
  rfl

theorem grant_sublist (need : ℕ → ℤ) (l : List ℕ) (t : ℤ) :
    (grant need l t).1.Sublist l ∧ (grant need l t).2.1.Sublist l := by
  induction l generalizing t with
  | nil => exact ⟨.slnil, .slnil⟩
  | cons id rest ih =>
    unfold grant
    split_ifs
    · exact ⟨(ih t).1.cons_cons id, (ih t).2.cons id⟩
    · exact ⟨(ih _).1.cons id, (ih _).2.cons_cons id⟩

theorem SemState.InOrder.wait (h : st.InOrder) {can_block : Bool} {need_count : ℤ}
    {timeout : Option ℕ} {prio : ℕ} : (st.wait can_block need_count timeout prio).InOrder := by
  have hcall (result : Option SemResult) : (st.newCall need_count timeout prio result).InOrder :=
    h.shrink rfl (.refl _) (Nat.le_succ _) fun _ => prio_newCall
  unfold SemState.wait
  dsimp only
  rw [h.mode, if_neg Bool.false_ne_true]
  split_ifs
  · exact (hcall _).shrink h.mode.symm (.refl _) le_rfl fun _ _ => rfl
  · exact hcall _
  · exact hcall _
  · have hold : Ordered (st.newCall need_count timeout prio none).prio st.sem.wait_list :=
      h.ordered.congr (.refl _) fun a ha => prio_newCall (h.lt_next a ha)
    refine ⟨rfl, fun id hid => ?_, hold.insert h.lt_next fun a => ?_⟩
    · rcases mem_insert hid with rfl | hid
      · exact Nat.lt_succ_self _
      · exact Nat.lt_succ_of_lt (h.lt_next id hid)
    · rw [decide_eq_true_iff]
      exact Int.ofNat_le.symm

theorem SemState.InOrder.step (h : st.InOrder) {o : SemOp} (hstep : st.step o = some st') : st'.InOrder := by
  cases o with
  | wait can_block need_count timeout prio => exact some.inj hstep ▸ h.wait
  | finish id timed_out =>
    change st.finish id timed_out = some st' at hstep
    unfold SemState.finish at hstep
    dsimp only at hstep
    split_ifs at hstep
    all_goals
      obtain rfl := some.inj hstep
      refine h.shrink rfl ?_ le_rfl fun a _ => ?_
      · first | exact erase_sublist | exact .refl _
      · show (((update st.calls id _ a).thread.priority : ℕ) : ℤ) = _
        rcases eq_or_ne a id with rfl | hne
        · rw [update_self]
          rfl
        · rw [update_of_ne hne]
          rfl
  | signal signal_count =>
    obtain rfl := some.inj hstep
    unfold SemState.signal
    split_ifs
    · exact h
    · refine h.shrink rfl (grant_sublist ..).1 le_rfl fun a _ => ?_
      unfold prio wakeAll
      dsimp only
      split_ifs <;> rfl
  | cancel set_count =>
    obtain rfl := some.inj hstep
    refine h.shrink rfl (nil_sublist _) le_rfl fun a _ => ?_
    unfold prio SemState.cancel wakeAll
    dsimp only
    split_ifs <;> rfl
  | delete =>
    obtain rfl := some.inj hstep
    refine h.shrink rfl (nil_sublist _) le_rfl fun a _ => ?_
    unfold prio SemState.delete wakeAll
    dsimp only
    split_ifs <;> rfl

/-! ## Event flags -/

/-- The number of a call's priority. -/
def EventFlag.prio (ef : EventFlag) (id : ℕ) : ℤ := (ef.waiter id).priority

/-- The waiters of an event flag are in the opposite order, and came before the next call. -/
structure EventFlag.Reversed (ef : EventFlag) : Prop where
  mode : ef.m_queue_mode = .threadPrio
  lt_next : ∀ id ∈ ef.m_waiters, id < ef.next
  ordered : Ordered (fun id => -ef.prio id) ef.m_waiters

def EventFlag.Uniform (ef : EventFlag) : Prop :=
  ∀ a ∈ ef.m_waiters, ∀ b ∈ ef.m_waiters, ef.prio a = ef.prio b

/-- The call is put into the list. -/
def EventFlag.Blocks (ef : EventFlag) (args : WaitArgs) : Prop :=
  ¬ ef.m_deleted = true ∧ ¬ (ef.m_thread_mode = .single ∧ ef.m_waiters ≠ []) ∧
    ¬ args.waiter.conditionMet ef.m_bits = true

/-- No thread joins others of another priority. -/
def EvfOp.Joins (ef : EventFlag) : EvfOp → Prop
  | .wait args => ef.Blocks args → ∀ id ∈ ef.m_waiters, ef.prio id = args.prio
  | _ => True

variable {ef ef' : EventFlag}

/-- What the second state has in its list was there before, with the same priority. -/
structure EventFlag.Shrinks (ef ef' : EventFlag) : Prop where
  mode : ef'.m_queue_mode = ef.m_queue_mode
  waiters : ef'.m_waiters.Sublist ef.m_waiters
  next : ef.next ≤ ef'.next
  prio : ∀ id < ef.next, ef'.prio id = ef.prio id

theorem EventFlag.Reversed.shrink (h : ef.Reversed) (hs : ef.Shrinks ef') : ef'.Reversed :=
  ⟨hs.mode.trans h.mode, fun id hid => Nat.lt_of_lt_of_le (h.lt_next id (hs.waiters.mem hid)) hs.next,
    h.ordered.congr hs.waiters fun a ha => congrArg Neg.neg (hs.prio a (h.lt_next a ha))⟩

theorem EventFlag.Uniform.shrink (hu : ef.Uniform) (h : ef.Reversed) (hs : ef.Shrinks ef') : ef'.Uniform := by
  intro a ha b hb
  have ha := hs.waiters.mem ha
  have hb := hs.waiters.mem hb
  rw [hs.prio a (h.lt_next a ha), hs.prio b (h.lt_next b hb)]
  exact hu a ha b hb

theorem EventFlag.newCall_shrinks (ef : EventFlag) (call : EvfCall) : ef.Shrinks (ef.newCall call) := by
  refine ⟨rfl, .refl _, Nat.le_succ _, fun id hid => ?_⟩
  show (update ef.calls ef.next call id).waiter.priority = _
  rw [update_of_ne (Nat.ne_of_lt hid)]
  rfl

theorem EventFlag.update_prio {id : ℕ} {call : EvfCall} {calls : ℕ → EvfCall}
    (hcall : call.waiter.priority = (calls id).waiter.priority) (a : ℕ) :
    (update calls id call a).waiter.priority = (calls a).waiter.priority := by
  rcases eq_or_ne a id with rfl | hne
  · rw [update_self, hcall]
  · rw [update_of_ne hne]

theorem EventFlag.serves_shrinks (ids : List ℕ) (ef : EventFlag) : ef.Shrinks (ids.foldl EventFlag.serve ef) := by
  induction ids generalizing ef with
  | nil => exact ⟨rfl, .refl _, le_rfl, fun _ _ => rfl⟩
  | cons id ids ih =>
    have hserve : (ef.serve id).m_queue_mode = ef.m_queue_mode ∧
        (ef.serve id).m_waiters = ef.m_waiters ∧ (ef.serve id).next = ef.next ∧
        ∀ a, (ef.serve id).prio a = ef.prio a := by
      unfold EventFlag.serve
      split_ifs
      · exact ⟨rfl, rfl, rfl, fun _ => rfl⟩
      · exact ⟨rfl, rfl, rfl, EventFlag.update_prio rfl⟩
    obtain ⟨hmode, hwaiters, hnext, hprio⟩ := hserve
    obtain ⟨hmode', hwaiters', hnext', hprio'⟩ := ih (ef.serve id)
    exact ⟨hmode'.trans hmode, hwaiters ▸ hwaiters', hnext ▸ hnext',
      fun a ha => (hprio' a (hnext.symm ▸ ha)).trans (hprio a)⟩

theorem EventFlag.step_cases (hstep : ef.step o = some ef') : ef.Shrinks ef' ∨
    ∃ args, o = .wait args ∧ ef.Blocks args ∧ ef' = { ef.newCall { args, waiter := args.waiter } with
      m_waiters := EventFlag.addWaiter ef.m_queue_mode
        (ef.newCall { args, waiter := args.waiter }).prio ef.m_waiters ef.next } := by
  cases o with
  | wait args =>
    obtain rfl := some.inj hstep
    unfold EventFlag.wait
    split_ifs with hdeleted hsingle hmet
    · exact .inl (ef.newCall_shrinks _)
    · exact .inl (ef.newCall_shrinks _)
    · obtain ⟨hmode, hwaiters, hnext, hprio⟩ := ef.newCall_shrinks
        { args, waiter := args.waiter, returned := some .ok, written := args.write ef.m_bits }
      exact .inl ⟨hmode, hwaiters, hnext, hprio⟩
    · exact .inr ⟨args, rfl, ⟨hdeleted, hsingle, hmet⟩, rfl⟩
  | finish id =>
    change ef.finish id = some ef' at hstep
    unfold EventFlag.finish at hstep
    dsimp only at hstep
    left
    split_ifs at hstep
    all_goals
      obtain rfl := some.inj hstep
      refine ⟨rfl, filter_sublist, le_rfl, fun a _ => ?_⟩
      exact EventFlag.update_prio (by rfl) a
  | set bits =>
    obtain rfl := some.inj hstep
    obtain ⟨hmode, hwaiters, hnext, hprio⟩ :=
      EventFlag.serves_shrinks ef.m_waiters { ef with m_bits := ef.m_bits ||| bits }
    exact .inl ⟨hmode, hwaiters, hnext, hprio⟩
  | clear bits => exact .inl (some.inj hstep ▸ ⟨rfl, .refl _, le_rfl, fun _ _ => rfl⟩)
  | cancel pattern =>
    obtain rfl := some.inj hstep
    refine .inl ⟨rfl, .refl _, le_rfl, fun a _ => ?_⟩
    unfold EventFlag.prio EventFlag.waiter EventFlag.cancel EventFlag.tellAll
    dsimp only
    split_ifs <;> rfl
  | delete =>
    obtain rfl := some.inj hstep
    refine .inl ⟨rfl, .refl _, le_rfl, fun a _ => ?_⟩
    unfold EventFlag.prio EventFlag.waiter EventFlag.delete EventFlag.tellAll
    dsimp only
    split_ifs <;> rfl

theorem EventFlag.Reversed.step (h : ef.Reversed) (hstep : ef.step o = some ef') : ef'.Reversed := by
  rcases EventFlag.step_cases hstep with hs | ⟨args, -, -, rfl⟩
  · exact h.shrink hs
  · have hcall := h.shrink (ef.newCall_shrinks { args, waiter := args.waiter })
    rw [h.mode]
    refine ⟨h.mode, fun id hid => ?_, hcall.ordered.insert h.lt_next fun a => ?_⟩
    · rcases mem_insert hid with rfl | hid
      · exact Nat.lt_succ_self _
      · exact hcall.lt_next id hid
    · rw [decide_eq_true_iff, neg_le_neg_iff]

theorem EventFlag.Uniform.step (hu : ef.Uniform) (h : ef.Reversed) (hjoins : o.Joins ef)
    (hstep : ef.step o = some ef') : ef'.Uniform := by
  rcases EventFlag.step_cases hstep with hs | ⟨args, rfl, hblocks, rfl⟩
  · exact hu.shrink h hs
  · have hcall := ef.newCall_shrinks { args, waiter := args.waiter }
    have hnew : (ef.newCall { args, waiter := args.waiter }).prio ef.next = args.prio := by
      show (update ef.calls ef.next _ ef.next).waiter.priority = _
      rw [update_self]
      rfl
    have hall (a : ℕ) (ha : a ∈ EventFlag.addWaiter ef.m_queue_mode
        (ef.newCall { args, waiter := args.waiter }).prio ef.m_waiters ef.next) :
        (ef.newCall { args, waiter := args.waiter }).prio a = args.prio := by
      rw [h.mode] at ha
      rcases mem_insert ha with rfl | ha
      · exact hnew
      · exact (hcall.prio a (h.lt_next a ha)).trans (hjoins hblocks a ha)
    exact fun a ha b hb => (hall a ha).trans (hall b hb).symm

theorem EventFlag.Reversed.ordered_iff (h : ef.Reversed) : Ordered ef.prio ef.m_waiters ↔ ef.Uniform := by
  constructor
  · intro hordered
    have hboth : ef.m_waiters.Pairwise fun a b => ef.prio a = ef.prio b := by
      refine (hordered.and h.ordered).imp fun hab => ?_
      rcases hab.1 with hlt | ⟨heq, -⟩
      · rcases hab.2 with hgt | ⟨heq, -⟩ <;> dsimp only at * <;> omega
      · exact heq
    have hflip : ef.m_waiters.Pairwise (flip fun a b => ef.prio a = ef.prio b) := hboth.imp Eq.symm
    have hself : ∀ a ∈ ef.m_waiters, ef.prio a = ef.prio a := fun _ _ => rfl
    intro a ha b hb
    exact hboth.forall_of_forall_of_flip (R := fun a b => ef.prio a = ef.prio b) hself hflip ha hb
  · intro hu
    refine h.ordered.imp_of_mem fun {a b} ha hb hab => ?_
    have hsame : ef.prio a = ef.prio b := hu a ha b hb
    rcases hab with hlt | ⟨-, hlt⟩
    · dsimp only at hlt
      omega
    · exact .inr ⟨hsame, hlt⟩

/-! ## The two disciplines -/

def waitBit (prio : ℤ) : WaitArgs where
  bits := 1
  wait_mode := .or
  clear_mode := .none
  has_result := false
  ptr_micros := none
  prio := prio

def prioFlag : EventFlag :=
  EventFlag.create .multi .threadPrio 0 fun _ => { args := waitBit 0, waiter := (waitBit 0).waiter }

def waitedFlag (prio₁ prio₂ : ℤ) : EventFlag := (prioFlag.wait (waitBit prio₁)).wait (waitBit prio₂)

/-- A semaphore without tokens. -/
def prioSem : SemState where
  sem := { token_count := 0, max_count := 1, init_count := 0, is_fifo := false }
  calls := fun _ => { thread := { priority := 0, need_count := 0 }, timeout := none }

end ShadPS4.Kernel
