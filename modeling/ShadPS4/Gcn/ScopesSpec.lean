import ShadPS4.Gcn.BlocksSpec

/-!
# Divergence scopes

A run of a graph of blocks is a sequence of events: the instructions that are executed, and the conditions that are
asked at the ends of blocks with their answers.
-/

namespace ShadPS4.Gcn

open List
open Option (some.inj)

variable {insts : List GcnInst} {blocks blocks' : List Block} {b : Block}

/-! ## Runs -/

inductive Event
  | inst (i : ℕ)
  | cond (c : Condition) (outcome : Bool)
deriving DecidableEq

/-- The instructions from an index to another are executed. -/
def instEvents (first last : ℕ) : List Event := (range' first (last + 1 - first)).map .inst

/-- How a block is left: the condition that is asked, and the next block, or none at an exit. -/
inductive Block.Leaves (b : Block) : List Event → Option ℕ → Prop
  | exit (h : b.end_class = .exit) : Leaves b [] none
  | always {q : ℕ} (h : b.end_class = .branch) (hc : b.cond = .true) (ht : b.branch_true = some q) :
    Leaves b [] (some q)
  | never {q : ℕ} (h : b.end_class = .branch) (hc : b.cond = .false) (hf : b.branch_false = some q) :
    Leaves b [] (some q)
  | taken {q : ℕ} (h : b.end_class = .branch) (hc : b.cond ≠ .true ∧ b.cond ≠ .false)
    (ht : b.branch_true = some q) : Leaves b [.cond b.cond true] (some q)
  /-- The condition does not hold. -/
  | passed {q : ℕ} (h : b.end_class = .branch) (hc : b.cond ≠ .true ∧ b.cond ≠ .false)
    (hf : b.branch_false = some q) : Leaves b [.cond b.cond false] (some q)

inductive Path (blocks : List Block) : ℕ → List Event → Option ℕ → Prop
  | here (p : ℕ) : Path blocks p [] (some p)
  | run {p q : ℕ} {b : Block} {leave t : List Event} {r : Option ℕ} (hb : b ∈ blocks) (hp : b.id = p)
    (hleave : b.Leaves leave (some q)) (ht : Path blocks q t r) :
    Path blocks p (instEvents b.begin_index b.end_index ++ leave ++ t) r
  | stop {p : ℕ} {b : Block} {leave : List Event} (hb : b ∈ blocks) (hp : b.id = p)
    (hleave : b.Leaves leave none) :
    Path blocks p (instEvents b.begin_index b.end_index ++ leave) none

/-- What a scope is cut out to: it starts and ends with an instruction that does not ignore the mask,
and an instruction that opens a scope is before it, with only such between that ignore the mask. -/
structure IsScope (insts : List GcnInst) (first last : ℕ) : Prop where
  le : first ≤ last
  starts : ignoresExecMask (instAt insts first) = false
  ends : ignoresExecMask (instAt insts last) = false
  opened : ∃ i < first, isOpenScope (instAt insts i) = true ∧
    ∀ j, i < j → j < first → ignoresExecMask (instAt insts j) = true

/-- A run with scopes: some questions about the mask are added to another run, and the instructions of a scope are
left out where the mask is zero. -/
inductive Skips (insts : List GcnInst) : List Bool → List Event → List Event → Prop
  | nil : Skips insts [] [] []
  | same {mask : List Bool} {t t' : List Event} (e : Event) (h : Skips insts mask t t') :
    Skips insts mask (e :: t) (e :: t')
  /-- The mask is not zero at the start of a scope. -/
  | enter {mask : List Bool} {t t' : List Event} (i : ℕ) (h : Skips insts mask (.inst i :: t) t') :
    Skips insts (true :: mask) (.inst i :: t) (.cond .execnz true :: t')
  | skip {mask : List Bool} {t t' : List Event} {first last : ℕ} (hscope : IsScope insts first last)
    (h : Skips insts mask t t') :
    Skips insts (false :: mask) (instEvents first last ++ t) (.cond .execnz false :: t')

theorem Skips.append (h : Skips insts mask1 s s') (h2 : Skips insts mask2 t t') :
    Skips insts (mask1 ++ mask2) (s ++ t) (s' ++ t') := by
  induction h with
  | nil => exact h2
  | same e _ ih => exact .same e ih
  | enter i _ ih => exact .enter i ih
  | skip hscope _ ih =>
    rw [append_assoc]
    exact .skip hscope ih

theorem Skips.refl (insts : List GcnInst) (t : List Event) : Skips insts [] t t := by
  induction t with
  | nil => exact .nil
  | cons e t ih => exact .same e ih

theorem instEvents_append (mid : ℕ) (h1 : first ≤ mid + 1) (h2 : mid ≤ last) :
    instEvents first mid ++ instEvents (mid + 1) last = instEvents first last := by
  unfold instEvents
  rw [← map_append]
  congr 1
  have hstart : mid + 1 = first + (mid + 1 - first) := by omega
  nth_rewrite 2 [hstart]
  rw [range'_append_1]
  congr 1
  omega

theorem Path.append (h : Path blocks p t (some q)) (h' : Path blocks q t' r) : Path blocks p (t ++ t') r := by
  generalize hr : some q = r' at h
  induction h with
  | here p =>
    obtain rfl := some.inj hr
    exact h'
  | run hb hp hleave _ ih =>
    rw [append_assoc]
    exact .run hb hp hleave (ih hr)
  | stop _ _ _ => exact absurd hr (by simp)

theorem Path.single (hb : b ∈ blocks) (hleave : b.Leaves leave r) :
    Path blocks b.id (instEvents b.begin_index b.end_index ++ leave) r := by
  cases r with
  | none => exact .stop hb rfl hleave
  | some q =>
    have := Path.run hb rfl hleave (.here q)
    rwa [append_nil] at this

theorem Path.first (h : Path blocks p t none) : ∃ b ∈ blocks, b.id = p ∧ ∃ leave r t', b.Leaves leave r ∧
      t = instEvents b.begin_index b.end_index ++ leave ++ t' ∧ (r = none → t' = []) ∧
      ∀ q, r = some q → Path blocks q t' none := by
  cases h with
  | run hb hp hleave ht =>
    refine ⟨_, hb, hp, _, _, _, hleave, rfl, by simp, fun q hq => ?_⟩
    rwa [← some.inj hq]
  | stop hb hp hleave =>
    exact ⟨_, hb, hp, _, _, [], hleave, by rw [append_nil], fun _ => rfl, by simp⟩

/-! ## Scopes -/

theorem lastAffected_spec (hle : first ≤ index) (hfirst : ignoresExecMask (instAt insts first) = false) :
    first ≤ lastAffected insts index ∧ lastAffected insts index ≤ index ∧
      ignoresExecMask (instAt insts (lastAffected insts index)) = false := by
  induction index with
  | zero =>
    obtain rfl : first = 0 := by omega
    exact ⟨Nat.le_refl _, Nat.le_refl _, hfirst⟩
  | succ index ih =>
    unfold lastAffected
    split_ifs with hignores
    · have hne : first ≠ index + 1 := by
        rintro rfl
        rw [hfirst] at hignores
        exact absurd hignores (by decide)
      have := ih (by omega)
      exact ⟨this.1, by omega, this.2.2⟩
    · exact ⟨hle, Nat.le_refl _, by simpa using hignores⟩

theorem exists_of_allIgnore (h : allIgnore insts first stop = false) :
    ∃ i, first ≤ i ∧ i < stop ∧ ignoresExecMask (instAt insts i) = false := by
  unfold allIgnore at h
  rw [all_eq_false] at h
  obtain ⟨i, hi, hnot⟩ := h
  rw [mem_range'_1] at hi
  exact ⟨i, hi.1, by omega, by simpa using hnot⟩

theorem scanScopes_spec {end_index count index scope_begin stop : ℕ} {curr_begin : Option ℕ}
    (first : ℕ) (hcount : index + count = end_index + 1) (hindex : first ≤ index)
    (hcurr : ∀ c, curr_begin = some c → first ≤ c ∧ c < index ∧ isOpenScope (instAt insts c) = true)
    (h : scanScopes insts end_index count index curr_begin = some (scope_begin, stop)) :
    first ≤ scope_begin ∧ stop ≤ end_index ∧ isOpenScope (instAt insts scope_begin) = true ∧
      ∃ i, scope_begin < i ∧ i ≤ stop ∧ ignoresExecMask (instAt insts i) = false := by
  induction count generalizing index curr_begin with
  | zero => simp [scanScopes] at h
  | succ count ih =>
    have hopened : ∀ c, (if isOpenScope (instAt insts index) then some index else none) = some c →
        first ≤ c ∧ c < index + 1 ∧ isOpenScope (instAt insts c) = true := by
      intro c hc
      split_ifs at hc with hopen
      obtain rfl := some.inj hc
      exact ⟨hindex, Nat.lt_succ_self _, hopen⟩
    unfold scanScopes at h
    dsimp only at h
    generalize (if isOpenScope (instAt insts index) then some index else none) = opened at h hopened
    cases hcb : curr_begin with
    | none =>
      rw [hcb] at h
      exact ih (by omega) (by omega) hopened h
    | some c =>
      rw [hcb] at h
      obtain ⟨hc1, hc2, hc3⟩ := hcurr c hcb
      dsimp only at h
      by_cases hends : isCloseScope (instAt insts index) = true ∨ index = end_index
      · rw [if_pos hends] at h
        by_cases hshort : index - c = 1 ∧ isCloseScope (instAt insts index) = true
        · rw [if_pos hshort] at h
          exact ih (by omega) (by omega) (by simp) h
        · rw [if_neg hshort] at h
          generalize hstop : index + (if isCloseScope (instAt insts index) then 0 else 1) = bound at h
          have hbound : bound ≤ index + 1 := by
            rw [← hstop]
            split_ifs <;> omega
          cases hall : allIgnore insts (c + 1) bound with
          | true =>
            rw [hall] at h
            exact ih (by omega) (by omega) hopened h
          | false =>
            rw [hall] at h
            obtain ⟨rfl, rfl⟩ := Prod.mk.inj (some.inj h)
            obtain ⟨i, h1, h2, h3⟩ := exists_of_allIgnore hall
            exact ⟨hc1, by omega, hc3, i, by omega, by omega, h3⟩
      · rw [if_neg hends] at h
        apply ih (by omega) (by omega) _ h
        intro c' hc'
        cases opened with
        | none =>
          obtain rfl : c = c' := by simpa using hc'
          exact ⟨hc1, by omega, hc3⟩
        | some o =>
          obtain rfl : o = c' := by simpa using hc'
          exact hopened o rfl

/-! ## Splitting a block -/

/-- What splitting asks of a block: an affected instruction at its end leads to one successor. -/
structure Splittable (insts : List GcnInst) (b : Block) : Prop where
  end_inst : b.end_inst = instAt insts b.end_index
  falls : ignoresExecMask b.end_inst = false →
    b.end_class = .branch ∧ b.cond = .true ∧ b.branch_true.isSome = true

/-- The runs of some blocks that start at a block and stay inside it, with scopes. -/
def Covered (insts : List GcnInst) (blocks : List Block) (b : Block) : Prop :=
  ∀ mask : ℕ → Bool, ∃ k t, Skips insts ((range k).map mask)
    (instEvents b.begin_index b.end_index) t ∧
    ∀ leave r, b.Leaves leave r → Path blocks b.id (t ++ leave) r

/-- Two blocks are left in the same ways. -/
def SameExit (b b' : Block) : Prop :=
  b'.end_index = b.end_index ∧ ∀ leave r, b'.Leaves leave r ↔ b.Leaves leave r

theorem map_range_add (mask : ℕ → Bool) (k n : ℕ) : (range (k + n)).map mask =
    (range k).map mask ++ (range n).map fun i => mask (k + i) := by
  rw [range_add, map_append, map_map]
  rfl

theorem map_range_succ (mask : ℕ → Bool) (k : ℕ) : (range (1 + k)).map mask =
    mask 0 :: (range k).map fun i => mask (1 + i) := by
  rw [map_range_add]
  rfl

structure SplitInto (insts : List GcnInst) (pool : ℕ) (blk shrunk : Block) (inserted : List Block) :
    Prop where
  ids : shrunk.id = blk.id ∧ inserted.map (·.id) = range' pool inserted.length
  tiles : ∀ stop rest, Tiles (blk.end_index + 1) rest stop →
    Tiles blk.begin_index (shrunk :: (inserted ++ rest)) stop
  splittable : ∀ b ∈ inserted, Splittable insts b
  exit : ∃ b ∈ inserted, SameExit blk b
  covered : ∀ blocks, shrunk ∈ blocks → (∀ b ∈ inserted, Covered insts blocks b) →
    Covered insts blocks blk

theorem instEvents_cons (hle : first ≤ last) : ∃ t, instEvents first last = .inst first :: t := by
  have hsplit := instEvents_append first (Nat.le_succ first) hle
  refine ⟨instEvents (first + 1) last, ?_⟩
  rw [← hsplit]
  unfold instEvents
  rw [Nat.add_sub_cancel_left]
  rfl

theorem Block.Leaves.congr {b' : Block} {leave : List Event} {r : Option ℕ} (h : b.Leaves leave r)
    (hclass : b'.end_class = b.end_class) (hcond : b'.cond = b.cond)
    (htrue : b'.branch_true = b.branch_true) (hfalse : b'.branch_false = b.branch_false) : b'.Leaves leave r := by
  cases h with
  | exit h => exact .exit (hclass.trans h)
  | always h hc ht => exact .always (hclass.trans h) (hcond.trans hc) (htrue.trans ht)
  | never h hc hf => exact .never (hclass.trans h) (hcond.trans hc) (hfalse.trans hf)
  | taken h hc ht =>
    rw [← hcond]
    exact .taken (hclass.trans h) (hcond ▸ hc) (htrue.trans ht)
  | passed h hc hf =>
    rw [← hcond]
    exact .passed (hclass.trans h) (hcond ▸ hc) (hfalse.trans hf)

theorem leaves_always_iff (hclass : b.end_class = .branch)
    (hcond : b.cond = .true) (htrue : b.branch_true = some q) : b.Leaves leave r ↔ leave = [] ∧ r = some q := by
  constructor
  · intro h
    cases h with
    | exit h => rw [hclass] at h; exact absurd h (by decide)
    | always _ _ ht =>
      rw [htrue] at ht
      exact ⟨rfl, ht.symm⟩
    | never _ hc _ => rw [hcond] at hc; exact absurd hc (by decide)
    | taken _ hc _ => exact absurd hcond hc.1
    | passed _ hc _ => exact absurd hcond hc.1
  · rintro ⟨rfl, rfl⟩
    exact .always hclass hcond htrue

/-- The shortened block asks about the mask, and the answer leads into the scope or behind it. -/
structure Entry (shrunk : Block) (inside behind : ℕ) : Prop where
  end_class : shrunk.end_class = .branch
  cond : shrunk.cond = .execnz
  branch_true : shrunk.branch_true = some inside
  branch_false : shrunk.branch_false = some behind

theorem Entry.enter (h : Entry shrunk inside behind) (hin : shrunk ∈ blocks) (ht : Path blocks inside t r) :
    Path blocks shrunk.id (instEvents shrunk.begin_index shrunk.end_index ++ .cond .execnz true :: t) r := by
  have hleave := Block.Leaves.taken h.end_class (by rw [h.cond]; decide) h.branch_true
  rw [h.cond] at hleave
  have hrun := Path.run hin rfl hleave ht
  rwa [append_assoc] at hrun

theorem Entry.pass (h : Entry shrunk inside behind) (hin : shrunk ∈ blocks) (ht : Path blocks behind t r) :
    Path blocks shrunk.id (instEvents shrunk.begin_index shrunk.end_index ++ .cond .execnz false :: t) r := by
  have hleave := Block.Leaves.passed h.end_class (by rw [h.cond]; decide) h.branch_false
  rw [h.cond] at hleave
  have hrun := Path.run hin rfl hleave ht
  rwa [append_assoc] at hrun

def TailCovered (insts : List GcnInst) (blocks : List Block) (blk : Block) (last behind : ℕ) : Prop :=
  ∀ mask : ℕ → Bool, ∃ k t, Skips insts ((range k).map mask)
    (instEvents (last + 1) blk.end_index) t ∧
    ∀ leave r, blk.Leaves leave r → Path blocks behind (t ++ leave) r

theorem covered_of_parts (blk : Block)
    (hin : shrunk ∈ blocks) (hinside : Covered insts blocks inside) (hid : shrunk.id = blk.id)
    (hbegin : shrunk.begin_index = blk.begin_index) (hend : shrunk.end_index = first - 1)
    (hlt : blk.begin_index < first) (hscope : IsScope insts first last)
    (hlast : last ≤ blk.end_index) (hentry : Entry shrunk inside.id behind)
    (hspan : inside.begin_index = first ∧ inside.end_index = last) (hleave : inside.Leaves [] (some behind))
    (htail : TailCovered insts blocks blk last behind) : Covered insts blocks blk := by
  intro mask
  have hle := hscope.le
  have hsplit : instEvents blk.begin_index blk.end_index = instEvents blk.begin_index (first - 1) ++
        (instEvents first last ++ instEvents (last + 1) blk.end_index) := by
    have hpred : first - 1 + 1 = first := by omega
    have hrest : first - 1 ≤ blk.end_index := by omega
    rw [instEvents_append last (by omega) hlast, ← instEvents_append (first - 1) (by omega) hrest,
      hpred]
  rw [hsplit, ← hid]
  cases hmask : mask 0 with
  | true =>
    obtain ⟨k, t, hskips, hpath⟩ := hinside fun i => mask (1 + i)
    obtain ⟨k', t', hskips', hpath'⟩ := htail fun i => mask (1 + (k + i))
    refine ⟨1 + (k + k'), instEvents blk.begin_index (first - 1) ++
      .cond .execnz true :: (t ++ t'), ?_, fun leave r hleaves => ?_⟩
    · rw [map_range_succ, hmask]
      apply (Skips.refl insts (instEvents blk.begin_index (first - 1))).append
      -- The question is asked before the first instruction of the scope.
      have hboth := hskips.append hskips'
      rw [← map_range_add (fun i => mask (1 + i)), hspan.1, hspan.2] at hboth
      obtain ⟨rest, hrest⟩ := instEvents_cons hle
      rw [hrest] at hboth ⊢
      exact .enter first hboth
    · rw [append_assoc, cons_append, append_assoc, ← hbegin, ← hend]
      have hinto := hpath [] _ hleave
      rw [append_nil] at hinto
      exact hentry.enter hin (hinto.append (hpath' leave r hleaves))
  | false =>
    obtain ⟨k, t, hskips, hpath⟩ := htail fun i => mask (1 + i)
    refine ⟨1 + k, instEvents blk.begin_index (first - 1) ++ .cond .execnz false :: t, ?_,
      fun leave r hleaves => ?_⟩
    · rw [map_range_succ, hmask]
      apply (Skips.refl insts (instEvents blk.begin_index (first - 1))).append
      exact .skip hscope hskips
    · rw [append_assoc, cons_append, ← hbegin, ← hend]
      exact hentry.pass hin (hpath leave r hleaves)

theorem isScope_of_open (hopen : isOpenScope (instAt insts scope_begin) = true)
    (haffected : ∃ i, scope_begin < i ∧ i ≤ index ∧ ignoresExecMask (instAt insts i) = false) :
    ∃ first last, firstFrom (fun i => !ignoresExecMask (instAt insts i)) (scope_begin + 1)
        (index - scope_begin) = first ∧ lastAffected insts index = last ∧ scope_begin < first ∧
      last ≤ index ∧ IsScope insts first last := by
  obtain ⟨i, hi1, hi2, hi⟩ := haffected
  obtain ⟨first, hfirst⟩ : ∃ first, firstFrom (fun i => !ignoresExecMask (instAt insts i))
    (scope_begin + 1) (index - scope_begin) = first := ⟨_, rfl⟩
  have hlow := (firstFrom_bounds (fun i => !ignoresExecMask (instAt insts i)) (scope_begin + 1)
    (index - scope_begin)).1
  rw [hfirst] at hlow
  -- What is before the first affected instruction ignores the mask.
  have hbefore : ∀ j, scope_begin < j → j < first → ignoresExecMask (instAt insts j) = true := by
    intro j hj1 hj2
    rw [← hfirst] at hj2
    simpa using firstFrom_before hj1 hj2
  have hle : first ≤ i := by
    by_contra hgt
    rw [hbefore i hi1 (by omega)] at hi
    exact absurd hi (by decide)
  have haff : ignoresExecMask (instAt insts first) = false := by
    have hfound : firstFrom (fun i => !ignoresExecMask (instAt insts i)) (scope_begin + 1)
        (index - scope_begin) < scope_begin + 1 + (index - scope_begin) := by omega
    have := firstFrom_spec hfound
    rw [hfirst] at this
    simpa using this
  obtain ⟨hl1, hl2, hlaff⟩ := lastAffected_spec (hle.trans hi2) haff
  exact ⟨first, _, hfirst, rfl, hlow, hl2, hl1, haff, hlaff, scope_begin, hlow, hopen, hbefore⟩

theorem splitBlock_spec (pcs : List ℕ) (pool : ℕ)
    (hblk : Splittable insts blk) (hbegin : blk.begin_index ≤ scope_begin)
    (hindex : index ≤ blk.end_index) (hopen : isOpenScope (instAt insts scope_begin) = true)
    (haffected : ∃ i, scope_begin < i ∧ i ≤ index ∧ ignoresExecMask (instAt insts i) = false) :
    ∃ shrunk inserted, splitBlock insts pcs pool blk scope_begin index = .ok (shrunk, inserted) ∧
      SplitInto insts pool blk shrunk inserted := by
  obtain ⟨first, last, hfirst, hlast, hlow, hle, hscope⟩ := isScope_of_open hopen haffected
  have hfl := hscope.le
  have hpred : first - 1 + 1 = first := by omega
  unfold splitBlock
  rw [hfirst, hlast]
  by_cases hepi : last ≠ blk.end_index
  · -- Something is left behind the scope.
    rw [if_pos hepi]
    refine ⟨_, _, rfl, ⟨rfl, rfl⟩, fun stop rest hrest => ?_, fun b hb => ?_, ?_,
      fun blocks hin hcovered => ?_⟩
    · refine ⟨rfl, by dsimp only; omega, ?_⟩
      rw [hpred]
      exact ⟨rfl, hfl, rfl, by dsimp only; omega, hrest⟩
    · rcases mem_cons.mp hb with rfl | hb
      · exact ⟨rfl, fun _ => ⟨rfl, rfl, rfl⟩⟩
      · obtain rfl := mem_singleton.mp hb
        exact ⟨hblk.end_inst, hblk.falls⟩
    · refine ⟨_, mem_cons_of_mem _ (mem_singleton_self _), rfl, fun leave r => ?_⟩
      exact ⟨fun hl => hl.congr rfl rfl rfl rfl, fun hl => hl.congr rfl rfl rfl rfl⟩
    · obtain ⟨hinside, hepilogue⟩ := forall_mem_cons.mp hcovered
      apply covered_of_parts blk hin hinside rfl rfl rfl (by omega) hscope (hle.trans hindex)
        ⟨rfl, rfl, rfl, rfl⟩ ⟨rfl, rfl⟩ (.always rfl rfl rfl)
      intro mask
      obtain ⟨k, t, hskips, hpath⟩ := hepilogue _ (mem_singleton_self _) mask
      exact ⟨k, t, hskips, fun leave r hleave => hpath leave r (hleave.congr rfl rfl rfl rfl)⟩
  · -- The scope ends the block.
    obtain rfl : last = blk.end_index := not_not.mp hepi
    obtain ⟨hclass, hcond, htrue⟩ := hblk.falls (hblk.end_inst ▸ hscope.ends)
    obtain ⟨q, hq⟩ := Option.isSome_iff_exists.mp htrue
    rw [if_neg hepi, if_pos ⟨hcond, htrue⟩]
    refine ⟨_, _, rfl, ⟨rfl, rfl⟩, fun stop rest hrest => ?_, fun b hb => ?_, ?_,
      fun blocks hin hcovered => ?_⟩
    · refine ⟨rfl, by dsimp only; omega, ?_⟩
      rw [hpred]
      exact ⟨rfl, hfl, hrest⟩
    · obtain rfl := mem_singleton.mp hb
      exact ⟨rfl, fun _ => ⟨rfl, rfl, htrue⟩⟩
    · refine ⟨_, mem_singleton_self _, rfl, fun leave r => ?_⟩
      rw [leaves_always_iff hclass hcond hq]
      exact leaves_always_iff rfl rfl hq
    · have hinside := hcovered _ (mem_singleton_self _)
      apply covered_of_parts blk hin hinside rfl rfl rfl (by omega) hscope (Nat.le_refl _)
        ⟨rfl, rfl, rfl, hq⟩ ⟨rfl, rfl⟩ (.always rfl rfl hq)
      intro mask
      refine ⟨0, [], ?_, fun leave r hleave => ?_⟩
      · unfold instEvents
        rw [Nat.sub_self]
        exact .nil
      · obtain ⟨rfl, rfl⟩ := (leaves_always_iff hclass hcond hq).mp hleave
        exact .here q

/-! ## Splitting all blocks -/

/-- What splitting makes of the blocks that are still to be looked at. -/
structure SplitAll (insts : List GcnInst) (pool : ℕ) (blocks blocks' : List Block) : Prop where
  tiles : ∀ first stop, Tiles first blocks stop → Tiles first blocks' stop
  ids : (blocks.map (·.id)).Nodup → (∀ b ∈ blocks, b.id < pool) → (blocks'.map (·.id)).Nodup ∧
    ∀ b' ∈ blocks', b'.id ∈ blocks.map (·.id) ∨ pool ≤ b'.id
  exit : ∀ b ∈ blocks, ∃ b' ∈ blocks', SameExit b b'
  covered : ∀ all, (∀ b' ∈ blocks', b' ∈ all) → ∀ b ∈ blocks, Covered insts all b

theorem covered_self {all : List Block} (hb : b ∈ all) : Covered insts all b := by
  intro mask
  exact ⟨0, _, Skips.refl insts _, fun leave r hleave => Path.single hb hleave⟩

theorem tiles_le (h : Tiles first blocks stop) : first ≤ stop := by
  induction blocks generalizing first with
  | nil => exact h.le
  | cons b blocks ih =>
    have := ih h.2.2
    have := h.2.1
    omega

theorem splitFrom_spec {first stop : ℕ} (pcs : List ℕ) (fuel pool : ℕ) (htiles : Tiles first blocks stop)
    (hfuel : stop ≤ first + fuel) (hsplittable : ∀ b ∈ blocks, Splittable insts b) :
    ∃ blocks', splitFrom insts pcs fuel pool blocks = .ok blocks' ∧ SplitAll insts pool blocks blocks' := by
  induction fuel generalizing pool first blocks with
  | zero =>
    cases blocks with
    | nil => exact ⟨[], rfl, fun _ _ h => h, fun _ _ => ⟨.nil, by simp⟩, by simp, by simp⟩
    | cons b blocks =>
      have := tiles_le htiles.2.2
      have := htiles.2.1
      omega
  | succ fuel ih =>
    cases blocks with
    | nil => exact ⟨[], rfl, fun _ _ h => h, fun _ _ => ⟨.nil, by simp⟩, by simp, by simp⟩
    | cons blk rest =>
      obtain ⟨hbegin, hle, hrest⟩ := htiles
      obtain ⟨hblk, hsplit⟩ := forall_mem_cons.mp hsplittable
      unfold splitFrom
      cases hscan : scanScopes insts blk.end_index (blk.end_index + 1 - blk.begin_index)
          blk.begin_index none with
      | none =>
        -- The block is left as it is.
        obtain ⟨rest', hok, hall⟩ := ih pool hrest (by omega) hsplit
        rw [hok]
        refine ⟨blk :: rest', rfl, fun first stop h => ⟨h.1, h.2.1, hall.tiles _ _ h.2.2⟩,
          fun hnodup hlt => ?_, ?_, ?_⟩
        · rw [map_cons, nodup_cons] at hnodup
          obtain ⟨hlt1, hlt2⟩ := forall_mem_cons.mp hlt
          obtain ⟨hnodup', hids⟩ := hall.ids hnodup.2 hlt2
          refine ⟨?_, fun b' hb' => ?_⟩
          · rw [map_cons, nodup_cons]
            refine ⟨fun hmem => ?_, hnodup'⟩
            obtain ⟨b', hb', heq⟩ := mem_map.mp hmem
            rcases hids b' hb' with hold | hnew
            · exact hnodup.1 (heq ▸ hold)
            · omega
          · rcases mem_cons.mp hb' with rfl | hb'
            · exact .inl (mem_cons_self ..)
            · exact (hids b' hb').imp (mem_cons_of_mem _) id
        · intro b hb
          rcases mem_cons.mp hb with rfl | hb
          · exact ⟨b, mem_cons_self .., rfl, fun _ _ => Iff.rfl⟩
          · obtain ⟨b', hb', hexit⟩ := hall.exit b hb
            exact ⟨b', mem_cons_of_mem _ hb', hexit⟩
        · intro all hsub b hb
          rcases mem_cons.mp hb with rfl | hb
          · exact covered_self (hsub b (mem_cons_self ..))
          · exact hall.covered all (fun b' hb' => hsub b' (mem_cons_of_mem _ hb')) b hb
      | some found =>
        obtain ⟨h1, h2, h3, h4⟩ := scanScopes_spec blk.begin_index (by omega) (Nat.le_refl _)
          (by simp) hscan
        obtain ⟨shrunk, inserted, hok, hinto⟩ := splitBlock_spec pcs pool hblk h1 h2 h3 h4
        have htiles' := hinto.tiles stop rest hrest
        have hnext : ∀ b ∈ inserted ++ rest, Splittable insts b := by
          intro b hb
          rcases mem_append.mp hb with hb | hb
          · exact hinto.splittable b hb
          · exact hsplit b hb
        obtain ⟨rest', hok', hall⟩ := ih (pool + inserted.length) htiles'.2.2 (by have := htiles'.2.1; omega) hnext
        dsimp only
        rw [hok]
        simp only [bind, Except.bind]
        rw [hok']
        refine ⟨shrunk :: rest', rfl, ?_, fun hnodup hlt => ?_, ?_, ?_⟩
        · intro first' stop' h
          have hthere := hinto.tiles stop' rest h.2.2
          rw [h.1] at hthere
          exact ⟨hthere.1, hthere.2.1, hall.tiles _ _ hthere.2.2⟩
        · rw [map_cons, nodup_cons] at hnodup
          obtain ⟨hlt1, hlt2⟩ := forall_mem_cons.mp hlt
          obtain ⟨hid, hinserted⟩ := hinto.ids
          have hmem : ∀ x, x ∈ (inserted ++ rest).map (·.id) ↔
              (pool ≤ x ∧ x < pool + inserted.length) ∨ x ∈ rest.map (·.id) := by
            intro x
            rw [map_append, mem_append, hinserted, mem_range'_1]
          have hrest_lt : ∀ x ∈ rest.map (·.id), x < pool := by
            intro x hx
            obtain ⟨b, hb, rfl⟩ := mem_map.mp hx
            exact hlt2 b hb
          obtain ⟨hnodup', hids⟩ := hall.ids (by
              rw [map_append, hinserted]
              refine nodup_append.mpr ⟨nodup_range', hnodup.2, fun x hx y hy => ?_⟩
              rw [mem_range'_1] at hx
              have := hrest_lt y hy
              omega)
            (by
              intro b hb
              rcases (hmem b.id).mp (mem_map_of_mem hb) with hnew | hold
              · exact hnew.2
              · have := hrest_lt _ hold
                omega)
          have hsort : ∀ b' ∈ rest', b'.id ∈ rest.map (·.id) ∨ pool ≤ b'.id := by
            intro b' hb'
            rcases hids b' hb' with h | h
            · exact ((hmem b'.id).mp h).symm.imp id (·.1)
            · exact .inr (by omega)
          refine ⟨?_, fun b' hb' => ?_⟩
          · rw [map_cons, nodup_cons, hid]
            refine ⟨fun hin => ?_, hnodup'⟩
            obtain ⟨b', hb', heq⟩ := mem_map.mp hin
            rcases hsort b' hb' with hold | hnew
            · exact hnodup.1 (heq ▸ hold)
            · omega
          · rcases mem_cons.mp hb' with rfl | hb'
            · exact .inl (hid ▸ mem_cons_self ..)
            · exact (hsort b' hb').imp (mem_cons_of_mem _) id
        · intro b hb
          rcases mem_cons.mp hb with rfl | hb
          · obtain ⟨b', hb', hend, hleaves⟩ := hinto.exit
            obtain ⟨b'', hb'', hend', hleaves'⟩ := hall.exit b' (mem_append_left _ hb')
            exact ⟨b'', mem_cons_of_mem _ hb'', hend'.trans hend,
              fun leave r => (hleaves' leave r).trans (hleaves leave r)⟩
          · obtain ⟨b', hb', hexit⟩ := hall.exit b (mem_append_right _ hb)
            exact ⟨b', mem_cons_of_mem _ hb', hexit⟩
        · intro all hsub b hb
          have hlater := hall.covered all fun b' hb' => hsub b' (mem_cons_of_mem _ hb')
          rcases mem_cons.mp hb with rfl | hb
          · exact hinto.covered all (hsub shrunk (mem_cons_self ..))
              fun b' hb' => hlater b' (mem_append_left _ hb')
          · exact hlater b (mem_append_right _ hb)

/-! ## Runs of all blocks -/

theorem Path.covered (h : Path blocks p t r) (hcovered : ∀ b ∈ blocks, Covered insts blocks' b) (mask : ℕ → Bool) :
    ∃ k t', Skips insts ((range k).map mask) t t' ∧ Path blocks' p t' r := by
  induction h generalizing mask with
  | here p => exact ⟨0, [], .nil, .here p⟩
  | @run p q b leave t r hb hp hleave ht ih =>
    subst hp
    obtain ⟨k, s, hskips, hpath⟩ := hcovered b hb mask
    -- The answers that are left are those for the blocks behind this one.
    obtain ⟨k', t', hskips', hpath'⟩ := ih fun i => mask (k + i)
    refine ⟨k + k', s ++ leave ++ t', ?_, (hpath leave _ hleave).append hpath'⟩
    have hhere := hskips.append (Skips.refl insts leave)
    rw [append_nil] at hhere
    rw [map_range_add]
    exact hhere.append hskips'
  | @stop p b leave hb hp hleave =>
    subst hp
    obtain ⟨k, s, hskips, hpath⟩ := hcovered b hb mask
    have hhere := hskips.append (Skips.refl insts leave)
    rw [append_nil] at hhere
    exact ⟨k, s ++ leave, hhere, hpath leave none hleave⟩

/-- The decoder says of branches, and of the end of the program, that they ignore the mask. -/
def Decoded (insts : List GcnInst) : Prop :=
  ∀ inst ∈ insts, inst.isUnconditionalBranch = true ∨ inst.isCbranch = true ∨
    inst.opcode = Opcode.sEndpgm → ignoresExecMask inst = true

theorem splittable_of_linked (h : WellFormed insts) (hinside : TargetsInside insts)
    (hdecoded : Decoded insts) (hbuild : buildBlocks insts = .ok blocks)
    (hcmpx : ∀ b ∈ blocks, b.end_inst.isCmpx = false) :
    Tiles 0 blocks insts.length ∧ blocks.map (·.id) = range blocks.length ∧
      ∀ b ∈ blocks, Splittable insts b := by
  rcases emit_spec h hinside with ⟨-, herror⟩ | ⟨hcdbg, leaders, raw, hlayout, heq⟩
  · rw [herror] at hbuild
    exact absurd hbuild (by simp)
  · have hlinked := linkBlocks_ok hlayout hcdbg (heq.symm.trans hbuild)
    have hall := forall₂_iff_get.mp hlinked
    obtain ⟨htiles, hids⟩ := hlayout.tiles
    refine ⟨tiles_linked htiles (hlinked.imp fun _ _ hto => hto.2), ?_, fun b hb => ?_⟩
    · have hsame : blocks.map (·.id) = raw.map (·.id) := by
        apply ext_getElem (by simp [hall.1])
        intro k h1 h2
        rw [length_map] at h1 h2
        rw [getElem_map, getElem_map]
        exact (hall.2 k h2 h1).2.same.1
      rw [hsame, hids, hall.1]
    · obtain ⟨k, hk, rfl⟩ := getElem_of_mem hb
      have hk' : k < raw.length := hall.1 ▸ hk
      have hto := (hall.2 k hk' hk).2
      rw [get_eq_getElem, get_eq_getElem] at hto
      obtain ⟨-, -, -, hend, hinst⟩ := hto.same
      have hat := (hlayout.leader_end (getElem_mem hk')).1
      rw [← hend, ← hinst] at hat
      refine ⟨by rw [instAt, getD_eq_getElem?_getD, hat]; rfl, fun haffected => ?_⟩
      -- A block that does not end in a branch leads to the next one.
      have hplain := mt (hdecoded _ (mem_of_getElem? hat)) (by simp [haffected])
      simp only [not_or, Bool.not_eq_true] at hplain
      obtain ⟨hjump, hbranch, hnot⟩ := hplain
      have htarget : targetOf insts blocks[k].end_index blocks[k].end_inst = none := by
        unfold targetOf
        rw [if_neg, if_neg (by simp [hjump, hbranch])]
        intro hset
        simp [GcnInst.isUnconditionalBranch, hset] at hjump
      have hfollows := hto.follows (hinst ▸ hcmpx _ hb)
      rw [← hinst, ← hend, flowOf, if_neg hnot, htarget] at hfollows
      obtain ⟨hclass, hcond, _, -, hpointer, -⟩ := hfollows
      exact ⟨hclass, hcond, by rw [hpointer]; rfl⟩

def vectorInst : GcnInst where
  opcode := Opcode.mapVop1 + 1
  category := .vectorALU

/-- A scope with two vector instructions, and a scalar one between them. -/
def scalarInside : List GcnInst :=
  [{ opcode := Opcode.sAndSaveexecB64, category := .scalarALU },
    vectorInst,
    { opcode := Opcode.sAddU32, category := .scalarALU },
    vectorInst,
    { opcode := Opcode.sMovB64, category := .scalarALU, dst0 := { field := OperandField.execLo } },
    endpgm]

def scalarInsideBlock : Block where
  id := 0
  begin_pc := 0
  end_pc := 24
  begin_index := 0
  end_index := 5
  cond := .true
  end_inst := endpgm
  end_class := .exit

def scalarInsideSplit : List Block :=
  [{ id := 0, begin_pc := 0, end_pc := 0, begin_index := 0, end_index := 0, cond := .execnz,
      end_inst := instAt scalarInside 0, branch_true := some 1, branch_false := some 2 },
    { id := 1, begin_pc := 4, end_pc := 12, begin_index := 1, end_index := 3, cond := .true,
      end_inst := instAt scalarInside 3, branch_true := some 2 },
    { id := 2, begin_pc := 16, end_pc := 24, begin_index := 4, end_index := 5, cond := .true,
      end_inst := endpgm, end_class := .exit }]

theorem scalarInside_blocks : buildBlocks scalarInside = .ok [scalarInsideBlock] := by
  have hlabels : emitLabels scalarInside = .ok ([0, 4, 8, 12, 16, 20, 24], [0, 24]) := by
    unfold emitLabels
    rw [show emitLabelsFrom scalarInside scalarInside 0 0 [] (addLabel [] 0) =
      .ok ([0, 4, 8, 12, 16, 20, 24], [0, 24]) by decide]
    simp only [bind, Except.bind]
    rw [mergeSort_of_pairwise (by decide)]
    rfl
  unfold buildBlocks
  rw [hlabels]
  decide

end ShadPS4.Gcn
