import Mathlib.Data.List.Nodup
import ShadPS4.Lib.Transition

/-!
# `ImageSyncState`

The layout and the access that an image was last given, for the whole image or for each of its subresources: one
for each mip level and layer.
-/

namespace ShadPS4.VideoCore

open List Option

variable {requested : Option SubresourceRange}

inductive ImageLayout
  | undefined
  | general
  | transferSource
  | transferDestination
  | shaderReadOnly
  | colorAttachment
  | depthAttachment
  | depthStencilAttachment
  | depthReadOnly
  | depthStencilReadOnly
  | depthReadOnlyStencilAttachment
  | attachmentFeedbackLoop
deriving DecidableEq

/-- `ImageAccess`: a set of accesses. -/
abbrev ImageAccess : Type := BitVec 32

namespace ImageAccess
abbrev memoryWrite : ImageAccess := 2
abbrev transferWrite : ImageAccess := 8
abbrev shaderRead : ImageAccess := 16
abbrev shaderWrite : ImageAccess := 32
abbrev colorAttachmentWrite : ImageAccess := 128
end ImageAccess

def hasImageAccess (flags access : ImageAccess) : Bool := flags &&& access != 0

inductive ImageStage
  | allCommands
  | transfer
  | graphicsAndCompute
  | fragmentShader
  | colorAttachmentOutput
  | copy
deriving DecidableEq

structure ImageResourceState where
  layout : ImageLayout := .undefined
  access : ImageAccess := 0
  stage : ImageStage := .allCommands
deriving DecidableEq

structure SubresourceBase where
  level : ℕ := 0
  layer : ℕ := 0
deriving DecidableEq

structure SubresourceExtent where
  levels : ℕ := 1
  layers : ℕ := 1
deriving DecidableEq

structure SubresourceRange where
  base : SubresourceBase
  extent : SubresourceExtent
deriving DecidableEq

structure ImageTransition where
  before : ImageResourceState
  after : ImageResourceState
  range : SubresourceRange
  whole_resource : Bool
deriving DecidableEq

structure ImageSyncState where
  extent : SubresourceExtent := {}
  current : ImageResourceState := {}
  subresources : List ImageResourceState := []
deriving DecidableEq

def needsBarrier (before after : ImageResourceState) : Bool :=
  let was_write := hasImageAccess before.access ImageAccess.transferWrite ||
    hasImageAccess before.access ImageAccess.shaderWrite ||
    hasImageAccess before.access ImageAccess.memoryWrite
  before.layout != after.layout || before.access != after.access || was_write

/-- The subresources of a range, in the order of the loops of `Transition`. -/
def SubresourceRange.places (range : SubresourceRange) : List (ℕ × ℕ) :=
  (range' range.base.level range.extent.levels).flatMap fun mip =>
    (range' range.base.layer range.extent.layers).map fun layer => (mip, layer)

/-- The body of the loops of `Transition`, for the subresources given. -/
def visitSubresources (extent : SubresourceExtent) (next : ImageResourceState) :
    List (ℕ × ℕ) → List ImageResourceState → Option (List ImageResourceState × List ImageTransition)
  | [], subresources => some (subresources, [])
  | (mip, layer) :: rest, subresources => do
    let i := (mip * extent.layers + layer) % 2^32
    let state ← subresources[i]?
    if needsBarrier state next then
      let (subresources, transitions) ← visitSubresources extent next rest (subresources.set i next)
      return (subresources, ⟨state, next, ⟨⟨mip, layer⟩, ⟨1, 1⟩⟩, false⟩ :: transitions)
    else visitSubresources extent next rest subresources

namespace ImageSyncState

def setCurrent (s : ImageSyncState) (state : ImageResourceState) : ImageSyncState :=
  { s with current := state }

def transition (s : ImageSyncState) (next : ImageResourceState)
    (requested : Option SubresourceRange) : Option (ImageSyncState × List ImageTransition) := do
  let all : SubresourceRange := ⟨{}, s.extent⟩
  let partly := requested.any fun range => range.base != {} || range.extent != s.extent
  if partly || !s.subresources.isEmpty then
    let subresources := if s.subresources.isEmpty then
        replicate (s.extent.levels * s.extent.layers % 2^32) s.current
      else s.subresources
    let range := if partly then requested.getD all else all
    let (subresources, transitions) ← visitSubresources s.extent next range.places subresources
    return ({ s with current := next, subresources := if partly then subresources else [] },
      transitions)
  else
    return ({ s with current := next },
      if needsBarrier s.current next then [⟨s.current, next, all, true⟩] else [])

end ImageSyncState

/-! ## The reference -/

def ImageResourceState.Same (a b : ImageResourceState) : Prop :=
  a.layout = b.layout ∧ a.access = b.access

def SubresourceRange.Contains (range : SubresourceRange) (mip layer : ℕ) : Prop :=
  range.base.level ≤ mip ∧ mip < range.base.level + range.extent.levels ∧
    range.base.layer ≤ layer ∧ layer < range.base.layer + range.extent.layers

instance (range : SubresourceRange) (mip layer : ℕ) : Decidable (range.Contains mip layer) :=
  inferInstanceAs (Decidable (_ ∧ _))

abbrev ImageModel : Type := ℕ → ℕ → ImageResourceState

section

variable (extent : SubresourceExtent)

/-- The range that a transition is about: the one given, or all of the image. -/
def requestedRange (requested : Option SubresourceRange) : SubresourceRange :=
  requested.getD ⟨{}, extent⟩

def ImageModel.transition (m : ImageModel) (next : ImageResourceState) (range : SubresourceRange) : ImageModel :=
  fun mip layer => if range.Contains mip layer then next else m mip layer

def covering (transitions : List ImageTransition) (mip layer : ℕ) : List ImageTransition :=
  transitions.filter fun t => t.range.Contains mip layer

/-- What the reference asks of the transitions emitted, for one subresource: exactly one that covers it,
with the states of the reference, if it is in the range and needs a barrier, and else none. -/
structure ImageModel.AnswersAt (m : ImageModel) (next : ImageResourceState) (asked : Prop)
    (transitions : List ImageTransition) (mip layer : ℕ) : Prop where
  one : asked → needsBarrier (m mip layer) next → ∃ t, covering transitions mip layer = [t] ∧
    t.before.Same (m mip layer) ∧ t.after = next
  none : ¬ (asked ∧ needsBarrier (m mip layer) next) → covering transitions mip layer = []

/-- What the reference asks of the transitions emitted. -/
def ImageModel.Answers (m : ImageModel) (extent : SubresourceExtent) (next : ImageResourceState)
    (range : SubresourceRange) (transitions : List ImageTransition) : Prop :=
  ∀ mip layer, mip < extent.levels → layer < extent.layers →
    m.AnswersAt next (range.Contains mip layer) transitions mip layer

/-- The range is none, or a part of the image that is not empty, or all of it. -/
def Requestable : Option SubresourceRange → Prop
  | none => True
  | some range => range = ⟨{}, extent⟩ ∨
    0 < range.extent.levels ∧ range.base.level + range.extent.levels ≤ extent.levels ∧
      0 < range.extent.layers ∧ range.base.layer + range.extent.layers ≤ extent.layers

/-- A call of the class that changes it. -/
inductive ImageSyncOp
  | transition (next : ImageResourceState) (requested : Option SubresourceRange)
  | setCurrent (state : ImageResourceState)

/-- The object and the reference before and after a call. -/
inductive ImageSyncStep : ImageSyncState × ImageModel → ImageSyncOp → ImageSyncState × ImageModel → Prop
  | transition {s s' : ImageSyncState} {m : ImageModel} {next : ImageResourceState}
      {requested : Option SubresourceRange} {transitions : List ImageTransition} :
      Requestable s.extent requested → s.transition next requested = some (s', transitions) →
      ImageSyncStep (s, m) (.transition next requested)
        (s', m.transition next (requestedRange s.extent requested))
  | setCurrent {s : ImageSyncState} {m : ImageModel} {state : ImageResourceState} :
      ImageSyncStep (s, m) (.setCurrent state) (s.setCurrent state, fun _ _ => state)

/-- A `SetCurrent` changes no stored state of a subresource: there is none, or they are the state
already. -/
def ImageSyncOp.KeepsStored (s : ImageSyncState × ImageModel) : ImageSyncOp → Prop
  | transition _ _ => True
  | setCurrent state => ∀ stored ∈ s.1.subresources, stored.Same state

/-- The object and the reference after calls that meet the guard, from a new object on. -/
def SyncReachable
    (guard : ImageSyncState × ImageModel → ImageSyncOp → Prop) : ImageSyncState × ImageModel → Prop :=
  Run (· = ({ extent }, fun _ _ => {})) ImageSyncStep guard

end

variable {a b next : ImageResourceState} {extent : SubresourceExtent} {range : SubresourceRange}
  {m : ImageModel} {s : ImageSyncState} {places : List (ℕ × ℕ)}
  {subresources : List ImageResourceState} {transitions : List ImageTransition} {mip layer : ℕ}

theorem needsBarrier_congr (h : a.Same b) (next : ImageResourceState) :
    needsBarrier a next = needsBarrier b next := by
  unfold needsBarrier
  rw [h.1, h.2]

theorem same_of_not_needsBarrier (h : ¬ needsBarrier a next) : a.Same next := by
  simp only [needsBarrier, Bool.or_eq_true, bne_iff_ne, not_or, not_not] at h
  exact ⟨h.1.1, h.1.2⟩

theorem SubresourceRange.mem_places : (mip, layer) ∈ range.places ↔ range.Contains mip layer := by
  simp only [places, Contains, mem_flatMap, List.mem_map, mem_range'_1, Prod.mk.injEq]
  constructor
  · rintro ⟨x, ⟨h1, h2⟩, y, ⟨h3, h4⟩, rfl, rfl⟩
    exact ⟨h1, h2, h3, h4⟩
  · rintro ⟨h1, h2, h3, h4⟩
    exact ⟨mip, ⟨h1, h2⟩, layer, ⟨h3, h4⟩, rfl, rfl⟩

theorem SubresourceRange.nodup_places (range : SubresourceRange) : range.places.Nodup := by
  unfold places
  rw [nodup_flatMap]
  refine ⟨fun mip _ => (nodup_range' ..).map fun x y h => (Prod.mk.inj h).2, ?_⟩
  refine (nodup_range' ..).imp fun {x y} hxy => ?_
  simp only [disjoint_left, List.mem_map]
  rintro p ⟨l, -, rfl⟩ ⟨l', -, h⟩
  exact hxy (Prod.mk.inj h).1.symm

theorem index_injective (h : layer < layers) (h' : layer' < layers)
    (heq : mip * layers + layer = mip' * layers + layer') : mip = mip' ∧ layer = layer' := by
  have hmip : ∀ {x y : ℕ}, y < layers → (x * layers + y) / layers = x := by
    intro x y hy
    rw [Nat.mul_comm, Nat.mul_add_div (by omega), Nat.div_eq_of_lt hy, Nat.add_zero]
  have := hmip (x := mip) h
  rw [heq, hmip h'] at this
  subst this
  exact ⟨rfl, by omega⟩

theorem index_lt (h : mip < extent.levels) (h' : layer < extent.layers) :
    mip * extent.layers + layer < extent.levels * extent.layers := by
  calc mip * extent.layers + layer < mip * extent.layers + extent.layers := by omega
    _ = (mip + 1) * extent.layers := by rw [Nat.add_mul, Nat.one_mul]
    _ ≤ extent.levels * extent.layers := Nat.mul_le_mul_right _ h

/-! ## The loops -/

def Stored (extent : SubresourceExtent) (m : ImageModel) (subresources : List ImageResourceState) : Prop :=
  ∀ mip layer, mip < extent.levels → layer < extent.layers →
    ∃ state, subresources[mip * extent.layers + layer]? = some state ∧ state.Same (m mip layer)

def ImageModel.assign (m : ImageModel) (next : ImageResourceState) (places : List (ℕ × ℕ)) : ImageModel :=
  fun mip layer => if (mip, layer) ∈ places then next else m mip layer

@[simp] theorem ImageModel.assign_nil : m.assign next [] = m := by
  funext mip layer
  simp [assign]

theorem ImageModel.assign_one (mip' layer' : ℕ) : m.assign next [(mip, layer)] mip' layer' =
    if mip' = mip ∧ layer' = layer then next else m mip' layer' := by
  simp [assign]

theorem contains_one :
    (⟨⟨mip, layer⟩, ⟨1, 1⟩⟩ : SubresourceRange).Contains mip' layer' ↔ mip = mip' ∧ layer = layer' := by
  simp only [SubresourceRange.Contains]
  omega

theorem Stored.set (h : Stored extent m subresources) (hmip : mip < extent.levels)
    (hlayer : layer < extent.layers) : Stored extent (m.assign next [(mip, layer)])
      (subresources.set (mip * extent.layers + layer) next) := by
  intro mip' layer' hmip' hlayer'
  obtain ⟨state, hstate, hsame⟩ := h mip' layer' hmip' hlayer'
  have hlt := (List.getElem?_eq_some_iff.mp hstate).1
  rw [ImageModel.assign_one]
  by_cases heq : mip' = mip ∧ layer' = layer
  · obtain ⟨rfl, rfl⟩ := heq
    rw [if_pos ⟨rfl, rfl⟩]
    exact ⟨next, getElem?_set_self hlt, rfl, rfl⟩
  · rw [if_neg heq]
    refine ⟨state, ?_, hsame⟩
    rw [getElem?_set_ne, hstate]
    exact fun hi => heq ((index_injective hlayer hlayer' hi).imp Eq.symm Eq.symm)

theorem Stored.keep (h : Stored extent m subresources) (hlayer : layer < extent.layers)
    (hstate : subresources[mip * extent.layers + layer]? = some state) (hsame : state.Same next) :
    Stored extent (m.assign next [(mip, layer)]) subresources := by
  intro mip' layer' hmip' hlayer'
  rw [ImageModel.assign_one]
  by_cases heq : mip' = mip ∧ layer' = layer
  · obtain ⟨rfl, rfl⟩ := heq
    rw [if_pos ⟨rfl, rfl⟩]
    exact ⟨state, hstate, hsame⟩
  · rw [if_neg heq]
    exact h mip' layer' hmip' hlayer'

theorem visitSubresources_spec (next : ImageResourceState) (hext : extent.levels * extent.layers < 2^32)
    (hnodup : places.Nodup) (hin : ∀ p ∈ places, p.1 < extent.levels ∧ p.2 < extent.layers)
    (h : Stored extent m subresources) : ∃ subresources' transitions,
      visitSubresources extent next places subresources = some (subresources', transitions) ∧
      Stored extent (m.assign next places) subresources' ∧ ∀ mip layer, mip < extent.levels → layer < extent.layers →
        m.AnswersAt next ((mip, layer) ∈ places) transitions mip layer := by
  induction places generalizing subresources m with
  | nil =>
    refine ⟨subresources, [], rfl, ?_, fun mip layer _ _ => ?_⟩
    · simpa using h
    · exact ⟨fun hmem => absurd hmem not_mem_nil, fun _ => rfl⟩
  | cons p rest ih =>
    obtain ⟨mip, layer⟩ := p
    obtain ⟨hnotin, hnodup⟩ := nodup_cons.mp hnodup
    obtain ⟨hmip, hlayer⟩ : mip < extent.levels ∧ layer < extent.layers :=
      hin _ mem_cons_self
    have hrest := fun p hp => hin p (mem_cons_of_mem _ hp)
    obtain ⟨state, hstate, hsame⟩ := h mip layer hmip hlayer
    have hi : (mip * extent.layers + layer) % 2^32 = mip * extent.layers + layer :=
      Nat.mod_eq_of_lt (Nat.lt_trans (index_lt hmip hlayer) hext)
    -- Assigning the first subresource and then the others assigns all of them.
    have hassign : (m.assign next [(mip, layer)]).assign next rest = m.assign next ((mip, layer) :: rest) := by
      funext mip' layer'
      simp only [ImageModel.assign, mem_cons]
      by_cases h1 : (mip', layer') ∈ rest <;> simp [h1]
    have hother : ∀ mip' layer', ¬ (mip = mip' ∧ layer = layer') →
        ((mip', layer') ∈ (mip, layer) :: rest ↔ (mip', layer') ∈ rest) ∧
          (m.assign next [(mip, layer)]) mip' layer' = m mip' layer' := by
      intro mip' layer' hne
      have hne' : ¬ (mip', layer') = (mip, layer) := fun heq =>
        hne ((Prod.mk.inj heq).imp Eq.symm Eq.symm)
      simp [ImageModel.assign, hne']
    simp only [visitSubresources, hi, hstate, bind_eq_bind, bind_some]
    by_cases hneed : needsBarrier state next = true
    · obtain ⟨sub', ts, hvisit, hstored, hcov⟩ := ih hnodup hrest (h.set hmip hlayer)
      rw [if_pos hneed, hvisit]
      refine ⟨sub', _, rfl, hassign ▸ hstored, fun mip' layer' hmip' hlayer' => ?_⟩
      have hcov := hcov mip' layer' hmip' hlayer'
      by_cases heq : mip = mip' ∧ layer = layer'
      · -- The one that is emitted here is the only one.
        obtain ⟨rfl, rfl⟩ := heq
        have hempty := hcov.none fun hmem => hnotin hmem.1
        refine ⟨fun _ _ => ⟨⟨state, next, ⟨⟨mip, layer⟩, ⟨1, 1⟩⟩, false⟩, ?_, hsame, rfl⟩,
          fun hn => ?_⟩
        · rw [covering, filter_cons_of_pos (by simpa using contains_one.mpr ⟨rfl, rfl⟩)]
          exact congrArg _ hempty
        · exact absurd ⟨mem_cons_self, needsBarrier_congr hsame next ▸ hneed⟩ hn
      · obtain ⟨hmem, hm⟩ := hother mip' layer' heq
        have hskip : covering (⟨state, next, ⟨⟨mip, layer⟩, ⟨1, 1⟩⟩, false⟩ :: ts) mip' layer' =
            covering ts mip' layer' :=
          filter_cons_of_neg (by simpa using mt contains_one.mp heq)
        refine ⟨fun hasked hn => ?_, fun hn => ?_⟩
        · rw [hskip, ← hm]
          exact hcov.one (hmem.mp hasked) (hm ▸ hn)
        · rw [hskip]
          exact hcov.none fun hasked => hn (hasked.imp hmem.mpr fun hb => hm ▸ hb)
    · have hkeep := h.keep hlayer hstate (same_of_not_needsBarrier hneed)
      obtain ⟨sub', ts, hvisit, hstored, hcov⟩ := ih hnodup hrest hkeep
      rw [if_neg hneed, hvisit]
      refine ⟨sub', ts, rfl, hassign ▸ hstored, fun mip' layer' hmip' hlayer' => ?_⟩
      have hcov := hcov mip' layer' hmip' hlayer'
      by_cases heq : mip = mip' ∧ layer = layer'
      · obtain ⟨rfl, rfl⟩ := heq
        exact ⟨fun _ hn => absurd (needsBarrier_congr hsame next ▸ hn) hneed,
          fun _ => hcov.none fun hmem => hnotin hmem.1⟩
      · obtain ⟨hmem, hm⟩ := hother mip' layer' heq
        refine ⟨fun hasked hn => ?_, fun hn => ?_⟩
        · rw [← hm]
          exact hcov.one (hmem.mp hasked) (hm ▸ hn)
        · exact hcov.none fun hasked => hn (hasked.imp hmem.mpr fun hb => hm ▸ hb)

/-! ## Runs -/

/-- The object stands for the reference: for all of the image by one state, or by the states stored. -/
structure Follows (extent : SubresourceExtent) (s : ImageSyncState) (m : ImageModel) : Prop where
  extent_eq : s.extent = extent
  whole : s.subresources = [] → ∀ mip layer, mip < extent.levels → layer < extent.layers →
    s.current.Same (m mip layer)
  stored : s.subresources ≠ [] → Stored extent m s.subresources

/-- The states that a transition starts from, stored if they were not. -/
def ImageSyncState.expanded (s : ImageSyncState) : List ImageResourceState :=
  if s.subresources.isEmpty then
    replicate (s.extent.levels * s.extent.layers % 2^32) s.current
  else s.subresources

theorem Follows.expanded (hext : extent.levels * extent.layers < 2^32) (h : Follows extent s m) :
    Stored extent m s.expanded := by
  unfold ImageSyncState.expanded
  by_cases hempty : s.subresources = []
  · rw [if_pos (by simp [hempty]), h.extent_eq, Nat.mod_eq_of_lt hext]
    intro mip layer hmip hlayer
    refine ⟨s.current, ?_, h.whole hempty mip layer hmip hlayer⟩
    rw [getElem?_replicate, if_pos (index_lt hmip hlayer)]
  · rw [if_neg (by simpa using hempty)]
    exact h.stored hempty

theorem ImageModel.assign_places : m.assign next range.places = m.transition next range := by
  funext mip layer
  simp only [assign, transition, SubresourceRange.mem_places]

/-- Whether a range given is a part of the image. -/
def ImageSyncState.partly (s : ImageSyncState) (requested : Option SubresourceRange) : Bool :=
  requested.any fun range => range.base != {} || range.extent != s.extent

theorem ImageSyncState.range_eq (requested : Option SubresourceRange) :
    (if s.partly requested then requested.getD ⟨{}, s.extent⟩ else ⟨{}, s.extent⟩) =
      requestedRange s.extent requested := by
  unfold partly requestedRange
  cases requested with
  | none => rfl
  | some range =>
    split_ifs with hpart
    · rfl
    · simp only [any_some, Bool.or_eq_true, bne_iff_ne, not_or, not_not] at hpart
      obtain ⟨hbase, hrange⟩ := hpart
      rw [getD_some, ← hbase, ← hrange]

theorem contains_of_not_partly (h : ¬ s.partly requested)
    (hmip : mip < s.extent.levels) (hlayer : layer < s.extent.layers) :
    (requestedRange s.extent requested).Contains mip layer := by
  rw [← ImageSyncState.range_eq, if_neg h]
  simp only [SubresourceRange.Contains]
  omega

theorem mem_extent_of_requestable (hr : Requestable extent requested) (p : ℕ × ℕ)
    (hp : p ∈ (requestedRange extent requested).places) : p.1 < extent.levels ∧ p.2 < extent.layers := by
  obtain ⟨mip, layer⟩ := p
  rw [SubresourceRange.mem_places] at hp
  cases requested with
  | none =>
    simp only [requestedRange, getD_none, SubresourceRange.Contains] at hp
    omega
  | some range =>
    simp only [requestedRange, getD_some, SubresourceRange.Contains] at hp
    rcases hr with rfl | hr
    · simp only at hp
      omega
    · omega

theorem Follows.transition (hext : extent.levels * extent.layers < 2^32) (h : Follows extent s m)
    (next : ImageResourceState) (hr : Requestable extent requested) :
    ∃ s' transitions, s.transition next requested = some (s', transitions) ∧
      Follows extent s' (m.transition next (requestedRange extent requested)) ∧
      m.Answers extent next (requestedRange extent requested) transitions := by
  obtain rfl := h.extent_eq
  by_cases hloop : s.partly requested || !s.subresources.isEmpty
  · -- The loops visit the range, from states that are those of the reference.
    obtain ⟨sub', ts, hvisit, hstored, hcov⟩ := visitSubresources_spec next hext
      (SubresourceRange.nodup_places _) (mem_extent_of_requestable hr) (h.expanded hext)
    rw [ImageModel.assign_places] at hstored
    have hstep : s.transition next requested = some ({ s with
        current := next, subresources := if s.partly requested then sub' else [] }, ts) := by
      have hrange := s.range_eq requested
      unfold ImageSyncState.partly at hloop hrange
      unfold ImageSyncState.expanded at hvisit
      unfold ImageSyncState.transition
      simp only [if_pos hloop, hrange, hvisit, bind_eq_bind, bind_some]
      rfl
    refine ⟨_, ts, hstep, ⟨rfl, fun hempty mip layer hmip hlayer => ?_, fun hne => ?_⟩, ?_⟩
    · simp only at hempty ⊢
      split_ifs at hempty with hpart
      · obtain ⟨state, hstate, -⟩ := hstored mip layer hmip hlayer
        simp [hempty] at hstate
      · rw [ImageModel.transition, if_pos (contains_of_not_partly hpart hmip hlayer)]
        exact ⟨rfl, rfl⟩
    · simp only at hne ⊢
      split_ifs at hne ⊢
      · exact hstored
      · exact absurd rfl hne
    · intro mip layer hmip hlayer
      rw [← SubresourceRange.mem_places]
      exact hcov mip layer hmip hlayer
  · simp only [Bool.or_eq_true, not_or, Bool.not_eq_true', isEmpty_eq_false_iff, not_not] at hloop
    obtain ⟨hpart, hempty⟩ := hloop
    have hstep : s.transition next requested = some ({ s with current := next },
        if needsBarrier s.current next then [⟨s.current, next, ⟨{}, s.extent⟩, true⟩] else []) := by
      unfold ImageSyncState.partly at hpart
      unfold ImageSyncState.transition
      rw [if_neg (by simp [hpart, hempty])]
      rfl
    refine ⟨_, _, hstep, ⟨rfl, fun _ mip layer hmip hlayer => ?_, fun hne => absurd hempty hne⟩,
      fun mip layer hmip hlayer => ?_⟩
    · rw [ImageModel.transition, if_pos (contains_of_not_partly hpart hmip hlayer)]
      exact ⟨rfl, rfl⟩
    · -- The one transition covers every subresource.
      have hsame := h.whole hempty mip layer hmip hlayer
      have hall : (⟨{}, s.extent⟩ : SubresourceRange).Contains mip layer := by
        simp only [SubresourceRange.Contains]
        omega
      have hasked := contains_of_not_partly hpart hmip hlayer
      have hcong := needsBarrier_congr hsame next
      refine ⟨fun _ hn => ?_, fun hn => ?_⟩
      · rw [← hcong] at hn
        rw [if_pos hn]
        exact ⟨_, filter_cons_of_pos (decide_eq_true hall), hsame, rfl⟩
      · rw [← hcong] at hn
        rw [if_neg fun hb => hn ⟨hasked, hb⟩]
        rfl

theorem Follows.setCurrent (h : Follows extent s m) (hkeep : ∀ stored ∈ s.subresources, stored.Same state) :
    Follows extent (s.setCurrent state) fun _ _ => state := by
  refine ⟨h.extent_eq, fun _ _ _ _ _ => ⟨rfl, rfl⟩, fun hne mip layer hmip hlayer => ?_⟩
  obtain ⟨stored, hstored, -⟩ := h.stored hne mip layer hmip hlayer
  exact ⟨stored, hstored, hkeep stored (mem_of_getElem? hstored)⟩

theorem SyncReachable.follows (hext : extent.levels * extent.layers < 2^32)
    (h : SyncReachable extent ImageSyncOp.KeepsStored (s, m)) : Follows extent s m := by
  refine Run.invariant (P := fun p => Follows extent p.1 p.2) h ?_ ?_
  · rintro _ rfl
    exact ⟨rfl, fun _ _ _ _ _ => ⟨rfl, rfl⟩, fun hne => absurd rfl hne⟩
  · intro p op p' hp hguard hstep
    cases hstep with
    | transition hr htrans =>
      obtain ⟨s', ts, hs', hfollows, -⟩ := hp.transition hext _ (hp.extent_eq ▸ hr)
      rw [htrans, Option.some.injEq, Prod.mk.injEq] at hs'
      obtain ⟨rfl, rfl⟩ := hs'
      rwa [hp.extent_eq]
    | setCurrent => exact hp.setCurrent hguard

/-- For an image with fewer than `2^32` subresources, in every state that is reached with each
`SetCurrent` changing no stored state, a transition of a requestable range emits exactly what the
reference asks. -/
theorem transition_answers (hext : extent.levels * extent.layers < 2^32)
    (h : SyncReachable extent ImageSyncOp.KeepsStored (s, m)) (next : ImageResourceState)
    {requested : Option SubresourceRange} (hr : Requestable extent requested) :
    ∃ s' transitions, s.transition next requested = some (s', transitions) ∧
      m.Answers extent next (requestedRange extent requested) transitions := by
  obtain ⟨s', transitions, hstep, -, hanswers⟩ := (h.follows hext).transition hext next hr
  exact ⟨s', transitions, hstep, hanswers⟩

def shaderReadOnly : ImageResourceState :=
  ⟨.shaderReadOnly, ImageAccess.shaderRead, .graphicsAndCompute⟩

/-- The state that `SetBackingSamples` sets. -/
def colorAttachment : ImageResourceState :=
  ⟨.colorAttachment, ImageAccess.colorAttachmentWrite, .colorAttachmentOutput⟩

def secondMip : SubresourceRange := ⟨⟨1, 0⟩, ⟨1, 1⟩⟩

/-- An image of two mip levels of which the second has been made readable. -/
def partlyReadable : ImageSyncState := ⟨⟨2, 1⟩, shaderReadOnly, [{}, shaderReadOnly]⟩

def partlyReadableModel : ImageModel :=
  ImageModel.transition (fun _ _ => {}) shaderReadOnly (requestedRange ⟨2, 1⟩ (some secondMip))

theorem reachable_partlyReadable (guard : ImageSyncState × ImageModel → ImageSyncOp → Prop)
    (hg : guard ({ extent := ⟨2, 1⟩ }, fun _ _ => {})
      (.transition shaderReadOnly (some secondMip))) :
    SyncReachable ⟨2, 1⟩ guard (partlyReadable, partlyReadableModel) := by
  have htrans : ImageSyncState.transition { extent := ⟨2, 1⟩ } shaderReadOnly (some secondMip) =
      some (partlyReadable, [⟨{}, shaderReadOnly, secondMip, false⟩]) := by decide
  exact .step (.start rfl) hg (.transition (.inr (by decide)) htrans)

theorem transition_answers_sample : ∃ s' transitions,
    partlyReadable.transition colorAttachment none = some (s', transitions) ∧
      partlyReadableModel.Answers ⟨2, 1⟩ colorAttachment (requestedRange ⟨2, 1⟩ none) transitions :=
  transition_answers (by decide) (reachable_partlyReadable _ trivial) colorAttachment trivial

/-- After the second mip level is made readable, `SetCurrent` leaves its stored state: a transition of
the image then emits no barrier for it from the state that was set. -/
theorem setCurrent_keeps_stored : ∃ s m, SyncReachable ⟨2, 1⟩ (fun _ _ => True) (s, m) ∧
    ∃ s' transitions, s.transition shaderReadOnly none = some (s', transitions) ∧
      ¬ m.Answers ⟨2, 1⟩ shaderReadOnly (requestedRange ⟨2, 1⟩ none) transitions := by
  refine ⟨partlyReadable.setCurrent colorAttachment, fun _ _ => colorAttachment,
    .step (reachable_partlyReadable _ trivial) trivial .setCurrent,
    ⟨⟨2, 1⟩, shaderReadOnly, []⟩, [⟨{}, shaderReadOnly, ⟨⟨0, 0⟩, ⟨1, 1⟩⟩, false⟩], by decide, ?_⟩
  intro hanswers
  obtain ⟨t, ht, -⟩ := (hanswers 1 0 (by decide) (by decide)).one (by decide) (by decide)
  exact cons_ne_nil _ _ ht.symm

end ShadPS4.VideoCore
