import ShadPS4.D3D12.EncoderSpec

/-!
# The recorded stream is state-correct

A recording is a sequence of operations on a fresh encoder, each accepted or rejected.
-/

namespace ShadPS4.D3D12

open Option (some.inj or_none)

variable {device : Device} {s : Encoder}

inductive Op where
  | track (resource : ℕ) (initial_state : ResourceStates)
  | transition (resource : ℕ) (state : ResourceStates)
  | uavBarrier (resource : ℕ)
  | copyBuffer (destination : ℕ) (destination_offset : UInt64) (source : ℕ)
      (source_offset bytes : UInt64)
  | copyBufferToTexture (texture buffer : ℕ) (footprint : PlacedFootprint)
  | copyTextureToBuffer (buffer texture : ℕ) (footprint : PlacedFootprint)
  | clearColor (resource rtv : ℕ) (color : List Float32)
  | clearDepth (resource dsv : ℕ) (depth : Float32)
  | resolve (destination source : ℕ)

def Op.exec (device : Device) : Op → Encode Unit
  | .track resource initial_state => D3D12.track device resource initial_state
  | .transition resource state => D3D12.transition resource state
  | .uavBarrier resource => D3D12.uavBarrier resource
  | .copyBuffer destination destination_offset source source_offset bytes =>
    D3D12.copyBuffer destination destination_offset source source_offset bytes
  | .copyBufferToTexture texture buffer footprint =>
    D3D12.copyBufferToTexture device texture buffer footprint
  | .copyTextureToBuffer buffer texture footprint =>
    D3D12.copyTextureToBuffer device buffer texture footprint
  | .clearColor resource rtv color => D3D12.clearColor resource rtv color
  | .clearDepth resource dsv depth => D3D12.clearDepth resource dsv depth
  | .resolve destination source => D3D12.resolve device destination source

/-- The operations of a recording so far, each with whether it was accepted, and the encoder. -/
structure Recording where
  trace : List (Op × Bool) := []
  encoder : Encoder := {}

/-- One more operation, accepted or not. -/
def Recording.step (device : Device) (r : Recording) (op : Op) : Recording :=
  match outcome (op.exec device) r.encoder with
  | (.ok _, t) => ⟨r.trace ++ [(op, true)], t⟩
  | (.error _, t) => ⟨r.trace ++ [(op, false)], t⟩

/-- A sequence of operations on a fresh encoder. -/
def Recording.run (device : Device) (ops : List Op) : Recording :=
  ops.foldl (Recording.step device) {}

/-- The state that an accepted operation takes a resource up in. -/
def trackedState (resource : ℕ) : Op × Bool → Option ResourceStates
  | (.track r state, true) => if r = resource then some state else none
  | _ => none

/-- The tracked initial state of a resource: that of the first `Track` accepted for it. -/
def initialState (trace : List (Op × Bool)) (resource : ℕ) : Option ResourceStates :=
  trace.findSome? (trackedState resource)

/-- The invariant of a recording with given initial states. -/
structure StateCorrect (device : Device) (initial : ℕ → Option ResourceStates) (s : Encoder) :
    Prop where
  held : Held device s
  untracked : ∀ r, s.resources r = none → initial r = none ∧ transitionsOf r s.commands = []
  tracked : ∀ r tracked, s.resources r = some tracked →
    stateAfter (initial r) (transitionsOf r s.commands) = some tracked.state
  chained : ∀ r, Chained (initial r) (transitionsOf r s.commands)
  served : ∀ pre c post, s.commands = pre ++ c :: post → ∀ p ∈ c.needs,
    ∃ state, stateAfter (initial p.1) (transitionsOf p.1 pre) = some state ∧ Serves state p.2
  inside : ∀ c ∈ s.commands, c.Inside device

theorem split_append (h : xs ++ [x] = pre ++ y :: post) : (pre = xs ∧ y = x) ∨ ∃ post', xs = pre ++ y :: post' := by
  rcases List.eq_nil_or_concat post with rfl | ⟨post', z, rfl⟩
  · obtain ⟨h1, h2⟩ := List.append_inj' h rfl
    exact .inl ⟨h1.symm, (List.cons.inj h2).1.symm⟩
  · refine .inr ⟨post', ?_⟩
    rw [List.concat_eq_append, ← List.cons_append, ← List.append_assoc] at h
    exact (List.append_inj' h rfl).1

theorem transitionsOf_append (r : ℕ) (commands : List Command) (c : Command) :
    transitionsOf r (commands ++ [c]) = transitionsOf r commands ++ transitionsOf r [c] :=
  List.filterMap_append ..

theorem Records.stateCorrect (h : Records (Command.Inside device) s t)
    (hs : StateCorrect device initial s) : StateCorrect device initial t := by
  induction h with
  | @same t h =>
    have hsame : Records (Command.Inside device) s t := .same h
    obtain ⟨hr, hc⟩ := h
    refine ⟨hsame.held hs.held, ?_, ?_, ?_, ?_, ?_⟩
    · rw [hr, hc]
      exact hs.untracked
    · rw [hr, hc]
      exact hs.tracked
    · rw [hc]
      exact hs.chained
    · rw [hc]
      exact hs.served
    · rw [hc]
      exact hs.inside
  | @barrier t u hrec resource tracked hr state ha hu hc ih =>
    have hself : transitionsOf resource [.transition resource tracked.state state] =
        [(tracked.state, state)] := by simp [transitionsOf]
    have hother : ∀ r ≠ resource, transitionsOf r [.transition resource tracked.state state] = [] := by
      intro r hne
      simp [transitionsOf, Ne.symm hne]
    have hres : ∀ r, u.resources r =
        if r = resource then some { tracked with state := state } else t.resources r := by
      intro r
      rw [hu]
      rfl
    refine ⟨(Records.barrier hrec hr ha hu hc).held hs.held, fun r hnone => ?_, fun r found hfound => ?_, fun r => ?_,
      fun pre c post hsplit p hp => ?_, fun c hmem => ?_⟩
    · rw [hres] at hnone
      split_ifs at hnone with he
      obtain ⟨h1, h2⟩ := ih.untracked r hnone
      refine ⟨h1, ?_⟩
      rw [hc, transitionsOf_append, h2, hother r he]
      rfl
    · rw [hres] at hfound
      rw [hc, transitionsOf_append]
      split_ifs at hfound with he
      · subst he
        obtain rfl := some.inj hfound
        rw [hself, stateAfter_append]
      · rw [hother r he, List.append_nil]
        exact ih.tracked r found hfound
    · rw [hc, transitionsOf_append]
      by_cases he : r = resource
      · subst he
        rw [hself]
        exact (ih.chained r).append (ih.tracked r tracked hr)
      · rw [hother r he, List.append_nil]
        exact ih.chained r
    · rw [hc] at hsplit
      rcases split_append hsplit with ⟨-, rfl⟩ | ⟨post', hpost⟩
      · simp [Command.needs] at hp
      · exact ih.served pre c post' hpost p hp
    · rw [hc] at hmem
      rcases List.mem_append.mp hmem with hmem | hmem
      · exact ih.inside c hmem
      · rw [List.mem_singleton.mp hmem]
        trivial
  | @command t u hrec c hn hi ht hu hc ih =>
    have htrans : ∀ r, transitionsOf r u.commands = transitionsOf r t.commands := by
      intro r
      rw [hc, transitionsOf_append, ht, List.append_nil]
    refine ⟨(Records.command hrec hn hi ht hu hc).held hs.held, fun r => ?_, fun r => ?_,
      fun r => ?_, fun pre c' post hsplit p hp => ?_, fun c' hmem => ?_⟩
    · rw [hu, htrans]
      exact ih.untracked r
    · rw [hu, htrans]
      exact ih.tracked r
    · rw [htrans]
      exact ih.chained r
    · rw [hc] at hsplit
      rcases split_append hsplit with ⟨rfl, rfl⟩ | ⟨post', hpost⟩
      · obtain ⟨found, hfound, hserves⟩ := hn p hp
        exact ⟨found.state, ih.tracked p.1 found hfound, hserves⟩
      · exact ih.served pre c' post' hpost p hp
    · rw [hc] at hmem
      rcases List.mem_append.mp hmem with hmem | hmem
      · exact ih.inside c' hmem
      · rw [List.mem_singleton.mp hmem]
        exact hi

theorem StateCorrect.track (h : StateCorrect device initial s)
    (hnone : s.resources resource = none) (ht : Tracked device resource found)
    (hself : initial' resource = some found.state) (hother : ∀ r ≠ resource, initial' r = initial r) :
    StateCorrect device initial' (s.setResource resource found) := by
  obtain ⟨hinit, htrans⟩ := h.untracked resource hnone
  have hres : ∀ r, (s.setResource resource found).resources r =
      if r = resource then some found else s.resources r := fun _ => rfl
  refine ⟨fun r t hr => ?_, fun r hr => ?_, fun r t hr => ?_, fun r => ?_,
    fun pre c post hsplit p hp => ?_, h.inside⟩
  · rw [hres] at hr
    split_ifs at hr with he
    · subst he
      obtain rfl := some.inj hr
      exact ht
    · exact h.held r t hr
  · rw [hres] at hr
    split_ifs at hr with he
    rw [hother r he]
    exact h.untracked r hr
  · rw [hres] at hr
    split_ifs at hr with he
    · subst he
      obtain rfl := some.inj hr
      change stateAfter (initial' r) (transitionsOf r s.commands) = _
      rw [htrans]
      exact hself
    · rw [hother r he]
      exact h.tracked r t hr
  · change Chained (initial' r) (transitionsOf r s.commands)
    by_cases he : r = resource
    · rw [he, htrans]
      trivial
    · rw [hother r he]
      exact h.chained r
  · obtain ⟨state, hstate, hserves⟩ := h.served pre c post hsplit p hp
    have hne : p.1 ≠ resource := by
      intro he
      -- A command that needs the resource would have found it tracked.
      have hpre : transitionsOf resource pre = [] := by
        have hall : transitionsOf resource (pre ++ c :: post) = [] := hsplit ▸ htrans
        unfold transitionsOf at hall ⊢
        rw [List.filterMap_append] at hall
        exact (List.append_eq_nil_iff.mp hall).1
      rw [he, hpre, hinit] at hstate
      exact absurd hstate (by simp [stateAfter])
    rw [hother _ hne]
    exact ⟨state, hstate, hserves⟩

theorem Fits.inside (hdevice : device.Lawful)
     (h : Fits device tex buf placed)
    (ht : Tracked device texture tex) (hb : Tracked device buffer buf) (to_texture : Bool) :
    (Command.copyTextureRegion texture buffer placed to_texture).Inside device := by
  have hfoot := hdevice.footprints tex.description placed.offset h.simple
  rw [← h.wanted, ht.desc_eq] at hfoot
  refine ⟨hfoot, ?_⟩
  have hrows := h.row_le
  rw [ht.desc_eq, hb.desc_eq] at hrows
  exact hrows

theorem Op.exec_runs (hdevice : device.Lawful) (h : Held device s) (op : Op) (hop : ∀ r state, op ≠ .track r state) :
    Runs (op.exec device) s (fun _ t => Records (Command.Inside device) s t) (fun _ t => Same s t) := by
  cases op with
  | track r state => exact absurd rfl (hop r state)
  | transition r state => exact transition_records r state
  | uavBarrier r => exact uavBarrier_runs r trivial
  | copyBuffer d d_offset src s_offset bytes =>
    exact (copyBuffer_runs h d d_offset src s_offset bytes id).mono (fun _ _ h => h.1)
      fun _ _ h => h.1
  | copyBufferToTexture texture buffer placed =>
    exact (copyTexture_runs h texture buffer placed true fun _ _ ht hb hf =>
      hf.inside hdevice ht hb true).mono (fun _ _ h => h.1) fun _ _ h => h
  | copyTextureToBuffer buffer texture placed =>
    exact (copyTexture_runs h texture buffer placed false fun _ _ ht hb hf =>
      hf.inside hdevice ht hb false).mono (fun _ _ h => h.1) fun _ _ h => h
  | clearColor r rtv color => exact clearColor_runs r rtv color trivial
  | clearDepth r dsv depth => exact clearDepth_runs r dsv depth trivial
  | resolve d src => exact resolve_runs hdevice h d src fun _ => trivial

theorem Op.same_of_error (hdevice : device.Lawful) {t : Encoder} (h : Held device s) {op : Op} {e : EncoderError}
    (he : outcome (op.exec device) s = (.error e, t)) : Same s t := by
  by_cases hop : ∀ r state, op ≠ .track r state
  · exact (Op.exec_runs hdevice h op hop).of_error he
  · simp only [not_forall, ne_eq, not_not] at hop
    obtain ⟨r, state, rfl⟩ := hop
    exact (track_runs r state).of_error he

theorem initialState_append (trace : List (Op × Bool)) (event : Op × Bool) (r : ℕ) :
    initialState (trace ++ [event]) r = (initialState trace r).or (trackedState r event) := by
  unfold initialState
  rw [List.findSome?_append, List.findSome?_singleton]

theorem initialState_append_none
    (h : ∀ r, trackedState r event = none) : initialState (trace ++ [event]) = initialState trace := by
  funext r
  rw [initialState_append, h, or_none]

theorem StateCorrect.initial_ne_none (h : StateCorrect device initial s) (hr : s.resources r ≠ none) :
    initial r ≠ none := by
  obtain ⟨tracked, htracked⟩ := Option.ne_none_iff_exists'.mp hr
  have hstate := h.tracked r tracked htracked
  have hchained := h.chained r
  cases ht : transitionsOf r s.commands with
  | nil =>
    rw [ht] at hstate
    intro hnone
    rw [hnone] at hstate
    exact absurd hstate (by simp [stateAfter])
  | cons x rest =>
    rw [ht] at hchained
    rw [hchained.1]
    simp

theorem Recording.step_stateCorrect (hdevice : device.Lawful) {r : Recording}
    (h : StateCorrect device (initialState r.trace) r.encoder) (op : Op) :
    StateCorrect device (initialState (r.step device op).trace) (r.step device op).encoder := by
  unfold Recording.step
  rcases ho : outcome (op.exec device) r.encoder with ⟨e | a, t⟩
  · have hsame := Op.same_of_error hdevice h.held ho
    rw [initialState_append_none]
    · exact (Records.same hsame).stateCorrect h
    · intro resource
      cases op <;> rfl
  · simp only
    by_cases hop : ∀ resource state, op ≠ .track resource state
    · have hrec := (Op.exec_runs hdevice h.held op hop).of_ok ho
      rw [initialState_append_none]
      · exact hrec.stateCorrect h
      · intro resource
        cases op with
        | track resource' state => exact absurd rfl (hop resource' state)
        | _ => rfl
    · simp only [not_forall, ne_eq, not_not] at hop
      obtain ⟨resource, state, rfl⟩ := hop
      rcases (track_runs resource state).of_ok ho with
        ⟨rfl, htracked⟩ | ⟨found, hnone, hfound, hstate, rfl⟩
      · -- The resource was tracked already, and keeps its first initial state.
        have hinit : initialState (r.trace ++ [(.track resource state, true)]) = initialState r.trace := by
          funext resource'
          rw [initialState_append]
          by_cases he : resource = resource'
          · subst he
            obtain ⟨first, hfirst⟩ := Option.ne_none_iff_exists'.mp (h.initial_ne_none htracked)
            rw [hfirst]
            rfl
          · have hnone : trackedState resource' (.track resource state, true) = none := if_neg he
            rw [hnone, or_none]
        rw [hinit]
        exact h
      · refine h.track hnone hfound ?_ fun resource' hne => ?_
        · rw [initialState_append, (h.untracked resource hnone).1, hstate]
          exact if_pos rfl
        · have hnone' : trackedState resource' (.track resource state, true) = none :=
            if_neg (Ne.symm hne)
          rw [initialState_append, hnone', or_none]

theorem Recording.run_stateCorrect (hdevice : device.Lawful) (ops : List Op) :
    StateCorrect device (initialState (Recording.run device ops).trace) (Recording.run device ops).encoder := by
  suffices h : ∀ r : Recording, StateCorrect device (initialState r.trace) r.encoder →
      StateCorrect device (initialState (ops.foldl (Recording.step device) r).trace)
        (ops.foldl (Recording.step device) r).encoder by
    refine h {} ⟨fun _ _ hr => absurd hr (by simp), fun _ _ => ⟨rfl, rfl⟩,
      fun _ _ hr => absurd hr (by simp), fun _ => trivial, fun pre c post hs => ?_,
      fun c hc => absurd hc (by simp)⟩
    exact absurd hs (by simp)
  induction ops with
  | nil => exact fun _ h => h
  | cons op rest ih => exact fun r h => ih _ (r.step_stateCorrect hdevice h op)

/-- For every device whose textures lie in the default heap, and every sequence of operations on a
fresh encoder, accepted or not: the transitions of each resource start in its tracked initial state
and each one where the one before ended; each command is recorded while its resources are in the
states that it needs; each copy lies inside both of its resources; and an operation that is rejected
next records no command and leaves every tracked state as it is. -/
theorem encoder_stateCorrect (device : Device) (hdevice : device.Lawful) (ops : List Op) :
    (∀ r, Chained (initialState (Recording.run device ops).trace r)
      (transitionsOf r (Recording.run device ops).encoder.commands)) ∧
    (∀ pre c post, (Recording.run device ops).encoder.commands = pre ++ c :: post →
      ∀ p ∈ c.needs, ∃ state, stateAfter (initialState (Recording.run device ops).trace p.1)
        (transitionsOf p.1 pre) = some state ∧ Serves state p.2) ∧
    (∀ c ∈ (Recording.run device ops).encoder.commands, c.Inside device) ∧
    ∀ (op : Op) e t, outcome (op.exec device) (Recording.run device ops).encoder = (.error e, t) →
      t.commands = (Recording.run device ops).encoder.commands ∧ ∀ r, (t.resources r).map (·.state) =
        ((Recording.run device ops).encoder.resources r).map (·.state) := by
  have h := Recording.run_stateCorrect hdevice ops
  refine ⟨h.chained, h.served, h.inside, fun op e t he => ?_⟩
  obtain ⟨hr, hc⟩ := Op.same_of_error hdevice h.held he
  exact ⟨hc, fun r => by rw [hr]⟩

/-- A device with a buffer of each heap and a texture. -/
def sampleDevice : Device where
  self := 1
  getDesc resource :=
    if resource = 12 then { dimension := .texture2d, width := 4, height := 4, format := 28 }
    else { dimension := .buffer, width := 256 }
  getDevice _ := some 1
  getHeapType resource := some (if resource = 10 then .upload else .default)
  formatPlanes _ := some 1
  formatSupport _ := none
  getCopyableFootprints desc offset :=
    ⟨⟨offset, ⟨desc.format, desc.width.toUInt32, desc.height, desc.depth_or_array_size.toUInt32, 256⟩⟩,
      desc.height, 16⟩

/-- An upload, a copy out of a destination, and a request out of range. -/
def sampleOps : List Op :=
  [.track 10 stateGenericRead, .track 11 stateCommon, .copyBuffer 11 0 10 0 64,
    .transition 11 stateCopySource, .copyBuffer 11 0 10 0 512]

theorem encoder_stateCorrect_sample : sampleDevice.Lawful ∧
    (Recording.run sampleDevice sampleOps).encoder.commands.length = 3 ∧
    ∀ r, Chained (initialState (Recording.run sampleDevice sampleOps).trace r)
      (transitionsOf r (Recording.run sampleDevice sampleOps).encoder.commands) := by
  have hlawful : sampleDevice.Lawful := by
    refine ⟨fun r heap hdim hheap => ?_, fun desc offset _ => ⟨?_, Nat.le_refl _, ?_⟩⟩
    · unfold sampleDevice at hdim hheap
      simp only at hdim hheap
      split_ifs at hdim with he
      · subst he
        exact (some.inj hheap).symm
      · exact absurd rfl hdim
    · simp only [sampleDevice, UInt64.toNat_toUInt32]
      exact Nat.mod_le _ _
    · simp [sampleDevice]
  exact ⟨hlawful, rfl, (encoder_stateCorrect sampleDevice hlawful sampleOps).1⟩

end ShadPS4.D3D12
