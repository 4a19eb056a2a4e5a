import ShadPS4.D3D12.CommandEncoder

/-!
# What an operation of the encoder records

A stream of commands is read resource by resource: `transitionsOf` has the transitions of one resource, `Chained`
says that each of them starts where the one before ended, and `stateAfter` is the state that they lead to.
-/

namespace ShadPS4.D3D12

open Option (some.inj)

variable {s t : Encoder} {resource : ℕ} {state : ResourceStates} {allowed : Command → Prop}
  {tracked : Resource} {device : Device}

/-! ## Reading a stream -/

def transitionsOf (resource : ℕ) (commands : List Command) : List (ResourceStates × ResourceStates) :=
  commands.filterMap fun command => match command with
    | .transition r before after => if r = resource then some (before, after) else none
    | _ => none

/-- Each transition starts where the one before ended, and the first one in the given state. -/
def Chained : Option ResourceStates → List (ResourceStates × ResourceStates) → Prop
  | _, [] => True
  | state, (before, after) :: rest => state = some before ∧ Chained (some after) rest

def stateAfter : Option ResourceStates → List (ResourceStates × ResourceStates) → Option ResourceStates
  | state, [] => state
  | _, (_, after) :: rest => stateAfter (some after) rest

theorem stateAfter_append (state : Option ResourceStates)
    (xs : List (ResourceStates × ResourceStates)) (before after : ResourceStates) :
    stateAfter state (xs ++ [(before, after)]) = some after := by
  induction xs generalizing state with
  | nil => rfl
  | cons x rest ih => exact ih _

theorem Chained.append {state : Option ResourceStates}
    {xs : List (ResourceStates × ResourceStates)} (h : Chained state xs)
    {before after : ResourceStates} (hbefore : stateAfter state xs = some before) :
    Chained state (xs ++ [(before, after)]) := by
  induction xs generalizing state with
  | nil => exact ⟨hbefore, trivial⟩
  | cons x rest ih => exact ⟨h.1, ih h.2 hbefore⟩

def Command.needs : Command → List (ℕ × ResourceStates)
  | .transition _ _ _ => []
  | .uav resource => [(resource, stateUnorderedAccess)]
  | .copyBufferRegion destination _ source _ _ =>
    [(destination, stateCopyDest), (source, stateCopySource)]
  | .copyTextureRegion texture buffer _ true =>
    [(texture, stateCopyDest), (buffer, stateCopySource)]
  | .copyTextureRegion texture buffer _ false =>
    [(texture, stateCopySource), (buffer, stateCopyDest)]
  | .clearRenderTargetView _ _ resource => [(resource, stateRenderTarget)]
  | .clearDepthStencilView _ _ resource => [(resource, stateDepthWrite)]
  | .resolveSubresource destination source _ =>
    [(destination, stateResolveDest), (source, stateResolveSource)]

/-- A state serves a need: it is the state needed, or the generic read state of an upload heap, of
which copy source is a part. -/
def Serves (state need : ResourceStates) : Prop :=
  state = need ∨ (state = stateGenericRead ∧ need = stateCopySource)

/-- A copy stays inside both of its resources. -/
def Command.Inside (device : Device) : Command → Prop
  | .copyBufferRegion destination destination_offset source source_offset bytes =>
    destination_offset.toNat + bytes.toNat ≤ (device.getDesc destination).width.toNat ∧
      source_offset.toNat + bytes.toNat ≤ (device.getDesc source).width.toNat
  | .copyTextureRegion texture buffer placed _ =>
    let desc := device.getDesc texture
    let copyable := device.getCopyableFootprints desc placed.offset
    (placed.footprint.width.toNat ≤ desc.width.toNat ∧
      placed.footprint.height.toNat ≤ desc.height.toNat ∧
      placed.footprint.depth.toNat ≤ desc.depth_or_array_size.toNat) ∧
    ∀ row < copyable.rows.toNat, placed.offset.toNat +
      row * placed.footprint.row_pitch.toNat + copyable.row_bytes.toNat ≤
        (device.getDesc buffer).width.toNat
  | _ => True

/-- What is known of the device: the textures that can exist lie in the default heap, and
`GetCopyableFootprints` lays out the extents of a texture that has one subresource. -/
structure Device.Lawful (device : Device) : Prop where
  textures : ∀ resource heap, (device.getDesc resource).dimension ≠ .buffer →
    device.getHeapType resource = some heap → heap = .default
  footprints : ∀ desc offset, simpleTexture desc = true →
    (device.getCopyableFootprints desc offset).expected.footprint.width.toNat ≤ desc.width.toNat ∧
    (device.getCopyableFootprints desc offset).expected.footprint.height.toNat ≤ desc.height.toNat ∧
    (device.getCopyableFootprints desc offset).expected.footprint.depth.toNat ≤
      desc.depth_or_array_size.toNat

/-- Neither the tracked states nor the stream changed. -/
def Same (s t : Encoder) : Prop := t.resources = s.resources ∧ t.commands = s.commands

theorem rejectIf_runs {condition : Prop} [Decidable condition] :
    Runs (rejectIf condition) s (fun _ t => t = s ∧ ¬ condition) (fun _ t => Same s t ∧ condition) := by
  unfold rejectIf
  exact Runs.ite (fun hc => ⟨⟨rfl, rfl⟩, hc⟩) fun hc => Runs.pure ⟨rfl, hc⟩

theorem find_runs : Runs (find resource) s (fun found t => t = s ∧ s.resources resource = some found)
      (fun _ t => Same s t ∧ s.resources resource = none) := by
  refine Runs.bind (P := fun a t => a = s ∧ t = s) (Runs.get ⟨rfl, rfl⟩) fun a t h => ?_
  obtain ⟨rfl, rfl⟩ := h
  cases t.resources resource with
  | none => exact ⟨⟨rfl, rfl⟩, rfl⟩
  | some found => exact Runs.pure ⟨rfl, rfl⟩

theorem rejectIf_same {condition : Prop} [Decidable condition] :
    Runs (rejectIf condition) s (fun _ t => t = s ∧ ¬ condition) (fun _ t => Same s t) :=
  rejectIf_runs.mono (fun _ _ h => h) fun _ _ h => h.1

theorem find_same : Runs (find resource) s (fun found t => t = s ∧ s.resources resource = some found)
      (fun _ t => Same s t) :=
  find_runs.mono (fun _ _ h => h) fun _ _ h => h.1

/-- `ValidateState` accepts the state. -/
def Resource.Accepts (resource : Resource) (state : ResourceStates) : Prop :=
  resource.forbids state = false ∧ resource.unfit state = false

theorem validateState_runs {resource : Resource} :
    Runs (validateState resource state) s (fun _ t => t = s ∧ resource.Accepts state)
      (fun _ t => Same s t ∧ ¬ resource.Accepts state) := by
  refine Runs.bind (rejectIf_runs.mono (fun _ _ h => h) fun _ _ h => ?_) fun _ t h => ?_
  · exact ⟨h.1, fun ha => absurd (ha.1.symm.trans h.2) (by simp)⟩
  · obtain ⟨rfl, hforbids⟩ := h
    refine rejectIf_runs.mono (fun _ t h => ?_) fun _ _ h => ?_
    · exact ⟨h.1, by simpa using hforbids, by simpa using h.2⟩
    · exact ⟨h.1, fun ha => absurd (ha.2.symm.trans h.2) (by simp)⟩

/-! ## What an operation appends -/

/-- The second encoder is the first after entries that fit it: transitions that start in the tracked
state, and commands with a given property whose resources are in the states that they need. -/
inductive Records (allowed : Command → Prop) (s : Encoder) : Encoder → Prop
  | same {t : Encoder} (h : Same s t) : Records allowed s t
  | barrier {t u : Encoder} (h : Records allowed s t) {resource : ℕ} {tracked : Resource}
      (hr : t.resources resource = some tracked) {state : ResourceStates}
      (ha : tracked.Accepts state)
      (hu : u.resources = (t.setResource resource { tracked with state := state }).resources)
      (hc : u.commands = t.commands ++ [.transition resource tracked.state state]) :
      Records allowed s u
  | command {t u : Encoder} (h : Records allowed s t) {c : Command}
      (hn : ∀ p ∈ c.needs, ∃ tracked, t.resources p.1 = some tracked ∧ Serves tracked.state p.2)
      (hi : allowed c) (ht : ∀ r, transitionsOf r [c] = [])
      (hu : u.resources = t.resources) (hc : u.commands = t.commands ++ [c]) : Records allowed s u

theorem Records.trans {u : Encoder} (h : Records allowed s t) (h' : Records allowed t u) : Records allowed s u := by
  induction h' with
  | same hs =>
    cases h with
    | same h => exact .same ⟨hs.1.trans h.1, hs.2.trans h.2⟩
    | barrier h hr ha hu hc => exact .barrier h hr ha (hs.1.trans hu) (hs.2.trans hc)
    | command h hn hi ht hu hc => exact .command h hn hi ht (hs.1.trans hu) (hs.2.trans hc)
  | barrier _ hr ha hu hc ih => exact .barrier ih hr ha hu hc
  | command _ hn hi ht hu hc ih => exact .command ih hn hi ht hu hc

/-- The stream has grown by transitions of the given resources, and then by the last commands. -/
def Grown (resources : List ℕ) (last : List Command) (s t : Encoder) : Prop :=
  ∃ moves, t.commands = s.commands ++ moves ++ last ∧
    ∀ m ∈ moves, ∃ r ∈ resources, ∃ before after, m = .transition r before after

theorem Grown.trans {resources : List ℕ} {last : List Command} {u : Encoder}
    (h : Grown resources [] s t) (h' : Grown resources last t u) : Grown resources last s u := by
  obtain ⟨moves, hm, hmoves⟩ := h
  obtain ⟨moves', hm', hmoves'⟩ := h'
  refine ⟨moves ++ moves', ?_, fun m hmem => ?_⟩
  · rw [hm', hm]
    simp
  · rcases List.mem_append.mp hmem with hmem | hmem
    · exact hmoves m hmem
    · exact hmoves' m hmem

theorem Grown.mono {resources resources' : List ℕ} {last : List Command}
    (h : Grown resources last s t) (hsub : ∀ r ∈ resources, r ∈ resources') : Grown resources' last s t := by
  obtain ⟨moves, hm, hmoves⟩ := h
  refine ⟨moves, hm, fun m hmem => ?_⟩
  obtain ⟨r, hr, before, after, hm'⟩ := hmoves m hmem
  exact ⟨r, hsub r hr, before, after, hm'⟩

/-- What a transition does: the resource is in the new state, and no other one changed. -/
structure Moved (allowed : Command → Prop) (resource : ℕ) (tracked : Resource) (state : ResourceStates)
    (s t : Encoder) : Prop where
  records : Records allowed s t
  grown : Grown [resource] [] s t
  self : t.resources resource = some { tracked with state := state }
  other : ∀ r ≠ resource, t.resources r = s.resources r

theorem transition_runs (allowed : Command → Prop) (h : s.resources resource = some tracked) :
    Runs (transition resource state) s (fun _ t => Moved allowed resource tracked state s t)
      (fun _ t => Same s t ∧ ¬ tracked.Accepts state) := by
  refine Runs.bind (P := fun found t => found = tracked ∧ t = s) ?_ fun found t hf => ?_
  · unfold find
    refine Runs.bind (P := fun a t => a = s ∧ t = s) (Runs.get ⟨rfl, rfl⟩) fun a t ht => ?_
    obtain ⟨rfl, rfl⟩ := ht
    rw [h]
    exact Runs.pure ⟨rfl, rfl⟩
  · obtain ⟨rfl, rfl⟩ := hf
    refine Runs.bind validateState_runs fun _ u hu => ?_
    obtain ⟨rfl, haccepts⟩ := hu
    refine Runs.ite (fun hstate => ?_) fun _ => ?_
    · -- The resource is in the state already.
      refine Runs.modify ⟨.same ⟨rfl, rfl⟩, ⟨[], by simp, by simp⟩, ?_, fun _ _ => rfl⟩
      subst hstate
      exact h
    · refine Runs.modify ⟨.barrier (.same ⟨rfl, rfl⟩) h haccepts rfl rfl,
        ⟨[_], (List.append_nil _).symm, fun m hm => ?_⟩, ?_, fun r hr => ?_⟩
      · exact ⟨resource, by simp, _, _, List.mem_singleton.mp hm⟩
      · exact if_pos rfl
      · exact if_neg hr

theorem transition_total (allowed : Command → Prop) (h : s.resources resource = some tracked)
    (ha : tracked.Accepts state) (Q : EncoderError → Encoder → Prop) :
    Runs (transition resource state) s (fun _ t => Moved allowed resource tracked state s t) Q :=
  (transition_runs allowed h).mono (fun _ _ h => h) fun _ _ hn => absurd ha hn.2

theorem record_runs (h : Records allowed s t) {c : Command}
    (hn : ∀ p ∈ c.needs, ∃ tracked, t.resources p.1 = some tracked ∧ Serves tracked.state p.2)
    (hi : allowed c) (ht : ∀ r, transitionsOf r [c] = [])
    (f : TransferStats → TransferStats) (Q : EncoderError → Encoder → Prop) : Runs (do record c; count f) t
      (fun _ u => Records allowed s u ∧ u.resources = t.resources ∧ Grown [] [c] t u) Q := by
  refine Runs.bind (P := fun _ u => Records allowed s u ∧ u.resources = t.resources ∧
    u.commands = t.commands ++ [c]) ?_ fun _ u hu => ?_
  · exact Runs.modify ⟨.command h hn hi ht rfl rfl, rfl, rfl⟩
  · obtain ⟨hrec, hres, hcom⟩ := hu
    refine Runs.modify ⟨hrec.trans (.same ⟨rfl, rfl⟩), hres, [], ?_, by simp⟩
    rw [List.append_nil]
    exact hcom

/-! ## The operations -/

/-- What is known of a tracked resource: it is described as the device does, and in an upload or a
readback heap it is in the one state that the heap allows. -/
structure Tracked (device : Device) (resource : ℕ) (tracked : Resource) : Prop where
  desc_eq : tracked.description = device.getDesc resource
  heap_eq : device.getHeapType resource = some tracked.heap
  kind : tracked.heap = .default ∨ tracked.heap = .upload ∨ tracked.heap = .readback
  upload : tracked.heap = .upload → tracked.state = stateGenericRead
  readback : tracked.heap = .readback → tracked.state = stateCopyDest

/-- What is known of all tracked resources. -/
def Held (device : Device) (s : Encoder) : Prop :=
  ∀ resource tracked, s.resources resource = some tracked → Tracked device resource tracked

theorem Resource.Accepts.heap (h : tracked.Accepts state) : (tracked.heap = .upload → state = stateGenericRead) ∧
      (tracked.heap = .readback → state = stateCopyDest) := by
  have hforbids := h.1
  unfold Resource.forbids at hforbids
  simp only [decide_eq_false_iff_not, not_or, not_and, not_not] at hforbids
  exact ⟨hforbids.2.2.1, hforbids.2.2.2⟩

theorem Records.held (h : Records allowed s t) (hs : Held device s) : Held device t := by
  induction h with
  | same h =>
    unfold Held
    rw [h.1]
    exact hs
  | @barrier t u _ resource tracked hr state ha hu hc ih =>
    intro r found hfound
    have hold := ih resource tracked hr
    have hres : u.resources r =
        if r = resource then some { tracked with state := state } else t.resources r := by
      rw [hu]
      rfl
    rw [hres] at hfound
    split_ifs at hfound with he
    · subst he
      obtain rfl := some.inj hfound
      exact ⟨hold.desc_eq, hold.heap_eq, hold.kind, ha.heap.1, ha.heap.2⟩
    · exact ih r found hfound
  | command _ _ _ _ hu _ ih =>
    unfold Held
    rw [hu]
    exact ih

theorem Records.eq_none_iff (h : Records allowed s t) (r : ℕ) : t.resources r = none ↔ s.resources r = none := by
  induction h with
  | same h => rw [h.1]
  | @barrier t u _ resource tracked hr state ha hu hc ih =>
    have hres : u.resources r =
        if r = resource then some { tracked with state := state } else t.resources r := by
      rw [hu]
      rfl
    rw [hres, ← ih]
    split_ifs with he
    · subst he
      rw [hr]
      simp
    · rfl
  | command _ _ _ _ hu _ ih => rw [hu, ih]

theorem unfit_copy (tracked : Resource)
    (h : state = stateCopySource ∨ state = stateCopyDest) : tracked.unfit state = false := by
  rcases h with rfl | rfl <;> simp [Resource.unfit, stateCopySource, stateCopyDest, stateVertexAndConstantBuffer,
      stateIndexBuffer, stateNonPixelShaderResource, statePixelShaderResource,
      stateIndirectArgument, stateDepthRead, stateResolveSource, stateRenderTarget,
      stateUnorderedAccess, stateDepthWrite, stateStreamOut, stateResolveDest]

theorem accepts_copySource (h : tracked.heap = .default) : tracked.Accepts stateCopySource := by
  refine ⟨?_, unfit_copy tracked (.inl rfl)⟩
  unfold Resource.forbids
  rw [h]
  decide

theorem accepts_copyDest (h : tracked.heap ≠ .upload) : tracked.Accepts stateCopyDest := by
  refine ⟨?_, unfit_copy tracked (.inr rfl)⟩
  unfold Resource.forbids
  revert h
  cases tracked.heap <;> decide

theorem accepts_resolveDest (h : tracked.heap = .default) (hdim : tracked.description.dimension ≠ .buffer)
    (hcount : tracked.description.sample_count = 1) : tracked.Accepts stateResolveDest := by
  refine ⟨?_, ?_⟩
  · unfold Resource.forbids
    rw [h]
    decide
  · simp [Resource.unfit, hdim, hcount, stateResolveDest, stateVertexAndConstantBuffer,
      stateIndexBuffer, stateNonPixelShaderResource, statePixelShaderResource,
      stateIndirectArgument, stateDepthRead, stateResolveSource, stateRenderTarget,
      stateUnorderedAccess, stateDepthWrite, stateStreamOut]

theorem inside_of_test {offset bytes width : UInt64} (ho : ¬ offset > width)
    (hb : ¬ bytes > width - offset) : offset.toNat + bytes.toNat ≤ width.toNat := by
  have hle : offset ≤ width := UInt64.not_lt.mp ho
  have hlen := UInt64.le_iff_toNat_le.mp (UInt64.not_lt.mp hb)
  rw [UInt64.toNat_sub_of_le _ _ hle] at hlen
  have := UInt64.le_iff_toNat_le.mp hle
  omega

/-- Why `CopyBuffer` is rejected, once both resources are tracked. -/
def copyBufferRejects (destination : ℕ) (dst : Resource) (destination_offset : UInt64) (source : ℕ)
    (src : Resource) (source_offset bytes : UInt64) : Prop :=
  destination = source ∨ bytes = 0 ∨ dst.description.dimension ≠ .buffer ∨
    src.description.dimension ≠ .buffer ∨ destination_offset > dst.description.width ∨
    bytes > dst.description.width - destination_offset ∨ source_offset > src.description.width ∨
    bytes > src.description.width - source_offset ∨ dst.heap = .upload ∨ src.heap = .readback

theorem copyBuffer_runs (h : Held device s) (destination : ℕ) (destination_offset : UInt64) (source : ℕ)
    (source_offset bytes : UInt64) (hallowed : (Command.copyBufferRegion destination
      destination_offset source source_offset bytes).Inside device →
      allowed (.copyBufferRegion destination destination_offset source source_offset bytes)) :
    Runs (copyBuffer destination destination_offset source source_offset bytes) s
      (fun _ t => Records allowed s t ∧ Grown [destination, source]
        [.copyBufferRegion destination destination_offset source source_offset bytes] s t)
      (fun _ t => Same s t ∧ ∀ dst src, s.resources destination = some dst → s.resources source = some src →
        copyBufferRejects destination dst destination_offset source src source_offset bytes) := by
  refine Runs.bind (find_runs.mono (fun _ _ h => h) fun _ _ h => ⟨h.1, ?_⟩) fun dst t hdst => ?_
  · intro dst src hdst
    exact absurd (hdst.symm.trans h.2) (by simp)
  obtain ⟨rfl, hdst⟩ := hdst
  refine Runs.bind (find_runs.mono (fun _ _ h => h) fun _ _ h => ⟨h.1, ?_⟩) fun src t hsrc => ?_
  · intro dst src _ hsrc
    exact absurd (hsrc.symm.trans h.2) (by simp)
  obtain ⟨rfl, hsrc⟩ := hsrc
  refine Runs.bind (rejectIf_runs.mono (fun _ _ h => h) fun _ _ h => ⟨h.1, ?_⟩) fun _ u hu => ?_
  · intro dst' src' hdst' hsrc'
    obtain rfl : dst = dst' := some.inj (hdst.symm.trans hdst')
    obtain rfl : src = src' := some.inj (hsrc.symm.trans hsrc')
    exact h.2
  obtain ⟨rfl, hpass⟩ := hu
  simp only [not_or] at hpass
  obtain ⟨hne, -, -, -, hdo, hdb, hso, hsb, hup, hrb⟩ := hpass
  have hdt := h _ _ hdst
  have hst := h _ _ hsrc
  -- The source is in a state that can be copied from, and the destination is as it was.
  have hcopy : ∀ (t : Encoder) (state : ResourceStates) (Q : EncoderError → Encoder → Prop),
      Records allowed u t → Grown [destination, source] [] u t →
      t.resources source = some { src with state := state } → Serves state stateCopySource →
      t.resources destination = some dst →
      Runs (do
        transition destination stateCopyDest
        record (.copyBufferRegion destination destination_offset source source_offset bytes)
        count fun stats => { stats with buffer_copies := stats.buffer_copies + 1 }) t
        (fun _ t => Records allowed u t ∧ Grown [destination, source]
          [.copyBufferRegion destination destination_offset source source_offset bytes] u t) Q := by
    intro t state Q hrec hgrown hs hserves hd
    refine Runs.bind (transition_total allowed hd (accepts_copyDest hup) _) fun _ v hv => ?_
    have hinside : (Command.copyBufferRegion destination destination_offset source source_offset
        bytes).Inside device := by
      refine ⟨?_, ?_⟩
      · rw [← hdt.desc_eq]
        exact inside_of_test hdo hdb
      · rw [← hst.desc_eq]
        exact inside_of_test hso hsb
    refine (record_runs (hrec.trans hv.records) (fun p hp => ?_) (hallowed hinside) (fun _ => rfl) _ Q).mono
      (fun _ w hw => ⟨hw.1, ?_⟩) fun _ _ h => h
    · simp only [Command.needs, List.mem_cons, List.not_mem_nil, or_false] at hp
      rcases hp with rfl | rfl
      · exact ⟨_, hv.self, .inl rfl⟩
      · exact ⟨_, (hv.other source (Ne.symm hne)).trans hs, hserves⟩
    · exact hgrown.trans ((hv.grown.mono (by simp)).trans (hw.2.2.mono (by simp)))
  refine Runs.ite (fun hheap => ?_) fun hheap => ?_
  · have hdefault : src.heap = .default := by
      rcases hst.kind with hk | hk | hk
      · exact hk
      · exact absurd hk hheap
      · exact absurd hk hrb
    refine Runs.bind (transition_total allowed hsrc (accepts_copySource hdefault) _) fun _ v hv => ?_
    exact hcopy v stateCopySource _ hv.records (hv.grown.mono (by simp)) hv.self (.inl rfl)
      ((hv.other _ hne).trans hdst)
  · have hupload := hst.upload (by simpa using hheap)
    exact hcopy u src.state _ (.same ⟨rfl, rfl⟩) ⟨[], by simp, by simp⟩ hsrc (.inr ⟨hupload, rfl⟩)
      hdst

/-- What `ValidateFootprint` has checked. -/
structure Fits (device : Device) (texture buffer : Resource) (placed : PlacedFootprint) : Prop where
  simple : simpleTexture texture.description = true
  dimension_eq : buffer.description.dimension = .buffer
  wanted : placed.footprint =
    (device.getCopyableFootprints texture.description placed.offset).expected.footprint
  row_le : ∀ row < (device.getCopyableFootprints texture.description placed.offset).rows.toNat,
    placed.offset.toNat + row * placed.footprint.row_pitch.toNat +
      (device.getCopyableFootprints texture.description placed.offset).row_bytes.toNat ≤
        buffer.description.width.toNat

theorem validateFootprint_runs {texture buffer : Resource} {placed : PlacedFootprint} :
    Runs (validateFootprint device texture buffer placed) s
      (fun _ t => t = s ∧ Fits device texture buffer placed) (fun _ t => Same s t) := by
  refine Runs.bind rejectIf_same fun _ t h => ?_
  obtain ⟨rfl, hfirst⟩ := h
  simp only [not_or, not_not] at hfirst
  obtain ⟨hsimple, -, hdim, hoffset, -, -⟩ := hfirst
  refine Runs.bind rejectIf_same fun _ t h => ?_
  obtain ⟨rfl, hsecond⟩ := h
  simp only [not_or, not_not] at hsecond
  obtain ⟨hformat, hwidth, hheight, hdepth, hpitch, -, -, -, -⟩ := hsecond
  refine rejectIf_runs.mono (fun _ u h => ?_) fun _ _ h => h.1
  obtain ⟨rfl, hlast⟩ := h
  have hwanted : placed.footprint =
      (device.getCopyableFootprints texture.description placed.offset).expected.footprint := by
    rw [SubresourceFootprint.mk.injEq]
    exact ⟨hformat, hwidth, hheight, hdepth, hpitch⟩
  refine ⟨rfl, by simpa using hsimple, hdim, hwanted, fun row hrow => ?_⟩
  have hle := UInt64.le_iff_toNat_le.mp (UInt64.not_lt.mp hoffset)
  rw [hwanted]
  -- An earlier row starts no later than the last one.
  have hmul : row * (device.getCopyableFootprints texture.description
        placed.offset).expected.footprint.row_pitch.toNat ≤
      ((device.getCopyableFootprints texture.description placed.offset).rows.toNat - 1) *
        (device.getCopyableFootprints texture.description
          placed.offset).expected.footprint.row_pitch.toNat :=
    Nat.mul_le_mul_right _ (by omega)
  omega

theorem copyTexture_runs (h : Held device s) (texture buffer : ℕ) (placed : PlacedFootprint) (to_texture : Bool)
    (hallowed : ∀ tex buf, Tracked device texture tex → Tracked device buffer buf → Fits device tex buf placed →
      allowed (.copyTextureRegion texture buffer placed to_texture)) :
    Runs (copyTexture device texture buffer placed to_texture) s
      (fun _ t => Records allowed s t ∧ Grown [texture, buffer]
        [.copyTextureRegion texture buffer placed to_texture] s t) (fun _ t => Same s t) := by
  refine Runs.bind find_same fun tex t htex => ?_
  obtain ⟨rfl, htex⟩ := htex
  refine Runs.bind find_same fun buf t hbuf => ?_
  obtain ⟨rfl, hbuf⟩ := hbuf
  refine Runs.bind validateFootprint_runs fun _ t hfits => ?_
  obtain ⟨rfl, hfits⟩ := hfits
  refine Runs.bind rejectIf_same fun _ u hu => ?_
  obtain ⟨rfl, hpass⟩ := hu
  have htt := h _ _ htex
  have hbt := h _ _ hbuf
  have hne : buffer ≠ texture := by
    rintro rfl
    obtain rfl : tex = buf := some.inj (htex.symm.trans hbuf)
    have hsimple := hfits.simple
    unfold simpleTexture at hsimple
    rw [hfits.dimension_eq] at hsimple
    simp at hsimple
  refine Runs.bind ((transition_runs allowed htex).mono (fun _ _ h => h) fun _ _ h => h.1)
    fun _ v hv => ?_
  have hbuf' := (hv.other buffer hne).trans hbuf
  -- The buffer is brought into its state, or is in the generic read state of an upload heap.
  have hcopy : ∀ (w : Encoder) (state : ResourceStates), Records allowed u w →
      Grown [texture, buffer] [] u w → w.resources texture =
        some { tex with state := if to_texture then stateCopyDest else stateCopySource } →
      w.resources buffer = some { buf with state := state } →
      Serves state (if to_texture then stateCopySource else stateCopyDest) →
      Runs (do
        record (.copyTextureRegion texture buffer placed to_texture)
        count fun stats => { stats with texture_copies := stats.texture_copies + 1 }) w
        (fun _ t => Records allowed u t ∧ Grown [texture, buffer]
          [.copyTextureRegion texture buffer placed to_texture] u t) (fun _ t => Same u t) := by
    intro w state hrec hgrown ht hb hserves
    refine (record_runs hrec (fun p hp => ?_) (hallowed tex buf htt hbt hfits) (fun _ => rfl) _ _).mono
      (fun _ x hx => ⟨hx.1, hgrown.trans (hx.2.2.mono (by simp))⟩) fun _ _ h => h
    cases to_texture <;>
      simp only [Command.needs, List.mem_cons, List.not_mem_nil, or_false] at hp <;>
      rcases hp with rfl | rfl
    · exact ⟨_, ht, .inl rfl⟩
    · exact ⟨_, hb, hserves⟩
    · exact ⟨_, ht, .inl rfl⟩
    · exact ⟨_, hb, hserves⟩
  refine Runs.ite (fun hheap => ?_) fun hheap => ?_
  · have haccepts : buf.Accepts (if to_texture then stateCopySource else stateCopyDest) := by
      cases to_texture with
      | false => exact accepts_copyDest hheap
      | true =>
        refine accepts_copySource ?_
        rcases hbt.kind with hk | hk | hk
        · exact hk
        · exact absurd hk hheap
        · simp [hk] at hpass
    refine Runs.bind (transition_total allowed hbuf' haccepts _) fun _ w hw => ?_
    exact hcopy w _ (hv.records.trans hw.records) ((hv.grown.mono (by simp)).trans (hw.grown.mono (by simp)))
      ((hw.other texture (Ne.symm hne)).trans hv.self) hw.self (.inl rfl)
  · have hupload : buf.heap = .upload := by simpa using hheap
    have hto : to_texture = true := by
      by_contra hf
      simp [hupload] at hpass
      exact hf hpass
    subst hto
    exact hcopy v buf.state hv.records (hv.grown.mono (by simp)) hv.self hbuf'
      (.inr ⟨hbt.upload hupload, rfl⟩)

theorem clear_runs (hr : s.resources resource = some tracked) {c : Command}
    (hneeds : c.needs = [(resource, state)]) (hallowed : allowed c)
    (ht : ∀ r, transitionsOf r [c] = []) (f : TransferStats → TransferStats) :
    Runs (do transition resource state; record c; count f) s (fun _ t => Records allowed s t)
      (fun _ t => Same s t) := by
  refine Runs.bind ((transition_runs allowed hr).mono (fun _ _ h => h) fun _ _ h => h.1)
    fun _ v hv => ?_
  refine (record_runs hv.records (fun p hp => ?_) hallowed ht _ _).mono (fun _ _ h => h.1)
    fun _ _ h => h
  rw [hneeds, List.mem_singleton] at hp
  subst hp
  exact ⟨_, hv.self, .inl rfl⟩

theorem clearColor_runs (resource rtv : ℕ)
    (color : List Float32) (hallowed : allowed (.clearRenderTargetView rtv color resource)) :
    Runs (clearColor resource rtv color) s (fun _ t => Records allowed s t) (fun _ t => Same s t) := by
  refine Runs.bind find_same fun found t hfound => ?_
  obtain ⟨rfl, hfound⟩ := hfound
  refine Runs.bind rejectIf_same fun _ u hu => ?_
  obtain ⟨rfl, -⟩ := hu
  exact clear_runs hfound rfl hallowed (fun _ => rfl) _

theorem clearDepth_runs (resource dsv : ℕ)
    (depth : Float32) (hallowed : allowed (.clearDepthStencilView dsv depth resource)) :
    Runs (clearDepth resource dsv depth) s (fun _ t => Records allowed s t) (fun _ t => Same s t) := by
  refine Runs.bind find_same fun found t hfound => ?_
  obtain ⟨rfl, hfound⟩ := hfound
  refine Runs.bind rejectIf_same fun _ u hu => ?_
  obtain ⟨rfl, -⟩ := hu
  exact clear_runs hfound rfl hallowed (fun _ => rfl) _

theorem uavBarrier_runs (resource : ℕ) (hallowed : allowed (.uav resource)) :
    Runs (uavBarrier resource) s (fun _ t => Records allowed s t) (fun _ t => Same s t) := by
  refine Runs.bind find_same fun found t hfound => ?_
  obtain ⟨rfl, hfound⟩ := hfound
  refine Runs.bind rejectIf_same fun _ u hu => ?_
  obtain ⟨rfl, hstate⟩ := hu
  refine (record_runs (.same ⟨rfl, rfl⟩) (fun p hp => ?_) hallowed (fun _ => rfl) _ _).mono
    (fun _ _ h => h.1) fun _ _ h => h
  simp only [Command.needs, List.mem_singleton] at hp
  subst hp
  exact ⟨found, hfound, .inl (by simpa using hstate)⟩

theorem transition_records (resource : ℕ) (state : ResourceStates) :
    Runs (transition resource state) s (fun _ t => Records allowed s t) (fun _ t => Same s t) := by
  cases hr : s.resources resource with
  | some tracked =>
    exact (transition_runs allowed hr).mono (fun _ _ h => h.records) fun _ _ h => h.1
  | none =>
    refine Runs.bind find_same fun found t hfound => ?_
    rw [hr] at hfound
    exact absurd hfound.2 (by simp)

theorem resolve_runs (hdevice : device.Lawful) (h : Held device s) (destination source : ℕ)
    (hallowed : ∀ format, allowed (.resolveSubresource destination source format)) :
    Runs (resolve device destination source) s (fun _ t => Records allowed s t) (fun _ t => Same s t) := by
  unfold resolve
  refine Runs.bind find_same fun dst t hdst => ?_
  obtain ⟨rfl, hdst⟩ := hdst
  refine Runs.bind find_same fun src t hsrc => ?_
  obtain ⟨rfl, hsrc⟩ := hsrc
  refine Runs.bind rejectIf_same fun _ u hu => ?_
  obtain ⟨rfl, hpass⟩ := hu
  simp only [not_or, not_not] at hpass
  obtain ⟨hne, -, hsimple, -, hcount, -⟩ := hpass
  have hdim : dst.description.dimension ≠ .buffer := by
    intro hbuffer
    unfold simpleTexture at hsimple
    rw [hbuffer] at hsimple
    simp at hsimple
  have hdt := h _ _ hdst
  have hdefault : dst.heap = .default := by
    rw [hdt.desc_eq] at hdim
    exact hdevice.textures destination dst.heap hdim hdt.heap_eq
  refine Runs.bind ((transition_runs allowed hsrc).mono (fun _ _ h => h) fun _ _ h => h.1)
    fun _ v hv => ?_
  have hdst' := (hv.other destination hne).trans hdst
  refine Runs.bind (transition_total allowed hdst' (accepts_resolveDest hdefault hdim hcount) _)
    fun _ w hw => ?_
  refine (record_runs (hv.records.trans hw.records) (fun p hp => ?_) (hallowed _) (fun _ => rfl)
    _ _).mono (fun _ _ h => h.1) fun _ _ h => h
  simp only [Command.needs, List.mem_cons, List.not_mem_nil, or_false] at hp
  rcases hp with rfl | rfl
  · exact ⟨_, hw.self, .inl rfl⟩
  · exact ⟨_, (hw.other source (Ne.symm hne)).trans hv.self, .inl rfl⟩

theorem track_runs (resource : ℕ) (state : ResourceStates) : Runs (track device resource state) s
      (fun _ t => (t = s ∧ s.resources resource ≠ none) ∨
        ∃ tracked, s.resources resource = none ∧ Tracked device resource tracked ∧
          tracked.state = state ∧ t = s.setResource resource tracked) (fun _ t => Same s t) := by
  unfold track
  refine Runs.bind rejectIf_same fun _ u hu => ?_
  obtain ⟨rfl, -⟩ := hu
  refine Runs.bind (P := fun a t => a = u ∧ t = u) (Runs.get ⟨rfl, rfl⟩) fun a t ht => ?_
  obtain ⟨rfl, rfl⟩ := ht
  cases hr : t.resources resource with
  | some found => exact rejectIf_runs.mono (fun _ _ h => .inl ⟨h.1, by simp⟩) fun _ _ h => h.1
  | none =>
    have hcheck : ∀ {α : Type} (x : Option α), Runs (checkHresult x) t
        (fun a u => u = t ∧ x = some a) (fun _ u => Same t u) := by
      intro α x
      cases x with
      | none => exact ⟨rfl, rfl⟩
      | some a => exact Runs.pure ⟨rfl, rfl⟩
    refine Runs.bind (hcheck _) fun owner u hu => ?_
    obtain ⟨rfl, -⟩ := hu
    refine Runs.bind rejectIf_same fun _ v hv => ?_
    obtain ⟨rfl, -⟩ := hv
    refine Runs.bind (hcheck _) fun heap w hw => ?_
    obtain ⟨rfl, hheap⟩ := hw
    refine Runs.bind rejectIf_same fun _ x hx => ?_
    obtain ⟨rfl, hkind⟩ := hx
    refine Runs.bind (validateState_runs.mono (fun _ _ h => h) fun _ _ h => h.1) fun _ y hy => ?_
    obtain ⟨rfl, haccepts⟩ := hy
    refine Runs.modify (.inr ⟨_, rfl, ⟨rfl, hheap, ?_, haccepts.heap.1, haccepts.heap.2⟩, rfl, rfl⟩)
    tauto

theorem track_total (hne : resource ≠ 0) (hnone : s.resources resource = none)
    (howner : device.getDevice resource = some device.self)
    (htracked : Tracked device resource tracked) (hstate : tracked.state = state)
    (haccepts : tracked.Accepts state) (Q : EncoderError → Encoder → Prop) :
    Runs (track device resource state) s (fun _ t => t = s.setResource resource tracked) Q := by
  have hpass : ∀ (condition : Prop) [Decidable condition] (t : Encoder), ¬ condition →
      Runs (rejectIf condition) t (fun _ u => u = t) Q := by
    intro condition _ t hc
    unfold rejectIf
    rw [if_neg hc]
    exact Runs.pure rfl
  have hmade : tracked = { description := device.getDesc resource, heap := tracked.heap, state } := by
    rw [← htracked.desc_eq, ← hstate]
  refine Runs.bind (hpass _ s hne) fun _ u hu => ?_
  subst hu
  refine Runs.bind (P := fun a t => a = u ∧ t = u) (Runs.get ⟨rfl, rfl⟩) fun a t ht => ?_
  obtain ⟨rfl, rfl⟩ := ht
  rw [hnone, howner, htracked.heap_eq]
  refine Runs.bind (P := fun owner u => owner = device.self ∧ u = t) (Runs.pure ⟨rfl, rfl⟩)
    fun owner u hu => ?_
  obtain ⟨rfl, rfl⟩ := hu
  refine Runs.bind (hpass _ u (by simp)) fun _ v hv => ?_
  subst hv
  refine Runs.bind (P := fun heap u => heap = tracked.heap ∧ u = v) (Runs.pure ⟨rfl, rfl⟩)
    fun heap u hu => ?_
  obtain ⟨rfl, rfl⟩ := hu
  refine Runs.bind (hpass _ u ?_) fun _ v hv => ?_
  · rcases htracked.kind with hk | hk | hk <;> simp [hk]
  subst hv
  refine Runs.bind (validateState_runs.mono (fun _ _ h => h) fun _ _ hn => ?_) fun _ w hw => ?_
  · refine absurd ?_ hn.2
    rw [hmade] at haccepts
    exact haccepts
  · obtain ⟨rfl, -⟩ := hw
    refine Runs.modify ?_
    rw [← hmade]

end ShadPS4.D3D12
