import Mathlib.Data.List.Pairwise
import ShadPS4.D3D12.BridgeCalls
import ShadPS4.Lib.Transition

/-!
# Runs of the bridge

A session is the bridge with the calls that it has accepted so far.
-/

namespace ShadPS4.D3D12

variable {device : Device} {initial : BufferMemory} {s t : Bridge} {flat : FlatMemory}

inductive Call where
  | registerBuffer (base : UInt64) (pointer : ℕ)
  | fillBuffer (allocates : Bool) (address : UInt64) (num_bytes value : UInt32) (is_gds : Bool)
  | copyBuffer (dst src : UInt64) (num_bytes : UInt32) (dst_gds src_gds : Bool)
  | downloadBuffer (allocates : Bool) (address : UInt64) (size : ℕ)
  | createLinearFrame (allocates : Bool) (address : UInt64) (width height pitch : UInt32)
      (output : Bool)
  | scopeMarkerBegin (label : List UInt8)
  | scopeMarkerEnd
  | scopedMarkerInsertColor (label : List UInt8)
  | flush
  | finish
  | cpSync
  | onSubmit

/-- A call is made; a download returns its bytes. -/
def Call.exec (device : Device) : Call → Bridging (List UInt8)
  | .registerBuffer base pointer => do
    D3D12.registerBuffer device base pointer
    pure []
  | .fillBuffer allocates address num_bytes value is_gds => do
    D3D12.fillBuffer device allocates address num_bytes value is_gds
    pure []
  | .copyBuffer dst src num_bytes dst_gds src_gds => do
    transferBuffer device dst src num_bytes dst_gds src_gds
    pure []
  | .downloadBuffer allocates address size => D3D12.downloadBuffer device allocates address size
  | .createLinearFrame allocates address width height pitch output => do
    let _ ← D3D12.createLinearFrame device allocates address width height pitch output
    pure []
  | .scopeMarkerBegin label => do
    D3D12.scopeMarkerBegin device label
    pure []
  | .scopeMarkerEnd => do
    D3D12.scopeMarkerEnd
    pure []
  | .scopedMarkerInsertColor label => do
    D3D12.scopedMarkerInsertColor device label
    pure []
  | .flush => do
    let _ ← D3D12.flush
    pure []
  | .finish => do
    D3D12.finish
    pure []
  | .cpSync => do
    D3D12.cpSync
    pure []
  | .onSubmit => do
    D3D12.onSubmit
    pure []

/-- The bridge and the calls that it has accepted, in order. -/
structure Session where
  bridge : Bridge
  accepted : List Call := []

/-- What happens: a call, or the device completes the next list. -/
inductive Event where
  | call (c : Call)
  | progress

inductive SessionStep (device : Device) : Session → Event → Session → Prop
  | progress (s : Session) : SessionStep device s .progress
      { s with bridge := { s.bridge with context := s.bridge.context.progress } }
  | accepted {s : Session} {c : Call} {out : List UInt8} {t : Bridge}
      (h : outcome (c.exec device) s.bridge = (.ok out, t)) :
      SessionStep device s (.call c) ⟨t, s.accepted ++ [c]⟩
  | refused {s : Session} {c : Call} {e : BridgeError} {t : Bridge}
      (h : outcome (c.exec device) s.bridge = (.error e, t)) (hne : e ≠ .device) :
      SessionStep device s (.call c) ⟨t, s.accepted⟩

/-- A session starts with a new bridge on a device that has nothing to do. -/
def Started (memory : BufferMemory) (s : Session) : Prop :=
  s.accepted = [] ∧ ∃ fence transfers,
    s.bridge = { context := { memory, fence_value := fence, completed := fence }, transfers }

/-! ## The flat memory -/

abbrev FlatMemory : Type := ℕ → UInt8

/-- What a call is to do to the flat memory. The buffers have the given contents at first. -/
def Call.effect (device : Device) (initial : BufferMemory) (flat : FlatMemory) : Call → FlatMemory
  | .registerBuffer base pointer => fun a =>
    if base.toNat ≤ a ∧ a < base.toNat + (device.getDesc (external pointer)).width.toNat
    then initial (external pointer) (a - base.toNat) else flat a
  | .fillBuffer _ address num_bytes value _ => fun a =>
    if address.toNat ≤ a ∧ a < address.toNat + num_bytes.toNat
    then leByte value.toNat ((a - address.toNat) % 4) else flat a
  | .copyBuffer dst src num_bytes _ _ => fun a =>
    if dst.toNat ≤ a ∧ a < dst.toNat + num_bytes.toNat
    then flat (src.toNat + (a - dst.toNat)) else flat a
  | _ => flat

def flatAfter (device : Device) (initial : BufferMemory) (calls : List Call) : FlatMemory :=
  calls.foldl (Call.effect device initial) fun _ => 0

/-- The registered buffers have the bytes of the flat memory, and the others their first ones. -/
structure Refines (initial : BufferMemory) (s : Bridge) (flat : FlatMemory) : Prop where
  bound : ∀ b ∈ s.bindings, ∀ o < b.size, s.contents b.resource o = flat (b.base + o)
  rest : ∀ r, r % 2 = 0 → (∀ b ∈ s.bindings, b.resource ≠ r) → s.contents r = initial r

theorem Refines.spares (h : Refines initial s flat) (hwf : Wf device [] s) (hs : Spares device s t) :
    Refines initial t flat := by
  refine ⟨fun b hb o ho => ?_, fun r hr hne => ?_⟩
  · rw [hs.bindings] at hb
    rw [hs.contents _ (hwf.bound b hb).caller.1]
    exact h.bound b hb o ho
  · rw [hs.bindings] at hne
    rw [hs.contents r hr]
    exact h.rest r hr hne

theorem Wf.binding_ext (h : Wf device extra s)
    (hb : b ∈ s.bindings) (hb' : b' ∈ s.bindings) : b = b' ∨ b.Apart b' := by
  by_cases heq : b = b'
  · exact .inl heq
  · have hsymm : Std.Symm Binding.Apart := ⟨fun _ _ ha => ⟨ha.resource_ne.symm, ha.disjoint.symm⟩⟩
    exact .inr (h.apart.forall hb hb' heq)

theorem Refines.writes (h : Refines initial s flat) (hwf : Wf device [] s)
    (hb : Located s address bytes b) (hw : Writes device s t b address bytes byte) :
    Refines initial t fun a => if address ≤ a ∧ a < address + bytes then byte (a - address) else flat a := by
  have hbase := hb.base_le
  have hend := hb.end_le
  refine ⟨fun b' hb' o ho => ?_, fun r hr hne => ?_⟩
  · rw [hw.bindings] at hb'
    rw [hw.contents _ (hwf.bound b' hb').caller.1, h.bound b' hb' o ho]
    rcases hwf.binding_ext hb.mem hb' with rfl | hapart
    · -- The offsets of the range are its addresses.
      by_cases hin : address ≤ b.base + o ∧ b.base + o < address + bytes
      · have hoffset : o - (address - b.base) = b.base + o - address := by omega
        rw [if_pos hin, if_pos ⟨rfl, by omega, by omega⟩, hoffset]
      · rw [if_neg hin, if_neg fun hc => hin ⟨by omega, by omega⟩]
    · have hdisjoint := hapart.disjoint
      rw [if_neg fun hc => hapart.resource_ne hc.1.symm, if_neg fun hc => by omega]
  · rw [hw.bindings] at hne
    funext o
    rw [hw.contents r hr, if_neg fun hc => hne b hb.mem hc.1.symm, h.rest r hr hne]

theorem Refines.register (h : Refines initial s flat) (hwf : Wf device [] t)
    (hb : t.bindings = s.bindings ++ [b]) (hc : t.contents = s.contents) : Refines initial t fun a =>
      if b.base ≤ a ∧ a < b.base + b.size then initial b.resource (a - b.base) else flat a := by
  have hapart := hwf.apart
  have hcaller := (hwf.bound b (by simp [hb])).caller.1
  rw [hb, List.pairwise_append] at hapart
  have hother : ∀ b' ∈ s.bindings, b'.Apart b := fun b' hb' => hapart.2.2 b' hb' b (by simp)
  refine ⟨fun b' hb' o ho => ?_, fun r hr hne => ?_⟩
  · rw [hb, List.mem_append, List.mem_singleton] at hb'
    rw [hc]
    rcases hb' with hb' | rfl
    · have hdisjoint := (hother b' hb').disjoint
      rw [if_neg fun hin => by omega, h.bound b' hb' o ho]
    · rw [if_pos ⟨by omega, by omega⟩, Nat.add_sub_cancel_left,
        h.rest _ hcaller fun b'' hb'' => (hother b'' hb'').resource_ne]
  · rw [hc]
    exact h.rest r hr fun b' hb' => hne b' (by simp [hb, hb'])

/-! ## Steps and runs -/

theorem Call.exec_runs (h : Wf device [] s) (hr : Refines initial s flat) (c : Call) : Runs (c.exec device) s
      (fun _ t => Wf device [] t ∧ Refines initial t (c.effect device initial flat)) (Refused device [] s) := by
  have hkeep : ∀ t, Keeps device [] s t → Wf device [] t ∧ Refines initial t flat := fun t ht =>
    ⟨ht.wf, hr.spares h ht.spares⟩
  cases c with
  | registerBuffer base pointer =>
    refine Runs.bind (registerBuffer_runs h base pointer) fun _ t ht => ?_
    obtain ⟨b, hbase, hresource, hsize, hwf, hbindings, hcontents⟩ := ht
    refine Runs.pure ⟨hwf, ?_⟩
    have hregister := hr.register hwf hbindings hcontents
    rw [hbase, hresource, hsize] at hregister
    exact hregister
  | fillBuffer allocates address num_bytes value is_gds =>
    refine Runs.bind (fillBuffer_runs h allocates address num_bytes value is_gds) fun _ t ht => ?_
    obtain ⟨b, hb, hw⟩ := ht
    exact Runs.pure ⟨hw.wf, hr.writes h hb hw⟩
  | copyBuffer dst src num_bytes dst_gds src_gds =>
    refine Runs.bind (transferBuffer_runs h dst src num_bytes dst_gds src_gds) fun _ t ht => ?_
    obtain ⟨b, b', hb, hb', hw⟩ := ht
    refine Runs.pure ⟨hw.wf, ?_⟩
    have hwrites := hr.writes h hb hw
    refine ⟨fun b'' hb'' o ho => (hwrites.bound b'' hb'' o ho).trans ?_, hwrites.rest⟩
    -- The bytes read are those of the flat memory.
    simp only [Call.effect]
    split_ifs with hin
    · have hbase' := hb'.base_le
      have hend' := hb'.end_le
      rw [hr.bound b' hb'.mem _ (by omega)]
      congr 1
      omega
    · rfl
  | downloadBuffer allocates address size =>
    refine (downloadBuffer_runs h allocates address size).mono (fun out t ht => ?_) fun _ _ h => h.1
    exact ⟨ht.1.wf, hr.spares h ht.1⟩
  | createLinearFrame allocates address width height pitch output =>
    refine Runs.bind (createLinearFrame_runs h allocates address width height pitch output)
      fun _ t ht => ?_
    exact Runs.pure (hkeep t ht)
  | scopeMarkerBegin label =>
    exact Runs.bind (scopeMarkerBegin_runs h label) fun _ t ht => Runs.pure (hkeep t ht)
  | scopeMarkerEnd => exact Runs.bind (scopeMarkerEnd_runs h) fun _ t ht => Runs.pure (hkeep t ht)
  | scopedMarkerInsertColor label =>
    exact Runs.bind (scopedMarkerInsertColor_runs h label) fun _ t ht => Runs.pure (hkeep t ht)
  | flush =>
    refine Runs.bind ((flush_runs h).mono (fun _ _ h => h) fun _ _ h => h.1) fun _ t ht => ?_
    exact Runs.pure (hkeep t ht.1)
  | finish =>
    refine Runs.bind ((finish_runs h).mono (fun _ _ h => h) fun _ _ h => h.1) fun _ t ht => ?_
    exact Runs.pure (hkeep t ht.1)
  | cpSync =>
    refine Runs.bind ((finish_runs h).mono (fun _ _ h => h) fun _ _ h => h.1) fun _ t ht => ?_
    exact Runs.pure (hkeep t ht.1)
  | onSubmit => exact Runs.bind (onSubmit_runs h _) fun _ t ht => Runs.pure (hkeep t ht)

structure Coherent (device : Device) (initial : BufferMemory) (s : Session) : Prop where
  wf : Wf device [] s.bridge
  refines : Refines initial s.bridge (flatAfter device initial s.accepted)

theorem Coherent.of_started {s : Session} (h : Started initial s) : Coherent device initial s := by
  obtain ⟨haccepted, fence, transfers, hbridge⟩ := h
  refine ⟨?_, ?_⟩
  · rw [hbridge]
    exact {
      bound := by simp
      apart := List.Pairwise.nil
      opened := by simp
      depth := fun _ => rfl
      ticket_le := Nat.zero_le _
      completed_le := Nat.le_refl _
      waiting := by simp
      ordered := List.Pairwise.nil
      refs := by simp [Bridge.incomplete]
      plain := by simp [Bridge.incomplete]
      made := by simp
      staged := Nat.zero_le _
      early := rfl }
  · rw [hbridge, haccepted]
    exact ⟨by simp, fun r _ _ => rfl⟩

theorem Coherent.step {s t : Session} {event : Event}
    (h : Coherent device initial s) (hs : SessionStep device s event t) : Coherent device initial t := by
  cases hs with
  | progress => exact ⟨h.wf.progress.wf, h.refines.spares h.wf h.wf.progress.spares⟩
  | @accepted c out t' hout =>
    obtain ⟨hwf, hrefines⟩ := (Call.exec_runs h.wf h.refines c).of_ok hout
    refine ⟨hwf, ?_⟩
    unfold flatAfter
    rw [List.foldl_append]
    exact hrefines
  | @refused c e t' hout hne =>
    obtain ⟨-, hkeeps⟩ := (Call.exec_runs h.wf h.refines c).of_error hout hne
    exact ⟨hkeeps.wf, h.refines.spares h.wf hkeeps.spares⟩

/-- For every device and every session of a new bridge, in which the calls come in any order, some of
them throw, and the device executes the submitted lists in order at any time: the registered ranges
are disjoint; the staged bytes are within the limit; no staging buffer or pending image was let go
while a list that had not completed referred to it, and whatever such a list refers to is kept; a
download returns the bytes of the flat memory after the accepted calls, unless no binding holds the
range, a marker is open, or there is no memory for its buffer; and a call that throws changes neither
a binding nor a byte of one. -/
theorem bridge_refines_flat (device : Device) (initial : BufferMemory) {s : Session}
    (h : Run (Started initial) (SessionStep device) (fun _ _ => True) s) : s.bridge.bindings.Pairwise
      (fun b b' => b.base + b.size ≤ b'.base ∨ b'.base + b'.size ≤ b.base) ∧
    s.bridge.staged_bytes ≤ maxTransferBytes ∧ (s.bridge.early = false ∧
      ∀ c ∈ s.bridge.incomplete, ∀ r ∈ c.resources, r ∈ s.bridge.kept []) ∧ (∀ allocates (address : UInt64) size,
      Runs (downloadBuffer device allocates address size) s.bridge
        (fun out _ => out = (List.range size).map fun i => flatAfter device initial s.accepted (address.toNat + i))
        (fun e _ => e = .device ∨ (e = .outOfMemory ∧ allocates = false) ∨
          (e = .rejected ∧ (s.bridge.marker_depth ≠ 0 ∨ ∀ b, ¬ Located s.bridge address.toNat size b)))) ∧
    ∀ (c : Call) e t, outcome (c.exec device) s.bridge = (.error e, t) → e ≠ .device → e ≠ .fault ∧
      t.bindings = s.bridge.bindings ∧ t.contents = s.bridge.contents := by
  have hcoherent : Coherent device initial s :=
    h.invariant (fun _ => Coherent.of_started) fun _ _ _ hs _ hstep => hs.step hstep
  obtain ⟨hwf, hrefines⟩ := hcoherent
  refine ⟨hwf.apart.imp fun ha => ha.disjoint, hwf.staged, ⟨hwf.early, hwf.refs⟩,
    fun allocates address size => ?_, fun c e t hout hne => ?_⟩
  · refine (downloadBuffer_runs hwf allocates address size).mono (fun out t ht => ?_)
      fun e t ht => ?_
    · obtain ⟨-, b, hb, rfl⟩ := ht
      refine List.map_congr_left fun i hi => ?_
      have hbase := hb.base_le
      have hend := hb.end_le
      rw [List.mem_range] at hi
      rw [hrefines.bound b hb.mem _ (by omega)]
      congr 1
      omega
    · rcases ht.2 with hd | hr | hm
      · exact .inl hd
      · exact .inr (.inr ⟨hr.1, hr.2.symm⟩)
      · exact .inr (.inl hm)
  · obtain ⟨hfault, hkeeps⟩ := (Call.exec_runs hwf hrefines c).of_error hout hne
    exact ⟨hfault, hkeeps.bindings, hkeeps.contents⟩

/-- The session after calls that are made one after another, if no device call fails. -/
def Session.replay (device : Device) : List Call → Session → Option Session
  | [], s => some s
  | c :: rest, s =>
    match outcome (c.exec device) s.bridge with
    | (.ok _, t) => replay device rest ⟨t, s.accepted ++ [c]⟩
    | (.error .device, _) => none
    | (.error _, t) => replay device rest ⟨t, s.accepted⟩

theorem Session.run_of_replay {calls : List Call}
    {s t : Session} (hs : Run (Started initial) (SessionStep device) (fun _ _ => True) s)
    (h : Session.replay device calls s = some t) :
    Run (Started initial) (SessionStep device) (fun _ _ => True) t := by
  induction calls generalizing s with
  | nil =>
    obtain rfl := Option.some.inj h
    exact hs
  | cons c rest ih =>
    unfold Session.replay at h
    rcases hout : outcome (c.exec device) s.bridge with ⟨e | out, t'⟩
    · rw [hout] at h
      cases e with
      | device => simp at h
      | _ => exact ih (hs.step trivial (.refused hout (by simp))) h
    · rw [hout] at h
      exact ih (hs.step trivial (.accepted hout)) h

/-- A buffer of 256 bytes for each even identity. -/
def sampleBuffers : Device where
  self := 1
  getDesc _ := { dimension := .buffer, width := 256 }
  getDevice _ := some 1
  getHeapType _ := some .default
  formatPlanes _ := some 1
  formatSupport _ := none
  getCopyableFootprints _ offset := ⟨⟨offset, ⟨0, 0, 0, 0, 0⟩⟩, 0, 0⟩

/-- Two registrations, a fill, a fill that is not aligned, a copy and a flush. -/
def sampleSession : List Call :=
  [.registerBuffer 4096 4, .registerBuffer 8192 7, .fillBuffer true 4096 8 0x01020304 false,
    .fillBuffer true 4097 8 0 false, .copyBuffer 8192 4100 4 false false, .flush]

theorem bridge_refines_flat_sample : ∃ s : Session,
    Run (Started fun _ _ => 0) (SessionStep sampleBuffers) (fun _ _ => True) s ∧ s.accepted.length = 5 ∧
    (outcome (downloadBuffer sampleBuffers true 8192 4) s.bridge).1.toOption = some [4, 3, 2, 1] ∧
    s.bridge.staged_bytes ≤ maxTransferBytes := by
  have hreplay : (Session.replay sampleBuffers sampleSession
      ⟨{ context := { memory := fun _ _ => 0 } }, []⟩).map (fun s => (s.accepted.length,
        (outcome (downloadBuffer sampleBuffers true 8192 4) s.bridge).1.toOption)) =
      some (5, some [4, 3, 2, 1]) := by decide +kernel
  obtain ⟨s, hs, heq⟩ := Option.map_eq_some_iff.mp hreplay
  have hstart : Run (Started fun _ _ => 0) (SessionStep sampleBuffers) (fun _ _ => True)
      ⟨{ context := { memory := fun _ _ => 0 } }, []⟩ := .start ⟨rfl, 0, {}, rfl⟩
  have hrun := Session.run_of_replay hstart hs
  rw [Prod.mk.injEq] at heq
  exact ⟨s, hrun, heq.1, heq.2, (bridge_refines_flat sampleBuffers _ hrun).2.1⟩

end ShadPS4.D3D12
