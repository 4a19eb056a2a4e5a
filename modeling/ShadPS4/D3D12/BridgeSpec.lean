import Mathlib.Data.List.TakeWhile
import ShadPS4.D3D12.EncoderSpec
import ShadPS4.D3D12.VideoCoreBridge

/-!
# What an operation of the bridge does

The bytes that count are those that the buffers will have when everything recorded and submitted has been executed
(`Bridge.contents`).
-/

namespace ShadPS4.D3D12

open List
open Option (some.inj)

variable {device : Device} {extra : List ℕ} {s t : Bridge} {encoder encoder' : Encoder} {r : ℕ}

def Bridge.contents (s : Bridge) : BufferMemory := execute s.context.memory s.incomplete

/-- The commands that the bridge records: they write no buffer but by a copy from a buffer. -/
def Command.Plain : Command → Prop
  | .transition _ _ _ => True
  | .copyBufferRegion _ _ _ _ _ => True
  | .copyTextureRegion _ _ _ to_texture => to_texture = true
  | _ => False

theorem execute_append (memory : BufferMemory) (xs ys : List Command) :
    execute memory (xs ++ ys) = execute (execute memory xs) ys :=
  foldl_append

theorem execute_moves (memory : BufferMemory)
    (h : ∀ m ∈ moves, ∃ r before after, m = .transition r before after) : execute memory moves = memory := by
  induction moves with
  | nil => rfl
  | cons m rest ih =>
    obtain ⟨r, before, after, rfl⟩ := h m mem_cons_self
    exact ih fun m hm => h m (mem_cons_of_mem _ hm)

theorem Command.execute_agree {memory memory' : BufferMemory} {u : ℕ} {c : Command}
    (h : ∀ r ≠ u, memory' r = memory r) (hc : u ∉ c.resources) :
    (∀ r ≠ u, c.execute memory' r = c.execute memory r) ∧ c.execute memory' u = memory' u := by
  cases c with
  | copyBufferRegion destination destination_offset source source_offset bytes =>
    simp only [Command.resources, mem_cons, not_mem_nil, or_false, not_or] at hc
    refine ⟨fun r hr => ?_, ?_⟩
    · funext o
      simp only [Command.execute]
      rw [h source (Ne.symm hc.2), h r hr]
    · funext o
      simp only [Command.execute]
      rw [if_neg fun hu => hc.1 hu.1]
  | _ => exact ⟨h, rfl⟩

theorem execute_agree {memory memory' : BufferMemory} {u : ℕ} {commands : List Command}
    (h : ∀ r ≠ u, memory' r = memory r) (hc : ∀ c ∈ commands, u ∉ c.resources) :
    (∀ r ≠ u, execute memory' commands r = execute memory commands r) ∧ execute memory' commands u = memory' u := by
  induction commands generalizing memory memory' with
  | nil => exact ⟨h, rfl⟩
  | cons c rest ih =>
    obtain ⟨hothers, hself⟩ := Command.execute_agree h (hc c mem_cons_self)
    obtain ⟨hothers', hself'⟩ := ih hothers fun c hm => hc c (mem_cons_of_mem _ hm)
    exact ⟨hothers', hself'.trans hself⟩

/-! ## The invariant -/

/-- What `RegisterBuffer` has checked of a binding. -/
structure Bound (device : Device) (b : Binding) : Prop where
  caller : b.resource % 2 = 0 ∧ b.resource ≠ 0
  buffer : (device.getDesc b.resource).dimension = .buffer
  width : (device.getDesc b.resource).width.toNat = b.size
  heap : device.getHeapType b.resource = some .default
  owner : device.getDevice b.resource = some device.self
  fits : b.base + b.size < 2^64

/-- Two bindings have different resources and disjoint ranges. -/
structure Binding.Apart (b b' : Binding) : Prop where
  resource_ne : b.resource ≠ b'.resource
  disjoint : b.base + b.size ≤ b'.base ∨ b'.base + b'.size ≤ b.base

structure Opened (device : Device) (s : Bridge) (encoder : Encoder) : Prop where
  held : Held (s.view device) encoder
  bound : ∀ b ∈ s.bindings, encoder.resources b.resource ≠ none
  known : ∀ r, encoder.resources r ≠ none → r % 2 = 1 → r / 2 < s.objects.length

/-- The resources that the bridge keeps alive, with further ones. -/
def Bridge.kept (s : Bridge) (extra : List ℕ) : List ℕ :=
  s.bindings.map (·.resource) ++ (s.staging ++ s.pending_images ++ extra)

/-- What holds of the bridge between its operations. -/
structure Wf (device : Device) (extra : List ℕ) (s : Bridge) : Prop where
  bound : ∀ b ∈ s.bindings, Bound device b
  apart : s.bindings.Pairwise Binding.Apart
  opened : ∀ encoder, s.encoder = some encoder → Opened device s encoder
  depth : s.encoder = none → s.marker_depth = 0
  ticket_le : s.last_ticket ≤ s.context.fence_value
  completed_le : s.context.completed ≤ s.context.fence_value
  waiting : ∀ q ∈ s.context.queue, s.context.completed < q.ticket ∧ q.ticket ≤ s.last_ticket
  ordered : s.context.queue.Pairwise (·.ticket < ·.ticket)
  refs : ∀ c ∈ s.incomplete, ∀ r ∈ c.resources, r ∈ s.kept extra
  plain : ∀ c ∈ s.incomplete, c.Plain
  made : ∀ r ∈ s.staging ++ s.pending_images ++ extra, r % 2 = 1 ∧ r / 2 < s.objects.length
  staged : s.staged_bytes ≤ maxTransferBytes
  early : s.early = false

/-- An operation keeps the invariant, the bindings and the contents of the buffers. -/
structure Keeps (device : Device) (extra : List ℕ) (s t : Bridge) : Prop where
  wf : Wf device extra t
  bindings : t.bindings = s.bindings
  contents : t.contents = s.contents

theorem Keeps.refl (h : Wf device extra s) : Keeps device extra s s := ⟨h, rfl, rfl⟩

theorem Keeps.trans (h : Keeps device extra s t) (h' : Keeps device extra' t u) : Keeps device extra' s u :=
  ⟨h'.wf, h'.bindings.trans h.bindings, h'.contents.trans h.contents⟩

/-- An operation throws: a device call failed, or the bridge is as good as before. -/
def Refused (device : Device) (extra : List ℕ) (s : Bridge) (e : BridgeError) (t : Bridge) : Prop :=
  e ≠ .device → e ≠ .fault ∧ Keeps device extra s t

theorem Refused.of_keeps
    (h : Keeps device extra s t) (h' : Refused device extra' t e u) : Refused device extra' s e u :=
  fun hne => ⟨(h' hne).1, h.trans (h' hne).2⟩

/-! ## Changes of state -/

theorem Opened.of_eq (h : Opened device s encoder) (hb : t.bindings = s.bindings) (ho : t.objects = s.objects) :
    Opened device t encoder := by
  refine ⟨?_, ?_, ?_⟩
  · unfold Bridge.view
    rw [ho]
    exact h.held
  · rw [hb]
    exact h.bound
  · rw [ho]
    exact h.known

theorem Wf.tallied (h : Wf device extra s)
    (stats : VideoCoreStats) : Keeps device extra s { s with stats := stats } := by
  refine ⟨⟨h.bound, h.apart, fun e he => (h.opened e he).of_eq rfl rfl, h.depth, h.ticket_le,
    h.completed_le, h.waiting, h.ordered, h.refs, h.plain, h.made, h.staged, h.early⟩, rfl,
    rfl⟩

theorem tally_runs (h : Wf device extra s) (f : VideoCoreStats → VideoCoreStats) (Q : BridgeError → Bridge → Prop) :
    Runs (tally f) s (fun _ t => Keeps device extra s t ∧ ∃ stats, t = { s with stats := stats }) Q :=
  Runs.modify ⟨h.tallied _, _, rfl⟩

theorem refuse_runs (h : Wf device extra s) (P : α → Bridge → Prop) : Runs (refuse : Bridging α) s P
      (fun e t => e = .rejected ∧ Keeps device extra s t) := by
  refine Runs.bind (tally_runs h _ _) fun _ t ht => ?_
  exact Runs.throw ⟨rfl, ht.1⟩

theorem refuseIf_runs (h : Wf device extra s)
    (condition : Prop) [Decidable condition] : Runs (refuseIf condition) s (fun _ t => t = s ∧ ¬ condition)
      (fun e t => (e = .rejected ∧ condition) ∧ Keeps device extra s t) := by
  refine Runs.ite (fun hc => ?_) fun hc => Runs.pure ⟨rfl, hc⟩
  exact (refuse_runs h _).mono (fun _ _ h => h) fun _ _ h => ⟨⟨h.1, hc⟩, h.2⟩

theorem Keeps.refused (h : Keeps device extra s t) (he : e = .rejected ∨ e = .outOfMemory ∨ e = .unsupported) :
    Refused device extra s e t := by
  intro _
  refine ⟨?_, h⟩
  rcases he with rfl | rfl | rfl <;> simp

theorem Bridge.incomplete_nil (hq : s.context.queue = []) (he : s.encoder = none) : s.incomplete = [] := by
  unfold Bridge.incomplete
  rw [hq, he]
  rfl

theorem Bridge.contents_idle (h : s.incomplete = []) : s.contents = s.context.memory := by
  unfold Bridge.contents
  rw [h]
  rfl

theorem Wf.queue_nil (h : Wf device extra s) (hle : s.last_ticket ≤ s.context.completed) : s.context.queue = [] := by
  refine eq_nil_iff_forall_not_mem.mpr fun q hq => ?_
  have := h.waiting q hq
  omega

def Bridge.advance (s : Bridge) (done rest : List Submission) (completed : ℕ) : Bridge :=
  { s with context := { s.context with
      memory := execute s.context.memory (done.flatMap (·.commands))
      queue := rest
      completed := completed } }

theorem Wf.advance (h : Wf device extra s) (hq : s.context.queue = done ++ rest)
    (hle : completed ≤ s.context.fence_value) (hrest : ∀ q ∈ rest, completed < q.ticket) :
    Keeps device extra s (s.advance done rest completed) := by
  have hincomplete : s.incomplete =
      done.flatMap (·.commands) ++ (s.advance done rest completed).incomplete := by
    unfold Bridge.incomplete Bridge.advance
    rw [hq, flatMap_append, append_assoc]
  have hsub : ∀ c ∈ (s.advance done rest completed).incomplete, c ∈ s.incomplete := by
    intro c hc
    rw [hincomplete]
    exact mem_append_right _ hc
  refine ⟨⟨h.bound, h.apart, fun e he => (h.opened e he).of_eq rfl rfl, h.depth, h.ticket_le, hle,
    fun q hq' => ⟨hrest q hq', ?_⟩, ?_, fun c hc => h.refs c (hsub c hc),
    fun c hc => h.plain c (hsub c hc), h.made, h.staged, h.early⟩, rfl, ?_⟩
  · refine (h.waiting q ?_).2
    rw [hq]
    exact mem_append_right _ hq'
  · have hordered := h.ordered
    rw [hq] at hordered
    exact (pairwise_append.mp hordered).2.1
  · show execute _ _ = execute _ _
    rw [hincomplete, execute_append]
    rfl

theorem Wf.progress (h : Wf device extra s) : Keeps device extra s { s with context := s.context.progress } := by
  unfold DeviceContext.progress
  cases hq : s.context.queue with
  | nil => exact .refl h
  | cons next rest =>
    have hnext := h.waiting next (by simp [hq])
    have hordered := h.ordered
    rw [hq, pairwise_cons] at hordered
    have hsplit : s.context.queue = [next] ++ rest := hq
    have hadvance := h.advance hsplit (hnext.2.trans h.ticket_le) hordered.1
    unfold Bridge.advance at hadvance
    rw [flatMap_singleton] at hadvance
    exact hadvance

theorem wait_runs (h : Wf device extra s) (Q : BridgeError → Bridge → Prop) : Runs (wait s.last_ticket) s
      (fun _ t => Keeps device extra s t ∧ t.context.queue = [] ∧
        ∃ context, t = { s with context := context }) Q := by
  refine Runs.bind (P := fun a t => a = s ∧ t = s) (Runs.get ⟨rfl, rfl⟩) fun a t ht => ?_
  obtain ⟨rfl, rfl⟩ := ht
  refine Runs.ite (fun hgt => absurd h.ticket_le (by omega)) fun _ => ?_
  refine Runs.ite (fun hge => ?_) fun hlt => ?_
  · exact Runs.pure ⟨.refl h, h.queue_nil hge, _, rfl⟩
  · -- Every list that waits has a ticket up to the last one.
    have hall : ∀ q ∈ t.context.queue, decide (q.ticket ≤ t.last_ticket) = true := fun q hq =>
      decide_eq_true (h.waiting q hq).2
    have hdrain : { t with context := t.context.drain t.last_ticket } =
        t.advance t.context.queue [] t.last_ticket := by
      unfold Bridge.advance DeviceContext.drain
      rw [takeWhile_eq_self_iff.mpr hall, dropWhile_eq_nil_iff.mpr hall]
    refine Runs.modify ?_
    rw [hdrain]
    exact ⟨h.advance (append_nil _).symm h.ticket_le (by simp), rfl, _, rfl⟩

theorem release_runs (h : Wf device extra s)
    (hidle : s.incomplete = []) (Q : BridgeError → Bridge → Prop) : Runs release s
      (fun _ t => Keeps device extra s t ∧
        t = { s with staging := [], pending_images := [], staged_bytes := 0 }) Q := by
  have hearly : (s.early || (s.staging ++ s.pending_images).any s.refers) = s.early := by
    have hrefers : ∀ r, s.refers r = false := by
      intro r
      unfold Bridge.refers
      rw [hidle]
      rfl
    have hany : (s.staging ++ s.pending_images).any s.refers = false :=
      any_eq_false.mpr fun r _ => by simp [hrefers r]
    rw [hany, Bool.or_false]
  refine Runs.modify ?_
  rw [hearly]
  refine ⟨⟨⟨h.bound, h.apart, fun e he => (h.opened e he).of_eq rfl rfl, h.depth, h.ticket_le,
    h.completed_le, h.waiting, h.ordered, ?_, h.plain, fun r hr => h.made r ?_, Nat.zero_le _,
    h.early⟩, rfl, rfl⟩, rfl⟩
  · intro c hc
    have : c ∈ s.incomplete := hc
    rw [hidle] at this
    simp at this
  · exact mem_append_right _ hr

theorem Wf.idle (h : Wf device extra s) (hidle : s.incomplete = []) : Wf device [] s := by
  refine ⟨h.bound, h.apart, h.opened, h.depth, h.ticket_le, h.completed_le, h.waiting, h.ordered,
    ?_, h.plain, fun r hr => h.made r ?_, h.staged, h.early⟩
  · rw [hidle]
    simp
  · rw [append_nil] at hr
    exact mem_append_left _ hr

/-! ## The allocator -/

theorem view_caller (s : Bridge) (device : Device) (hr : r % 2 = 0) :
    (s.view device).getDesc r = device.getDesc r ∧ (s.view device).getDevice r = device.getDevice r ∧
      (s.view device).getHeapType r = device.getHeapType r := by
  have hne : ¬ r % 2 = 1 := by omega
  simp [Bridge.view, hne]

/-- The state when the allocator has made one more object. -/
def Bridge.made (s : Bridge) (desc : ResourceDesc) (heap : HeapType) : Bridge :=
  { s with objects := s.objects ++ [(desc, heap)] }

theorem view_made (s : Bridge) (device : Device) (desc : ResourceDesc) (heap : HeapType) :
    ((s.made desc heap).view device).getDesc (internal s.objects.length) = desc ∧
      ((s.made desc heap).view device).getDevice (internal s.objects.length) = some device.self ∧
      ((s.made desc heap).view device).getHeapType (internal s.objects.length) = some heap := by
  have hodd : internal s.objects.length % 2 = 1 := by unfold internal; omega
  have hhalf : internal s.objects.length / 2 = s.objects.length := by unfold internal; omega
  simp [Bridge.view, Bridge.made, hodd, hhalf]

theorem view_made_known (s : Bridge) (device : Device) (desc : ResourceDesc) (heap : HeapType) (hr : r % 2 = 1 → r / 2 < s.objects.length) :
    ((s.made desc heap).view device).getDesc r = (s.view device).getDesc r ∧
      ((s.made desc heap).view device).getHeapType r = (s.view device).getHeapType r := by
  unfold Bridge.view Bridge.made
  by_cases hodd : r % 2 = 1
  · simp [hodd, getElem?_append_left (hr hodd)]
  · simp [hodd]

theorem Opened.made (h : Opened device s encoder) (desc : ResourceDesc) (heap : HeapType) :
    Opened device (s.made desc heap) encoder := by
  refine ⟨fun r tracked hr => ?_, h.bound, fun r hr hodd => ?_⟩
  · have hknown := h.known r (by simp [hr])
    obtain ⟨hdesc, hheap⟩ := view_made_known s device desc heap hknown
    have htracked := h.held r tracked hr
    exact ⟨htracked.desc_eq.trans hdesc.symm, hheap.trans htracked.heap_eq, htracked.kind,
      htracked.upload, htracked.readback⟩
  · have hlt := h.known r hr hodd
    unfold Bridge.made
    rw [length_append]
    omega

theorem Wf.made_keeps (h : Wf device extra s) (desc : ResourceDesc) (heap : HeapType) :
    Keeps device (extra ++ [internal s.objects.length]) s (s.made desc heap) := by
  have hlen : (s.made desc heap).objects.length = s.objects.length + 1 := by
    unfold Bridge.made
    simp
  refine ⟨⟨h.bound, h.apart, fun e he => (h.opened e he).made desc heap, h.depth, h.ticket_le,
    h.completed_le, h.waiting, h.ordered, fun c hc r hr => ?_, h.plain, fun r hr => ?_, h.staged,
    h.early⟩, rfl, rfl⟩
  · have hkept := h.refs c hc r hr
    unfold Bridge.kept at hkept ⊢
    rw [← append_assoc, ← append_assoc]
    exact mem_append_left _ (by simpa [Bridge.made] using hkept)
  · rw [← append_assoc, mem_append, mem_singleton] at hr
    rcases hr with hr | rfl
    · have hold := h.made r hr
      exact ⟨hold.1, by omega⟩
    · unfold internal
      omega

theorem create_runs (s : Bridge) (allocates : Bool) (desc : ResourceDesc) (heap : HeapType) :
    Runs (create allocates desc heap) s (fun r t => r = internal s.objects.length ∧ t = s.made desc heap)
      (fun e t => e = .outOfMemory ∧ allocates = false ∧ t = s) := by
  refine Runs.bind (P := fun a t => a = s ∧ t = s) (Runs.get ⟨rfl, rfl⟩) fun a t ht => ?_
  obtain ⟨rfl, rfl⟩ := ht
  refine Runs.ite (fun _ => ?_) fun ha => ?_
  · refine Runs.bind (Runs.modify (P := fun _ u => u = t.made desc heap) rfl) fun _ u hu => ?_
    exact Runs.pure ⟨rfl, hu⟩
  · exact Runs.throw ⟨rfl, by simpa using ha, rfl⟩

/-! ## The open encoder -/

theorem encode_runs (he : s.encoder = some encoder) (hop : Runs (operation (s.view device)) encoder P Q) :
    Runs (encode device operation) s (fun _ t => ∃ encoder', t = { s with encoder := some encoder' } ∧ P () encoder')
      (fun e t => ∃ encoder', t = { s with encoder := some encoder' } ∧
        ((e = .rejected ∧ Q .invalidArg encoder') ∨ (e = .device ∧ Q .device encoder'))) := by
  refine Runs.bind (P := fun a t => a = s ∧ t = s) (Runs.get ⟨rfl, rfl⟩) fun a t ht => ?_
  obtain ⟨rfl, rfl⟩ := ht
  rw [he]
  unfold Runs at hop
  dsimp only
  revert hop
  rcases outcome (operation (t.view device)) encoder with ⟨e | a, encoder'⟩
  · cases e with
    | invalidArg => exact fun hop => ⟨encoder', rfl, .inl ⟨rfl, hop⟩⟩
    | device => exact fun hop => ⟨encoder', rfl, .inr ⟨rfl, hop⟩⟩
  · exact fun hop => ⟨encoder', rfl, hop⟩

theorem Wf.record (h : Wf device extra s) (he : s.encoder = some encoder) (hopened : Opened device s encoder')
    (hgrown : Grown resources last encoder encoder') (hres : ∀ r ∈ resources, r ∈ s.kept extra)
    (hlast : ∀ c ∈ last, c.Plain ∧ ∀ r ∈ c.resources, r ∈ s.kept extra) :
    Wf device extra { s with encoder := some encoder' } ∧
      Bridge.contents { s with encoder := some encoder' } = execute s.contents last := by
  obtain ⟨moves, hcommands, hmoves⟩ := hgrown
  have hincomplete : Bridge.incomplete { s with encoder := some encoder' } = s.incomplete ++ (moves ++ last) := by
    unfold Bridge.incomplete
    rw [he]
    simp [hcommands]
  -- A command that was not there before is a transition, or one of the last ones.
  have hnew : ∀ c ∈ Bridge.incomplete { s with encoder := some encoder' },
      c ∈ s.incomplete ∨ (c.Plain ∧ ∀ r ∈ c.resources, r ∈ s.kept extra) := by
    intro c hc
    rw [hincomplete, mem_append, mem_append] at hc
    rcases hc with hc | hc | hc
    · exact .inl hc
    · obtain ⟨r, hr, before, after, rfl⟩ := hmoves c hc
      refine .inr ⟨trivial, fun r' hr' => ?_⟩
      simp only [Command.resources, mem_singleton] at hr'
      subst hr'
      exact hres _ hr
    · exact .inr (hlast c hc)
  refine ⟨⟨h.bound, h.apart, fun e he' => ?_, fun hnone => ?_, h.ticket_le, h.completed_le, h.waiting,
    h.ordered, fun c hc => ?_, fun c hc => ?_, h.made, h.staged, h.early⟩, ?_⟩
  · obtain rfl := some.inj he'
    exact hopened.of_eq rfl rfl
  · exact absurd hnone (by simp)
  · rcases hnew c hc with hold | hnew
    · exact h.refs c hold
    · exact hnew.2
  · rcases hnew c hc with hold | hnew
    · exact h.plain c hold
    · exact hnew.1
  · show execute s.context.memory _ = _
    rw [hincomplete, execute_append, execute_append]
    refine congrArg (fun m => execute m last) (execute_moves _ fun m hm => ?_)
    obtain ⟨r, -, before, after, hm'⟩ := hmoves m hm
    exact ⟨r, before, after, hm'⟩

theorem Opened.records (h : Opened device s encoder)
    (hrec : Records allowed encoder encoder') : Opened device s encoder' := by
  refine ⟨hrec.held h.held, fun b hb => ?_, fun r hr => ?_⟩
  · rw [Ne, hrec.eq_none_iff]
    exact h.bound b hb
  · rw [Ne, hrec.eq_none_iff] at hr
    exact h.known r hr

theorem Wf.same (h : Wf device extra s) (he : s.encoder = some encoder) (hsame : Same encoder encoder') :
    Keeps device extra s { s with encoder := some encoder' } := by
  have hrec : Records (fun _ => True) encoder encoder' := .same hsame
  have hgrown : Grown [] [] encoder encoder' := ⟨[], by simp [hsame.2], by simp⟩
  obtain ⟨hwf, hcontents⟩ := h.record he ((h.opened _ he).records hrec) hgrown (by simp) (by simp)
  exact ⟨hwf, rfl, hcontents⟩

theorem Opened.track (h : Opened device s encoder)
    (ht : Tracked (s.view device) r tracked) (hr : r % 2 = 1 → r / 2 < s.objects.length) :
    Opened device s (encoder.setResource r tracked) := by
  refine ⟨fun r' found hfound => ?_, fun b hb => ?_, fun r' hr' hodd => ?_⟩
  · simp only [Encoder.setResource] at hfound
    split_ifs at hfound with he
    · obtain rfl := some.inj hfound
      rw [he]
      exact ht
    · exact h.held r' found hfound
  · simp only [Encoder.setResource]
    split_ifs
    · simp
    · exact h.bound b hb
  · simp only [Encoder.setResource] at hr'
    split_ifs at hr' with he
    · rw [he] at hodd ⊢
      exact hr hodd
    · exact h.known r' hr' hodd

theorem accepts_common {tracked : Resource} (h : tracked.heap = .default) : tracked.Accepts stateCommon := by
  refine ⟨?_, ?_⟩
  · unfold Resource.forbids
    rw [h]
    decide
  · simp [Resource.unfit, stateCommon]

/-- What the encoder keeps of a binding when it takes it up. -/
def Binding.tracked (device : Device) (b : Binding) : Resource :=
  { description := device.getDesc b.resource, heap := .default }

theorem Bound.tracked (h : Bound device b) (s : Bridge) : Tracked (s.view device) b.resource (b.tracked device) := by
  obtain ⟨hdesc, -, hheap⟩ := view_caller s device h.caller.1
  refine ⟨hdesc.symm, hheap.trans h.heap, .inl rfl, ?_, ?_⟩
  · exact fun hu => absurd hu (by simp [Binding.tracked])
  · exact fun hu => absurd hu (by simp [Binding.tracked])

theorem trackBindings_runs (bindings : List Binding) (he : s.encoder = some encoder) (hheld : Held (s.view device) encoder)
    (hbound : ∀ b ∈ bindings, Bound device b) (hapart : bindings.Pairwise Binding.Apart)
    (hnone : ∀ b ∈ bindings, encoder.resources b.resource = none) (Q : BridgeError → Bridge → Prop) :
    Runs (trackBindings device bindings) s (fun _ t => ∃ encoder',
      t = { s with encoder := some encoder' } ∧ Held (s.view device) encoder' ∧
        encoder'.commands = encoder.commands ∧
        (∀ b ∈ bindings, encoder'.resources b.resource ≠ none) ∧
        (∀ r, encoder.resources r ≠ none → encoder'.resources r ≠ none) ∧
        ∀ r, encoder'.resources r ≠ none →
          encoder.resources r ≠ none ∨ ∃ b ∈ bindings, b.resource = r) Q := by
  induction bindings generalizing s encoder with
  | nil =>
    refine Runs.pure ⟨encoder, ?_, hheld, rfl, by simp, fun _ hr => hr, fun _ hr => .inl hr⟩
    rw [← he]
  | cons b rest ih =>
    have hb := hbound b mem_cons_self
    obtain ⟨hdesc, howner, hheap⟩ := view_caller s device hb.caller.1
    have htotal := track_total (Q := fun _ _ => False) hb.caller.2 (hnone b mem_cons_self)
      (howner.trans hb.owner) (hb.tracked s) rfl (accepts_common rfl)
    refine Runs.bind ((encode_runs he htotal).mono (fun _ _ h => h) fun _ _ h => ?_) fun _ t ht => ?_
    · obtain ⟨_, -, h | h⟩ := h
      · exact h.2.elim
      · exact h.2.elim
    · obtain ⟨_, rfl, rfl⟩ := ht
      have hset : ∀ r, (encoder.setResource b.resource (b.tracked device)).resources r =
          if r = b.resource then some (b.tracked device) else encoder.resources r := fun _ => rfl
      refine (ih rfl ?_ (fun b' hb' => hbound b' (mem_cons_of_mem _ hb'))
        (List.pairwise_cons.mp hapart).2 ?_).mono (fun _ u hu => ?_) fun _ _ h => h
      · intro r found hfound
        rw [hset] at hfound
        split_ifs at hfound with hr
        · obtain rfl := some.inj hfound
          rw [hr]
          exact hb.tracked s
        · exact hheld r found hfound
      · intro b' hb'
        rw [hset, if_neg ((List.pairwise_cons.mp hapart).1 b' hb').resource_ne.symm]
        exact hnone b' (mem_cons_of_mem _ hb')
      · obtain ⟨encoder', rfl, hheld', hcommands, hall, hold, hnew⟩ := hu
        refine ⟨encoder', rfl, hheld', hcommands, ?_, fun r hr => hold r ?_, fun r hr => ?_⟩
        · intro b' hb'
          rcases mem_cons.mp hb' with rfl | hb'
          · refine hold _ ?_
            rw [hset, if_pos rfl]
            simp
          · exact hall b' hb'
        · rw [hset]
          split_ifs
          · simp
          · exact hr
        · rcases hnew r hr with hr | ⟨b', hb', hr⟩
          · rw [hset] at hr
            split_ifs at hr with heq
            · exact .inr ⟨b, mem_cons_self, heq.symm⟩
            · exact .inl hr
          · exact .inr ⟨b', mem_cons_of_mem _ hb', hr⟩

theorem beginRecording_runs (h : Wf device extra s) (Q : BridgeError → Bridge → Prop) :
    Runs (beginRecording device) s (fun _ t => Keeps device extra s t ∧
      t.marker_depth = s.marker_depth ∧ t.objects = s.objects ∧
      ∃ encoder, t.encoder = some encoder ∧ ∀ r, r % 2 = 1 → encoder.resources r ≠ none →
        ∃ encoder', s.encoder = some encoder' ∧ encoder'.resources r ≠ none) Q := by
  refine Runs.bind (P := fun a t => a = s ∧ t = s) (Runs.get ⟨rfl, rfl⟩) fun a t ht => ?_
  obtain ⟨rfl, rfl⟩ := ht
  cases he : t.encoder with
  | some encoder =>
    exact Runs.pure ⟨.refl h, rfl, rfl, encoder, he, fun r _ hr => ⟨encoder, rfl, hr⟩⟩
  | none =>
    refine Runs.bind (wait_runs h _) fun _ u hu => ?_
    obtain ⟨hwait, hqueue, context, rfl⟩ := hu
    have hidle : Bridge.incomplete { t with context := context } = [] :=
      Bridge.incomplete_nil hqueue he
    refine Runs.bind (release_runs hwait.wf hidle _) fun _ v hv => ?_
    obtain ⟨hrelease, rfl⟩ := hv
    have hwf := hrelease.wf
    refine Runs.bind (P := fun _ w => w = { t with
      context := context
      staging := []
      pending_images := []
      staged_bytes := 0
      encoder := some { stats := t.transfers } }) (Runs.modify rfl) fun _ w hw => ?_
    subst hw
    refine (trackBindings_runs t.bindings rfl (fun r found hr => ?_) h.bound h.apart
      (fun _ _ => rfl) Q).mono (fun _ x hx => ?_) fun _ _ h => h
    · exact absurd hr (by simp)
    · obtain ⟨encoder', rfl, hheld, hcommands, hall, -, hnew⟩ := hx
      -- The new recording is empty, and no list waits.
      have hempty : ∀ e, e = some encoder' → context.queue.flatMap (·.commands) ++
          (Option.map (·.commands) e).getD [] = [] := by
        intro e he'
        rw [hqueue, he']
        exact hcommands
      refine ⟨(hwait.trans hrelease).trans ⟨⟨h.bound, h.apart, fun e he' => ?_, fun hn => ?_,
        hwf.ticket_le, hwf.completed_le, hwf.waiting, hwf.ordered, ?_, ?_, hwf.made, hwf.staged,
        hwf.early⟩, rfl, ?_⟩, rfl, rfl, encoder', rfl, fun r hodd hr => ?_⟩
      · obtain rfl := some.inj he'
        refine ⟨hheld, hall, fun r hr hodd => ?_⟩
        rcases hnew r hr with hr | ⟨b, hb, rfl⟩
        · exact absurd rfl hr
        · have := (h.bound b hb).caller.1
          omega
      · exact absurd hn (by simp)
      · intro c hc
        rw [Bridge.incomplete, hempty _ rfl] at hc
        simp at hc
      · intro c hc
        rw [Bridge.incomplete, hempty _ rfl] at hc
        simp at hc
      · refine (Bridge.contents_idle ?_).trans (Bridge.contents_idle hidle).symm
        exact hempty _ rfl
      · rcases hnew r hr with hr | ⟨b, hb, rfl⟩
        · exact absurd rfl hr
        · have := (h.bound b hb).caller.1
          omega

theorem flush_runs (h : Wf device extra s) :
    Runs flush s (fun ticket t => Keeps device extra s t ∧ ticket = t.last_ticket ∧
        t.encoder = none ∧ s.marker_depth = 0 ∧ t.objects = s.objects)
      (fun e t => Refused device extra s e t ∧ (e = .device ∨ (e = .rejected ∧ s.marker_depth ≠ 0))) := by
  refine Runs.bind (P := fun a t => a = s ∧ t = s) (Runs.get ⟨rfl, rfl⟩) fun a t ht => ?_
  obtain ⟨rfl, rfl⟩ := ht
  cases he : t.encoder with
  | none => exact Runs.pure ⟨.refl h, rfl, he, h.depth he, rfl⟩
  | some encoder =>
    refine Runs.bind ((refuseIf_runs h _).mono (fun _ _ h => h) fun e u hu => ?_) fun _ u hu => ?_
    · exact ⟨hu.2.refused (.inl hu.1.1), .inr hu.1⟩
    obtain ⟨rfl, hdepth⟩ := hu
    rw [not_not] at hdepth
    -- The list waits behind the others, with the next ticket.
    refine Runs.bind (P := fun ticket t => ticket = u.context.fence_value + 1 ∧ t = { u with
        context := { u.context with
          queue := u.context.queue ++ [⟨u.context.fence_value + 1, encoder.commands⟩]
          fence_value := u.context.fence_value + 1 } }) ?_ fun ticket t ht => ?_
    · unfold submit
      refine Runs.bind (P := fun a t => a = u ∧ t = u) (Runs.get ⟨rfl, rfl⟩) fun a t ht => ?_
      obtain ⟨rfl, rfl⟩ := ht
      refine Runs.bind (P := fun _ v => v = { t with context := { t.context with
        queue := t.context.queue ++ [⟨t.context.fence_value + 1, encoder.commands⟩] } })
        (Runs.modify rfl) fun _ v hv => ?_
      subst hv
      refine Runs.ite (fun _ => Runs.throw ⟨fun hne => absurd rfl hne, .inl rfl⟩) fun _ => ?_
      exact Runs.bind (Runs.modify (P := fun _ w => w = _) rfl) fun _ w hw => Runs.pure ⟨rfl, hw⟩
    · obtain ⟨rfl, rfl⟩ := ht
      refine Runs.bind (Runs.modify (P := fun _ w => w = _) rfl) fun _ w hw => ?_
      have hkeeps : Keeps device extra u w := by
        have hincomplete : w.incomplete = u.incomplete := by
          unfold Bridge.incomplete
          rw [hw, he]
          simp
        subst hw
        have hle := h.ticket_le
        refine ⟨⟨h.bound, h.apart, fun e he' => ?_, fun _ => hdepth, ?_, ?_, fun q hq => ?_, ?_, ?_, ?_,
          h.made, h.staged, h.early⟩, rfl, ?_⟩
        · exact absurd he' (by simp)
        · exact le_refl _
        · exact h.completed_le.trans (Nat.le_succ _)
        · rcases mem_append.mp hq with hq | hq
          · have hold := h.waiting q hq
            exact ⟨hold.1, by show q.ticket ≤ u.context.fence_value + 1; omega⟩
          · rw [mem_singleton] at hq
            subst hq
            exact ⟨Nat.lt_succ_of_le h.completed_le, le_refl _⟩
        · refine pairwise_append.mpr ⟨h.ordered, pairwise_singleton _ _, fun q hq q' hq' => ?_⟩
          rw [mem_singleton] at hq'
          subst hq'
          have hold := h.waiting q hq
          show q.ticket < u.context.fence_value + 1
          omega
        · rw [hincomplete]
          exact h.refs
        · rw [hincomplete]
          exact h.plain
        · show execute u.context.memory _ = execute u.context.memory _
          rw [hincomplete]
      refine Runs.bind (tally_runs hkeeps.wf _ _) fun _ x hx => ?_
      obtain ⟨htally, stats, rfl⟩ := hx
      refine Runs.pure ⟨hkeeps.trans htally, ?_, ?_, hdepth, ?_⟩
      · rw [hw]
      · rw [hw]
      · rw [hw]

theorem finish_runs (h : Wf device extra s) :
    Runs finish s (fun _ t => Keeps device [] s t ∧ t.incomplete = [] ∧ t.encoder = none ∧ t.objects = s.objects)
      (fun e t => Refused device extra s e t ∧ (e = .device ∨ (e = .rejected ∧ s.marker_depth ≠ 0))) := by
  refine Runs.bind (flush_runs h) fun ticket t ht => ?_
  obtain ⟨hflush, rfl, hencoder, -, hobjects⟩ := ht
  refine Runs.bind (wait_runs hflush.wf _) fun _ u hu => ?_
  obtain ⟨hwait, hqueue, context, rfl⟩ := hu
  have hidle : Bridge.incomplete { t with context := context } = [] :=
    Bridge.incomplete_nil hqueue hencoder
  refine Runs.bind (release_runs hwait.wf hidle _) fun _ v hv => ?_
  obtain ⟨hrelease, rfl⟩ := hv
  refine (tally_runs hrelease.wf _ _).mono (fun _ w hw => ?_) fun _ _ h => h
  obtain ⟨htally, stats, rfl⟩ := hw
  have hall := ((hflush.trans hwait).trans hrelease).trans htally
  exact ⟨⟨hall.wf.idle hidle, hall.bindings, hall.contents⟩, hidle, hencoder, hobjects⟩

end ShadPS4.D3D12
