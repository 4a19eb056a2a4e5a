import ShadPS4.D3D12.BridgeSpec

/-!
# The calls of the bridge

For each call, what it does to the contents of the caller's resources when it returns, and that it keeps them when
it throws.
-/

namespace ShadPS4.D3D12

open List

variable {s : Bridge} {b : Binding} {device : Device} {extra : List ℕ} {encoder : Encoder}

/-! ## Places in the registered buffers -/

/-- A binding holds the bytes, as `Find` has checked. -/
structure Located (s : Bridge) (address bytes : ℕ) (b : Binding) : Prop where
  mem : b ∈ s.bindings
  pos : 0 < bytes
  le_max : bytes ≤ maxTransferBytes
  base_le : b.base ≤ address
  end_le : address + bytes ≤ b.base + b.size

theorem Located.offset_le (h : Located s address bytes b) : address - b.base + bytes ≤ b.size := by
  have := h.base_le
  have := h.end_le
  omega

theorem findRange_runs (h : Wf device extra s) (address bytes : ℕ) : Runs (findRange address bytes) s
      (fun range t => t = s ∧ ∃ b, Located s address bytes b ∧ range = ⟨b.resource, address - b.base⟩)
      (fun e t => (e = .rejected ∧ ∀ b, ¬ Located s address bytes b) ∧ Keeps device extra s t) := by
  refine Runs.bind ((refuseIf_runs h _).mono (fun _ _ h => h) fun e t ht => ?_) fun _ t ht => ?_
  · refine ⟨⟨ht.1.1, fun b hb => ?_⟩, ht.2⟩
    have := hb.pos
    have := hb.le_max
    omega
  obtain ⟨rfl, hsize⟩ := ht
  refine Runs.bind (P := fun a u => a = t ∧ u = t) (Runs.get ⟨rfl, rfl⟩) fun a u hu => ?_
  obtain ⟨rfl, rfl⟩ := hu
  cases hfind : u.bindings.find? (Binding.holds address bytes) with
  | some b =>
    have hholds := find?_some hfind
    simp only [Binding.holds, decide_eq_true_eq] at hholds
    exact Runs.pure ⟨rfl, b, ⟨mem_of_find?_eq_some hfind, by omega, by omega, by omega, by omega⟩,
      rfl⟩
  | none =>
    refine (refuse_runs h _).mono (fun _ _ h => h) fun e t ht => ⟨⟨ht.1, fun b hb => ?_⟩, ht.2⟩
    have hnot := find?_eq_none.mp hfind b hb.mem
    have := hb.base_le
    have := hb.end_le
    simp only [Binding.holds, decide_eq_true_eq] at hnot
    omega

theorem Wf.tracks (h : Wf device extra s) (he : s.encoder = some encoder) (hb : b ∈ s.bindings) :
    ∃ tracked, encoder.resources b.resource = some tracked ∧ tracked.heap = .default ∧
      tracked.description.dimension = .buffer ∧ tracked.description.width.toNat = b.size := by
  have hopened := h.opened encoder he
  have hbound := h.bound b hb
  obtain ⟨tracked, htracked⟩ := Option.ne_none_iff_exists'.mp (hopened.bound b hb)
  have hheld := hopened.held _ _ htracked
  obtain ⟨hdesc, -, hheap⟩ := view_caller s device hbound.caller.1
  refine ⟨tracked, htracked, ?_, ?_, ?_⟩
  · have := hheld.heap_eq.symm.trans (hheap.trans hbound.heap)
    exact Option.some.inj this
  · rw [hheld.desc_eq, hdesc]
    exact hbound.buffer
  · rw [hheld.desc_eq, hdesc]
    exact hbound.width

theorem toNat_ofNat_of_le {n : ℕ} {word : UInt64} (h : n ≤ word.toNat) : (UInt64.ofNat n).toNat = n := by
  rw [UInt64.toNat_ofNat']
  exact Nat.mod_eq_of_lt (lt_of_le_of_lt h word.toNat_lt)

theorem test_of_inside {offset bytes : ℕ} {width : UInt64} (h : offset + bytes ≤ width.toNat) :
    ¬ UInt64.ofNat offset > width ∧ ¬ UInt64.ofNat bytes > width - UInt64.ofNat offset := by
  have hoffset : (UInt64.ofNat offset).toNat = offset := toNat_ofNat_of_le (Nat.le_trans (by omega) h)
  have hbytes : (UInt64.ofNat bytes).toNat = bytes := toNat_ofNat_of_le (Nat.le_trans (by omega) h)
  have hle : UInt64.ofNat offset ≤ width := UInt64.le_iff_toNat_le.mpr (by omega)
  refine ⟨UInt64.not_lt.mpr hle, UInt64.not_lt.mpr (UInt64.le_iff_toNat_le.mpr ?_)⟩
  rw [UInt64.toNat_sub_of_le _ _ hle]
  omega

/-! ## Recording -/

theorem encodeTrack_runs (h : Wf device extra s) (he : s.encoder = some encoder)
    (hr : r % 2 = 1 ∧ r / 2 < s.objects.length)
    (hnone : encoder.resources r = none) (htracked : Tracked (s.view device) r tracked)
    (hstate : tracked.state = state) (haccepts : tracked.Accepts state) (Q : BridgeError → Bridge → Prop) :
    Runs (encode device fun device => track device r state) s (fun _ t =>
      t = { s with encoder := some (encoder.setResource r tracked) } ∧ Keeps device extra s t) Q := by
  have howner : (s.view device).getDevice r = some (s.view device).self := by
    simp [Bridge.view, hr.1]
  have htotal := track_total (Q := fun _ _ => False) (by omega) hnone howner htracked hstate haccepts
  refine (encode_runs he htotal).mono (fun _ t ht => ?_) fun _ _ h => ?_
  · obtain ⟨_, rfl, rfl⟩ := ht
    have hgrown : Grown [] [] encoder (encoder.setResource r tracked) :=
      ⟨[], by simp [Encoder.setResource], by simp⟩
    obtain ⟨hwf, hcontents⟩ := h.record he ((h.opened _ he).track htracked fun _ => hr.2) hgrown (by simp) (by simp)
    exact ⟨rfl, hwf, rfl, hcontents⟩
  · obtain ⟨_, -, h | h⟩ := h
    · exact h.2.elim
    · exact h.2.elim

theorem encodeCopy_runs (h : Wf device extra s) (he : s.encoder = some encoder) {destination source : ℕ}
    (destination_offset source_offset bytes : ℕ) {dst src : Resource}
    (hdst : encoder.resources destination = some dst) (hsrc : encoder.resources source = some src)
    (hne : destination ≠ source) (hpos : 0 < bytes) (hdst_buffer : dst.description.dimension = .buffer)
    (hsrc_buffer : src.description.dimension = .buffer)
    (hdst_le : destination_offset + bytes ≤ dst.description.width.toNat)
    (hsrc_le : source_offset + bytes ≤ src.description.width.toNat)
    (hdst_heap : dst.heap ≠ .upload) (hsrc_heap : src.heap ≠ .readback)
    (hdst_kept : destination ∈ s.kept extra) (hsrc_kept : source ∈ s.kept extra) (Q : BridgeError → Bridge → Prop) :
    Runs (encode device fun _ => copyBuffer destination (UInt64.ofNat destination_offset) source
        (UInt64.ofNat source_offset) (UInt64.ofNat bytes)) s
      (fun _ t => (∃ encoder', t = { s with encoder := some encoder' }) ∧ Wf device extra t ∧
        ∀ r o, t.contents r o =
          if r = destination ∧ destination_offset ≤ o ∧ o < destination_offset + bytes
          then s.contents source (source_offset + (o - destination_offset))
          else s.contents r o) Q := by
  have hbytes : (UInt64.ofNat bytes).toNat = bytes :=
    toNat_ofNat_of_le (Nat.le_trans (by omega) hdst_le)
  have hdo : (UInt64.ofNat destination_offset).toNat = destination_offset :=
    toNat_ofNat_of_le (Nat.le_trans (by omega) hdst_le)
  have hso : (UInt64.ofNat source_offset).toNat = source_offset :=
    toNat_ofNat_of_le (Nat.le_trans (by omega) hsrc_le)
  have hopened := h.opened encoder he
  have hplain : Command.Plain (.copyBufferRegion destination (UInt64.ofNat destination_offset) source
      (UInt64.ofNat source_offset) (UInt64.ofNat bytes)) := trivial
  have hboth : ∀ r ∈ [destination, source], r ∈ s.kept extra := by
    intro r hr
    simp only [mem_cons, not_mem_nil, or_false] at hr
    rcases hr with rfl | rfl
    · exact hdst_kept
    · exact hsrc_kept
  have hcopy := copyBuffer_runs hopened.held _ _ _ _ _ fun _ => hplain
  refine (encode_runs he hcopy).mono (fun _ t ht => ?_) fun e t ht => ?_
  · obtain ⟨encoder', rfl, hrec, hgrown⟩ := ht
    have hlast : ∀ c ∈ [Command.copyBufferRegion destination (UInt64.ofNat destination_offset) source
        (UInt64.ofNat source_offset) (UInt64.ofNat bytes)],
        c.Plain ∧ ∀ r ∈ c.resources, r ∈ s.kept extra := by
      intro c hc
      rw [mem_singleton] at hc
      subst hc
      exact ⟨hplain, hboth⟩
    obtain ⟨hwf, hcontents⟩ := h.record he (hopened.records hrec) hgrown hboth hlast
    refine ⟨⟨encoder', rfl⟩, hwf, fun r o => ?_⟩
    rw [hcontents]
    simp only [execute, foldl_cons, foldl_nil, Command.execute, hbytes, hdo, hso]
  · -- No reason to reject holds.
    have hfalse : ¬ copyBufferRejects destination dst (UInt64.ofNat destination_offset) source src
        (UInt64.ofNat source_offset) (UInt64.ofNat bytes) := by
      unfold copyBufferRejects
      obtain ⟨hd1, hd2⟩ := test_of_inside hdst_le
      obtain ⟨hs1, hs2⟩ := test_of_inside hsrc_le
      have hzero : UInt64.ofNat bytes ≠ 0 := by
        intro hz
        have := congrArg UInt64.toNat hz
        rw [hbytes] at this
        simp at this
        omega
      simp only [not_or]
      exact ⟨hne, hzero, not_not.mpr hdst_buffer, not_not.mpr hsrc_buffer, hd1, hd2, hs1, hs2, hdst_heap, hsrc_heap⟩
    obtain ⟨_, -, h | h⟩ := ht
    · exact absurd (h.2.2 dst src hdst hsrc) hfalse
    · exact absurd (h.2.2 dst src hdst hsrc) hfalse

/-! ## New resources -/

theorem internal_odd (k : ℕ) : internal k % 2 = 1 ∧ internal k / 2 = k := by
  unfold internal
  omega

theorem Opened.untracked (h : Opened device s encoder) : encoder.resources (internal s.objects.length) = none := by
  by_contra hsome
  have hknown := h.known _ hsome (internal_odd _).1
  rw [(internal_odd _).2] at hknown
  omega

theorem Wf.adopt (h : Wf device extra s)
    (extra' staging pending : List ℕ) (hmem : ∀ r, r ∈ staging ++ pending ++ extra' ↔
      r ∈ s.staging ++ s.pending_images ++ extra) :
    Keeps device extra' s { s with staging := staging, pending_images := pending } := by
  refine ⟨⟨h.bound, h.apart, fun e he => (h.opened e he).of_eq rfl rfl, h.depth, h.ticket_le,
    h.completed_le, h.waiting, h.ordered, fun c hc r hr => ?_, h.plain,
    fun r hr => h.made r ((hmem r).mp hr), h.staged, h.early⟩, rfl, rfl⟩
  have hkept := h.refs c hc r hr
  unfold Bridge.kept at hkept ⊢
  rw [mem_append] at hkept ⊢
  exact hkept.imp_right (hmem r).mpr

theorem Wf.store (h : Wf device extra s) (hfresh : ∀ c ∈ s.incomplete, u ∉ c.resources) (memory : BufferMemory)
    (hm : ∀ r ≠ u, memory r = s.context.memory r) :
    Wf device extra { s with context := { s.context with memory := memory } } ∧
      (∀ r ≠ u, Bridge.contents { s with context := { s.context with memory := memory } } r =
        s.contents r) ∧
      Bridge.contents { s with context := { s.context with memory := memory } } u = memory u := by
  obtain ⟨hothers, hself⟩ := execute_agree hm hfresh
  exact ⟨⟨h.bound, h.apart, fun e he => (h.opened e he).of_eq rfl rfl, h.depth, h.ticket_le,
    h.completed_le, h.waiting, h.ordered, h.refs, h.plain, h.made, h.staged, h.early⟩, hothers, hself⟩

theorem tracked_made (s : Bridge) (device : Device)
    (hkind : tracked.heap = .default ∨ tracked.heap = .upload ∨ tracked.heap = .readback)
    (haccepts : tracked.Accepts tracked.state) :
    Tracked ((s.made tracked.description tracked.heap).view device) (internal s.objects.length) tracked := by
  obtain ⟨hdesc, -, hheap⟩ := view_made s device tracked.description tracked.heap
  exact ⟨hdesc.symm, hheap, hkind, haccepts.heap.1, haccepts.heap.2⟩

theorem Wf.fresh (h : Wf device extra s) : ∀ c ∈ s.incomplete, internal s.objects.length ∉ c.resources := by
  intro c hc hr
  have hkept := h.refs c hc _ hr
  rcases mem_append.mp hkept with hbinding | hmade
  · obtain ⟨b, hb, hb'⟩ := mem_map.mp hbinding
    have := (h.bound b hb).caller.1
    unfold internal at hb'
    omega
  · have := h.made _ hmade
    unfold internal at this
    omega

theorem storeWords_apply (memory : BufferMemory) (resource value words r o : ℕ) :
    storeWords memory resource value words r o =
      if r = resource ∧ o < 4 * words then leByte value (o % 4) else memory r o := by
  induction words with
  | zero => simp [storeWords]
  | succ words ih =>
    unfold storeWords storeWord
    rw [ih]
    by_cases hlast : r = resource ∧ 4 * words ≤ o ∧ o < 4 * words + 4
    · have hmod : o - 4 * words = o % 4 := by omega
      rw [if_pos hlast, if_pos ⟨hlast.1, by omega⟩, hmod]
    · rw [if_neg hlast]
      by_cases hearlier : r = resource ∧ o < 4 * words
      · rw [if_pos hearlier, if_pos ⟨hearlier.1, by omega⟩]
      · rw [if_neg hearlier, if_neg fun hc => ?_]
        by_cases hr : r = resource
        · simp only [hr, true_and] at hlast hearlier hc
          omega
        · exact hr hc.1

/-- The state when `FillBuffer` has made and filled its upload buffer. -/
def Bridge.uploaded (s : Bridge) (bytes value : ℕ) : Bridge :=
  { s.made (bufferDesc bytes) .upload with
    context := { s.context with
      memory := storeWords s.context.memory (internal s.objects.length) value (bytes / 4) }
    staging := s.staging ++ [internal s.objects.length] }

theorem Wf.uploaded (h : Wf device [] s) (bytes value : ℕ) : Wf device [] (s.uploaded bytes value) ∧
      (∀ r, r % 2 = 0 → (s.uploaded bytes value).contents r = s.contents r) ∧
      ∀ o < 4 * (bytes / 4), (s.uploaded bytes value).contents (internal s.objects.length) o = leByte value (o % 4) := by
  have hodd := (internal_odd s.objects.length).1
  have hmade := h.made_keeps (bufferDesc bytes) .upload
  obtain ⟨hstore, hothers, hbytes⟩ := hmade.wf.store h.fresh
    (storeWords s.context.memory (internal s.objects.length) value (bytes / 4)) fun r hr => by
      funext o
      rw [storeWords_apply, if_neg fun hc => hr hc.1]
      rfl
  have hadopt := hstore.adopt [] (s.staging ++ [internal s.objects.length]) s.pending_images
    fun r => by
      simp only [Bridge.made, mem_append, mem_singleton, not_mem_nil]
      tauto
  refine ⟨hadopt.wf, fun r hr => hothers r (by omega), fun o ho => ?_⟩
  have hbyte := congrFun hbytes o
  rw [storeWords_apply, if_pos ⟨rfl, ho⟩] at hbyte
  exact hbyte

variable (bytes : ℕ)

/-- What the encoder keeps of an upload buffer. -/
def uploadResource : Resource :=
  { description := bufferDesc bytes, heap := .upload, state := stateGenericRead }

theorem accepts_genericRead : (uploadResource bytes).Accepts stateGenericRead := by
  refine ⟨?_, ?_⟩
  · simp [Resource.forbids, uploadResource, stateGenericRead, readStates, writeStates, stateVertexAndConstantBuffer,
      stateIndexBuffer, stateNonPixelShaderResource, statePixelShaderResource,
      stateIndirectArgument, stateCopySource, stateDepthRead, stateResolveSource, stateRenderTarget,
      stateUnorderedAccess, stateDepthWrite, stateStreamOut, stateCopyDest, stateResolveDest]
  · simp [Resource.unfit, uploadResource, bufferDesc, stateGenericRead, stateVertexAndConstantBuffer,
      stateIndexBuffer, stateNonPixelShaderResource, statePixelShaderResource,
      stateIndirectArgument, stateCopySource, stateDepthRead, stateResolveSource, stateRenderTarget,
      stateUnorderedAccess, stateDepthWrite, stateStreamOut, stateResolveDest]

/-! ## The transfers -/

/-- The bytes of a range of a binding are written, and no others of the caller's. -/
structure Writes (device : Device) (s t : Bridge) (b : Binding) (address bytes : ℕ)
    (byte : ℕ → UInt8) : Prop where
  wf : Wf device [] t
  bindings : t.bindings = s.bindings
  contents : ∀ r, r % 2 = 0 → ∀ o, t.contents r o =
    if r = b.resource ∧ address - b.base ≤ o ∧ o < address - b.base + bytes
    then byte (o - (address - b.base)) else s.contents r o

theorem Bridge.mem_kept (s : Bridge) (extra : List ℕ) (hb : b ∈ s.bindings) :
    b.resource ∈ s.kept extra := mem_append_left _ (mem_map_of_mem hb)

theorem transferBuffer_runs (h : Wf device [] s) (dst src : UInt64) (num_bytes : UInt32) (dst_gds src_gds : Bool) :
    Runs (transferBuffer device dst src num_bytes dst_gds src_gds) s
      (fun _ t => ∃ b b', Located s dst.toNat num_bytes.toNat b ∧
        Located s src.toNat num_bytes.toNat b' ∧ Writes device s t b dst.toNat num_bytes.toNat
          fun i => s.contents b'.resource (src.toNat - b'.base + i)) (Refused device [] s) := by
  refine Runs.ite (fun _ => ?_) fun _ => ?_
  · unfold unsupported
    refine Runs.bind (tally_runs h _ _) fun _ t ht => ?_
    exact Runs.throw (ht.1.refused (.inr (.inr rfl)))
  refine Runs.bind ((findRange_runs h _ _).mono (fun _ _ h => h)
    fun _ _ h => h.2.refused (.inl h.1.1)) fun destination t ht => ?_
  obtain ⟨rfl, b, hb, rfl⟩ := ht
  refine Runs.bind ((findRange_runs h _ _).mono (fun _ _ h => h)
    fun _ _ h => h.2.refused (.inl h.1.1)) fun source u hu => ?_
  obtain ⟨rfl, b', hb', rfl⟩ := hu
  refine Runs.bind ((refuseIf_runs h _).mono (fun _ _ h => h)
    fun _ _ h => h.2.refused (.inl h.1.1)) fun _ t ht => ?_
  obtain ⟨rfl, hne⟩ := ht
  refine Runs.bind (beginRecording_runs h _) fun _ u hu => ?_
  obtain ⟨hbegin, -, -, encoder, hencoder, -⟩ := hu
  have hbu : b ∈ u.bindings := hbegin.bindings ▸ hb.mem
  have hbu' : b' ∈ u.bindings := hbegin.bindings ▸ hb'.mem
  obtain ⟨dstr, hdst, hdheap, hdbuf, hdwidth⟩ := hbegin.wf.tracks hencoder hbu
  obtain ⟨srcr, hsrc, hsheap, hsbuf, hswidth⟩ := hbegin.wf.tracks hencoder hbu'
  refine Runs.bind (encodeCopy_runs hbegin.wf hencoder _ _ _ hdst hsrc hne hb.pos hdbuf hsbuf
    (hdwidth ▸ hb.offset_le) (hswidth ▸ hb'.offset_le) (by simp [hdheap]) (by simp [hsheap])
    (Bridge.mem_kept _ _ hbu) (Bridge.mem_kept _ _ hbu') _) fun _ v hv => ?_
  obtain ⟨⟨encoder', rfl⟩, hwf, hcontents⟩ := hv
  refine (tally_runs hwf _ _).mono (fun _ w hw => ?_) fun _ _ h => h
  obtain ⟨htally, -⟩ := hw
  refine ⟨b, b', hb, hb', htally.wf, htally.bindings.trans hbegin.bindings, fun r hr o => ?_⟩
  rw [htally.contents, hcontents, hbegin.contents]

theorem fillBuffer_runs (h : Wf device [] s) (allocates : Bool)
    (address : UInt64) (num_bytes value : UInt32) (is_gds : Bool) :
    Runs (fillBuffer device allocates address num_bytes value is_gds) s
      (fun _ t => ∃ b, Located s address.toNat num_bytes.toNat b ∧ Writes device s t b address.toNat
        num_bytes.toNat fun i => leByte value.toNat (i % 4)) (Refused device [] s) := by
  refine Runs.ite (fun _ => ?_) fun _ => ?_
  · unfold unsupported
    refine Runs.bind (tally_runs h _ _) fun _ t ht => ?_
    exact Runs.throw (ht.1.refused (.inr (.inr rfl)))
  refine Runs.bind ((findRange_runs h _ _).mono (fun _ _ h => h)
    fun _ _ h => h.2.refused (.inl h.1.1)) fun destination t ht => ?_
  obtain ⟨rfl, b, hb, rfl⟩ := ht
  refine Runs.bind ((refuseIf_runs h _).mono (fun _ _ h => h)
    fun _ _ h => h.2.refused (.inl h.1.1)) fun _ u hu => ?_
  obtain ⟨rfl, haligned⟩ := hu
  refine Runs.bind (beginRecording_runs h _) fun _ t ht => ?_
  obtain ⟨hbegin, -, -, encoder, hencoder, -⟩ := ht
  refine Runs.bind (P := fun a v => a = t ∧ v = t) (Runs.get ⟨rfl, rfl⟩) fun a v hv => ?_
  obtain ⟨rfl, rfl⟩ := hv
  refine Runs.bind ((refuseIf_runs hbegin.wf _).mono (fun _ _ h => h)
    fun _ _ h => .of_keeps hbegin (h.2.refused (.inl h.1.1))) fun _ t ht => ?_
  obtain ⟨rfl, hroom⟩ := ht
  refine Runs.bind ((create_runs t allocates _ _).mono (fun _ _ h => h) fun e v hv => ?_)
    fun upload v hv => ?_
  · obtain ⟨rfl, -, rfl⟩ := hv
    exact hbegin.refused (.inr (.inl rfl))
  obtain ⟨rfl, rfl⟩ := hv
  obtain ⟨huploaded, hothers, hbytes⟩ := hbegin.wf.uploaded num_bytes.toNat value.toNat
  refine Runs.bind (Runs.modify (P := fun _ w => w = _) rfl) fun _ w hw => ?_
  refine Runs.bind (P := fun _ x => x = t.uploaded num_bytes.toNat value.toNat)
    (Runs.modify (by rw [hw]; rfl)) fun _ x hx => ?_
  subst hx
  have hlen : (t.uploaded num_bytes.toNat value.toNat).objects.length = t.objects.length + 1 := by
    simp [Bridge.uploaded, Bridge.made]
  have hodd := internal_odd t.objects.length
  have htracked : Tracked ((t.uploaded num_bytes.toNat value.toNat).view device)
      (internal t.objects.length) (uploadResource num_bytes.toNat) :=
    tracked_made t device (.inr (.inl rfl)) (accepts_genericRead _)
  refine Runs.bind (encodeTrack_runs huploaded hencoder ⟨hodd.1, by rw [hodd.2, hlen]; omega⟩
    (hbegin.wf.opened _ hencoder).untracked htracked rfl (accepts_genericRead _) _) fun _ y hy => ?_
  obtain ⟨rfl, htrack⟩ := hy
  -- The copy reads what was stored.
  have hbu : b ∈ t.bindings := hbegin.bindings ▸ hb.mem
  obtain ⟨dstr, hdst, hdheap, hdbuf, hdwidth⟩ := htrack.wf.tracks rfl hbu
  have hcaller := (h.bound b hb.mem).caller.1
  have hne : b.resource ≠ internal t.objects.length := by omega
  have hwidth : (bufferDesc num_bytes.toNat).width.toNat = num_bytes.toNat := by
    have hle := hb.offset_le
    rw [← hdwidth] at hle
    exact toNat_ofNat_of_le (Nat.le_trans (by omega) hle)
  refine Runs.bind (encodeCopy_runs htrack.wf rfl _ 0 _ hdst (if_pos rfl) hne hb.pos
    hdbuf rfl (hdwidth ▸ hb.offset_le) (by rw [uploadResource, hwidth]; omega) (by simp [hdheap])
    (by simp [uploadResource]) (Bridge.mem_kept _ _ hbu)
    (by simp [Bridge.kept, Bridge.uploaded]) _) fun _ z hz => ?_
  obtain ⟨⟨encoder', rfl⟩, hwf, hcontents⟩ := hz
  have hstaged : Keeps device [] { t.uploaded num_bytes.toNat value.toNat with
      encoder := some encoder' } { t.uploaded num_bytes.toNat value.toNat with
        encoder := some encoder'
        staged_bytes := t.staged_bytes + num_bytes.toNat } := by
    refine ⟨⟨hwf.bound, hwf.apart, fun e he => (hwf.opened e he).of_eq rfl rfl, hwf.depth,
      hwf.ticket_le, hwf.completed_le, hwf.waiting, hwf.ordered, hwf.refs, hwf.plain, hwf.made, ?_,
      hwf.early⟩, rfl, rfl⟩
    have := hbegin.wf.staged
    show t.staged_bytes + num_bytes.toNat ≤ maxTransferBytes
    omega
  refine Runs.bind (Runs.modify (P := fun _ w => w = _) rfl) fun _ w' hw' => ?_
  subst hw'
  refine (tally_runs hstaged.wf _ _).mono (fun _ x hx => ?_) fun _ _ h => h
  obtain ⟨htally, -⟩ := hx
  refine ⟨b, hb, htally.wf, htally.bindings.trans hbegin.bindings, fun r hr o => ?_⟩
  rw [htally.contents, hstaged.contents, hcontents, htrack.contents]
  by_cases hin : r = b.resource ∧ address.toNat - b.base ≤ o ∧ o < address.toNat - b.base + num_bytes.toNat
  · rw [if_pos hin, if_pos hin, Nat.zero_add]
    refine hbytes _ ?_
    simp only [not_or, not_not] at haligned ⊢
    omega
  · rw [if_neg hin, if_neg hin, hothers r hr, hbegin.contents]

/-- What the encoder keeps of a readback buffer. -/
def readbackResource : Resource :=
  { description := bufferDesc bytes, heap := .readback, state := stateCopyDest }

theorem accepts_readback : (readbackResource bytes).Accepts stateCopyDest :=
  accepts_copyDest (by simp [readbackResource])

/-- The invariant, the bindings and the contents of the caller's resources are kept. -/
structure Spares (device : Device) (s t : Bridge) : Prop where
  wf : Wf device [] t
  bindings : t.bindings = s.bindings
  contents : ∀ r, r % 2 = 0 → t.contents r = s.contents r

theorem Keeps.spares (h : Keeps device [] s t) :
    Spares device s t := ⟨h.wf, h.bindings, fun r _ => congrFun h.contents r⟩

theorem downloadBuffer_runs (h : Wf device [] s) (allocates : Bool) (address : UInt64) (size : ℕ) :
    Runs (downloadBuffer device allocates address size) s
      (fun out t => Spares device s t ∧ ∃ b, Located s address.toNat size b ∧
        out = (List.range size).map fun i => s.contents b.resource (address.toNat - b.base + i))
      (fun e t => Refused device [] s e t ∧ (e = .device ∨
        (e = .rejected ∧ ((∀ b, ¬ Located s address.toNat size b) ∨ s.marker_depth ≠ 0)) ∨
        (e = .outOfMemory ∧ allocates = false))) := by
  refine Runs.bind ((findRange_runs h _ _).mono (fun _ _ h => h) fun _ _ h => ?_) fun source t ht => ?_
  · exact ⟨h.2.refused (.inl h.1.1), .inr (.inl ⟨h.1.1, .inl h.1.2⟩)⟩
  obtain ⟨rfl, b, hb, rfl⟩ := ht
  refine Runs.bind ((finish_runs h).mono (fun _ _ h => h) fun _ _ h => ⟨h.1, ?_⟩) fun _ u hu => ?_
  · exact h.2.imp_right fun hr => .inl ⟨hr.1, .inr hr.2⟩
  obtain ⟨hfinish, -, hclosed, -⟩ := hu
  refine Runs.bind ((create_runs u allocates _ _).mono (fun _ _ h => h) fun e v hv => ?_)
    fun readback v hv => ?_
  · obtain ⟨rfl, ha, rfl⟩ := hv
    exact ⟨hfinish.refused (.inr (.inl rfl)), .inr (.inr ⟨rfl, ha⟩)⟩
  obtain ⟨rfl, rfl⟩ := hv
  -- Only this call refers to the new buffer, and it waits until that is over.
  have hmade := hfinish.wf.made_keeps (bufferDesc size) .readback
  refine Runs.bind (beginRecording_runs hmade.wf _) fun _ w hw => ?_
  obtain ⟨hbegin, hdepth, hobjects, encoder, hencoder, hfresh⟩ := hw
  have hodd := internal_odd u.objects.length
  have hlen : w.objects.length = u.objects.length + 1 := by
    rw [hobjects]
    simp [Bridge.made]
  have hnone : encoder.resources (internal u.objects.length) = none := by
    by_contra hsome
    obtain ⟨encoder', hopen, -⟩ := hfresh _ hodd.1 hsome
    have hnone : u.encoder = some encoder' := hopen
    rw [hclosed] at hnone
    simp at hnone
  have htracked : Tracked (w.view device) (internal u.objects.length) (readbackResource size) := by
    have hview : w.view device = (u.made (bufferDesc size) .readback).view device := by
      unfold Bridge.view
      rw [hobjects]
    rw [hview]
    exact tracked_made u device (.inr (.inr rfl)) (accepts_readback _)
  refine Runs.bind (encodeTrack_runs hbegin.wf hencoder ⟨hodd.1, by rw [hodd.2, hlen]; omega⟩ hnone
    htracked rfl (accepts_readback _) _) fun _ x hx => ?_
  obtain ⟨rfl, htrack⟩ := hx
  have hbw : b ∈ w.bindings := by
    rw [hbegin.bindings, hmade.bindings, hfinish.bindings]
    exact hb.mem
  obtain ⟨srcr, hsrc, hsheap, hsbuf, hswidth⟩ := htrack.wf.tracks rfl hbw
  have hcaller := (h.bound b hb.mem).caller.1
  have hne : internal u.objects.length ≠ b.resource := by omega
  have hwidth : (bufferDesc size).width.toNat = size := by
    have hle := hb.offset_le
    rw [← hswidth] at hle
    exact toNat_ofNat_of_le (Nat.le_trans (by omega) hle)
  refine Runs.bind (encodeCopy_runs htrack.wf rfl 0 _ _ (if_pos rfl) hsrc hne hb.pos rfl hsbuf
    (by rw [readbackResource, hwidth]; omega) (hswidth ▸ hb.offset_le) (by simp [readbackResource])
    (by simp [hsheap]) (by simp [Bridge.kept])
    (Bridge.mem_kept _ _ hbw) _) fun _ y hy => ?_
  obtain ⟨⟨encoder', rfl⟩, hwf, hcontents⟩ := hy
  refine Runs.bind ((finish_runs hwf).mono (fun _ _ h => h) fun e z hz => ?_) fun _ z hz => ?_
  · -- No marker is open.
    have hzero : w.marker_depth = 0 := hdepth.trans (hfinish.wf.depth hclosed)
    rcases hz.2 with rfl | hmarker
    · exact ⟨fun hne => absurd rfl hne, .inl rfl⟩
    · exact absurd hzero hmarker.2
  obtain ⟨hlast, hidle, -, -⟩ := hz
  refine Runs.bind (P := fun a v => a = z ∧ v = z) (Runs.get ⟨rfl, rfl⟩) fun a v hv => ?_
  obtain ⟨rfl, rfl⟩ := hv
  refine Runs.bind (tally_runs hlast.wf _ _) fun _ a ha => ?_
  obtain ⟨htally, -⟩ := ha
  have hbefore : ∀ r o, w.contents r o = t.contents r o := by
    intro r o
    rw [hbegin.contents, hmade.contents, hfinish.contents]
  refine Runs.pure ⟨⟨htally.wf, ?_, fun r hr => funext fun o => ?_⟩, b, hb, ?_⟩
  · rw [htally.bindings, hlast.bindings, ← hfinish.bindings, ← hmade.bindings]
    exact hbegin.bindings
  · rw [htally.contents, hlast.contents, hcontents, if_neg fun hc => by omega, htrack.contents,
      hbefore]
  · refine map_congr_left fun i hi => ?_
    rw [mem_range] at hi
    rw [← Bridge.contents_idle hidle, hlast.contents, hcontents, if_pos ⟨rfl, by omega, by omega⟩,
      Nat.sub_zero, htrack.contents, hbefore]

/-! ## Frames -/

theorem encodeFrame_runs (h : Wf device [] s) (he : s.encoder = some encoder) (placed : PlacedFootprint)
    (htexture : texture ∈ s.kept []) (hbuffer : buffer ∈ s.kept []) :
    Runs (encode device fun device => copyBufferToTexture device texture buffer placed) s
      (fun _ t => Keeps device [] s t ∧ ∃ encoder', t = { s with encoder := some encoder' } ∧
        ∀ r, encoder.resources r ≠ none → encoder'.resources r ≠ none) (Refused device [] s) := by
  have hopened := h.opened encoder he
  have hplain : Command.Plain (.copyTextureRegion texture buffer placed true) := rfl
  have hboth : ∀ r ∈ [texture, buffer], r ∈ s.kept [] := by
    intro r hr
    simp only [mem_cons, not_mem_nil, or_false] at hr
    rcases hr with rfl | rfl
    · exact htexture
    · exact hbuffer
  have hcopy := copyTexture_runs hopened.held texture buffer placed true fun _ _ _ _ _ => hplain
  refine (encode_runs he hcopy).mono (fun _ t ht => ?_) fun e t ht => ?_
  · obtain ⟨encoder', rfl, hrec, hgrown⟩ := ht
    have hlast : ∀ c ∈ [Command.copyTextureRegion texture buffer placed true],
        c.Plain ∧ ∀ r ∈ c.resources, r ∈ s.kept [] := by
      intro c hc
      rw [mem_singleton] at hc
      subst hc
      exact ⟨hplain, hboth⟩
    obtain ⟨hwf, hcontents⟩ := h.record he (hopened.records hrec) hgrown hboth hlast
    refine ⟨⟨hwf, rfl, hcontents⟩, encoder', rfl, fun r hr => ?_⟩
    rw [Ne, hrec.eq_none_iff]
    exact hr
  · obtain ⟨encoder', rfl, hc⟩ := ht
    rcases hc with ⟨rfl, hsame⟩ | ⟨rfl, hsame⟩
    · exact (h.same he hsame).refused (.inl rfl)
    · exact fun hne => absurd rfl hne

theorem encodeTransition_runs (h : Wf device [] s) (he : s.encoder = some encoder) (hr : encoder.resources r ≠ none)
    (state : ResourceStates) (hkept : r ∈ s.kept []) :
    Runs (encode device fun _ => D3D12.transition r state) s (fun _ t => Keeps device [] s t)
      (Refused device [] s) := by
  have hopened := h.opened encoder he
  obtain ⟨tracked, htracked⟩ := Option.ne_none_iff_exists'.mp hr
  refine (encode_runs he (transition_runs Command.Plain htracked)).mono (fun _ t ht => ?_)
    fun e t ht => ?_
  · obtain ⟨encoder', rfl, hmoved⟩ := ht
    obtain ⟨hwf, hcontents⟩ := h.record he (hopened.records hmoved.records) hmoved.grown
      (fun r' hr' => by rw [mem_singleton.mp hr']; exact hkept) (by simp)
    exact ⟨hwf, rfl, hcontents⟩
  · obtain ⟨encoder', rfl, hc⟩ := ht
    rcases hc with ⟨rfl, hsame⟩ | ⟨rfl, hsame⟩
    · exact (h.same he hsame.1).refused (.inl rfl)
    · exact fun hne => absurd rfl hne

def frameResource (width height : UInt32) : Resource where
  description := {
    dimension := .texture2d, width := width.toUInt64, height, format := formatB8G8R8A8Unorm }
  heap := .default
  state := stateCopyDest

theorem accepts_frame (width height : UInt32) : (frameResource width height).Accepts stateCopyDest :=
  accepts_copyDest (by simp [frameResource])

section

variable (h : Wf device [] s)

include h

theorem createLinearFrame_runs (allocates : Bool) (address : UInt64) (width height pitch : UInt32) (output : Bool) :
    Runs (createLinearFrame device allocates address width height pitch output) s
      (fun _ t => Keeps device [] s t) (Refused device [] s) := by
  refine Runs.bind ((refuseIf_runs h _).mono (fun _ _ h => h)
    fun _ _ h => h.2.refused (.inl h.1.1)) fun _ t ht => ?_
  obtain ⟨rfl, -⟩ := ht
  refine Runs.bind ((findRange_runs h _ _).mono (fun _ _ h => h)
    fun _ _ h => h.2.refused (.inl h.1.1)) fun source u hu => ?_
  obtain ⟨rfl, b, hb, rfl⟩ := hu
  refine Runs.bind ((refuseIf_runs h _).mono (fun _ _ h => h)
    fun _ _ h => h.2.refused (.inl h.1.1)) fun _ t ht => ?_
  obtain ⟨rfl, -⟩ := ht
  refine Runs.bind ((refuseIf_runs h _).mono (fun _ _ h => h)
    fun _ _ h => h.2.refused (.inl h.1.1)) fun _ u hu => ?_
  obtain ⟨rfl, -⟩ := hu
  refine Runs.bind ((create_runs u allocates _ _).mono (fun _ _ h => h) fun e v hv => ?_)
    fun frame v hv => ?_
  · obtain ⟨rfl, -, rfl⟩ := hv
    exact (Keeps.refl h).refused (.inr (.inl rfl))
  obtain ⟨rfl, rfl⟩ := hv
  have hmade := h.made_keeps (frameResource width height).description .default
  refine Runs.bind (beginRecording_runs hmade.wf _) fun _ w hw => ?_
  obtain ⟨hbegin, -, hobjects, encoder, hencoder, hfresh⟩ := hw
  have hodd := internal_odd u.objects.length
  have hlen : w.objects.length = u.objects.length + 1 := by
    rw [hobjects]
    simp [Bridge.made]
  have hnone : encoder.resources (internal u.objects.length) = none := by
    by_contra hsome
    obtain ⟨encoder', hopen, hold⟩ := hfresh _ hodd.1 hsome
    exact hold (h.opened encoder' hopen).untracked
  -- The bridge keeps the frame before a command refers to it.
  have hadopt := hbegin.wf.adopt [] w.staging (w.pending_images ++ [internal u.objects.length])
    fun r => by
      simp only [mem_append, mem_singleton, not_mem_nil]
      tauto
  have hkept := (hmade.trans hbegin).trans hadopt
  refine Runs.bind (Runs.modify (P := fun _ x => x = _) rfl) fun _ x hx => ?_
  subst hx
  have htracked : Tracked (w.view device) (internal u.objects.length) (frameResource width height) := by
    have hview : w.view device = (u.made (frameResource width height).description .default).view device := by
      unfold Bridge.view
      rw [hobjects]
    rw [hview]
    exact tracked_made u device (.inl rfl) (accepts_frame width height)
  refine Runs.bind (encodeTrack_runs hkept.wf hencoder ⟨hodd.1, ?_⟩ hnone htracked rfl
    (accepts_frame _ _) _) fun _ y hy => ?_
  · show internal u.objects.length / 2 < w.objects.length
    omega
  obtain ⟨rfl, htrack⟩ := hy
  have hbw : b ∈ w.bindings := by
    rw [hbegin.bindings, hmade.bindings]
    exact hb.mem
  refine Runs.bind ((encodeFrame_runs htrack.wf rfl _ (by simp [Bridge.kept])
    (Bridge.mem_kept _ _ hbw)).mono
      (fun _ _ h => h) fun _ _ h => .of_keeps (hkept.trans htrack) h) fun _ z hz => ?_
  obtain ⟨hcopy, encoder', rfl, hstill⟩ := hz
  have hall := (hkept.trans htrack).trans hcopy
  refine Runs.bind ((encodeTransition_runs hall.wf rfl (hstill _ ?_) _ (by simp [Bridge.kept])).mono
    (fun _ _ h => h) fun _ _ h => .of_keeps hall h) fun _ a ha => ?_
  · show (if _ then _ else _) ≠ none
    simp
  refine Runs.bind (tally_runs ha.wf _ _) fun _ c hc => ?_
  exact Runs.pure ((hall.trans ha).trans hc.1)

/-! ## The other calls -/

theorem registerBuffer_runs (base : UInt64) (pointer : ℕ) : Runs (registerBuffer device base pointer) s
      (fun _ t => ∃ b : Binding, b.base = base.toNat ∧ b.resource = external pointer ∧
        b.size = (device.getDesc (external pointer)).width.toNat ∧
        Wf device [] t ∧ t.bindings = s.bindings ++ [b] ∧ t.contents = s.contents) (Refused device [] s) := by
  unfold registerBuffer
  refine Runs.bind (P := fun a t => a = s ∧ t = s) (Runs.get ⟨rfl, rfl⟩) fun a t ht => ?_
  obtain ⟨rfl, rfl⟩ := ht
  refine Runs.bind ((refuseIf_runs h _).mono (fun _ _ h => h)
    fun _ _ h => h.2.refused (.inl h.1.1)) fun _ u hu => ?_
  obtain ⟨rfl, hidle⟩ := hu
  refine Runs.bind ((refuseIf_runs h _).mono (fun _ _ h => h)
    fun _ _ h => h.2.refused (.inl h.1.1)) fun _ t ht => ?_
  obtain ⟨rfl, hdesc⟩ := ht
  have hcheck : ∀ {α : Type} (x : Option α), Runs (checkCall x) t
      (fun a u => u = t ∧ x = some a) (Refused device [] t) := by
    intro α x
    cases x with
    | none => exact fun hne => absurd rfl hne
    | some a => exact Runs.pure ⟨rfl, rfl⟩
  refine Runs.bind (hcheck _) fun heap u hu => ?_
  obtain ⟨rfl, hheap⟩ := hu
  refine Runs.bind (hcheck _) fun owner t ht => ?_
  obtain ⟨rfl, howner⟩ := ht
  refine Runs.bind ((refuseIf_runs h _).mono (fun _ _ h => h)
    fun _ _ h => h.2.refused (.inl h.1.1)) fun _ u hu => ?_
  obtain ⟨rfl, hkind⟩ := hu
  refine Runs.bind ((refuseIf_runs h _).mono (fun _ _ h => h)
    fun _ _ h => h.2.refused (.inl h.1.1)) fun _ t ht => ?_
  obtain ⟨rfl, hapart⟩ := ht
  simp only [not_or, not_not, not_and] at hidle hdesc hkind
  obtain ⟨hpointer, -, -, hclosed, hticket⟩ := hidle
  obtain ⟨hbuffer, -, hwidth⟩ := hdesc
  obtain ⟨rfl, rfl⟩ := hkind
  have hnone : t.encoder = none := by simpa using hclosed
  have hqueue : t.context.queue = [] := by
    refine h.queue_nil ?_
    by_cases hzero : t.last_ticket = 0
    · omega
    · have := hticket hzero
      omega
  have hincomplete := Bridge.incomplete_nil hqueue hnone
  refine Runs.modify ⟨_, rfl, rfl, rfl, ⟨fun b hb => ?_, ?_, fun e he => ?_, h.depth, h.ticket_le,
    h.completed_le, h.waiting, h.ordered, ?_, ?_, h.made, h.staged, h.early⟩, rfl, rfl⟩
  · rcases mem_append.mp hb with hb | hb
    · exact h.bound b hb
    · rw [mem_singleton] at hb
      subst hb
      have hlt := base.toNat_lt
      refine ⟨?_, hbuffer, rfl, hheap, howner, ?_⟩
      · simp only [external]
        omega
      · simp only
        omega
  · refine pairwise_append.mpr ⟨h.apart, pairwise_singleton _ _, fun b hb b' hb' => ?_⟩
    rw [mem_singleton] at hb'
    subst hb'
    rw [any_eq_true] at hapart
    have hfree : ¬ Binding.conflicts base.toNat (device.getDesc (external pointer)).width.toNat
        (external pointer) b = true := fun hc => hapart ⟨b, hb, hc⟩
    simp only [Binding.conflicts, decide_eq_true_eq, not_or] at hfree
    exact ⟨hfree.1, by simp only; omega⟩
  · exact absurd (hnone.symm.trans he) (by simp)
  · intro c hc
    have : c ∈ t.incomplete := hc
    rw [hincomplete] at this
    simp at this
  · intro c hc
    exact h.plain c hc

theorem onSubmit_runs (Q : BridgeError → Bridge → Prop) : Runs onSubmit s (fun _ t => Keeps device [] s t) Q := by
  refine Runs.bind (tally_runs h _ _) fun _ t ht => ?_
  obtain ⟨htally, -⟩ := ht
  refine Runs.bind (P := fun a u => a = t ∧ u = t) (Runs.get ⟨rfl, rfl⟩) fun a u hu => ?_
  obtain ⟨rfl, rfl⟩ := hu
  refine Runs.ite (fun hc => ?_) fun _ => Runs.pure htally
  have hidle : u.incomplete = [] :=
    Bridge.incomplete_nil (htally.wf.queue_nil hc.2.2) (by simpa using hc.1)
  exact (release_runs htally.wf hidle _).mono (fun _ _ hr => htally.trans hr.1) fun _ _ h => h

variable (label : List UInt8)

theorem marked_runs : Runs (do marker label; beginRecording device) s
      (fun _ t => Keeps device [] s t ∧ t.encoder ≠ none) (Refused device [] s) := by
  refine Runs.bind ((refuseIf_runs h _).mono (fun _ _ h => h)
    fun _ _ h => h.2.refused (.inl h.1.1)) fun _ t ht => ?_
  obtain ⟨rfl, -⟩ := ht
  refine (beginRecording_runs h _).mono (fun _ u hu => ?_) fun _ _ h => h
  obtain ⟨hbegin, -, -, encoder, hencoder, -⟩ := hu
  exact ⟨hbegin, by simp [hencoder]⟩

theorem Wf.deepened (he : s.encoder ≠ none) (depth : ℕ) : Keeps device [] s { s with marker_depth := depth } :=
  ⟨⟨h.bound, h.apart, fun e he => (h.opened e he).of_eq rfl rfl, fun hn => absurd hn he, h.ticket_le,
    h.completed_le, h.waiting, h.ordered, h.refs, h.plain, h.made, h.staged, h.early⟩, rfl, rfl⟩

theorem scopeMarkerBegin_runs : Runs (scopeMarkerBegin device label) s (fun _ t => Keeps device [] s t)
      (Refused device [] s) := by
  have hsplit : scopeMarkerBegin device label = (do
      (do marker label; beginRecording device)
      modify fun s => { s with marker_depth := s.marker_depth + 1 }
      tally fun stats => { stats with markers := stats.markers + 1 }) := by
    unfold scopeMarkerBegin
    simp only [bind_assoc]
  rw [hsplit]
  refine Runs.bind (marked_runs h label) fun _ t ht => ?_
  have hdeep := ht.1.wf.deepened ht.2 (t.marker_depth + 1)
  refine Runs.bind (Runs.modify (P := fun _ u => u = _) rfl) fun _ u hu => ?_
  subst hu
  exact (tally_runs hdeep.wf _ _).mono (fun _ _ hv => (ht.1.trans hdeep).trans hv.1) fun _ _ h => h

theorem scopeMarkerEnd_runs : Runs scopeMarkerEnd s (fun _ t => Keeps device [] s t) (Refused device [] s) := by
  refine Runs.bind (P := fun a u => a = s ∧ u = s) (Runs.get ⟨rfl, rfl⟩) fun a u hu => ?_
  obtain ⟨rfl, rfl⟩ := hu
  refine Runs.bind ((refuseIf_runs h _).mono (fun _ _ h => h)
    fun _ _ h => h.2.refused (.inl h.1.1)) fun _ t ht => ?_
  obtain ⟨rfl, hopen⟩ := ht
  simp only [not_or] at hopen
  exact Runs.modify (h.deepened (by simpa using hopen.1) _)

theorem scopedMarkerInsertColor_runs : Runs (scopedMarkerInsertColor device label) s
      (fun _ t => Keeps device [] s t) (Refused device [] s) := by
  have hsplit : scopedMarkerInsertColor device label = (do
      (do marker label; beginRecording device)
      tally fun stats => { stats with markers := stats.markers + 1 }) := by
    unfold scopedMarkerInsertColor
    simp only [bind_assoc]
  rw [hsplit]
  refine Runs.bind (marked_runs h label) fun _ t ht => ?_
  exact (tally_runs ht.1.wf _ _).mono (fun _ _ hv => ht.1.trans hv.1) fun _ _ h => h

end

end ShadPS4.D3D12
