import ShadPS4.VideoCore.PipelineSerialization

/-!
# Cached metadata are read back

Each `Serialize` writes some bytes, and the `Deserialize` beside it reads them as the same object, whatever lies
behind them in the archive. The two lists of fields are compared field by field.
-/

namespace ShadPS4

open TriviallyCopyable
open List (append_nil length_append append_assoc)

variable {sizes : TypeSizes} {codegen codegen' : SrtCodegen}

def FetchShaderData.image (fetch : FetchShaderData) : List UInt8 :=
  bytes fetch.size ++ (bytes fetch.vertex_offset_sgpr ++
    (bytes fetch.instance_offset_sgpr ++ vectorBytes fetch.attributes))

theorem FetchShaderData.writes_serialize (fetch : FetchShaderData) : Writes fetch.serialize fetch.image :=
  (writes_grow _).bind ((writes_write _).bind ((writes_write _).bind
    ((writes_write _).bind (writes_writeVector _))))

theorem FetchShaderData.reads_deserialize {fetch : FetchShaderData} (h : fetch.attributes.length < 2^31) :
    Reads (FetchShaderData.deserialize {}) fetch.image fetch := by
  apply (reads_read fetch.size).bind
  apply (reads_read fetch.vertex_offset_sgpr).bind
  apply (reads_read fetch.instance_offset_sgpr).bind
  rw [← append_nil (vectorBytes fetch.attributes)]
  exact (reads_readVector h).bind (Reads.pure fetch)

/-! ## `StageSpecialization` -/

theorem length_bitsetToString (bitset : BitVec 128) : (bitsetToString bitset).length = 128 := by
  unfold bitsetToString
  rw [List.length_map, List.length_range]

theorem bitsetOfString_toString (bitset : BitVec 128) : bitsetOfString (bitsetToString bitset) = some bitset := by
  have hlength := length_bitsetToString bitset
  have hbits : (bitsetToString bitset).map (fun c => decide (c = 49)) = (List.range 128).map bitset.getMsbD := by
    unfold bitsetToString
    rw [List.map_map]
    apply List.map_congr_left
    intro i _
    cases hbit : bitset.getMsbD i <;> simp [hbit]
  unfold bitsetOfString
  rw [List.take_of_length_le (Nat.le_of_eq hlength), if_pos, hbits]
  · apply congrArg some
    apply BitVec.eq_of_getLsbD_eq
    intro i hi
    have hget : ((List.range 128).map bitset.getMsbD).getD (128 - 1 - i) false = bitset.getMsbD (127 - i) := by
      rw [List.getD_eq_getElem?_getD, List.getElem?_map, List.getElem?_range (by omega)]
      rfl
    have hmsb : bitset.getMsbD (127 - i) = bitset.getLsbD i := by
      rw [BitVec.getMsbD_eq_getLsbD, show 128 - 1 - (127 - i) = i by omega]
      simp [show 127 - i < 128 by omega]
    rw [BitVec.getLsbD_setWidth, BitVec.getLsbD_ofBoolListBE, List.length_map, List.length_range, hget, hmsb]
    simp [hi]
  · intro c hc
    obtain ⟨i, -, rfl⟩ := List.mem_map.mp hc
    split_ifs
    · exact .inr rfl
    · exact .inl rfl

namespace StageSpecialization

def fetchImage : Option FetchShaderData → List UInt8
  | some fetch => bytes (BitVec.ofNat 64 fetchShaderDataSize) ++ fetch.image
  | none => bytes (0 : BitVec 64)

def image (spec : StageSpecialization sizes) : List UInt8 :=
  bytes spec.start ++ (bytes spec.runtime_info ++
    ((bytes (BitVec.ofNat 64 (bitsetToString spec.bitset).length) ++ bitsetToString spec.bitset) ++
      (fetchImage spec.fetch_shader_data ++ (vectorBytes spec.vs_attribs ++ (vectorBytes spec.buffers ++
        (vectorBytes spec.images ++ (vectorBytes spec.fmasks ++ vectorBytes spec.samplers)))))))

/-- The counters of the loops that read a specialization do not overflow. -/
structure Countable (spec : StageSpecialization sizes) : Prop where
  attributes : ∀ fetch, spec.fetch_shader_data = some fetch → fetch.attributes.length < 2^31
  vs_attribs : spec.vs_attribs.length < 2^31
  buffers : spec.buffers.length < 2^31
  images : spec.images.length < 2^31
  fmasks : spec.fmasks.length < 2^31
  samplers : spec.samplers.length < 2^31

theorem writes_serializeFetch (fetch_shader_data : Option FetchShaderData) :
    Writes (serializeFetch fetch_shader_data) (fetchImage fetch_shader_data) := by
  cases fetch_shader_data with
  | none => exact writes_write _
  | some fetch => exact (writes_write _).bind fetch.writes_serialize

theorem reads_deserializeFetch {fetch_shader_data : Option FetchShaderData}
    (h : ∀ fetch, fetch_shader_data = some fetch → fetch.attributes.length < 2^31) :
    Reads (deserializeFetch none) (fetchImage fetch_shader_data) fetch_shader_data := by
  cases fetch_shader_data with
  | none =>
    apply (reads_read (0 : BitVec 64)).bind
    exact Reads.pure none
  | some fetch =>
    apply (reads_read (BitVec.ofNat 64 fetchShaderDataSize)).bind
    exact (FetchShaderData.reads_deserialize (h fetch rfl)).map some

theorem writes_serialize (spec : StageSpecialization sizes) : Writes spec.serialize spec.image :=
  (writes_write _).bind ((writes_write _).bind ((writes_writeString _).bind
    ((writes_serializeFetch _).bind ((writes_writeVector _).bind ((writes_writeVector _).bind
      ((writes_writeVector _).bind ((writes_writeVector _).bind (writes_writeVector _))))))))

theorem reads_deserialize {spec : StageSpecialization sizes} (h : spec.Countable) :
    Reads (deserialize ({} : StageSpecialization sizes)) spec.image spec := by
  have hbits : (bitsetToString spec.bitset).length < 2^64 := by
    rw [length_bitsetToString]
    decide
  apply (reads_read spec.start).bind
  apply (reads_read spec.runtime_info).bind
  apply (reads_readString hbits).bind
  rw [bitsetOfString_toString]
  apply Reads.lift_bind
  apply (reads_deserializeFetch h.attributes).bind
  apply (reads_readVector h.vs_attribs).bind
  apply (reads_readVector h.buffers).bind
  apply (reads_readVector h.images).bind
  apply (reads_readVector h.fmasks).bind
  rw [← append_nil (vectorBytes spec.samplers)]
  apply (reads_readVector h.samplers).bind
  exact Reads.pure spec

end StageSpecialization

/-! ## `Info` -/

namespace PersistentSrtInfo

variable {srt : PersistentSrtInfo}

/-- The code of a walker lies in the buffer of the code generator. -/
def HasCode (codegen : SrtCodegen) (srt : PersistentSrtInfo) (code : List UInt8) : Prop :=
  if srt.walker_func_size ≠ 0 then codegen.fetch srt.walker_func.toNat srt.walker_func_size.toNat = some code
  else code = []

theorem HasCode.length_eq (h : srt.HasCode codegen code) : code.length = srt.walker_func_size.toNat := by
  unfold HasCode at h
  split_ifs at h with hsize
  · unfold SrtCodegen.fetch at h
    split_ifs at h with hin
    obtain rfl := Option.some.inj h
    rw [List.length_take, List.length_drop]
    omega
  · rw [h, Decidable.not_not.mp hsize]
    rfl

theorem writes_serialize (h : srt.HasCode codegen code) : Writes (srt.serialize codegen) (bytes srt ++ code) := by
  apply (writes_write srt).bind
  unfold HasCode at h
  unfold serializeWalker
  split_ifs at h ⊢ with hsize
  · rw [h]
    exact writes_writeBytes code
  · rw [h]
    exact Writes.pure

/-- The object that was kept, up to the place of its walker. -/
structure Restored (codegen' : SrtCodegen) (srt srt' : PersistentSrtInfo) (code : List UInt8) : Prop where
  walker_func_size : srt'.walker_func_size = srt.walker_func_size
  flattened_bufsize_dw : srt'.flattened_bufsize_dw = srt.flattened_bufsize_dw
  code : srt'.HasCode codegen' code

theorem registerWalkerCode_spec (hroom : codegen.code.length + code.length ≤ srtCodegenSize) :
    ∃ ptr codegen', codegen.registerWalkerCode code = some (ptr, codegen') ∧
      codegen'.fetch ptr.toNat code.length = some code := by
  have hbase := codegen.base_le
  unfold SrtCodegen.registerWalkerCode
  rw [dif_pos hroom]
  refine ⟨_, _, rfl, ?_⟩
  have hptr : (BitVec.ofNat 64 (codegen.base + codegen.code.length)).toNat = codegen.base + codegen.code.length := by
    exact Nat.mod_eq_of_lt (by omega)
  unfold SrtCodegen.fetch
  dsimp only
  rw [hptr, if_pos, Nat.add_sub_cancel_left, List.drop_left, List.take_length]
  rw [length_append]
  omega

theorem reads_deserialize (h : srt.HasCode codegen code)
    (hroom : codegen'.code.length + code.length ≤ srtCodegenSize) :
    ∃ srt' codegen'', Reads (deserialize codegen') (bytes srt ++ code) (srt', codegen'') ∧
      Restored codegen'' srt srt' code := by
  have hlength := h.length_eq
  by_cases hsize : srt.walker_func_size = 0
  · have hnil : code = [] := by
      apply List.eq_nil_of_length_eq_zero
      rw [hlength, hsize]
      rfl
    subst hnil
    refine ⟨srt, codegen', ?_, rfl, rfl, ?_⟩
    · apply (reads_read srt).bind
      unfold deserializeWalker
      rw [if_neg (not_not_intro hsize)]
      exact Reads.pure _
    · unfold HasCode
      rw [if_neg (not_not_intro hsize)]
  · obtain ⟨ptr, codegen'', hregister, hfetch⟩ := registerWalkerCode_spec hroom
    refine ⟨{ srt with walker_func := ptr }, codegen'', ?_, rfl, rfl, ?_⟩
    · apply (reads_read srt).bind
      intro ar hat hin hlt
      -- The code is copied from the archive before the archive advances.
      have hcopy : ar.copyFrom srt.walker_func_size.toNat = some code := by
        obtain ⟨rest, hrest⟩ := hat
        unfold Archive.copyFrom
        rw [← hlength, if_pos hin, ← hrest, List.take_left]
      have hadvance : ar.advance srt.walker_func_size.toNat = some { ar with offset := ar.offset + code.length } := by
        unfold Archive.advance
        rw [← hlength, if_pos hin, Nat.mod_eq_of_lt hlt]
      unfold deserializeWalker
      rw [if_pos hsize]
      simp only [bind, StateT.bind, get, getThe, MonadStateOf.get, StateT.get, StateT.lift, pure, set, hcopy,
        hregister, hadvance, Option.bind]
      rfl
    · unfold HasCode
      rw [if_pos hsize, ← hlength]
      exact hfetch

end PersistentSrtInfo

namespace Info

variable {info : Info sizes} {code : List UInt8}

/-- The bytes of an `Info`, with the code of its walker. -/
def image (info : Info sizes) (code : List UInt8) : List UInt8 :=
  bytes info.persistent ++ (vectorBytes info.flattened_ud_buf ++ (bytes info.srt_info ++ code))

theorem writes_serialize (h : info.srt_info.HasCode codegen code) :
    Writes (info.serialize codegen) (info.image code) :=
  (writes_write _).bind ((writes_writeVector _).bind (PersistentSrtInfo.writes_serialize h))

theorem reads_deserialize (h : info.srt_info.HasCode codegen code) (hcount : info.flattened_ud_buf.length < 2^31)
    (hroom : codegen'.code.length + code.length ≤ srtCodegenSize) :
    ∃ srt_info codegen'', Reads (deserialize codegen' ({} : Info sizes)) (info.image code)
      ({ info with srt_info }, codegen'') ∧ PersistentSrtInfo.Restored codegen'' info.srt_info srt_info code := by
  obtain ⟨srt_info, codegen'', hread, hrestored⟩ := PersistentSrtInfo.reads_deserialize h hroom
  refine ⟨srt_info, codegen'', ?_, hrestored⟩
  apply (reads_read info.persistent).bind
  apply (reads_readVector hcount).bind
  rw [← append_nil (bytes info.srt_info ++ code)]
  apply hread.bind
  exact Reads.pure _

end Info

/-! ## The metadata -/

def metaImage (info : Info sizes) (code : List UInt8) (spec : StageSpecialization sizes)
    (perm_hash perm_idx : BitVec 64) : List UInt8 :=
  bytes shaderMetaVersion ++ (bytes shaderBinaryVersion ++ (bytes perm_hash ++ (bytes perm_idx ++
    (spec.image ++ info.image code))))

theorem writes_registerShaderMeta
    (h : info.srt_info.HasCode codegen code) (spec : StageSpecialization sizes) (perm_hash perm_idx : BitVec 64) :
    Writes (registerShaderMeta codegen info spec perm_hash perm_idx) (metaImage info code spec perm_hash perm_idx) :=
  (writes_write _).bind ((writes_write _).bind ((writes_write _).bind ((writes_write _).bind
    (spec.writes_serialize.bind (Info.writes_serialize h)))))

theorem reads_loadShaderMeta
    (h : info.srt_info.HasCode codegen code) (hspec : spec.Countable) (hcount : info.flattened_ud_buf.length < 2^31)
    (hroom : codegen'.code.length + code.length ≤ srtCodegenSize) (perm_hash perm_idx : BitVec 64) :
    ∃ srt_info codegen'', Reads (loadShaderMeta ({ codegen := codegen' } : ShaderMeta sizes))
      (metaImage info code spec perm_hash perm_idx)
      (true, {
        info := { info with srt_info }
        fetch_shader_data := spec.fetch_shader_data
        spec, perm_idx
        codegen := codegen'' }) ∧
        PersistentSrtInfo.Restored codegen'' info.srt_info srt_info code := by
  obtain ⟨srt_info, codegen'', hread, hrestored⟩ := Info.reads_deserialize h hcount hroom
  refine ⟨srt_info, codegen'', ?_, hrestored⟩
  apply (reads_read shaderMetaVersion).bind
  apply (reads_read shaderBinaryVersion).bind
  apply (reads_read perm_hash).bind
  apply (reads_read perm_idx).bind
  apply (StageSpecialization.reads_deserialize hspec).bind
  rw [← append_nil (info.image code)]
  apply hread.bind
  exact Reads.pure _

def manySamplers (sizes : TypeSizes) (count : ℕ) : StageSpecialization sizes where
  samplers := List.replicate count (Blob.zero 1)

theorem overflows_manySamplers {count : ℕ} (hcount : 2^31 ≤ count) (hcount' : count < 2^64) :
    Overflows (StageSpecialization.deserialize ({} : StageSpecialization sizes))
      (manySamplers sizes count).image := by
  have hbits : (bitsetToString (manySamplers sizes count).bitset).length < 2^64 := by
    rw [length_bitsetToString]
    decide
  have hlength : (manySamplers sizes count).samplers.length = count := List.length_replicate
  have hfetch : ∀ fetch, (manySamplers sizes count).fetch_shader_data = some fetch →
      fetch.attributes.length < 2^31 := by
    intro fetch hfetch
    cases hfetch
  apply (reads_read _).bind_overflows
  apply (reads_read _).bind_overflows
  apply (reads_readString hbits).bind_overflows
  rw [bitsetOfString_toString]
  apply Overflows.lift_bind
  apply (StageSpecialization.reads_deserializeFetch hfetch).bind_overflows
  apply (reads_readVector (v := (manySamplers sizes count).vs_attribs) (Nat.two_pow_pos 31)).bind_overflows
  apply (reads_readVector (v := (manySamplers sizes count).buffers) (Nat.two_pow_pos 31)).bind_overflows
  apply (reads_readVector (v := (manySamplers sizes count).images) (Nat.two_pow_pos 31)).bind_overflows
  apply (reads_readVector (v := (manySamplers sizes count).fmasks) (Nat.two_pow_pos 31)).bind_overflows
  exact (overflows_readVector (by rwa [hlength]) (by rwa [hlength])).bind _

theorem length_metaImage_manySamplers (count : ℕ) (perm_hash perm_idx : BitVec 64) :
    (metaImage ({} : Info sizes) [] (manySamplers sizes count) perm_hash perm_idx).length =
      252 + sizes.runtime_info + sizes.info_persistent + count := by
  have hfetch : (StageSpecialization.fetchImage (manySamplers sizes count).fetch_shader_data).length = 8 :=
    length_bytes (0 : BitVec 64)
  have hruntime : sizeof (Blob sizes.runtime_info) = sizes.runtime_info := rfl
  have hpersistent : sizeof (Blob sizes.info_persistent) = sizes.info_persistent := rfl
  have hsamplers : (manySamplers sizes count).samplers.length = count := List.length_replicate
  have hvs_attribs : (manySamplers sizes count).vs_attribs = [] := rfl
  have hbuffers : (manySamplers sizes count).buffers = [] := rfl
  have himages : (manySamplers sizes count).images = [] := rfl
  have hfmasks : (manySamplers sizes count).fmasks = [] := rfl
  have hsampler : sizeof SamplerSpecialization = 1 := rfl
  have hword₃₂ : sizeof (BitVec 32) = 4 := rfl
  have hword₆₄ : sizeof (BitVec 64) = 8 := rfl
  have hbindings : sizeof Bindings = 12 := rfl
  have hsrt : sizeof PersistentSrtInfo = 24 := rfl
  unfold metaImage Info.image StageSpecialization.image
  simp only [length_append, length_bytes, length_vectorBytes, length_bitsetToString, hfetch, hruntime,
    hpersistent, hsamplers, hvs_attribs, hbuffers, himages, hfmasks, hsampler, hword₃₂, hword₆₄, hbindings,
    hsrt, List.length_nil]
  omega

theorem loadShaderMeta_samplers (codegen : SrtCodegen) (hcount : 2^31 ≤ count)
    (hsize : 252 + sizes.runtime_info + sizes.info_persistent + count < 2^32) (perm_hash perm_idx : BitVec 64) :
    ∃ ar, registerShaderMeta codegen ({} : Info sizes) (manySamplers sizes count) perm_hash perm_idx {} =
        some ((), ar) ∧ loadShaderMeta ({ codegen } : ShaderMeta sizes) { container := ar.container } = none := by
  have hcode : ({} : Info sizes).srt_info.HasCode codegen [] := rfl
  have hlength : (metaImage ({} : Info sizes) [] (manySamplers sizes count) perm_hash perm_idx).length = _ :=
    length_metaImage_manySamplers count perm_hash perm_idx
  obtain ⟨ar, hrun, hoffset, hin, hwritten⟩ :=
    writes_registerShaderMeta hcode (manySamplers sizes count) perm_hash perm_idx {} (Nat.le_refl _)
      (by rw [hlength]; dsimp only; omega)
  rw [List.take_zero, List.nil_append] at hwritten
  refine ⟨ar, hrun, ?_⟩
  have hoverflows : Overflows (loadShaderMeta ({ codegen } : ShaderMeta sizes))
      (bytes shaderMetaVersion ++ (bytes shaderBinaryVersion ++ (bytes perm_hash ++ (bytes perm_idx ++
        (manySamplers sizes count).image)))) := by
    apply (reads_read shaderMetaVersion).bind_overflows
    apply (reads_read shaderBinaryVersion).bind_overflows
    apply (reads_read perm_hash).bind_overflows
    apply (reads_read perm_idx).bind_overflows
    exact (overflows_manySamplers hcount (by omega)).bind _
  have hat : At ar.container 0 (metaImage ({} : Info sizes) [] (manySamplers sizes count) perm_hash perm_idx) := by
    rw [← hwritten]
    exact List.take_prefix _ _
  unfold metaImage at hat hoffset
  rw [← append_assoc (bytes perm_idx), ← append_assoc (bytes perm_hash),
    ← append_assoc (bytes shaderBinaryVersion), ← append_assoc (bytes shaderMetaVersion)]
    at hat hoffset
  rw [length_append] at hoffset
  unfold metaImage at hlength
  rw [← append_assoc (bytes perm_idx), ← append_assoc (bytes perm_hash),
    ← append_assoc (bytes shaderBinaryVersion), ← append_assoc (bytes shaderMetaVersion),
    length_append] at hlength
  exact hoverflows { container := ar.container } hat.left (by dsimp only; omega) (by dsimp only; omega)

def someSizes : TypeSizes where
  runtime_info := 512
  vs_attrib := 12
  buffer := 12
  image := 24
  info_persistent := 4096

/-- A code generator without code. -/
def emptyCodegen : SrtCodegen where
  base := 2^20
  code := []
  base_le := by decide
  code_le := Nat.zero_le _

end ShadPS4
