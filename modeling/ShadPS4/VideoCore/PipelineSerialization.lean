import Mathlib.Data.FinEnum
import ShadPS4.Common.SerdesSpec

/-!
# The metadata of a cached shader

What the pipeline cache keeps of a shader besides its binary: the specialization that it was compiled for, the
persistent part of its `Info`, and the code of its SRT walker.
-/

namespace ShadPS4

open TriviallyCopyable

structure TypeSizes where
  runtime_info : ℕ
  vs_attrib : ℕ
  buffer : ℕ
  image : ℕ
  info_persistent : ℕ

/-- `VertexAttribute`: nine bytes. -/
abbrev VertexAttribute : Type := Blob 9

structure FetchShaderData where
  size : BitVec 32 := 0
  attributes : List VertexAttribute := []
  vertex_offset_sgpr : BitVec 8 := -1
  instance_offset_sgpr : BitVec 8 := -1

/-- `sizeof(FetchShaderData)` -/
def fetchShaderDataSize : ℕ := 40

/-- `Backend::Bindings`: three words. -/
abbrev Bindings : Type := Blob 12

/-- `FMaskSpecialization`: two words. -/
abbrev FMaskSpecialization : Type := Blob 8

/-- `SamplerSpecialization`: two bits in a byte. -/
abbrev SamplerSpecialization : Type := Blob 1

structure StageSpecialization (sizes : TypeSizes) where
  runtime_info : Blob sizes.runtime_info := Blob.zero _
  bitset : BitVec 128 := 0
  fetch_shader_data : Option FetchShaderData := none
  vs_attribs : List (Blob sizes.vs_attrib) := []
  buffers : List (Blob sizes.buffer) := []
  images : List (Blob sizes.image) := []
  fmasks : List FMaskSpecialization := []
  samplers : List SamplerSpecialization := []
  start : Bindings := Blob.zero _

structure PersistentSrtInfo where
  walker_func : BitVec 64 := 0
  walker_func_size : BitVec 64 := 0
  flattened_bufsize_dw : BitVec 32 := 16
  /-- the bytes at its end that no field uses -/
  padding : Blob 4 := Blob.zero _

/-- The part of an `Info` that is kept. -/
structure Info (sizes : TypeSizes) where
  persistent : Blob sizes.info_persistent := Blob.zero _
  flattened_ud_buf : List (BitVec 32) := []
  srt_info : PersistentSrtInfo := {}

/-- The size of the buffer of the code generator. -/
abbrev srtCodegenSize : ℕ := 32 * 2^20

/-- `g_srt_codegen`: its buffer, and the code in it. -/
structure SrtCodegen where
  base : ℕ
  code : List UInt8
  base_le : base + srtCodegenSize < 2^64
  code_le : code.length ≤ srtCodegenSize

namespace SrtCodegen

variable (codegen : SrtCodegen)

def fetch (ptr size : ℕ) : Option (List UInt8) :=
  if codegen.base ≤ ptr ∧ ptr + size ≤ codegen.base + codegen.code.length then
    some ((codegen.code.drop (ptr - codegen.base)).take size)
  else none

/-- `RegisterWalkerCode`: the generator throws if its buffer is full. -/
def registerWalkerCode (code : List UInt8) : Option (BitVec 64 × SrtCodegen) :=
  if h : codegen.code.length + code.length ≤ srtCodegenSize then
    some (BitVec.ofNat 64 (codegen.base + codegen.code.length),
      { codegen with
        code := codegen.code ++ code
        code_le := by rwa [List.length_append] })
  else none

end SrtCodegen

/-- The fields of a `PersistentSrtInfo` and its padding. -/
abbrev SrtFields : Type := BitVec 64 × BitVec 64 × BitVec 32 × Blob 4

def PersistentSrtInfo.fields (srt : PersistentSrtInfo) : SrtFields :=
  (srt.walker_func, srt.walker_func_size, srt.flattened_bufsize_dw, srt.padding)

instance : TriviallyCopyable PersistentSrtInfo where
  sizeof := sizeof SrtFields
  bytes srt := bytes srt.fields
  ofBytes bs :=
    let fields : SrtFields := ofBytes bs
    ⟨fields.1, fields.2.1, fields.2.2.1, fields.2.2.2⟩
  length_bytes srt := length_bytes srt.fields
  ofBytes_bytes srt := by
    rw [ofBytes_bytes]
    rfl

namespace PersistentSrtInfo

variable (codegen : SrtCodegen) (srt : PersistentSrtInfo)

/-- The code of the walker behind the object. -/
def serializeWalker : Serdes Unit :=
  if srt.walker_func_size ≠ 0 then do
    let code ← StateT.lift (codegen.fetch srt.walker_func.toNat srt.walker_func_size.toNat)
    Writer.writeBytes code
  else pure ()

def serialize : Serdes Unit := do
  Writer.write srt
  srt.serializeWalker codegen

/-- The code of the walker is registered from where it lies in the archive. -/
def deserializeWalker : Serdes (PersistentSrtInfo × SrtCodegen) :=
  if srt.walker_func_size ≠ 0 then do
    let ar ← get
    let code ← StateT.lift (ar.copyFrom srt.walker_func_size.toNat)
    let (walker_func, codegen) ← StateT.lift (codegen.registerWalkerCode code)
    let ar ← StateT.lift (ar.advance srt.walker_func_size.toNat)
    set ar
    pure ({ srt with walker_func }, codegen)
  else pure (srt, codegen)

def deserialize : Serdes (PersistentSrtInfo × SrtCodegen) := do
  let srt ← Reader.read PersistentSrtInfo
  srt.deserializeWalker codegen

end PersistentSrtInfo

/-! ## `Info`, `FetchShaderData` and `StageSpecialization` -/

variable {sizes : TypeSizes}

def Info.serialize (codegen : SrtCodegen) (info : Info sizes) : Serdes Unit := do
  Writer.write info.persistent
  Writer.writeVector info.flattened_ud_buf
  info.srt_info.serialize codegen

def Info.deserialize (codegen : SrtCodegen) (info : Info sizes) : Serdes (Info sizes × SrtCodegen) := do
  let persistent ← Reader.read (Blob sizes.info_persistent)
  let flattened_ud_buf ← Reader.readVector info.flattened_ud_buf
  let (srt_info, codegen) ← PersistentSrtInfo.deserialize codegen
  pure ({ persistent, flattened_ud_buf, srt_info }, codegen)

/-- `Serialize` of a `FetchShaderData`, which grows the archive first. -/
def FetchShaderData.serialize (fetch : FetchShaderData) : Serdes Unit := do
  Writer.grow (6 + fetch.attributes.length * sizeof VertexAttribute)
  Writer.write fetch.size
  Writer.write fetch.vertex_offset_sgpr
  Writer.write fetch.instance_offset_sgpr
  Writer.writeVector fetch.attributes

def FetchShaderData.deserialize (fetch : FetchShaderData) : Serdes FetchShaderData := do
  let size ← Reader.read (BitVec 32)
  let vertex_offset_sgpr ← Reader.read (BitVec 8)
  let instance_offset_sgpr ← Reader.read (BitVec 8)
  let attributes ← Reader.readVector fetch.attributes
  pure { size, attributes, vertex_offset_sgpr, instance_offset_sgpr }

/-- `to_string` of a bitset: its bits from the highest one down. -/
def bitsetToString (bitset : BitVec 128) : List UInt8 :=
  (List.range 128).map fun i => if bitset.getMsbD i then 49 else 48

def bitsetOfString (bits : List UInt8) : Option (BitVec 128) :=
  if ∀ c ∈ bits.take 128, c = 48 ∨ c = 49 then
    some ((BitVec.ofBoolListBE ((bits.take 128).map fun c => decide (c = 49))).setWidth 128)
  else none

namespace StageSpecialization

/-- The fetch shader data: their size, or zero. -/
def serializeFetch : Option FetchShaderData → Serdes Unit
  | some fetch => do
    Writer.write (BitVec.ofNat 64 fetchShaderDataSize)
    fetch.serialize
  | none => Writer.write (0 : BitVec 64)

def serialize (spec : StageSpecialization sizes) : Serdes Unit := do
  Writer.write spec.start
  Writer.write spec.runtime_info
  Writer.writeString (bitsetToString spec.bitset)
  serializeFetch spec.fetch_shader_data
  Writer.writeVector spec.vs_attribs
  Writer.writeVector spec.buffers
  Writer.writeVector spec.images
  Writer.writeVector spec.fmasks
  Writer.writeVector spec.samplers

def deserializeFetch (fetch_shader_data : Option FetchShaderData) : Serdes (Option FetchShaderData) := do
  let fetch_data_size ← Reader.read (BitVec 64)
  if fetch_data_size ≠ 0 then some <$> FetchShaderData.deserialize {} else pure fetch_shader_data

def deserialize (spec : StageSpecialization sizes) : Serdes (StageSpecialization sizes) := do
  let start ← Reader.read Bindings
  let runtime_info ← Reader.read (Blob sizes.runtime_info)
  let bits ← Reader.readString
  let bitset ← StateT.lift (bitsetOfString bits)
  let fetch_shader_data ← deserializeFetch spec.fetch_shader_data
  let vs_attribs ← Reader.readVector spec.vs_attribs
  let buffers ← Reader.readVector spec.buffers
  let images ← Reader.readVector spec.images
  let fmasks ← Reader.readVector spec.fmasks
  let samplers ← Reader.readVector spec.samplers
  pure {
    runtime_info, bitset, fetch_shader_data, vs_attribs, buffers, images, fmasks, samplers, start }

end StageSpecialization

def shaderMetaVersion : BitVec 32 := 3

def shaderBinaryVersion : BitVec 32 := 3

/-- What `RegisterShaderMeta` writes to a new archive. -/
def registerShaderMeta (codegen : SrtCodegen) (info : Info sizes) (spec : StageSpecialization sizes)
    (perm_hash perm_idx : BitVec 64) : Serdes Unit := do
  Writer.write shaderMetaVersion
  Writer.write shaderBinaryVersion
  Writer.write perm_hash
  Writer.write perm_idx
  spec.serialize
  info.serialize codegen

/-- What `LoadShaderMeta` fills. -/
structure ShaderMeta (sizes : TypeSizes) where
  info : Info sizes := {}
  fetch_shader_data : Option FetchShaderData := none
  spec : StageSpecialization sizes := {}
  perm_idx : BitVec 64 := 0
  codegen : SrtCodegen

variable (shader : ShaderMeta sizes)

/-- The part of `LoadShaderMeta` behind the versions. -/
def loadPermutation : Serdes (Bool × ShaderMeta sizes) := do
  let _perm_hash_ar ← Reader.read (BitVec 64)
  let perm_idx ← Reader.read (BitVec 64)
  let spec ← shader.spec.deserialize
  let (info, codegen) ← shader.info.deserialize shader.codegen
  pure (true, { info, fetch_shader_data := spec.fetch_shader_data, spec, perm_idx, codegen })

def loadBinaryVersion : Serdes (Bool × ShaderMeta sizes) := do
  let binary_version ← Reader.read (BitVec 32)
  if binary_version ≠ shaderBinaryVersion then pure (false, shader) else loadPermutation shader

def loadShaderMeta : Serdes (Bool × ShaderMeta sizes) := do
  let meta_version ← Reader.read (BitVec 32)
  if meta_version ≠ shaderMetaVersion then pure (false, shader) else loadBinaryVersion shader

end ShadPS4
