import ShadPS4.VideoCore.PipelineSerialization

/-!
# Reads of a cached shader's metadata

`LoadShaderMeta` again, with copies out of the archive that are told from assertions and exceptions. A `Reader`
checks the range of a copy before, in words of 64 bits.
-/

namespace ShadPS4.Bounded

open TriviallyCopyable

/-- What comes of a function: a value, an assertion or exception, or a copy that is not allowed. -/
inductive Outcome (α : Type)
  | done (value : α) (ar : Archive)
  | stopped
  | outside

instance {α : Type} : DecidablePred fun outcome : Outcome α => outcome = .outside
  | .done _ _ => isFalse nofun
  | .stopped => isFalse nofun
  | .outside => isTrue rfl

abbrev BoundedSerdes (α : Type) : Type := Archive → Outcome α

instance : Monad BoundedSerdes where
  pure value := fun ar => .done value ar
  bind m f := fun ar => match m ar with
    | .done value ar => f value ar
    | .stopped => .stopped
    | .outside => .outside

variable {α β : Type} {sizes : TypeSizes}

/-- An exception without a value. -/
def lift : Option α → BoundedSerdes α
  | some value => pure value
  | none => fun _ => .stopped

/-- `Read` of a block: its assertion, the copy and `Advance`. -/
def readBytes (size : ℕ) : BoundedSerdes (List UInt8) := fun ar =>
  if (ar.offset + size) % 2^64 ≤ ar.container.length then
    match ar.copyFrom size, ar.advance size with
    | some bytes, some ar => .done bytes ar
    | _, _ => .outside
  else .stopped

def read (α : Type) [TriviallyCopyable α] : BoundedSerdes α := do
  let bytes ← readBytes (sizeof α)
  pure (ofBytes bytes)

def readElems [TriviallyCopyable α] (v : List α) : ℕ → BoundedSerdes (List α)
  | 0 => pure v
  | count + 1 => do
    let elem ← read α
    readElems (v ++ [elem]) count

/-- `Read` of a container, until the `int` that counts overflows. -/
def readVector [TriviallyCopyable α] (v : List α) : BoundedSerdes (List α) := do
  let num_elements ← read (BitVec 64)
  let v ← readElems v (min num_elements.toNat (2^31))
  if num_elements.toNat < 2^31 then pure v else lift none

/-- `Read` of a string. No string has a length from `2^63` on, so `resize` throws. -/
def readString : BoundedSerdes (List UInt8) := do
  let length ← read (BitVec 64)
  if length.toNat < 2^63 then readBytes length.toNat else lift none

/-! ## Objects -/

variable (allowed : Archive → ℕ → Bool) (codegen : SrtCodegen)

/-- The code of the walker is copied before any check. -/
def deserializeWalker (srt : PersistentSrtInfo) : BoundedSerdes (PersistentSrtInfo × SrtCodegen) :=
  if srt.walker_func_size ≠ 0 then fun ar =>
    let size := srt.walker_func_size.toNat
    if allowed ar size then
      match codegen.registerWalkerCode ((ar.container.drop ar.offset).take size), ar.advance size with
      | some (walker_func, codegen), some ar => .done ({ srt with walker_func }, codegen) ar
      | _, _ => .stopped
    else .outside
  else pure (srt, codegen)

def deserializeSrt : BoundedSerdes (PersistentSrtInfo × SrtCodegen) := do
  let srt ← read PersistentSrtInfo
  deserializeWalker allowed codegen srt

def deserializeInfo (info : Info sizes) : BoundedSerdes (Info sizes × SrtCodegen) := do
  let persistent ← read (Blob sizes.info_persistent)
  let flattened_ud_buf ← readVector info.flattened_ud_buf
  let (srt_info, codegen) ← deserializeSrt allowed codegen
  pure ({ persistent, flattened_ud_buf, srt_info }, codegen)

def deserializeFetchData (fetch : FetchShaderData) : BoundedSerdes FetchShaderData := do
  let size ← read (BitVec 32)
  let vertex_offset_sgpr ← read (BitVec 8)
  let instance_offset_sgpr ← read (BitVec 8)
  let attributes ← readVector fetch.attributes
  pure { size, attributes, vertex_offset_sgpr, instance_offset_sgpr }

def deserializeFetch (fetch_shader_data : Option FetchShaderData) : BoundedSerdes (Option FetchShaderData) := do
  let fetch_data_size ← read (BitVec 64)
  if fetch_data_size ≠ 0 then do
    let fetch_data ← deserializeFetchData {}
    pure (some fetch_data)
  else pure fetch_shader_data

def deserializeSpec (spec : StageSpecialization sizes) : BoundedSerdes (StageSpecialization sizes) := do
  let start ← read Bindings
  let runtime_info ← read (Blob sizes.runtime_info)
  let bits ← readString
  let bitset ← lift (bitsetOfString bits)
  let fetch_shader_data ← deserializeFetch spec.fetch_shader_data
  let vs_attribs ← readVector spec.vs_attribs
  let buffers ← readVector spec.buffers
  let images ← readVector spec.images
  let fmasks ← readVector spec.fmasks
  let samplers ← readVector spec.samplers
  pure { runtime_info, bitset, fetch_shader_data, vs_attribs, buffers, images, fmasks, samplers, start }

def loadPermutation (shader : ShaderMeta sizes) : BoundedSerdes (Bool × ShaderMeta sizes) := do
  let _perm_hash_ar ← read (BitVec 64)
  let perm_idx ← read (BitVec 64)
  let spec ← deserializeSpec shader.spec
  let (info, codegen) ← deserializeInfo allowed shader.codegen shader.info
  pure (true, { info, fetch_shader_data := spec.fetch_shader_data, spec, perm_idx, codegen })

def loadShaderMeta (shader : ShaderMeta sizes) : BoundedSerdes (Bool × ShaderMeta sizes) := do
  let meta_version ← read (BitVec 32)
  if meta_version ≠ shaderMetaVersion then pure (false, shader)
  else do
    let binary_version ← read (BitVec 32)
    if binary_version ≠ shaderBinaryVersion then pure (false, shader) else loadPermutation allowed shader

/-! ## Agreement with the reads that are all checked -/

def Bounds (ar : Archive) : Prop := ar.offset < 2^32 ∧ ar.container.length < 2^63

def Agrees (m : BoundedSerdes α) (m' : Serdes α) : Prop :=
  ∀ ar, Bounds ar → match m' ar with
    | some (value, ar') => m ar = .done value ar' ∧ Bounds ar'
    | none => m ar = .stopped

variable {m : BoundedSerdes α} {m' : Serdes α} {f : α → BoundedSerdes β} {f' : α → Serdes β}

theorem agrees_pure (value : α) : Agrees (pure value) (pure value) := fun _ har => ⟨rfl, har⟩

theorem agrees_lift (value : Option α) : Agrees (lift value) (StateT.lift value) := by
  cases value with
  | none => exact fun _ _ => rfl
  | some value => exact agrees_pure value

theorem Agrees.bind (h : Agrees m m') (hf : ∀ value, Agrees (f value) (f' value)) : Agrees (m >>= f) (m' >>= f') := by
  intro ar har
  have hm := h ar har
  have hbind : (m >>= f) ar = match m ar with
    | .done value ar => f value ar
    | .stopped => .stopped
    | .outside => .outside := rfl
  have hbind' : (m' >>= f') ar = (m' ar).bind fun result => f' result.1 result.2 := rfl
  rw [hbind, hbind']
  cases hrun : m' ar with
  | none =>
    rw [hrun] at hm
    rw [hm]
    rfl
  | some result =>
    rw [hrun] at hm
    rw [hm.1]
    exact hf result.1 result.2 hm.2

theorem agrees_readBytes (hsize : size < 2^63) : Agrees (readBytes size) (Reader.readBytes size) := by
  intro ar har
  have hmod : (ar.offset + size) % 2^64 = ar.offset + size := Nat.mod_eq_of_lt (by have hoffset := har.1; omega)
  unfold readBytes Reader.readBytes Archive.copyFrom Archive.advance
  rw [hmod]
  split_ifs with hin
  · exact ⟨rfl, Nat.mod_lt _ (by decide), har.2⟩
  · rfl

section

variable [TriviallyCopyable α]

theorem agrees_read (hsize : sizeof α < 2^63) : Agrees (read α) (Reader.read α) :=
  (agrees_readBytes hsize).bind fun bytes => agrees_pure (ofBytes bytes)

theorem agrees_readElems (hsize : sizeof α < 2^63) (count : ℕ) :
    ∀ v : List α, Agrees (readElems v count) (Reader.readElems v count) := by
  induction count with
  | zero => exact fun v => agrees_pure v
  | succ count ih => exact fun v => (agrees_read hsize).bind fun elem => ih (v ++ [elem])

theorem agrees_readVector (hsize : sizeof α < 2^63) (v : List α) : Agrees (readVector v) (Reader.readVector v) := by
  refine (agrees_read (by decide)).bind fun num_elements => ?_
  have helems := agrees_readElems hsize (min num_elements.toNat (2^31)) v
  by_cases hcount : num_elements.toNat < 2^31
  · rw [Nat.min_eq_left hcount.le] at helems ⊢
    simp only [if_pos hcount]
    have hpure : (Reader.readElems v num_elements.toNat >>= pure) = Reader.readElems v num_elements.toNat :=
      bind_pure _
    exact hpure ▸ helems.bind agrees_pure
  · simp only [if_neg hcount]
    -- The elements are read, and then the counter overflows.
    have hnone : (Reader.readElems v (min num_elements.toNat (2^31)) >>= fun _ => StateT.lift none) =
        (StateT.lift none : Serdes (List α)) := by
      funext ar
      exact Option.bind_fun_none _
    exact hnone ▸ helems.bind fun _ => agrees_lift none

end

theorem agrees_readString : Agrees readString Reader.readString := by
  refine (agrees_read (by decide)).bind fun length => ?_
  by_cases hlength : length.toNat < 2^63
  · rw [if_pos hlength]
    exact agrees_readBytes hlength
  · rw [if_neg hlength]
    intro ar har
    have hout : ¬ ar.offset + length.toNat ≤ ar.container.length := by
      have hcontainer := har.2
      omega
    unfold Reader.readBytes Archive.copyFrom
    rw [if_neg hout]
    rfl

theorem agrees_deserializeFetch (fetch_shader_data : Option FetchShaderData) :
    Agrees (deserializeFetch fetch_shader_data) (StageSpecialization.deserializeFetch fetch_shader_data) := by
  refine (agrees_read (by decide)).bind fun fetch_data_size => ?_
  by_cases hsize : fetch_data_size ≠ 0
  · rw [if_pos hsize, if_pos hsize, ← bind_pure_comp]
    refine Agrees.bind ?_ fun fetch_data => agrees_pure _
    exact (agrees_read (by decide)).bind fun size => (agrees_read (by decide)).bind fun vertex_offset_sgpr =>
      (agrees_read (by decide)).bind fun instance_offset_sgpr => (agrees_readVector (by decide) _).bind
        fun attributes => agrees_pure _
  · rw [if_neg hsize, if_neg hsize]
    exact agrees_pure _

structure Sized (sizes : TypeSizes) : Prop where
  runtime_info : sizes.runtime_info < 2^63
  vs_attrib : sizes.vs_attrib < 2^63
  buffer : sizes.buffer < 2^63
  image : sizes.image < 2^63
  info_persistent : sizes.info_persistent < 2^63

theorem agrees_deserializeSpec (h : Sized sizes) (spec : StageSpecialization sizes) :
    Agrees (deserializeSpec spec) spec.deserialize :=
  (agrees_read (by decide)).bind fun start => (agrees_read h.runtime_info).bind fun runtime_info =>
    agrees_readString.bind fun bits => (agrees_lift _).bind fun bitset =>
      (agrees_deserializeFetch _).bind fun fetch_shader_data =>
        (agrees_readVector h.vs_attrib _).bind fun vs_attribs => (agrees_readVector h.buffer _).bind fun buffers =>
          (agrees_readVector h.image _).bind fun images => (agrees_readVector (by decide) _).bind fun fmasks =>
            (agrees_readVector (by decide) _).bind fun samplers => agrees_pure _

/-! ## Where the walker is reached -/

variable (shader : ShaderMeta sizes)

/-- What is read before the code of the walker. -/
def loadSrtInfo : Serdes PersistentSrtInfo := do
  let meta_version ← Reader.read (BitVec 32)
  if meta_version ≠ shaderMetaVersion then StateT.lift none
  else do
    let binary_version ← Reader.read (BitVec 32)
    if binary_version ≠ shaderBinaryVersion then StateT.lift none
    else do
      let _perm_hash_ar ← Reader.read (BitVec 64)
      let _perm_idx ← Reader.read (BitVec 64)
      let _spec ← shader.spec.deserialize
      let _persistent ← Reader.read (Blob sizes.info_persistent)
      let _flattened_ud_buf ← Reader.readVector shader.info.flattened_ud_buf
      let srt ← Reader.read PersistentSrtInfo
      pure srt

/-- A copy is not allowed exactly where the reads before it give a value of some kind. -/
def OutsideWhere (bad : β → Archive → Prop) (m : BoundedSerdes α) (p : Serdes β) : Prop :=
  ∀ ar, Bounds ar → (m ar = .outside ↔ ∃ value ar', p ar = some (value, ar') ∧ bad value ar')

theorem outsideWhere_pure (bad : β → Archive → Prop) (value : α) :
    OutsideWhere bad (pure value) (StateT.lift none) := fun _ _ => iff_of_false nofun fun ⟨_, _, h, _⟩ => nomatch h

variable {bad : β → Archive → Prop} {p : Serdes β}

theorem Agrees.outsideWhere (h : Agrees m m') {γ : Type} {g : α → BoundedSerdes γ} {p : α → Serdes β}
    (hg : ∀ value, OutsideWhere bad (g value) (p value)) : OutsideWhere bad (m >>= g) (m' >>= p) := by
  intro ar har
  have hm := h ar har
  show (match m ar with
    | .done value ar => g value ar
    | .stopped => .stopped
    | .outside => .outside) = Outcome.outside ↔
      ∃ value ar', (m' ar).bind (fun result => p result.1 result.2) = some (value, ar') ∧ bad value ar'
  cases hrun : m' ar with
  | none =>
    rw [hrun] at hm
    rw [hm]
    exact iff_of_false nofun fun ⟨_, _, h, _⟩ => nomatch h
  | some result =>
    rw [hrun] at hm
    rw [hm.1]
    exact hg result.1 result.2 hm.2

/-- What follows without copies. -/
theorem OutsideWhere.followed (h : OutsideWhere bad m p) {γ : Type} {g : α → BoundedSerdes γ}
    (hg : ∀ value ar, g value ar ≠ .outside) : OutsideWhere bad (m >>= g) p := by
  intro ar har
  rw [← h ar har]
  show (match m ar with
    | .done value ar => g value ar
    | .stopped => .stopped
    | .outside => .outside) = Outcome.outside ↔ _
  cases m ar with
  | done value ar => exact iff_of_false (hg value ar) nofun
  | stopped => exact iff_of_false nofun nofun
  | outside => exact iff_of_true rfl rfl

/-- The code that is copied without a check is not allowed. -/
def BadWalker (allowed : Archive → ℕ → Bool) (srt : PersistentSrtInfo) (ar : Archive) : Prop :=
  srt.walker_func_size ≠ 0 ∧ allowed ar srt.walker_func_size.toNat = false

theorem deserializeWalker_outside (srt : PersistentSrtInfo) :
    OutsideWhere (BadWalker allowed) (deserializeWalker allowed codegen srt) (pure srt) := by
  intro ar har
  have hpure : (∃ value ar', (pure srt : Serdes PersistentSrtInfo) ar = some (value, ar') ∧
      BadWalker allowed value ar') ↔ BadWalker allowed srt ar := by
    constructor
    · rintro ⟨value, ar', heq, hbad⟩
      obtain ⟨rfl, rfl⟩ := Prod.mk.inj (Option.some.inj heq)
      exact hbad
    · exact fun hbad => ⟨srt, ar, rfl, hbad⟩
  rw [hpure]
  unfold deserializeWalker BadWalker
  by_cases hsize : srt.walker_func_size ≠ 0
  · rw [if_pos hsize, and_iff_right hsize]
    dsimp only
    cases allowed ar srt.walker_func_size.toNat with
    | false => exact iff_of_true rfl rfl
    | true =>
      rw [if_pos rfl]
      split
      · exact iff_of_false nofun nofun
      · exact iff_of_false nofun nofun
  · rw [if_neg hsize]
    exact iff_of_false nofun fun hbad => hsize hbad.1

theorem deserializeInfo_outside (h : Sized sizes) (info : Info sizes) :
    OutsideWhere (BadWalker allowed) (deserializeInfo allowed codegen info) (do
      let _persistent ← Reader.read (Blob sizes.info_persistent)
      let _flattened_ud_buf ← Reader.readVector info.flattened_ud_buf
      Reader.read PersistentSrtInfo) := by
  have hsrt : OutsideWhere (BadWalker allowed) (deserializeSrt allowed codegen) (Reader.read PersistentSrtInfo) := by
    have hbind := (agrees_read (by decide)).outsideWhere fun srt => deserializeWalker_outside allowed codegen srt
    rwa [bind_pure] at hbind
  refine (agrees_read h.info_persistent).outsideWhere fun persistent => ?_
  exact (agrees_readVector (by decide) _).outsideWhere fun flattened_ud_buf => hsrt.followed fun ⟨_, _⟩ _ => nofun

theorem loadShaderMeta_outside (h : Sized sizes) (shader : ShaderMeta sizes) :
    OutsideWhere (BadWalker allowed) (loadShaderMeta allowed shader) (loadSrtInfo shader) := by
  refine (agrees_read (by decide)).outsideWhere fun meta_version => ?_
  split_ifs
  · exact outsideWhere_pure _ _
  refine (agrees_read (by decide)).outsideWhere fun binary_version => ?_
  split_ifs
  · exact outsideWhere_pure _ _
  refine (agrees_read (by decide)).outsideWhere fun perm_hash_ar => ?_
  refine (agrees_read (by decide)).outsideWhere fun perm_idx => ?_
  refine (agrees_deserializeSpec h shader.spec).outsideWhere fun spec => ?_
  exact (deserializeInfo_outside allowed shader.codegen h shader.info).followed fun ⟨_, _⟩ _ => nofun

/-- With a copy outside of the container that is not allowed, none is made. -/
def ReadsInside (container : List UInt8) : Prop :=
  loadShaderMeta (fun ar size => ar.offset + size ≤ ar.container.length) shader ⟨0, container⟩ ≠ .outside

/-- With copies without a check that are not allowed, none is made. -/
def ChecksFirst (container : List UInt8) : Prop :=
  loadShaderMeta (fun _ _ => false) shader ⟨0, container⟩ ≠ .outside

/-- The metadata of a shader with types of one byte, up to the code of the walker, of a size. -/
def metaWithWalker (walker_func_size : UInt8) : List UInt8 :=
  [3, 0, 0, 0, 3, 0, 0, 0] ++ List.replicate 102 0 ++ [walker_func_size] ++ List.replicate 15 0

/-- A code generator without code. -/
def emptyMeta : ShaderMeta ⟨1, 1, 1, 1, 1⟩ := { codegen := ⟨0, [], by decide, by decide⟩ }

end ShadPS4.Bounded
