import Mathlib.Data.List.Basic
import Mathlib.Data.Nat.ModEq

/-!
# `Liverpool::ProcessCompute`

A compute queue is a ring of dwords in memory.
-/

namespace ShadPS4.AmdGpu

abbrev Dword := BitVec 32

def type (header : Dword) : ℕ := header.toNat / 2^30

def numWords (header : Dword) : ℕ := (header.toNat / 2^16 % 2^14 + 1) % 2^14

def opcode (header : Dword) : ℕ := header.toNat / 2^8 % 2^8

def indirectBuffer : ℕ := 0x3F

def pm4BufferSize : ℕ := 1024

/-- What the packets do to the rest of the machine, of type `σ`. -/
structure Effects (σ : Type) where
  exec : σ → List Dword → σ
  /-- The buffer that an `IndirectBuffer` packet refers to. -/
  buffer : σ → List Dword → List Dword

structure AscQueueInfo where
  read_addr : ℕ
  ring_size_dw : ℕ
  tmp_packet : ℕ → Dword
  tmp_dwords : ℕ
  /-- The size of a ring is a power of two, as `sceGnmMapComputeQueue` checks. -/
  ring : ∃ k < 32, ring_size_dw = 2^k

namespace AscQueueInfo

variable (queue : AscQueueInfo)

/-- `*read_addr` is advanced. -/
def advance (dwords : ℕ) : AscQueueInfo :=
  { queue with read_addr := (queue.read_addr + dwords) % 2^32 % queue.ring_size_dw }

/-- Dwords are copied to `tmp_packet`. -/
def copy (offset : ℕ) (dwords : List Dword) : AscQueueInfo :=
  { queue with tmp_packet := fun i =>
      if offset ≤ i then dwords.getD (i - offset) (queue.tmp_packet i) else queue.tmp_packet i }

/-- The first dwords of `tmp_packet`. -/
def start (dwords : ℕ) : List Dword := (List.range dwords).map queue.tmp_packet

end AscQueueInfo

/-- What `ProcessCompute` works on. -/
structure Compute (σ : Type) where
  queue : AscQueueInfo
  machine : σ
  executed : List (List Dword) := []

variable {σ : Type} (effects : Effects σ)

def nextPacket (span : List Dword) (offset : ℕ) : List Dword :=
  if offset > span.length then [] else span.drop offset

/-- `*read_addr` is advanced, but not in an indirect buffer. -/
def Compute.advance (s : Compute σ) (is_indirect : Bool) (dwords : ℕ) : Compute σ :=
  if is_indirect then s else { s with queue := s.queue.advance dwords }

/-- The start of a packet that goes on in the next submission is kept. -/
def Compute.keep (s : Compute σ) (acb : List Dword) : Compute σ :=
  { s with queue := { s.queue.copy 0 acb with tmp_dwords := acb.length } }

/-- The header, the packet as far as it is in memory, and `next_dw_off`. -/
def fetchPacket (queue : AscQueueInfo) (first : Dword) (acb : List Dword) :
    Option (Dword × List Dword × ℕ × AscQueueInfo) :=
  if queue.tmp_dwords > 0 then
    let header := queue.tmp_packet 0
    let next_dw_off := (numWords header + 1 + 2^32 - queue.tmp_dwords) % 2^32
    if next_dw_off > acb.length ∨ queue.tmp_dwords + next_dw_off > pm4BufferSize then none
    else
      let packet := { queue.copy queue.tmp_dwords (acb.take next_dw_off) with tmp_dwords := 0 }
      some (header, packet.start (queue.tmp_dwords + next_dw_off), next_dw_off, packet)
  else
    let next_dw_off := numWords first + 1
    some (first, acb.take next_dw_off, next_dw_off, queue)

/-- The `switch` over the opcodes. The packets of another buffer are processed by `indirect`. -/
def execute (indirect : List Dword → Compute σ → Option (Compute σ)) (header : Dword) (packet : List Dword)
    (s : Compute σ) : Option (Compute σ) :=
  let s := { s with executed := s.executed ++ [packet] }
  if opcode header = indirectBuffer then indirect (effects.buffer s.machine packet) s
  else some { s with machine := effects.exec s.machine packet }

/-- `ProcessCompute`, with the number of turns that its loop may take, with those of the indirect buffers. -/
def processCompute : ℕ → Bool → List Dword → Compute σ → Option (Compute σ)
  | 0, _, _, _ => none
  | _ + 1, _, [], s => some s
  | turns + 1, is_indirect, first :: acb, s => do
    let (header, packet, next_dw_off, queue) ← fetchPacket s.queue first (first :: acb)
    let s := { s with queue }
    if next_dw_off > acb.length + 1 then
      if acb.length + 1 > pm4BufferSize then none
      else some ((s.keep (first :: acb)).advance is_indirect (acb.length + 1))
    else if type header = 2 then
      processCompute turns is_indirect (nextPacket (first :: acb) 1) (s.advance is_indirect 1)
    else if type header ≠ 3 then none
    else
      let s ← execute effects (processCompute turns true) header packet s
      processCompute turns is_indirect (nextPacket (first :: acb) next_dw_off)
        (s.advance is_indirect next_dw_off)

def processSubmits (turns : ℕ) (submits : List (List Dword)) (s : Compute σ) : Option (Compute σ) :=
  submits.foldlM (fun s acb => processCompute effects turns false acb s) s

end ShadPS4.AmdGpu
