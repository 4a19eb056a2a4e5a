import ShadPS4.AmdGpu.ComputeQueue
import ShadPS4.Lib.Turns

/-!
# Packets that are split between submissions

A stream of packets is cut into submissions.
-/

namespace ShadPS4.AmdGpu

open List Nat Option

variable {executed executed₁ executed₂ : List (List Dword)}

/-- A packet with a body, which fits into `tmp_packet`. -/
structure Type3 where
  header : Dword
  body : List Dword
  type_eq : type header = 3
  length_eq : body.length = numWords header
  fits : body.length < pm4BufferSize

/-- A packet of a well-formed stream. -/
inductive Packet
  | padding (header : Dword) (h : type header = 2)
  | type3 (packet : Type3)

def Type3.dwords (packet : Type3) : List Dword := packet.header :: packet.body

def Packet.dwords : Packet → List Dword
  | padding header _ => [header]
  | type3 packet => packet.dwords

def stream (packets : List Packet) : List Dword := packets.flatMap Packet.dwords

variable {σ : Type} {effects : Effects σ} {packets : List Packet} {packet : Type3} {header : Dword}
  {acb acb' front back submit : List Dword} {submits : List (List Dword)} {s s' : Compute σ}
  {is_indirect : Bool} {turns : ℕ}

/-- The packets of a buffer are whole, and padding leaves room for the dwords that its header announces. -/
inductive Whole : List Packet → Prop
  | nil : Whole []
  | padding {packets : List Packet} {header : Dword} {h : type header = 2}
    (hroom : numWords header ≤ (stream packets).length) (hrest : Whole packets) :
    Whole (.padding header h :: packets)
  | type3 {packets : List Packet} {packet : Type3} (hrest : Whole packets) : Whole (.type3 packet :: packets)

/-- The packets of a stream are executed, those of indirect buffers too. -/
inductive Executes (effects : Effects σ) : List Packet → σ → σ → List (List Dword) → Prop
  | nil {m : σ} : Executes effects [] m m []
  | padding {packets : List Packet} {header : Dword} {h : type header = 2} {m m' : σ}
    {executed : List (List Dword)} (hrest : Executes effects packets m m' executed) :
    Executes effects (.padding header h :: packets) m m' executed
  | exec {packets : List Packet} {packet : Type3} {m m' : σ} {executed : List (List Dword)}
    (hop : opcode packet.header ≠ indirectBuffer)
    (hrest : Executes effects packets (effects.exec m packet.dwords) m' executed) :
    Executes effects (.type3 packet :: packets) m m' (packet.dwords :: executed)
  | indirect {packets packets' : List Packet} {packet : Type3} {m m' m'' : σ}
    {executed executed' : List (List Dword)} (hop : opcode packet.header = indirectBuffer)
    (hbuffer : effects.buffer m packet.dwords = stream packets') (hwhole : Whole packets')
    (hindirect : Executes effects packets' m m' executed')
    (hrest : Executes effects packets m' m'' executed) :
    Executes effects (.type3 packet :: packets) m m'' (packet.dwords :: executed' ++ executed)

/-- How a stream of packets is cut: the rest of a submission, and the submissions after it. -/
inductive Cut : List Packet → List Dword → List (List Dword) → Prop
  | nil : Cut [] [] []
  | next {packets : List Packet} {submit : List Dword} {submits : List (List Dword)} (hne : submit ≠ [])
    (hrest : Cut packets submit submits) : Cut packets [] (submit :: submits)
  | padding {packets : List Packet} {header : Dword} {h : type header = 2} {acb : List Dword}
    {submits : List (List Dword)} (hroom : numWords header ≤ acb.length) (hrest : Cut packets acb submits) :
    Cut (.padding header h :: packets) (header :: acb) submits
  | last {header : Dword} {h : type header = 2} : Cut [.padding header h] [header] []
  | paddings {packets : List Packet} {header header' : Dword} {h : type header = 2} {h' : type header' = 2}
    {acb : List Dword} {submits : List (List Dword)} (hone : numWords header = 1)
    (hone' : numWords header' = 1) (hrest : Cut packets acb submits) :
    Cut (.padding header h :: .padding header' h' :: packets) [header] ((header' :: acb) :: submits)
  | type3 {packets : List Packet} {packet : Type3} {acb : List Dword} {submits : List (List Dword)}
    (hrest : Cut packets acb submits) : Cut (.type3 packet :: packets) (packet.dwords ++ acb) submits
  | split {packets : List Packet} {packet : Type3} {front back acb : List Dword}
    {submits : List (List Dword)} (hsplit : packet.dwords = front ++ back) (hfront : front ≠ [])
    (hback : back ≠ []) (hrest : Cut packets acb submits) :
    Cut (.type3 packet :: packets) front ((back ++ acb) :: submits)

theorem Cut.stream_eq (h : Cut packets acb submits) : acb ++ submits.flatten = stream packets := by
  induction h with
  | nil => rfl
  | next _ _ ih => rw [flatten_cons, nil_append, ih]
  | padding _ _ ih =>
    rw [cons_append, ih]
    rfl
  | last => rfl
  | paddings _ _ _ ih =>
    show _ :: _ :: (_ ++ _) = _
    rw [ih]
    rfl
  | type3 _ ih =>
    rw [append_assoc, ih]
    rfl
  | split hsplit _ _ _ ih =>
    rw [flatten_cons, append_assoc, ← append_assoc, ← hsplit, ih]
    rfl

theorem stream_eq_nil (h : stream packets = []) : packets = [] := by
  cases packets with
  | nil => rfl
  | cons packet packets =>
    cases packet with
    | padding header hp => cases h
    | type3 packet => cases h

theorem Cut.uncut (h : Cut packets acb submits) : Cut packets (stream packets) [] := by
  induction h with
  | nil => exact .nil
  | next _ _ ih => exact ih
  | @padding packets header hp acb submits hroom hrest ih =>
    refine .padding ?_ ih
    show numWords header ≤ (stream packets).length
    rw [← hrest.stream_eq, length_append]
    exact le_add_right_of_le hroom
  | last => exact .last
  | @paddings packets header header' hp hp' acb submits hone hone' hrest ih =>
    have hroom : numWords header ≤ (stream (.padding header' hp' :: packets)).length := by
      rw [hone]
      exact succ_le_succ (zero_le _)
    refine .padding hroom ?_
    rcases eq_nil_or_concat (stream packets) with hnil | ⟨init, w, hconcat⟩
    · obtain rfl := stream_eq_nil hnil
      exact .last
    · refine .padding ?_ ih
      show numWords header' ≤ (stream packets).length
      rw [hone', hconcat, concat_eq_append, length_append]
      exact le_add_left _ _
  | type3 _ ih => exact .type3 ih
  | split hsplit _ _ _ ih => exact .type3 ih

/-- Packets were executed, and `*read_addr` was advanced. -/
structure Processed (s s' : Compute σ) (m : σ) (executed : List (List Dword)) (dwords : ℕ) : Prop where
  machine : s'.machine = m
  executed : s'.executed = s.executed ++ executed
  ring_size_dw : s'.queue.ring_size_dw = s.queue.ring_size_dw
  read_addr : s'.queue.read_addr ≡ s.queue.read_addr + dwords [MOD s.queue.ring_size_dw]

theorem Processed.refl (s : Compute σ) : Processed s s s.machine [] 0 where
  machine := rfl
  executed := (append_nil _).symm
  ring_size_dw := rfl
  read_addr := Nat.ModEq.refl _

theorem Processed.trans (h : Processed s1 s2 m1 executed₁ n1) (h' : Processed s2 s3 m2 executed₂ n2) :
    Processed s1 s3 m2 (executed₁ ++ executed₂) (n1 + n2) where
  machine := h'.machine
  executed := by rw [h'.executed, h.executed, append_assoc]
  ring_size_dw := h'.ring_size_dw.trans h.ring_size_dw
  read_addr := by
    have hread := h'.read_addr
    rw [h.ring_size_dw] at hread
    rw [← add_assoc]
    exact hread.trans (h.read_addr.add_right n2)

/-- The dwords that `*read_addr` is advanced by. -/
def counted (is_indirect : Bool) (n : ℕ) : ℕ := if is_indirect then 0 else n

theorem counted_add (is_indirect : Bool) (n n' : ℕ) :
    counted is_indirect n + counted is_indirect n' = counted is_indirect (n + n') := by
  cases is_indirect with
  | true => rfl
  | false => rfl

theorem processed_advance (s : Compute σ) (is_indirect : Bool) (n : ℕ) :
    Processed s (s.advance is_indirect n) s.machine [] (counted is_indirect n) := by
  cases is_indirect with
  | true => exact Processed.refl s
  | false =>
    refine ⟨rfl, (append_nil _).symm, rfl, ?_⟩
    obtain ⟨k, hk, hring⟩ := s.queue.ring
    have hdvd : s.queue.ring_size_dw ∣ 2^32 := by
      rw [hring]
      exact pow_dvd_pow 2 hk.le
    show (s.queue.read_addr + n) % 2^32 % s.queue.ring_size_dw ≡ _ [MOD _]
    rw [mod_mod_of_dvd _ hdvd]
    exact mod_modEq _ _

theorem advance_tmp (s : Compute σ) (is_indirect : Bool) (n : ℕ) :
    (s.advance is_indirect n).queue.tmp_dwords = s.queue.tmp_dwords ∧
      (s.advance is_indirect n).queue.tmp_packet = s.queue.tmp_packet := by
  cases is_indirect with
  | true => exact ⟨rfl, rfl⟩
  | false => exact ⟨rfl, rfl⟩

/-! ## One packet -/

theorem fetchPacket_new (h : queue.tmp_dwords = 0) :
    fetchPacket queue first acb = some (first, acb.take (numWords first + 1), numWords first + 1, queue) := by
  unfold fetchPacket
  rw [if_neg (by omega)]

theorem processCompute_padding (hs : s.queue.tmp_dwords = 0) (htype : type header = 2)
    (hroom : numWords header ≤ acb.length) : processCompute effects (turns + 1) is_indirect (header :: acb) s =
      processCompute effects turns is_indirect acb (s.advance is_indirect 1) := by
  conv_lhs => unfold processCompute
  rw [fetchPacket_new hs, bind_eq_bind, bind_some]
  dsimp only
  rw [if_neg (by omega), if_pos htype]
  rfl

theorem processCompute_type3 (packet : Type3) (hs : s.queue.tmp_dwords = 0) :
    processCompute effects (turns + 1) is_indirect (packet.dwords ++ acb) s =
      (execute effects (processCompute effects turns true) packet.header packet.dwords s).bind fun s =>
        processCompute effects turns is_indirect acb (s.advance is_indirect packet.dwords.length) := by
  have hlength : numWords packet.header + 1 = packet.dwords.length := by
    rw [← packet.length_eq]
    rfl
  have htake : (packet.dwords ++ acb).take packet.dwords.length = packet.dwords := take_left
  have hdrop : nextPacket (packet.dwords ++ acb) packet.dwords.length = acb := by
    unfold nextPacket
    rw [if_neg (by rw [length_append]; omega), drop_left]
  have hle : ¬ packet.dwords.length > (packet.body ++ acb).length + 1 := by
    rw [length_append]
    show ¬ packet.body.length + 1 > _
    omega
  show processCompute effects (turns + 1) is_indirect (packet.header :: (packet.body ++ acb)) s = _
  conv_lhs => unfold processCompute
  rw [fetchPacket_new hs, bind_eq_bind, bind_some]
  dsimp only
  rw [hlength, if_neg hle, if_neg (by rw [packet.type_eq]; decide),
    if_neg (not_not_intro packet.type_eq), bind_eq_bind]
  show (execute effects _ _ ((packet.dwords ++ acb).take packet.dwords.length) s).bind (fun s =>
    processCompute effects turns is_indirect (nextPacket (packet.dwords ++ acb) packet.dwords.length) _) = _
  rw [htake, hdrop]

theorem copy_start (queue : AscQueueInfo) (offset : ℕ) (dwords : List Dword) :
    (queue.copy offset dwords).start (offset + dwords.length) = queue.start offset ++ dwords := by
  unfold AscQueueInfo.start
  apply ext_getElem
  · simp only [length_map, length_range, length_append]
  · intro i hi _
    rw [length_map, length_range] at hi
    rw [getElem_map, getElem_range]
    unfold AscQueueInfo.copy
    dsimp only
    rcases lt_or_ge i offset with hlt | hge
    · rw [if_neg (Nat.not_le.mpr hlt), getElem_append_left (by simpa using hlt), getElem_map,
        getElem_range]
    · rw [if_pos hge, getElem_append_right (by simpa using hge)]
      simp only [length_map, length_range]
      rw [getD_eq_getElem?_getD, getElem?_eq_getElem (by omega), getD_some]

/-- What is kept of a submission that ends in the start of a packet. -/
structure Kept (s s' : Compute σ) (front : List Dword) : Prop where
  start : s'.queue.start front.length = front
  tmp_dwords : s'.queue.tmp_dwords = front.length
  processed : Processed s s' s.machine [] front.length

theorem processCompute_keep (effects : Effects σ) (first : Dword) (acb : List Dword) (hs : s.queue.tmp_dwords = 0)
    (hsplit : acb.length < numWords first) (hfits : acb.length < pm4BufferSize) :
    ∃ s', (∀ turns, processCompute effects (turns + 1) false (first :: acb) s = some s') ∧
      Kept s s' (first :: acb) := by
  refine ⟨(s.keep (first :: acb)).advance false (acb.length + 1), fun turns => ?_, ?_⟩
  · unfold processCompute
    rw [fetchPacket_new hs, bind_eq_bind, bind_some]
    dsimp only
    rw [if_pos (by omega), if_neg (by omega)]
  · have hcopy := copy_start s.queue 0 (first :: acb)
    rw [zero_add] at hcopy
    exact {
      start := hcopy
      tmp_dwords := rfl
      processed := by
        have hadvance := processed_advance (s.keep (first :: acb)) false (acb.length + 1)
        exact ⟨hadvance.machine, hadvance.executed, hadvance.ring_size_dw, hadvance.read_addr⟩ }

theorem fetchPacket_kept (first : Dword) (front back acb : List Dword) (hstart : queue.start front.length = front)
    (htmp : queue.tmp_dwords = front.length) (hfront : front = w :: rest)
    (hlength : numWords w + 1 = front.length + back.length) (hfits : front.length + back.length ≤ pm4BufferSize) :
    ∃ queue', fetchPacket queue first (back ++ acb) = some (w, front ++ back, back.length, queue') ∧
      queue'.tmp_dwords = 0 ∧ queue'.read_addr = queue.read_addr ∧ queue'.ring_size_dw = queue.ring_size_dw := by
  have hheader : queue.tmp_packet 0 = w := by
    have hhead : (queue.start front.length)[0]? = some (queue.tmp_packet 0) := by
      unfold AscQueueInfo.start
      rw [getElem?_map, getElem?_range (by rw [hfront]; exact succ_pos _)]
      rfl
    rw [hstart, hfront] at hhead
    exact (Option.some.inj hhead).symm
  have hsize : pm4BufferSize = 1024 := rfl
  have hpos : 0 < front.length := by
    rw [hfront]
    exact succ_pos _
  have hnext : (numWords w + 1 + 2^32 - front.length) % 2^32 = back.length := by omega
  refine ⟨{ queue.copy front.length back with tmp_dwords := 0 }, ?_, rfl, rfl, rfl⟩
  unfold fetchPacket
  rw [htmp, if_pos hpos, hheader]
  dsimp only
  rw [hnext, if_neg (by rw [length_append]; omega), take_left]
  have hcopy := copy_start queue front.length back
  rw [hstart] at hcopy
  show some (w, (queue.copy front.length back).start (front.length + back.length), _, _) = _
  rw [hcopy]

theorem processCompute_resume (effects : Effects σ) (is_indirect : Bool) (acb : List Dword) (packet : Type3)
    (hsplit : packet.dwords = front ++ back) (hfront : front ≠ [])
    (hback : back ≠ []) (hstart : s.queue.start front.length = front)
    (htmp : s.queue.tmp_dwords = front.length) : ∃ s1, s1.queue.tmp_dwords = 0 ∧ Processed s s1 s.machine [] 0 ∧
      ∀ turns, processCompute effects (turns + 1) is_indirect (back ++ acb) s =
        (execute effects (processCompute effects turns true) packet.header packet.dwords s1).bind fun s =>
          processCompute effects turns is_indirect acb (s.advance is_indirect back.length) := by
  obtain ⟨w, rest, rfl⟩ := exists_cons_of_ne_nil hfront
  obtain ⟨first, back', rfl⟩ := exists_cons_of_ne_nil hback
  obtain ⟨hheader, hbody⟩ := List.cons.inj hsplit
  have hlength : numWords w + 1 = (w :: rest).length + (first :: back').length := by
    have hlength := congrArg length hsplit
    rw [length_append] at hlength
    rw [← hheader, ← packet.length_eq, hheader, ← hlength]
    rfl
  have hfits := packet.fits
  obtain ⟨queue', hfetch, htmp', hread, hring⟩ := fetchPacket_kept first (w :: rest) (first :: back') acb
    hstart htmp rfl hlength (by rw [← hlength, ← hheader, ← packet.length_eq]; exact hfits)
  refine ⟨{ s with queue := queue' }, htmp', ⟨rfl, (append_nil _).symm, hring, ?_⟩, ?_⟩
  · show queue'.read_addr ≡ _ [MOD _]
    rw [hread]
    exact Nat.ModEq.refl _
  · intro turns
    have hdrop : nextPacket (first :: back' ++ acb) (first :: back').length = acb := by
      unfold nextPacket
      rw [if_neg (by rw [length_append]; omega), drop_left]
    have hle : ¬ (first :: back').length > (back' ++ acb).length + 1 := by
      rw [length_append, length_cons]
      omega
    show processCompute effects (turns + 1) is_indirect (first :: (back' ++ acb)) s = _
    conv_lhs => unfold processCompute
    rw [← cons_append, hfetch, bind_eq_bind, bind_some]
    dsimp only
    rw [if_neg hle, ← hheader, if_neg (by rw [packet.type_eq]; decide),
      if_neg (not_not_intro packet.type_eq), hdrop, hheader, ← hsplit]
    rfl

theorem processCompute_resumePadding (effects : Effects σ) (is_indirect : Bool) (first : Dword)
    (acb : List Dword) (hstart : s.queue.start 1 = [header])
    (htmp : s.queue.tmp_dwords = 1) (htype : type header = 2) (hone : numWords header = 1) : ∃ s1,
      s1.queue.tmp_dwords = 0 ∧ Processed s s1 s.machine [] 0 ∧
      ∀ turns, processCompute effects (turns + 1) is_indirect (first :: acb) s =
        processCompute effects turns is_indirect acb (s1.advance is_indirect 1) := by
  obtain ⟨queue', hfetch, htmp', hread, hring⟩ := fetchPacket_kept first [header] [first] acb hstart htmp
    rfl (by rw [hone]; rfl)
    (show 2 ≤ pm4BufferSize by decide)
  refine ⟨{ s with queue := queue' }, htmp', ⟨rfl, (append_nil _).symm, hring, ?_⟩, ?_⟩
  · show queue'.read_addr ≡ _ [MOD _]
    rw [hread]
    exact Nat.ModEq.refl _
  · intro turns
    conv_lhs => unfold processCompute
    rw [← singleton_append, hfetch, bind_eq_bind, bind_some]
    dsimp only
    rw [if_neg (by rw [length_singleton]; omega), if_pos htype]
    rfl

/-! ## Streams -/

/-- What is left after packets: nothing is kept, and `*read_addr` is advanced. -/
structure Left (s s' : Compute σ) (m : σ) (executed : List (List Dword)) (dwords : ℕ) : Prop
    extends Processed s s' m executed dwords where
  tmp_dwords : s'.queue.tmp_dwords = 0

theorem Left.trans (h : Processed s1 s2 m1 executed₁ n1) (h' : Left s2 s3 m2 executed₂ n2) :
    Left s1 s3 m2 (executed₁ ++ executed₂) (n1 + n2) := ⟨h.trans h'.toProcessed, h'.tmp_dwords⟩

theorem execute_exec (s : Compute σ) (packet : Type3) (hs : s.queue.tmp_dwords = 0)
    (hop : opcode packet.header ≠ indirectBuffer) : ∃ s',
      Returns (fun turns => execute effects (processCompute effects turns true) packet.header packet.dwords s) s' ∧
      Left s s' (effects.exec s.machine packet.dwords) [packet.dwords] 0 := by
  refine ⟨{ s with
    machine := effects.exec s.machine packet.dwords
    executed := s.executed ++ [packet.dwords] }, ⟨0, fun _ _ => if_neg hop⟩, ⟨⟨rfl, rfl, rfl, ?_⟩, hs⟩⟩
  exact Nat.ModEq.refl _

theorem execute_indirect (s : Compute σ) (packet : Type3)
    (hs : s.queue.tmp_dwords = 0) (hop : opcode packet.header = indirectBuffer)
    (hindirect : ∀ s1 : Compute σ, s1.queue.tmp_dwords = 0 → s1.machine = s.machine → ∃ s',
      Returns (fun turns => processCompute effects turns true (effects.buffer s.machine packet.dwords) s1) s' ∧
      Left s1 s' m' executed 0) : ∃ s',
      Returns (fun turns => execute effects (processCompute effects turns true) packet.header packet.dwords s) s' ∧
      Left s s' m' (packet.dwords :: executed) 0 := by
  obtain ⟨s', hreturns, hleft⟩ := hindirect { s with executed := s.executed ++ [packet.dwords] } hs rfl
  obtain ⟨n, hn⟩ := hreturns
  refine ⟨s', ⟨n, fun turns hturns => (if_pos hop).trans (hn turns hturns)⟩, ?_⟩
  have hrecord : Processed s { s with executed := s.executed ++ [packet.dwords] } s.machine [packet.dwords] 0 :=
    ⟨rfl, rfl, rfl, Nat.ModEq.refl _⟩
  exact Left.trans hrecord hleft

theorem length_stream_cons (packet : Packet) (packets : List Packet) :
    (stream (packet :: packets)).length = packet.dwords.length + (stream packets).length := length_append

theorem processCompute_whole
    (h : Executes effects packets m m' executed) (hwhole : Whole packets) (is_indirect : Bool) (s : Compute σ)
    (hs : s.queue.tmp_dwords = 0) (hm : s.machine = m) : ∃ s',
      Returns (fun turns => processCompute effects turns is_indirect (stream packets) s) s' ∧
      Left s s' m' executed (counted is_indirect (stream packets).length) := by
  -- A packet is executed, and then the others are.
  have hnext {packet : Type3} {packets : List Packet} {m1 m' : σ} {executed₁ executed₂ : List (List Dword)}
      {s s1 : Compute σ} (is_indirect : Bool) (hs : s.queue.tmp_dwords = 0)
      (hexec : Returns (fun turns => execute effects (processCompute effects turns true) packet.header
        packet.dwords s) s1) (hleft : Left s s1 m1 executed₁ 0)
      (ih : ∀ s2 : Compute σ, s2.queue.tmp_dwords = 0 → s2.machine = m1 → ∃ s',
        Returns (fun turns => processCompute effects turns is_indirect (stream packets) s2) s' ∧
        Left s2 s' m' executed₂ (counted is_indirect (stream packets).length)) : ∃ s',
        Returns (fun turns => processCompute effects turns is_indirect (stream (.type3 packet :: packets)) s) s' ∧
        Left s s' m' (executed₁ ++ executed₂)
          (counted is_indirect (stream (.type3 packet :: packets)).length) := by
    have hadvance := processed_advance s1 is_indirect packet.dwords.length
    obtain ⟨s', hreturns, hleft'⟩ := ih (s1.advance is_indirect packet.dwords.length)
      ((advance_tmp s1 is_indirect _).1.trans hleft.tmp_dwords) (hadvance.machine.trans hleft.machine)
    refine ⟨s', (hexec.bind hreturns).step fun turns => processCompute_type3 packet hs, ?_⟩
    have hall := Left.trans (hleft.toProcessed.trans hadvance) hleft'
    rw [append_nil, zero_add, counted_add] at hall
    rw [length_stream_cons]
    exact hall
  induction h generalizing is_indirect s with
  | nil =>
    subst hm
    refine ⟨s, Returns.step (fun _ => rfl) (Returns.pure s), ⟨?_, hs⟩⟩
    cases is_indirect with
    | true => exact Processed.refl s
    | false => exact Processed.refl s
  | @padding packets header hp m m' executed hrest ih =>
    cases hwhole with
    | padding hroom hwhole =>
      have hadvance := processed_advance s is_indirect 1
      obtain ⟨s', hreturns, hleft⟩ := ih hwhole is_indirect (s.advance is_indirect 1)
        ((advance_tmp s is_indirect 1).1.trans hs) (hadvance.machine.trans hm)
      refine ⟨s', hreturns.step fun turns => processCompute_padding hs hp hroom, ?_⟩
      rw [length_stream_cons, ← counted_add]
      exact Left.trans hadvance hleft
  | @exec packets packet m m' executed hop hrest ih =>
    cases hwhole with
    | type3 hwhole =>
      subst hm
      obtain ⟨s1, hexec, hleft⟩ := execute_exec s packet hs hop
      exact hnext is_indirect hs hexec hleft (ih hwhole is_indirect)
  | @indirect packets packets' packet m m' m'' executed executed' hop hbuffer hwhole' hindirect hrest ih ih' =>
    cases hwhole with
    | type3 hwhole =>
      subst hm
      obtain ⟨s1, hexec, hleft⟩ := execute_indirect s packet hs hop fun s1 hs1 hm1 => by
        rw [hbuffer]
        exact ih hwhole' true s1 hs1 hm1
      exact hnext is_indirect hs hexec hleft (ih' hwhole is_indirect)

theorem Executes.type3 (h : Executes effects (.type3 packet :: packets) m m' executed) (hs : s.queue.tmp_dwords = 0)
    (hm : s.machine = m) : ∃ s1 m1 executed₁ executed₂,
      Returns (fun turns => execute effects (processCompute effects turns true) packet.header packet.dwords s) s1 ∧
      Left s s1 m1 executed₁ 0 ∧ Executes effects packets m1 m' executed₂ ∧ executed = executed₁ ++ executed₂ := by
  subst hm
  cases h with
  | exec hop hrest =>
    obtain ⟨s1, hexec, hleft⟩ := execute_exec s packet hs hop
    exact ⟨s1, _, _, _, hexec, hleft, hrest, rfl⟩
  | indirect hop hbuffer hwhole hindirect hrest =>
    obtain ⟨s1, hexec, hleft⟩ := execute_indirect s packet hs hop fun s1 hs1 hm1 => by
      rw [hbuffer]
      exact processCompute_whole hindirect hwhole true s1 hs1 hm1
    exact ⟨s1, _, _, _, hexec, hleft, hrest, rfl⟩

/-! ## Submissions -/

theorem Processed.cons (packet : Packet) (h : Processed s1 s2 m1 executed₁ packet.dwords.length)
    (h' : Processed s2 s3 m2 executed₂ (stream packets).length) (hn : n = (stream (packet :: packets)).length) :
    Processed s1 s3 m2 (executed₁ ++ executed₂) n := by
  rw [hn, length_stream_cons]
  exact h.trans h'

theorem processSubmits_cut (hcut : Cut packets acb submits)
    (h : Executes effects packets m m' executed) (s : Compute σ) (hs : s.queue.tmp_dwords = 0)
    (hm : s.machine = m) : ∃ s1 s', Returns (fun turns => processCompute effects turns false acb s) s1 ∧
      Returns (fun turns => processSubmits effects turns submits s1) s' ∧
      Processed s s' m' executed (stream packets).length := by
  induction hcut generalizing m executed s with
  | nil =>
    subst hm
    cases h
    exact ⟨s, s, Returns.step (fun _ => rfl) (Returns.pure s), Returns.pure s, Processed.refl s⟩
  | @next packets submit submits hne hrest ih =>
    obtain ⟨s1, s', hreturns, hsubmits, hprocessed⟩ := ih h s hs hm
    exact ⟨s, s', Returns.step (fun _ => rfl) (Returns.pure s), hreturns.bind hsubmits, hprocessed⟩
  | @padding packets header hp acb submits hroom hrest ih =>
    cases h with
    | padding h =>
      have hadvance := processed_advance s false 1
      obtain ⟨s1, s', hreturns, hsubmits, hprocessed⟩ := ih h (s.advance false 1)
        ((advance_tmp s false 1).1.trans hs) (hadvance.machine.trans hm)
      exact ⟨s1, s', hreturns.step fun turns => processCompute_padding hs hp hroom, hsubmits,
        Processed.cons (.padding header hp) hadvance hprocessed rfl⟩
  | @last header hp =>
    subst hm
    cases h with
    | padding h =>
      cases h
      rcases Nat.eq_zero_or_pos (numWords header) with hzero | hpos
      · exact ⟨_, _, Returns.step (fun turns => processCompute_padding hs hp (le_of_eq hzero))
          (Returns.step (fun _ => rfl) (Returns.pure _)), Returns.pure _, processed_advance s false 1⟩
      · -- The dword is kept, and there is no other submission.
        obtain ⟨s', hkeep, hkept⟩ := processCompute_keep effects header [] hs hpos (by decide)
        exact ⟨s', s', Returns.step hkeep (Returns.pure s'), Returns.pure s', hkept.processed⟩
  | @paddings packets header header' hp hp' acb submits hone hone' hrest ih =>
    subst hm
    cases h with
    | padding h =>
      cases h with
      | padding h =>
        obtain ⟨s1, hkeep, hkept⟩ := processCompute_keep effects header [] hs (by rw [hone]; decide) (by decide)
        obtain ⟨s2, hs2, hresume, hcompute⟩ := processCompute_resumePadding effects false header' acb
          hkept.start hkept.tmp_dwords hp hone
        have hadvance := processed_advance s2 false 1
        have hfirst := hresume.trans hadvance
        rw [hresume.machine, hkept.processed.machine, zero_add] at hfirst
        obtain ⟨s3, s', hreturns, hsubmits, hprocessed⟩ := ih h (s2.advance false 1)
          ((advance_tmp s2 false 1).1.trans hs2) hfirst.machine
        exact ⟨s1, s', Returns.step hkeep (Returns.pure s1), (hreturns.step hcompute).bind hsubmits,
          Processed.cons (.padding header hp) hkept.processed
            (Processed.cons (.padding header' hp') hfirst hprocessed rfl) rfl⟩
  | @type3 packets packet acb submits hrest ih =>
    obtain ⟨s1, m1, executed₁, executed₂, hexec, hleft, h', rfl⟩ := h.type3 hs hm
    have hadvance := processed_advance s1 false packet.dwords.length
    obtain ⟨s2, s', hreturns, hsubmits, hprocessed⟩ := ih h' (s1.advance false packet.dwords.length)
      ((advance_tmp s1 false _).1.trans hleft.tmp_dwords) (hadvance.machine.trans hleft.machine)
    have hfirst := hleft.toProcessed.trans hadvance
    rw [append_nil, zero_add] at hfirst
    exact ⟨s2, s', (hexec.bind hreturns).step fun turns => processCompute_type3 packet hs, hsubmits,
      Processed.cons (.type3 packet) hfirst hprocessed rfl⟩
  | @split packets packet front back acb submits hsplit hfront hback hrest ih =>
    obtain ⟨first, front', rfl⟩ := exists_cons_of_ne_nil hfront
    have hlength : packet.body.length = front'.length + back.length := by
      have hbody := (List.cons.inj hsplit).2
      rw [hbody]
      exact length_append
    have hpos : 0 < back.length := length_pos_iff.mpr hback
    have hheader : packet.header = first := (List.cons.inj hsplit).1
    have hfits := packet.fits
    obtain ⟨s1, hkeep, hkept⟩ := processCompute_keep effects first front' hs
      (by rw [← hheader, ← packet.length_eq]; omega) (by omega)
    obtain ⟨s2, hs2, hresume, hcompute⟩ := processCompute_resume effects false acb packet hsplit hfront hback hkept.start hkept.tmp_dwords
    obtain ⟨s3, m1, executed₁, executed₂, hexec, hleft, h', rfl⟩ := h.type3 hs2
      (hresume.machine.trans (hkept.processed.machine.trans hm))
    have hadvance := processed_advance s3 false back.length
    obtain ⟨s4, s', hreturns, hsubmits, hprocessed⟩ := ih h' (s3.advance false back.length)
      ((advance_tmp s3 false _).1.trans hleft.tmp_dwords) (hadvance.machine.trans hleft.machine)
    have hfirst := (hkept.processed.trans hresume).trans (hleft.toProcessed.trans hadvance)
    rw [append_nil, nil_append, append_nil, add_zero, zero_add] at hfirst
    have hdwords : (first :: front').length + counted false back.length = packet.dwords.length := by
      rw [hsplit, length_append]
      rfl
    rw [hdwords] at hfirst
    exact ⟨s1, s', Returns.step hkeep (Returns.pure s1), ((hexec.bind hreturns).step hcompute).bind hsubmits,
      Processed.cons (.type3 packet) hfirst hprocessed rfl⟩

/-- Submissions that a stream is cut into execute what the stream executes, in its order, and `*read_addr` is
advanced by their dwords. -/
theorem processSubmits_stream (effects : Effects σ) (packets : List Packet) (submits : List (List Dword))
    (s : Compute σ) (m' : σ) (executed : List (List Dword)) (hs : s.queue.tmp_dwords = 0)
    (h : Executes effects packets s.machine m' executed) (hcut : Cut packets [] submits) :
    submits.flatten = stream packets ∧ ∃ s₁ s₂, Returns (fun turns => processSubmits effects turns submits s) s₁ ∧
      Returns (fun turns => processSubmits effects turns [stream packets] s) s₂ ∧
      Processed s s₁ m' executed submits.flatten.length ∧ Processed s s₂ m' executed submits.flatten.length := by
  have hstream : submits.flatten = stream packets := hcut.stream_eq
  obtain ⟨s₀, s₁, hnone, hsubmits, hprocessed⟩ := processSubmits_cut hcut h s hs rfl
  -- Nothing is processed before the first submission.
  obtain rfl : s = s₀ := by
    obtain ⟨n, hn⟩ := hnone
    exact Option.some.inj (hn (n + 1) (le_succ n))
  obtain ⟨s₂, s₂', hwhole, hend, hprocessed'⟩ := processSubmits_cut hcut.uncut h s hs rfl
  refine ⟨hstream, s₁, s₂', hsubmits, hwhole.bind hend, ?_, ?_⟩
  · rw [hstream]
    exact hprocessed
  · rw [hstream]
    exact hprocessed'

/-! ## Samples -/

/-- A packet that does nothing. -/
def nop : Type3 := ⟨0xC0001000, [0xFFFF1000], by decide, by decide, by decide⟩

def indirectBufferPacket : Type3 := ⟨0xC0023F00, [1, 2, 3], by decide, by decide, by decide⟩

def paddingPacket : Packet := .padding 0x80000000 (by decide)

def sampleEffects : Effects ℕ := ⟨fun m _ => m + 1, fun _ _ => stream [paddingPacket, .type3 nop]⟩

/-- A queue from which nothing is kept. -/
def sampleCompute : Compute ℕ := ⟨⟨250, 256, fun _ => 0, 0, 8, by decide, rfl⟩, 0, []⟩

def samplePackets : List Packet := [.type3 nop, paddingPacket, .type3 indirectBufferPacket]

def sampleSubmits : List (List Dword) := [[0xC0001000], [0xFFFF1000, 0x80000000, 0xC0023F00, 1], [2, 3]]

theorem sampleSubmits_cut : Cut samplePackets [] sampleSubmits := by
  have hindirect : Cut [.type3 indirectBufferPacket] [0xC0023F00, 1] [[2, 3]] :=
    .split (show indirectBufferPacket.dwords = [0xC0023F00, 1] ++ [2, 3] from rfl)
      (cons_ne_nil _ _) (cons_ne_nil _ _) .nil
  have hpadding : Cut [paddingPacket, .type3 indirectBufferPacket] [0x80000000, 0xC0023F00, 1] [[2, 3]] :=
    .padding (by decide) hindirect
  exact .next (cons_ne_nil _ _) (.split (show nop.dwords = [0xC0001000] ++ [0xFFFF1000] from rfl)
    (cons_ne_nil _ _) (cons_ne_nil _ _) hpadding)

theorem samplePackets_executes : Executes sampleEffects samplePackets 0 2
    [nop.dwords, indirectBufferPacket.dwords, nop.dwords] := by
  have hbuffer : Executes sampleEffects [paddingPacket, .type3 nop] 1 2 [nop.dwords] :=
    .padding (.exec (by decide) .nil)
  have hwhole : Whole [paddingPacket, .type3 nop] := .padding (by decide) (.type3 .nil)
  exact .exec (by decide) (.padding (.indirect (by decide) rfl hwhole hbuffer .nil))

theorem processSubmits_sample : sampleSubmits.flatten = stream samplePackets ∧ ∃ s₁ s₂,
    Returns (fun turns => processSubmits sampleEffects turns sampleSubmits sampleCompute) s₁ ∧
    Returns (fun turns => processSubmits sampleEffects turns [stream samplePackets] sampleCompute) s₂ ∧
    Processed sampleCompute s₁ 2 [nop.dwords, indirectBufferPacket.dwords, nop.dwords] sampleSubmits.flatten.length ∧
    Processed sampleCompute s₂ 2 [nop.dwords, indirectBufferPacket.dwords, nop.dwords] sampleSubmits.flatten.length :=
  processSubmits_stream sampleEffects samplePackets sampleSubmits sampleCompute 2 _ rfl samplePackets_executes
    sampleSubmits_cut

/-- After padding at the end of a submission the header of the next packet is passed over, so another packet is
executed. -/
theorem processSubmits_padding :
    (processSubmits sampleEffects 5 [[0x80000000, 0xC0001000, 0xFFFF1000]] sampleCompute).map
      (·.executed) = some [nop.dwords] ∧
    (processSubmits sampleEffects 5 [[0x80000000], [0xC0001000, 0xFFFF1000]] sampleCompute).map
      (·.executed) = some [[0xFFFF1000]] ∧ (processSubmits sampleEffects 5 [[0xC0011000, 1, 2]] sampleCompute).map
      (·.executed) = some [[0xC0011000, 1, 2]] ∧
    (processSubmits sampleEffects 5 [[0xC0011000], [1], [2]] sampleCompute).map (·.executed) = none :=
  ⟨by decide, by decide, by decide, by decide⟩

end ShadPS4.AmdGpu
