import RyFi.Modem.Transmitter
import RyFi.Modem.ReceiverSafety

/-! # What the transmitter puts into a frame

The chunks of a frame are determined by where the frame starts in the stream of serialized
packets.  `Cursor` is a position in a frame and in that stream, `Cursor.advance` lays one
chunk, and `Filled` says that a list of chunks leads from one cursor to another and that
the frame holds their bytes.  `sendFrame_spec` gives every frame of the worker in these
terms; the receiver is proved against `Filled` alone.
-/

namespace RyFi.Modem

open CLoop

/-- The packet accepted as number `k`. -/
def packetAt (acc : List Packet) (k : Nat) : Packet := acc.getD k Packet.empty

/-- Byte `j` of the serialized packet number `k`. -/
def byteAt (acc : List Packet) (k j : Nat) : UInt8 := (packetAt acc k).serialize.getD j 0

theorem packetAt_mono {acc acc' : List Packet} (h : acc <+: acc') {k : Nat}
    (hk : k < acc.length) : packetAt acc' k = packetAt acc k := by
  obtain ⟨rest, rfl⟩ := h
  simp [packetAt, List.getD_eq_getElem?_getD, List.getElem?_append_left hk]

theorem packetAt_mem {acc : List Packet} {k : Nat} (hk : k < acc.length) :
    packetAt acc k ∈ acc := by
  rw [packetAt, List.getD_eq_getElem?_getD, List.getElem?_eq_getElem hk]
  exact List.getElem_mem hk

/-! ## Cursors -/

/-- A position in a frame and in the packet stream: `next` packets were started, and
    `written` bytes of the last one are out if it is unfinished (else `written = 0`). -/
structure Cursor where
  offset : Nat
  next : Nat
  written : Nat

namespace Cursor

/-- The packet the next byte belongs to. -/
def packet (c : Cursor) : Nat := if c.written = 0 then c.next else c.next - 1

def total (acc : List Packet) (c : Cursor) : Nat := (packetAt acc c.packet).serializedSize

/-- The chunk laid at the cursor: what is left of the packet and fits the frame. -/
def chunk (acc : List Packet) (c : Cursor) : Chunk where
  offset := c.offset
  packet := c.packet
  start := c.written
  length := min (c.total acc - c.written) (FRAME_DATA_SIZE - c.offset)

/-- The cursor after the chunk. -/
def advance (acc : List Packet) (c : Cursor) : Cursor where
  offset := c.offset + (c.chunk acc).length
  next := c.packet + 1
  written :=
    if c.written + (c.chunk acc).length = c.total acc then 0
    else c.written + (c.chunk acc).length

/-- A chunk can be laid here: the rest of an unfinished packet, or a new one whose two
    size bytes fit. -/
structure Ready (acc : List Packet) (c : Cursor) : Prop where
  packet_lt : c.packet < acc.length
  packet_pos : 0 < (packetAt acc c.packet).size
  fresh : c.written = 0 → c.offset + 2 ≤ FRAME_DATA_SIZE
  unfinished : c.written ≠ 0 →
    c.offset < FRAME_DATA_SIZE ∧ 1 ≤ c.next ∧ 2 ≤ c.written ∧ c.written < c.total acc

theorem total_mono {acc acc' : List Packet} (h : acc <+: acc') {c : Cursor}
    (hc : c.packet < acc.length) : c.total acc' = c.total acc := by
  simp only [total, packetAt_mono h hc]

theorem chunk_mono {acc acc' : List Packet} (h : acc <+: acc') {c : Cursor}
    (hc : c.packet < acc.length) : c.chunk acc' = c.chunk acc := by
  simp only [chunk, total_mono h hc]

theorem advance_mono {acc acc' : List Packet} (h : acc <+: acc') {c : Cursor}
    (hc : c.packet < acc.length) : c.advance acc' = c.advance acc := by
  simp only [advance, total_mono h hc, chunk_mono h hc]

theorem Ready.mono {acc acc' : List Packet} (h : acc <+: acc') {c : Cursor}
    (hc : c.Ready acc) : c.Ready acc' where
  packet_lt := Nat.lt_of_lt_of_le hc.packet_lt h.length_le
  packet_pos := by rw [packetAt_mono h hc.packet_lt]; exact hc.packet_pos
  fresh := hc.fresh
  unfinished := by rw [total_mono h hc.packet_lt]; exact hc.unfinished

section

variable {acc : List Packet} {c : Cursor}

theorem chunk_length : (c.chunk acc).length = min (c.total acc - c.written) (886 - c.offset) :=
  rfl

theorem total_eq : c.total acc = (packetAt acc c.packet).size + 2 := rfl

/-- A chunk of a ready cursor is not empty and stays in the frame. -/
theorem Ready.length_pos (h : c.Ready acc) :
    0 < (c.chunk acc).length ∧ c.offset + (c.chunk acc).length ≤ 886 ∧
      c.written + (c.chunk acc).length ≤ c.total acc := by
  have hpos := h.packet_pos
  have htotal : c.total acc = _ := total_eq
  have hlen : (c.chunk acc).length = _ := chunk_length
  by_cases hw : c.written = 0
  · have := h.fresh hw
    simp only [FRAME_DATA_SIZE_eq] at this
    omega
  · have := h.unfinished hw
    simp only [FRAME_DATA_SIZE_eq] at this
    omega

/-- An unfinished packet fills its frame. -/
theorem Ready.advance_written (h : c.Ready acc) :
    (c.advance acc).written = 0 ∧ c.written + (c.chunk acc).length = c.total acc ∨
      (c.advance acc).offset = 886 ∧ 2 ≤ (c.advance acc).written ∧
        (c.advance acc).written = c.written + (c.chunk acc).length ∧
        (c.advance acc).written < c.total acc := by
  have hpos := h.length_pos
  have hlen : (c.chunk acc).length = _ := chunk_length
  by_cases hend : c.written + (c.chunk acc).length = c.total acc
  · exact Or.inl ⟨if_pos hend, hend⟩
  · have hw' : (c.advance acc).written = c.written + (c.chunk acc).length := if_neg hend
    have hoff : (c.advance acc).offset = c.offset + (c.chunk acc).length := rfl
    refine Or.inr ⟨by omega, ?_, hw', by omega⟩
    by_cases hw : c.written = 0
    · have := h.fresh hw
      have := h.packet_pos
      have : c.total acc = _ := total_eq
      simp only [FRAME_DATA_SIZE_eq] at *
      omega
    · have := (h.unfinished hw).2.2.1
      omega

end

end Cursor

/-! ## Filled frames -/

/-- The chunks laid from `c` on lead to `c'`, and `content` holds their bytes. -/
inductive Filled (acc : List Packet) (content : Nat → UInt8) :
    Cursor → List Chunk → Cursor → Prop where
  | nil (c : Cursor) : Filled acc content c [] c
  | cons {c : Cursor} {chunks : List Chunk} {c' : Cursor} (ready : c.Ready acc)
      (bytes : ∀ j, j < (c.chunk acc).length →
        content (c.offset + j) = byteAt acc c.packet (c.written + j))
      (rest : Filled acc content (c.advance acc) chunks c') :
      Filled acc content c (c.chunk acc :: chunks) c'

namespace Filled

variable {acc acc' : List Packet} {content content' : Nat → UInt8} {c c' : Cursor}
  {chunks : List Chunk}

theorem offset_le (h : Filled acc content c chunks c') : c.offset ≤ c'.offset := by
  induction h with
  | nil c => exact Nat.le_refl _
  | @cons c chunks c' ready bytes rest ih =>
    have : (c.advance acc).offset = c.offset + (c.chunk acc).length := rfl
    omega

/-- Each chunk lies between the two cursors and inside the frame. -/
theorem chunk_bounds (h : Filled acc content c chunks c') {ch : Chunk} (hch : ch ∈ chunks) :
    c.offset ≤ ch.offset ∧ ch.offset + ch.length ≤ c'.offset ∧ 0 < ch.length ∧
      ch.offset + ch.length ≤ 886 ∧ (ch.start = 0 → ch.offset ≤ 884) := by
  induction h with
  | nil c => cases hch
  | @cons c chunks c' ready bytes rest ih =>
    have hoff : (c.advance acc).offset = c.offset + (c.chunk acc).length := rfl
    have hpos := ready.length_pos
    have hle := rest.offset_le
    rcases List.mem_cons.mp hch with rfl | hmem
    · have hfresh := ready.fresh
      simp only [FRAME_DATA_SIZE_eq] at hfresh
      refine ⟨Nat.le_refl _, ?_, hpos.1, hpos.2.1, ?_⟩
      · change c.offset + _ ≤ _; omega
      · intro hstart; change c.offset ≤ 884; have := hfresh hstart; omega
    · have := ih hmem
      omega

theorem mono (hacc : acc <+: acc') (h : Filled acc content c chunks c') :
    Filled acc' content c chunks c' := by
  induction h with
  | nil c => exact .nil c
  | @cons c chunks c' ready bytes rest ih =>
    rw [← Cursor.chunk_mono hacc ready.packet_lt]
    refine .cons (ready.mono hacc) ?_ ?_
    · rw [Cursor.chunk_mono hacc ready.packet_lt]
      intro j hj
      rw [bytes j hj, byteAt, byteAt, packetAt_mono hacc ready.packet_lt]
    · rw [Cursor.advance_mono hacc ready.packet_lt]; exact ih

/-- Only the bytes below the end matter. -/
theorem congr (h : Filled acc content c chunks c')
    (agree : ∀ i, i < c'.offset → content' i = content i) :
    Filled acc content' c chunks c' := by
  induction h with
  | nil c => exact .nil c
  | @cons c chunks c' ready bytes rest ih =>
    have hoff : (c.advance acc).offset = c.offset + (c.chunk acc).length := rfl
    have hle := rest.offset_le
    refine .cons ready ?_ (ih agree)
    intro j hj
    rw [agree _ (by omega), bytes j hj]

theorem snoc (h : Filled acc content c chunks c') (ready : c'.Ready acc)
    (bytes : ∀ j, j < (c'.chunk acc).length →
      content (c'.offset + j) = byteAt acc c'.packet (c'.written + j)) :
    Filled acc content c (chunks ++ [c'.chunk acc]) (c'.advance acc) := by
  induction h with
  | nil c => exact .cons ready bytes (.nil _)
  | cons ready' bytes' rest ih => exact .cons ready' bytes' (ih ready bytes)

/-- After the first chunk every chunk starts a packet. -/
theorem start_eq_zero (h : Filled acc content c chunks c') (hc : c.written = 0)
    {ch : Chunk} (hch : ch ∈ chunks) : ch.start = 0 := by
  induction h with
  | nil c => cases hch
  | @cons c chunks c' ready bytes rest ih =>
    rcases List.mem_cons.mp hch with rfl | hmem
    · exact hc
    · rcases ready.advance_written with hw | hw
      · exact ih hw.1 hmem
      · -- a cursor at the end of the frame lays no chunk
        have hbounds := rest.chunk_bounds hmem
        omega

end Filled

/-- The offsets at which packets start. -/
def startOffsets (chunks : List Chunk) : List Nat :=
  (chunks.filter (·.start == 0)).map (·.offset)

/-- The value of a packet pointer of the frame header. -/
def pointer (offset : Option Nat) : UInt16 := (offset.map UInt16.ofNat).getD PKT_OFFS_NONE

theorem pointer_some_toNat {o : Nat} (h : o < 886) : (pointer (some o)).toNat = o := by
  have : (pointer (some o)).toNat = o % 2 ^ 16 := UInt16.toNat_ofNat'
  omega

theorem pointer_some_ne {o : Nat} (h : o < 886) : pointer (some o) ≠ PKT_OFFS_NONE := by
  intro hnone
  have := pointer_some_toNat h
  rw [hnone, PKT_OFFS_NONE_toNat] at this
  omega

theorem startOffsets_snoc (chunks : List Chunk) (ch : Chunk) :
    startOffsets (chunks ++ [ch]) =
      startOffsets chunks ++ (if ch.start = 0 then [ch.offset] else []) := by
  by_cases h : ch.start = 0 <;> simp [startOffsets, List.filter_append, h]

/-! ## The queue -/

namespace Queue

/-- The queue holds the accepted packets not yet popped, none of them empty. -/
structure Wf (q : Queue) : Prop where
  popped_le : q.popped ≤ q.accepted.length
  packets_eq : q.packets = q.accepted.drop q.popped
  nonempty : ∀ p ∈ q.accepted, 0 < p.size

theorem wf_empty : Wf empty := ⟨Nat.le_refl _, rfl, by simp [empty]⟩

theorem send_spec {q : Queue} (h : q.Wf) {p : Packet} (hp : 0 < p.size) :
    (q.send p).2.Wf ∧ q.accepted <+: (q.send p).2.accepted ∧ (q.send p).2.popped = q.popped := by
  unfold send
  split
  · exact ⟨h, List.prefix_refl _, rfl⟩
  · refine ⟨⟨?_, ?_, ?_⟩, List.prefix_append _ _, rfl⟩
    · have := h.popped_le
      simp only [List.length_append, List.length_singleton]; omega
    · simp only [h.packets_eq]
      rw [List.drop_append_of_le_length h.popped_le]
    · intro p' hp'
      rcases List.mem_append.mp hp' with hold | hnew
      · exact h.nonempty p' hold
      · rw [List.mem_singleton.mp hnew]; exact hp

theorem sendAll_spec {q : Queue} (h : q.Wf) {ps : List Packet} (hps : ∀ p ∈ ps, 0 < p.size) :
    (q.sendAll ps).Wf ∧ q.accepted <+: (q.sendAll ps).accepted ∧
      (q.sendAll ps).popped = q.popped := by
  induction ps generalizing q with
  | nil => exact ⟨h, List.prefix_refl _, rfl⟩
  | cons p ps ih =>
    obtain ⟨hwf, hpre, hpop⟩ := send_spec h (hps p (List.mem_cons_self ..))
    obtain ⟨hwf', hpre', hpop'⟩ := ih hwf fun p' hp' => hps p' (List.mem_cons_of_mem _ hp')
    exact ⟨hwf', hpre.trans hpre', hpop'.trans hpop⟩

/-- A pop returns the next accepted packet, or the empty packet when there is none. -/
theorem popPacket_spec {q : Queue} (h : q.Wf) :
    (q.popPacket = (Packet.empty, q) ∧ q.popped = q.accepted.length) ∨
      (q.popped < q.accepted.length ∧ q.popPacket.1 = packetAt q.accepted q.popped ∧
        q.popPacket.2.Wf ∧ q.popPacket.2.accepted = q.accepted ∧
        q.popPacket.2.popped = q.popped + 1) := by
  have hdrop := h.packets_eq
  have hle := h.popped_le
  cases hp : q.packets with
  | nil =>
    refine Or.inl ⟨by simp [popPacket, hp], ?_⟩
    rw [hp, eq_comm, List.drop_eq_nil_iff] at hdrop
    omega
  | cons p rest =>
    have hlt : q.popped < q.accepted.length := by
      by_contra hge
      rw [List.drop_of_length_le (by omega), hp] at hdrop
      cases hdrop
    rw [hp, List.drop_eq_getElem_cons hlt, List.cons.injEq] at hdrop
    refine Or.inr ⟨hlt, ?_, ⟨?_, ?_, ?_⟩, ?_, ?_⟩
    · simp [popPacket, hp, hdrop.1, packetAt, List.getD_eq_getElem?_getD,
        List.getElem?_eq_getElem hlt]
    · simp only [popPacket, hp]; omega
    · simp only [popPacket, hp]; exact hdrop.2
    · simp only [popPacket, hp]; exact h.nonempty
    · simp only [popPacket, hp]
    · simp only [popPacket, hp]

end Queue

/-! ## The fill loop -/

/-- The packet being sent is the last one popped, and `pktBuffer` holds its bytes. -/
structure Worker.Unfinished (w : Worker) : Prop where
  popped_pos : 1 ≤ w.queue.popped
  valid : w.pkt.toBool = true
  written_ge : 2 ≤ w.pktWritten
  written_lt : w.pktWritten < w.pktToWrite
  toWrite : w.pktToWrite = (packetAt w.queue.accepted (w.queue.popped - 1)).serializedSize
  buffer : ∀ j, j < w.pktToWrite →
    w.pktBuffer j = byteAt w.queue.accepted (w.queue.popped - 1) j

/-- The worker between two frames. -/
structure Worker.Inv (w : Worker) : Prop where
  queue : w.queue.Wf
  unfinished : w.pktWritten ≠ 0 → w.Unfinished

/-- The cursor of the worker. -/
def Worker.cursor (w : Worker) (offset : Nat) : Cursor :=
  ⟨offset, w.queue.popped, w.pktWritten⟩

/-- The loop invariant of the fill loop of a frame that began at `c`. -/
structure Fill.Inv (c : Cursor) (s : Fill) : Prop extends s.toWorker.Inv where
  filled : Filled s.queue.accepted s.content c s.chunks (s.cursor s.frameOffset)
  first : s.firstPacket = pointer (startOffsets s.chunks).head?
  last : s.lastPacket = pointer (startOffsets s.chunks).getLast?
  left : s.filling = false → s.pktWritten = 0
  offset_le : s.frameOffset ≤ FRAME_DATA_SIZE

namespace Fill

theorem running_iff {s : Fill} :
    s.running = true ↔ s.filling = true ∧ s.frameOffset < FRAME_DATA_SIZE := by
  simp only [running, Bool.and_eq_true, decide_eq_true_eq]

theorem inv_fillNoise {env : Environment} {c : Cursor} {s : Fill} (h : s.Inv c)
    (hw : s.pktWritten = 0) : (s.fillNoise env).Inv c where
  queue := h.queue
  unfinished := fun hne => absurd hw hne
  filled := h.filled.congr fun _ hi => copyRange_below hi
  first := h.first
  last := h.last
  left := fun _ => hw
  offset_le := h.offset_le

/-- The copy lays the chunk of its cursor. -/
theorem copyData_spec {s : Fill} {c : Cursor} {acc : List Packet} (ready : c.Ready acc)
    (hoffset : s.frameOffset = c.offset) (hwritten : s.pktWritten = c.written)
    (htotal : s.pktToWrite = c.total acc) (hpopped : s.queue.popped = c.packet + 1) :
    s.copyData =
      { s with
        content := copyRange s.content c.offset s.pktBuffer c.written (c.chunk acc).length
        chunks := s.chunks ++ [c.chunk acc]
        frameOffset := (c.advance acc).offset
        pktWritten := (c.advance acc).written
        pktToWrite := if (c.advance acc).written = 0 then 0 else s.pktToWrite } := by
  have hpos := ready.length_pos
  have hadv := ready.advance_written
  have hlen : min (c.total acc - c.written) (FRAME_DATA_SIZE - c.offset) =
      (c.chunk acc).length := rfl
  have hpacket : s.queue.popped - 1 = c.packet := by omega
  simp only [copyData, hoffset, hwritten, htotal, hlen, hpacket]
  rcases hadv with ⟨hzero, hend⟩ | ⟨-, hge, hw, hlt⟩
  · rw [if_pos (by omega), if_pos hzero, hzero]
    rfl
  · rw [if_neg (by omega), if_neg (by omega), hw]
    rfl

/-- Laying a chunk keeps the invariant. -/
theorem inv_copyData {s : Fill} {c₀ c : Cursor} (queue : s.queue.Wf)
    (filled : Filled s.queue.accepted s.content c₀ s.chunks c)
    (ready : c.Ready s.queue.accepted)
    (hoffset : s.frameOffset = c.offset) (hwritten : s.pktWritten = c.written)
    (htotal : s.pktToWrite = c.total s.queue.accepted)
    (hpopped : s.queue.popped = c.packet + 1) (valid : s.pkt.toBool = true)
    (buffer : ∀ j, j < s.pktToWrite → s.pktBuffer j = byteAt s.queue.accepted c.packet j)
    (hfirst : s.firstPacket =
      pointer (startOffsets (s.chunks ++ [c.chunk s.queue.accepted])).head?)
    (hlast : s.lastPacket =
      pointer (startOffsets (s.chunks ++ [c.chunk s.queue.accepted])).getLast?)
    (hfilling : s.filling = true) : s.copyData.Inv c₀ := by
  have hpos := ready.length_pos
  have hadv := ready.advance_written
  have hpacket : s.queue.popped - 1 = c.packet := by omega
  rw [copyData_spec ready hoffset hwritten htotal hpopped]
  refine { queue := queue, unfinished := ?_, filled := ?_, first := hfirst, last := hlast,
           left := ?_, offset_le := ?_ }
  · intro hne
    change (c.advance s.queue.accepted).written ≠ 0 at hne
    obtain ⟨hzero, -⟩ | ⟨-, hge, -, hlt⟩ := hadv
    · exact absurd hzero hne
    · have htw : (if (c.advance s.queue.accepted).written = 0 then 0 else s.pktToWrite) =
          c.total s.queue.accepted := by rw [if_neg hne, htotal]
      refine { popped_pos := ?_, valid := valid, written_ge := hge, written_lt := ?_,
               toWrite := ?_, buffer := ?_ }
      · change 1 ≤ s.queue.popped; omega
      · simp only [htw]; exact hlt
      · simp only [htw, hpacket]; rfl
      · simp only [htw, hpacket]; rw [← htotal]; exact buffer
  · -- the new bytes lie behind the old ones
    have hkept : Filled s.queue.accepted (copyRange s.content c.offset s.pktBuffer c.written
        (c.chunk s.queue.accepted).length) c₀ s.chunks c :=
      filled.congr fun _ hi => copyRange_below hi
    have hnext : (c.advance s.queue.accepted).next = s.queue.popped := hpopped.symm
    have hbytes := hkept.snoc ready fun j hj => by
      rw [copyRange_inside hj, buffer _ (by omega)]
    have hcursor : c.advance s.queue.accepted =
        ⟨(c.advance s.queue.accepted).offset, s.queue.popped,
          (c.advance s.queue.accepted).written⟩ := by rw [← hnext]
    rw [hcursor] at hbytes
    exact hbytes
  · intro hleft
    change s.filling = false at hleft
    rw [hfilling] at hleft
    cases hleft
  · change c.offset + _ ≤ 886
    omega

/-- `nextPacket` after the sends of other threads: no packet, or the next accepted one. -/
theorem nextPacket_spec {env : Environment} (henv : ∀ i, ∀ p ∈ env.offers i, 0 < p.size)
    {s : Fill} (h : s.queue.Wf) :
    ∃ q : Queue, q.Wf ∧ s.queue.accepted <+: q.accepted ∧
      (q.popped = s.queue.popped ∧
          s.nextPacket env = { s with queue := q, pops := s.pops + 1, pkt := Packet.empty } ∨
        ∃ p buf, p.toBool = true ∧ p = packetAt q.accepted s.queue.popped ∧
          s.queue.popped < q.accepted.length ∧ q.popped = s.queue.popped + 1 ∧
          (∀ j, j < p.serializedSize → buf j = p.serialize.getD j 0) ∧
          s.nextPacket env = { s with
            queue := q, pops := s.pops + 1, pkt := p, pktToWrite := p.serializedSize,
            pktBuffer := buf }) := by
  obtain ⟨hwf, hpre, hpop⟩ := Queue.sendAll_spec h (henv s.pops)
  rcases Queue.popPacket_spec hwf with ⟨hnone, -⟩ | ⟨hlt, hp, hwf', hacc, hpop'⟩
  · refine ⟨_, hwf, hpre, Or.inl ?_⟩
    simp only [nextPacket, hnone, Packet.empty_toBool, Bool.false_eq_true, if_false]
    exact ⟨hpop, trivial⟩
  · have hvalid : (s.queue.sendAll (env.offers s.pops)).popPacket.1.toBool = true := by
      rw [hp]
      simpa [Packet.toBool] using hwf.nonempty _ (packetAt_mem hlt)
    refine ⟨_, hwf', hacc.symm ▸ hpre, Or.inr ⟨_,
      copyRange s.pktBuffer 0
        (fun i => (s.queue.sendAll (env.offers s.pops)).popPacket.1.serialize.getD i 0) 0
        (s.queue.sendAll (env.offers s.pops)).popPacket.1.serializedSize,
      hvalid, ?_, ?_, ?_, ?_, ?_⟩⟩
    · rw [hacc, hp, hpop]
    · rw [hacc, ← hpop]; exact hlt
    · rw [hpop', hpop]
    · intro j hj
      have hcopy := @copyRange_inside _ s.pktBuffer
        (fun i => (s.queue.sendAll (env.offers s.pops)).popPacket.1.serialize.getD i 0) 0 0 _ j hj
      simpa using hcopy
    · simp only [nextPacket, hvalid, if_true]

theorem pointer_head_snoc {chunks : List Chunk} {ch : Chunk} (hstart : ch.start ≠ 0) :
    startOffsets (chunks ++ [ch]) = startOffsets chunks := by
  rw [startOffsets_snoc, if_neg hstart, List.append_nil]

/-- The packet pointers after a packet was started at `c`. -/
theorem startPacket_pointers {s : Fill} {ch : Chunk} (hstart : ch.start = 0)
    (hoffset : s.frameOffset = ch.offset)
    (hbounds : ∀ o ∈ startOffsets s.chunks, o < 886)
    (first : s.firstPacket = pointer (startOffsets s.chunks).head?) :
    s.startPacket.firstPacket = pointer (startOffsets (s.chunks ++ [ch])).head? ∧
      s.startPacket.lastPacket = pointer (startOffsets (s.chunks ++ [ch])).getLast? := by
  rw [startOffsets_snoc, if_pos hstart]
  refine ⟨?_, by simp [startPacket, pointer, hoffset]⟩
  cases hs : startOffsets s.chunks with
  | nil =>
    rw [hs] at first
    simp [startPacket, first, pointer, hoffset]
  | cons o rest =>
    rw [hs] at first
    have hne : s.firstPacket ≠ PKT_OFFS_NONE := by
      rw [first]; exact pointer_some_ne (hbounds o (by simp [hs]))
    simp only [startPacket, if_neg hne]
    rw [first]
    rfl

/-- A packet that was just accepted into the frame is started at the current offset. -/
theorem inv_startPacket {c : Cursor} {s : Fill} (h : s.Inv c) (hw : s.pktWritten = 0)
    (hroom : s.frameOffset ≤ 884) (hfilling : s.filling = true) {q : Queue} {p : Packet}
    {buf : Nat → UInt8} (hq : q.Wf) (hpre : s.queue.accepted <+: q.accepted)
    (hvalid : p.toBool = true) (hp : p = packetAt q.accepted s.queue.popped)
    (hk : s.queue.popped < q.accepted.length) (hpopped : q.popped = s.queue.popped + 1)
    (hbuf : ∀ j, j < p.serializedSize → buf j = p.serialize.getD j 0) :
    ({ s with
        queue := q, pops := s.pops + 1, pkt := p, pktToWrite := p.serializedSize, pktWritten := 0,
        pktBuffer := buf } : Fill).startPacket.copyData.Inv c := by
  have hpacket : (s.cursor s.frameOffset).packet = s.queue.popped := by
    simp [Worker.cursor, Cursor.packet, hw]
  have ready : (s.cursor s.frameOffset).Ready q.accepted :=
    { packet_lt := by rw [hpacket]; exact hk
      packet_pos := by
        rw [hpacket]
        exact hq.nonempty _ (packetAt_mem hk)
      fresh := fun _ => by simp only [FRAME_DATA_SIZE_eq, Worker.cursor]; omega
      unfinished := fun hne => absurd hw hne }
  -- the offsets of the pointers so far are inside the frame
  have hbounds : ∀ o ∈ startOffsets s.chunks, o < 886 := by
    intro o ho
    simp only [startOffsets, List.mem_map, List.mem_filter] at ho
    obtain ⟨ch, ⟨hmem, -⟩, rfl⟩ := ho
    have := h.filled.chunk_bounds hmem
    omega
  have hpointers := @startPacket_pointers s ((s.cursor s.frameOffset).chunk q.accepted)
    hw rfl hbounds h.first
  refine inv_copyData (c := s.cursor s.frameOffset) hq (h.filled.mono hpre) ready
    rfl hw.symm ?_ ?_ hvalid ?_ ?_ ?_ hfilling
  · simp only [startPacket, Cursor.total, hpacket, hp]
  · simp only [startPacket, hpacket, hpopped]
  · intro j hj
    simp only [startPacket] at hj ⊢
    rw [hbuf j hj, hpacket, byteAt, hp]
  · exact hpointers.1
  · exact hpointers.2

/-- An unfinished packet is continued. -/
theorem inv_continue {c : Cursor} {s : Fill} (h : s.Inv c) (hw : s.pktWritten ≠ 0)
    (hlt : s.frameOffset < 886) (hfilling : s.filling = true) : s.copyData.Inv c := by
  have hunf := h.unfinished hw
  have hpacket : (s.cursor s.frameOffset).packet = s.queue.popped - 1 := by
    simp [Worker.cursor, Cursor.packet, hw]
  have htotal : s.pktToWrite = (s.cursor s.frameOffset).total s.queue.accepted := by
    rw [Cursor.total, hpacket]; exact hunf.toWrite
  have hpopped_pos := hunf.popped_pos
  have hlt' : s.queue.popped - 1 < s.queue.accepted.length := by
    have := h.queue.popped_le
    omega
  have ready : (s.cursor s.frameOffset).Ready s.queue.accepted :=
    { packet_lt := by rw [hpacket]; exact hlt'
      packet_pos := by
        rw [hpacket]; exact h.queue.nonempty _ (packetAt_mem hlt')
      fresh := fun hzero => absurd hzero hw
      unfinished := fun _ => by
        rw [← htotal]
        exact ⟨hlt, hpopped_pos, hunf.written_ge, hunf.written_lt⟩ }
  refine inv_copyData h.queue h.filled ready rfl rfl htotal (by rw [hpacket]; omega) hunf.valid
    ?_ ?_ ?_ hfilling
  · rw [hpacket]; exact hunf.buffer
  · rw [pointer_head_snoc hw]; exact h.first
  · rw [pointer_head_snoc hw]; exact h.last

/-- Every iteration of the fill loop keeps the invariant. -/
theorem inv_step {env : Environment} (henv : ∀ i, ∀ p ∈ env.offers i, 0 < p.size)
    {c : Cursor} {s : Fill} (h : s.Inv c) (hrun : s.running = true) : (s.step env).Inv c := by
  obtain ⟨hfilling, hlt⟩ := running_iff.mp hrun
  simp only [FRAME_DATA_SIZE_eq] at hlt
  by_cases hw : s.pktWritten = 0
  · by_cases hroom : FRAME_DATA_SIZE - s.frameOffset < 2
    · -- no room for a size field
      simp only [step, hw, hroom, and_self, if_true]
      exact inv_fillNoise h hw
    · simp only [step, hw, hroom, and_false, if_false, if_true]
      simp only [FRAME_DATA_SIZE_eq] at hroom
      obtain ⟨q, hq, hpre, ⟨hpopped, hnone⟩ | ⟨p, buf, hvalid, hp, hk, hpopped, hbuf, hsome⟩⟩ :=
        nextPacket_spec henv h.queue
      · -- no packet is available: the rest of the frame is noise
        rw [hnone]
        simp only [Packet.empty_toBool, Bool.false_eq_true, not_false_eq_true, if_true]
        refine inv_fillNoise ?_ hw
        exact
          { queue := hq
            unfinished := fun hne => absurd hw hne
            filled := by
              simp only [Worker.cursor, hpopped]
              exact h.filled.mono hpre
            first := h.first
            last := h.last
            left := fun _ => hw
            offset_le := h.offset_le }
      · rw [hsome]
        simp only [hvalid, not_true_eq_false, if_false, hw, if_true]
        exact inv_startPacket h hw (by omega) hfilling hq hpre hvalid hp hk hpopped hbuf
  · have hvalid := (h.unfinished hw).valid
    simp only [step, hw, false_and, if_false, hvalid, not_true_eq_false]
    exact inv_continue h hw hlt hfilling

/-- A copy writes a byte or drops a finished packet; everything else leaves the loop. -/
theorem variant_copyData {s : Fill} (hrun : s.running = true)
    (hwrite : s.pktWritten ≠ 0 ∨ s.pktWritten < s.pktToWrite) :
    s.copyData.variant < s.variant := by
  obtain ⟨-, hlt⟩ := running_iff.mp hrun
  by_cases hend : s.pktWritten +
      min (s.pktToWrite - s.pktWritten) (FRAME_DATA_SIZE - s.frameOffset) ≥ s.pktToWrite
  · simp only [copyData, if_pos hend, variant, if_true]
    by_cases hw : s.pktWritten = 0
    · simp only [if_pos hw]; omega
    · simp only [if_neg hw]; omega
  · simp only [copyData, if_neg hend, variant]
    split <;> split <;> omega

theorem nextPacket_keeps (env : Environment) (s : Fill) (hw : s.pktWritten = 0)
    (hvalid : (s.nextPacket env).pkt.toBool = true) :
    (s.nextPacket env).pktWritten = 0 ∧ (s.nextPacket env).frameOffset = s.frameOffset ∧
      (s.nextPacket env).filling = s.filling ∧ 0 < (s.nextPacket env).pktToWrite := by
  by_cases h : ((s.queue.sendAll (env.offers s.pops)).popPacket).1.toBool = true
  · simp only [nextPacket, if_pos h]
    exact ⟨hw, trivial, trivial, by simp [Packet.serializedSize]⟩
  · simp only [nextPacket, if_neg h] at hvalid
    exact absurd hvalid h

theorem variant_decreases (env : Environment) (s : Fill) (hrun : s.running = true) :
    (s.step env).variant < s.variant := by
  have hfilling := (running_iff.mp hrun).1
  have hnoise : ∀ s' : Fill, s'.frameOffset = s.frameOffset → s'.pktWritten = s.pktWritten →
      (s'.fillNoise env).variant < s.variant := by
    intro s' hoff hw
    simp [variant, fillNoise, hoff, hw, hfilling]
  by_cases hw : s.pktWritten = 0
  · by_cases hroom : FRAME_DATA_SIZE - s.frameOffset < 2
    · simp only [step, hw, hroom, and_self, if_true]
      exact hnoise s rfl rfl
    · simp only [step, hw, hroom, and_false, if_false, if_true]
      by_cases hvalid : (s.nextPacket env).pkt.toBool = true
      · simp only [hvalid, not_true_eq_false, if_false]
        obtain ⟨hw', hoff', hfill', hlt'⟩ := nextPacket_keeps env s hw hvalid
        simp only [hw', if_true]
        have hrun' : (s.nextPacket env).startPacket.running = true := by
          rw [running_iff] at hrun ⊢
          simpa [startPacket, hoff', hfill'] using hrun
        have hvar : (s.nextPacket env).startPacket.variant = s.variant := by
          simp [variant, startPacket, hoff', hfill', hw', hw]
        rw [← hvar]
        exact variant_copyData hrun' (Or.inr (by simpa [startPacket, hw'] using hlt'))
      · simp only [hvalid, Bool.false_eq_true, not_false_eq_true, if_true]
        apply hnoise
        · simp only [nextPacket]; split <;> rfl
        · simp only [nextPacket]; split <;> rfl
  · by_cases hvalid : s.pkt.toBool = true
    · simp only [step, hw, false_and, if_false, hvalid, not_true_eq_false]
      exact variant_copyData hrun (Or.inl hw)
    · simp only [step, hw, false_and, if_false, hvalid, Bool.false_eq_true, not_false_eq_true,
        if_true]
      exact hnoise s rfl rfl

/-- The frame counter is fixed while the frame is filled; the queue only accepts more. -/
structure Kept (s s' : Fill) : Prop where
  frameCounter : s'.frameCounter = s.frameCounter
  counter : s'.counter = s.counter
  accepted : s.queue.accepted <+: s'.queue.accepted

theorem Kept.trans {s s' s'' : Fill} (h : Kept s s') (h' : Kept s' s'') : Kept s s'' :=
  ⟨h'.frameCounter.trans h.frameCounter, h'.counter.trans h.counter,
    h.accepted.trans h'.accepted⟩

theorem kept_copyData (s : Fill) : Kept s s.copyData := by
  simp only [copyData]
  split <;> exact ⟨rfl, rfl, List.prefix_refl _⟩

theorem kept_step {env : Environment} (henv : ∀ i, ∀ p ∈ env.offers i, 0 < p.size) {s : Fill}
    (h : s.queue.Wf) : Kept s (s.step env) := by
  have hnoise : ∀ s' : Fill, Kept s' (s'.fillNoise env) :=
    fun _ => ⟨rfl, rfl, List.prefix_refl _⟩
  have hnext : Kept s (s.nextPacket env) := by
    obtain ⟨q, -, hpre, ⟨-, heq⟩ | ⟨p, buf, -, -, -, -, -, heq⟩⟩ := nextPacket_spec henv h <;>
      rw [heq] <;> exact ⟨rfl, rfl, hpre⟩
  have hstart : Kept s (s.nextPacket env).startPacket :=
    hnext.trans ⟨rfl, rfl, List.prefix_refl _⟩
  simp only [step]
  split
  · exact hnoise s
  · split
    · split
      · exact hnext.trans (hnoise _)
      · split
        · exact hstart.trans (kept_copyData _)
        · exact hnext.trans (kept_copyData _)
    · split
      · exact hnoise s
      · exact kept_copyData s

end Fill

/-! ## Whole frames -/

/-- What a frame of the worker looks like: it leads from `c` to `c'` in the stream of the
    packets `acc`. -/
structure FrameSpec (acc : List Packet) (c c' : Cursor) (sent : SentFrame) : Prop where
  start : c.offset = 0
  filled : ∃ offset, Filled acc (sent.frame.contentAt fun _ => 0) c sent.chunks
    ⟨offset, c'.next, c'.written⟩
  first : sent.frame.firstPacket = pointer (startOffsets sent.chunks).head?
  last : sent.frame.lastPacket = pointer (startOffsets sent.chunks).getLast?
  busy : c.written ≠ 0 → sent.chunks ≠ []

theorem FrameSpec.mono {acc acc' : List Packet} (hacc : acc <+: acc') {c c' : Cursor}
    {sent : SentFrame} (h : FrameSpec acc c c' sent) : FrameSpec acc' c c' sent where
  start := h.start
  filled := by
    obtain ⟨offset, filled⟩ := h.filled
    exact ⟨offset, filled.mono hacc⟩
  first := h.first
  last := h.last
  busy := h.busy

namespace Worker

theorem inv_init (pktBuffer content : Nat → UInt8) : (init pktBuffer content).Inv where
  queue := Queue.wf_empty
  unfinished := fun h => absurd rfl h

/-- Every frame of the worker is laid out as `FrameSpec` says. -/
theorem sendFrame_spec {env : Environment} (henv : ∀ i, ∀ p ∈ env.offers i, 0 < p.size)
    {w : Worker} (h : w.Inv) :
    (w.sendFrame env).2.Inv ∧
      FrameSpec (w.sendFrame env).2.queue.accepted (w.cursor 0) ((w.sendFrame env).2.cursor 0)
        (w.sendFrame env).1 ∧
      (w.sendFrame env).1.frame.counter = w.counter ∧
      (w.sendFrame env).2.counter = w.counter + 1 ∧
      w.queue.accepted <+: (w.sendFrame env).2.queue.accepted := by
  have hstart : (w.beginFrame).Inv (w.cursor 0) :=
    { queue := h.queue
      unfinished := fun hne => ⟨(h.unfinished hne).popped_pos, (h.unfinished hne).valid,
        (h.unfinished hne).written_ge, (h.unfinished hne).written_lt,
        (h.unfinished hne).toWrite, (h.unfinished hne).buffer⟩
      filled := .nil _
      first := rfl
      last := rfl
      left := fun hleft => by cases hleft
      offset_le := Nat.zero_le _ }
  obtain ⟨⟨hinv, hkept⟩, hexit⟩ := whileVariant_induct (Fill.variant_decreases env)
    (fun s => s.Inv (w.cursor 0) ∧ Fill.Kept w.beginFrame s)
    (s := w.beginFrame) ⟨hstart, rfl, rfl, List.prefix_refl _⟩
    fun s hs hrun => ⟨Fill.inv_step henv hs.1 hrun, hs.2.trans (Fill.kept_step henv hs.1.queue)⟩
  simp only [sendFrame]
  generalize whileVariant Fill.running (Fill.step env) Fill.variant w.beginFrame = s at *
  refine ⟨hinv.toInv, ⟨rfl, ?_, hinv.first, hinv.last, ?_⟩, hkept.frameCounter, hkept.counter,
    hkept.accepted⟩
  · refine ⟨s.frameOffset, hinv.filled.congr fun i hi => ?_⟩
    have hlt : i < FRAME_DATA_SIZE := Nat.lt_of_lt_of_le hi hinv.offset_le
    rw [Frame.contentAt, dif_pos hlt]
    simp [Fill.sent]
  · -- with an unfinished packet the first iteration copies
    intro hne hnil
    have hfilled := hinv.filled
    change s.chunks = [] at hnil
    change w.pktWritten ≠ 0 at hne
    rw [hnil] at hfilled
    generalize hc : s.cursor s.frameOffset = c at hfilled
    cases hfilled
    have hw : s.pktWritten = w.pktWritten := congrArg Cursor.written hc
    have hoff : s.frameOffset = 0 := congrArg Cursor.offset hc
    have hfilling : s.filling = true := by
      by_contra hleft
      exact hne (hw ▸ hinv.left (by simpa using hleft))
    have hrun : s.running = true := by
      rw [Fill.running_iff, hoff]
      exact ⟨hfilling, by decide⟩
    rw [hrun] at hexit
    cases hexit

end Worker

end RyFi.Modem
