import RyFi.Modem.Delivery

/-! # Well-formed frames

What every frame of the worker looks like to a receiver (`WellFormed`): it begins with what
is left of an unfinished packet, its pointers lead to the packets that start in it, and the
size fields lead from one to the next.
-/

namespace RyFi.Modem

open CLoop

/-- What is left of the packet that is unfinished at the cursor. -/
def leftover (acc : List Packet) (c : Cursor) : List UInt8 :=
  if c.written = 0 then [] else (packetAt acc (c.next - 1)).serialize.drop c.written

namespace Frame

/-- `content[i]` -/
def byte (f : Frame) (i : Nat) : UInt8 := f.contentAt (fun _ => 0) i

/-- Over the packet whose size field is at `offset`. -/
def skip (f : Frame) (offset : Nat) : Nat :=
  offset + 2 + (word (f.byte offset) (f.byte (offset + 1))).toNat

/-- The offset the size fields lead to after `i` packets. -/
def startOf (f : Frame) (i : Nat) : Nat := f.skip^[i] f.firstPacket.toNat

/-- Packet number `k` starts at `offset` and has its bytes there as far as the frame goes. -/
structure Starts (acc : List Packet) (f : Frame) (k offset : Nat) : Prop where
  room : offset + 2 ≤ FRAME_DATA_SIZE
  bytes : ∀ j, j < (packetAt acc k).serializedSize → offset + j < FRAME_DATA_SIZE →
    f.byte (offset + j) = byteAt acc k j

end Frame

/-- A frame between two cursors: `c'.next - c.next` packets start in it, number `c.next` first. -/
structure WellFormed (acc : List Packet) (c c' : Cursor) (f : Frame) : Prop where
  none_iff : f.firstPacket = PKT_OFFS_NONE ↔ f.lastPacket = PKT_OFFS_NONE
  continues : ∀ j, j < (leftover acc c).length → j < FRAME_DATA_SIZE →
    f.byte j = (leftover acc c).getD j 0
  /-- No packet starts. -/
  idle : f.firstPacket = PKT_OFFS_NONE →
    c'.next = c.next ∧ leftover acc c' = (leftover acc c).drop FRAME_DATA_SIZE
  ordered : f.firstPacket ≠ PKT_OFFS_NONE →
    f.firstPacket.toNat ≤ f.lastPacket.toNat ∧ f.lastPacket.toNat ≤ 884
  first_eq : f.firstPacket ≠ PKT_OFFS_NONE → f.firstPacket.toNat = (leftover acc c).length
  starts : f.firstPacket ≠ PKT_OFFS_NONE → c.next < c'.next ∧
    ∀ i, i < c'.next - c.next → f.Starts acc (c.next + i) (f.startOf i)
  last_eq : f.firstPacket ≠ PKT_OFFS_NONE →
    f.startOf (c'.next - c.next - 1) = f.lastPacket.toNat
  /-- What does not fit of the last packet is left over. -/
  leaves : f.firstPacket ≠ PKT_OFFS_NONE → leftover acc c' =
    (packetAt acc (c'.next - 1)).serialize.drop (FRAME_DATA_SIZE - f.lastPacket.toNat)

/-! ## Packets from their start on -/

section Starts

variable {acc : List Packet} {frame : Frame} {c c' : Cursor} {chunks : List Chunk}

theorem packet_of_fresh (hw : c.written = 0) : c.packet = c.next := if_pos hw

/-- The first chunk of a packet shows its size. -/
theorem skip_start (ready : c.Ready acc) (hw : c.written = 0)
    (bytes : ∀ j, j < (c.chunk acc).length →
      frame.byte (c.offset + j) = byteAt acc c.packet (c.written + j)) :
    frame.skip c.offset = c.offset + (packetAt acc c.next).serializedSize := by
  have hpos := ready.packet_pos
  have hfresh := ready.fresh hw
  have htotal : c.total acc = (packetAt acc c.packet).size + 2 := rfl
  have hlen : (c.chunk acc).length = min (c.total acc - c.written) (886 - c.offset) := rfl
  simp only [FRAME_DATA_SIZE_eq] at hfresh
  have hhigh := bytes 0 (by omega)
  have hlow := bytes 1 (by omega)
  rw [hw, Nat.zero_add] at hhigh hlow
  rw [Nat.add_zero] at hhigh
  rw [Frame.skip, hhigh, hlow, byteAt_size, packet_of_fresh hw, Packet.serializedSize]
  omega

theorem starts_of_ready (ready : c.Ready acc) (hw : c.written = 0)
    (bytes : ∀ j, j < (c.chunk acc).length →
      frame.byte (c.offset + j) = byteAt acc c.packet (c.written + j)) :
    frame.Starts acc c.next c.offset where
  room := ready.fresh hw
  bytes := fun j hj hroom => by
    have htotal : c.total acc = (packetAt acc c.packet).serializedSize := rfl
    have hlen : (c.chunk acc).length = min (c.total acc - c.written) (886 - c.offset) := rfl
    simp only [FRAME_DATA_SIZE_eq] at hroom
    rw [packet_of_fresh hw] at htotal
    rw [bytes j (by omega), hw, Nat.zero_add, packet_of_fresh hw]

/-- What is left of the last packet of a frame. -/
theorem leftover_advance (ready : c.Ready acc) (hw : c.written = 0) :
    leftover acc (c.advance acc) =
      (packetAt acc c.next).serialize.drop (FRAME_DATA_SIZE - c.offset) := by
  have hnext : (c.advance acc).next = c.next + 1 := congrArg (· + 1) (packet_of_fresh hw)
  have htotal : c.total acc = (packetAt acc c.next).serialize.length := by
    rw [Cursor.total, packet_of_fresh hw, Packet.serialize_length]
  have hlen : (c.chunk acc).length = min (c.total acc - c.written) (886 - c.offset) := rfl
  have hoffset : (c.advance acc).offset = c.offset + (c.chunk acc).length := rfl
  rw [leftover, hnext, Nat.add_sub_cancel, FRAME_DATA_SIZE_eq]
  rcases ready.advance_written with ⟨hzero, hend⟩ | ⟨hfull, hge, hwritten, -⟩
  · rw [if_pos hzero, List.drop_eq_nil_of_le (by omega)]
  · rw [if_neg (by omega), hwritten, hw, show 0 + (c.chunk acc).length = 886 - c.offset by omega]

/-- The size fields lead through the packets that start from a cursor on. -/
theorem starts_filled (h : Filled acc frame.byte c chunks c') (hw : c.written = 0)
    (hne : chunks ≠ []) :
    c.next < c'.next ∧
      startOffsets chunks = (List.range (c'.next - c.next)).map (fun i => frame.skip^[i] c.offset) ∧
      (∀ i, i < c'.next - c.next → frame.Starts acc (c.next + i) (frame.skip^[i] c.offset)) ∧
      leftover acc c' = (packetAt acc (c'.next - 1)).serialize.drop
        (FRAME_DATA_SIZE - frame.skip^[c'.next - c.next - 1] c.offset) := by
  induction h with
  | nil c => exact absurd rfl hne
  | @cons c chunks c' ready bytes rest ih =>
    have hstart := starts_of_ready ready hw bytes
    have hnext : (c.advance acc).next = c.next + 1 := congrArg (· + 1) (packet_of_fresh hw)
    have hoffsets : startOffsets (c.chunk acc :: chunks) = c.offset :: startOffsets chunks := by
      simp [startOffsets, Cursor.chunk, hw]
    by_cases hrest : chunks = []
    · subst hrest
      cases rest
      have hone : c.next + 1 - c.next = 1 := Nat.add_sub_cancel_left ..
      rw [hoffsets, hnext, hone]
      refine ⟨Nat.lt_succ_self _, rfl, fun i hi => ?_, leftover_advance ready hw⟩
      obtain rfl : i = 0 := by omega
      exact hstart
    · have hmore : Filled acc (frame.contentAt fun _ => 0) (c.advance acc) chunks c' := rest
      obtain ⟨hzero, -⟩ := Extract.advance_of_more ready hmore hrest
      obtain ⟨hlt, hmap, hstarts, hleft⟩ := ih hzero hrest
      rw [hnext] at hlt hmap hstarts hleft
      -- the packet of the first chunk is complete: its size leads to the next start
      have hadvance : (c.advance acc).offset = frame.skip c.offset := by
        have htotal : c.total acc = (packetAt acc c.next).serializedSize := by
          rw [Cursor.total, packet_of_fresh hw]
        rcases ready.advance_written with ⟨-, hend⟩ | ⟨-, hge, -⟩
        · have hoffset : (c.advance acc).offset = c.offset + (c.chunk acc).length := rfl
          rw [skip_start ready hw bytes]
          omega
        · omega
      have hcount : c'.next - c.next = c'.next - (c.next + 1) + 1 := by omega
      rw [hadvance] at hmap hstarts hleft
      rw [hcount]
      refine ⟨by omega, ?_, fun i hi => ?_, ?_⟩
      · rw [hoffsets, hmap, List.range_succ_eq_map, List.map_cons, List.map_map]
        rfl
      · cases i with
        | zero => exact hstart
        | succ i =>
          have := hstarts i (by omega)
          rwa [Nat.add_assoc, Nat.add_comm 1 i] at this
      · have hlast : (c'.next - (c.next + 1) - 1).succ = c'.next - (c.next + 1) := by omega
        rw [hleft, Nat.add_sub_cancel, ← Function.iterate_succ_apply, hlast]

/-- The rest of an unfinished packet at the start of a frame. -/
theorem leftover_continues (acc : List Packet) {c : Cursor} (hw : c.written ≠ 0) :
    (leftover acc c).length = c.total acc - c.written ∧
      ∀ j, j < (leftover acc c).length →
        (leftover acc c).getD j 0 = byteAt acc c.packet (c.written + j) := by
  have hpacket : c.packet = c.next - 1 := if_neg hw
  have hlist : leftover acc c = (packetAt acc c.packet).serialize.drop c.written := by
    rw [leftover, if_neg hw, hpacket]
  rw [hlist]
  refine ⟨by rw [List.length_drop]; rfl, fun j _ => ?_⟩
  rw [byteAt, List.getD_eq_getElem?_getD, List.getElem?_drop, ← List.getD_eq_getElem?_getD]

/-- A frame that only continues a packet. -/
theorem leftover_advance_continued (ready : c.Ready acc) (hoffset : c.offset = 0)
    (hw : c.written ≠ 0) :
    leftover acc (c.advance acc) = (leftover acc c).drop FRAME_DATA_SIZE := by
  obtain ⟨hlength, -⟩ := leftover_continues acc hw
  have hnext : (c.advance acc).next = c.next := by
    have hone := (ready.unfinished hw).2.1
    change c.packet + 1 = c.next
    rw [Cursor.packet, if_neg hw]
    omega
  have hlen : (c.chunk acc).length = min (c.total acc - c.written) (886 - c.offset) := rfl
  have hpos := ready.length_pos
  rcases ready.advance_written with ⟨hzero, hend⟩ | ⟨hfull, hge, hwritten, hlt⟩
  · rw [leftover, if_pos hzero, List.drop_eq_nil_of_le]
    rw [hlength, FRAME_DATA_SIZE_eq]
    omega
  · rw [leftover, if_neg (by omega), leftover, if_neg hw, hnext, List.drop_drop, hwritten,
      FRAME_DATA_SIZE_eq]
    congr 1
    have hoffset' : (c.advance acc).offset = c.offset + (c.chunk acc).length := rfl
    omega

end Starts

/-! ## Whole frames -/

/-- Where the packets of a frame start: nowhere, or right behind what was left over. -/
theorem starts_frame {acc : List Packet} {frame : Frame} {c c' : Cursor} {chunks : List Chunk}
    (h : Filled acc frame.byte c chunks c') (hoffset : c.offset = 0)
    (busy : c.written ≠ 0 → chunks ≠ []) :
    (∀ j, j < (leftover acc c).length → j < FRAME_DATA_SIZE →
      frame.byte j = (leftover acc c).getD j 0) ∧
    (startOffsets chunks = [] ∧ c'.next = c.next ∧
        leftover acc c' = (leftover acc c).drop FRAME_DATA_SIZE ∨
      ∃ d rest, Filled acc frame.byte d rest c' ∧ rest ≠ [] ∧ d.written = 0 ∧ d.next = c.next ∧
        d.offset = (leftover acc c).length ∧ startOffsets chunks = startOffsets rest) := by
  cases h with
  | nil c =>
    have hw : c.written = 0 := by
      by_contra hw
      exact busy hw rfl
    have hnil : leftover acc c = [] := if_pos hw
    rw [hnil]
    exact ⟨fun j hj => absurd hj (Nat.not_lt_zero j), Or.inl ⟨rfl, rfl, rfl⟩⟩
  | @cons _ chunks _ ready bytes rest =>
    by_cases hw : c.written = 0
    · have hnil : leftover acc c = [] := if_pos hw
      rw [hnil]
      exact ⟨fun j hj => absurd hj (Nat.not_lt_zero j),
        Or.inr ⟨c, _, .cons ready bytes rest, by simp, hw, rfl, hoffset, rfl⟩⟩
    · obtain ⟨hlength, hbytes⟩ := leftover_continues acc hw
      have hlen : (c.chunk acc).length = min (c.total acc - c.written) (886 - c.offset) := rfl
      have hnext : (c.advance acc).next = c.next := by
        have hone := (ready.unfinished hw).2.1
        change c.packet + 1 = c.next
        rw [Cursor.packet, if_neg hw]
        omega
      have hskip : startOffsets (c.chunk acc :: chunks) = startOffsets chunks := by
        have hstart : ((c.chunk acc).start == 0) = false := by
          simpa [Cursor.chunk] using hw
        simp [startOffsets, hstart]
      -- an unfinished packet is continued at offset 0
      refine ⟨fun j hj hroom => ?_, ?_⟩
      · rw [hbytes j hj]
        have hbyte := bytes j (by simp only [FRAME_DATA_SIZE_eq] at hroom; omega)
        rw [hoffset, Nat.zero_add] at hbyte
        exact hbyte
      · by_cases hrest : chunks = []
        · subst hrest
          cases rest
          exact Or.inl ⟨hskip, hnext, leftover_advance_continued ready hoffset hw⟩
        · have hmore : Filled acc (frame.contentAt fun _ => 0) (c.advance acc) chunks c' := rest
          obtain ⟨hzero, -⟩ := Extract.advance_of_more ready hmore hrest
          refine Or.inr ⟨_, _, rest, hrest, hzero, hnext, ?_, hskip⟩
          have hadvance : (c.advance acc).offset = c.offset + (c.chunk acc).length := rfl
          rcases ready.advance_written with ⟨-, hend⟩ | ⟨-, hge, -⟩
          · rw [hlength]
            omega
          · omega

/-- A frame laid out as `FrameSpec` says is well formed. -/
theorem FrameSpec.wellFormed {acc : List Packet} {c c' : Cursor} {sent : SentFrame}
    (spec : FrameSpec acc c c' sent) : WellFormed acc c c' sent.frame := by
  obtain ⟨offset, filled⟩ := spec.filled
  obtain ⟨hcontinues,
      ⟨hnone, hnext, hleft⟩ | ⟨d, rest, hrest, hne, hw, hdnext, hdoffset, hstarts⟩⟩ :=
    @starts_frame acc sent.frame c _ _ filled spec.start spec.busy
  · have hfirst : sent.frame.firstPacket = PKT_OFFS_NONE := spec.first_eq_none hnone
    have hlast : sent.frame.lastPacket = PKT_OFFS_NONE := by
      rw [spec.last, hnone]
      rfl
    exact
      { none_iff := iff_of_true hfirst hlast
        continues := hcontinues
        idle := fun _ => ⟨hnext, hleft⟩
        ordered := fun hsome => absurd hfirst hsome
        first_eq := fun hsome => absurd hfirst hsome
        starts := fun hsome => absurd hfirst hsome
        last_eq := fun hsome => absurd hfirst hsome
        leaves := fun hsome => absurd hfirst hsome }
  · obtain ⟨hlt, hmap, hall, hleft⟩ := starts_filled hrest hw hne
    simp only at hlt hmap hall hleft
    rw [hdnext] at hlt hmap hall hleft
    have hcount : 0 < c'.next - c.next := by omega
    have hroom : ∀ i, i < c'.next - c.next → sent.frame.skip^[i] d.offset ≤ 884 := fun i hi => by
      have := (hall i hi).room
      simp only [FRAME_DATA_SIZE_eq] at this
      omega
    have hhead : (startOffsets sent.chunks).head? = some d.offset := by
      rw [hstarts, hmap, List.head?_map, List.head?_range, if_neg (by omega)]
      rfl
    have hgetLast : (startOffsets sent.chunks).getLast? =
        some (sent.frame.skip^[c'.next - c.next - 1] d.offset) := by
      rw [hstarts, hmap, List.getLast?_map, List.getLast?_range, if_neg (by omega)]
      rfl
    have hd : d.offset ≤ 884 := hroom 0 hcount
    have hfirst : sent.frame.firstPacket.toNat = d.offset := by
      rw [spec.first, hhead]
      exact pointer_some_toNat (by omega)
    have hlow := hroom (c'.next - c.next - 1) (by omega)
    have hlast : sent.frame.lastPacket.toNat = sent.frame.skip^[c'.next - c.next - 1] d.offset := by
      rw [spec.last, hgetLast]
      exact pointer_some_toNat (by omega)
    have hsome : sent.frame.firstPacket ≠ PKT_OFFS_NONE := by
      rw [spec.first, hhead]
      exact pointer_some_ne (by omega)
    have hsome' : sent.frame.lastPacket ≠ PKT_OFFS_NONE := by
      rw [spec.last, hgetLast]
      exact pointer_some_ne (by omega)
    have hstartOf : ∀ i, sent.frame.startOf i = sent.frame.skip^[i] d.offset := fun i => by
      rw [Frame.startOf, hfirst]
    refine
      { none_iff := iff_of_false hsome hsome'
        continues := hcontinues
        idle := fun hnone => absurd hnone hsome
        ordered := fun _ => ⟨?_, by omega⟩
        first_eq := fun _ => hfirst.trans hdoffset
        starts := fun _ => ⟨hlt, fun i hi => hstartOf i ▸ hall i hi⟩
        last_eq := fun _ => (hstartOf _).trans hlast.symm
        leaves := fun _ => by rw [hlast]; exact hleft }
    -- the first start is the least
    rw [hfirst, hlast]
    exact le_iterate d.offset (c'.next - c.next - 1)
  where
    le_iterate {f : Frame} (o n : Nat) : o ≤ f.skip^[n] o := by
      induction n generalizing o with
      | zero => exact Nat.le_refl o
      | succ n ih =>
        rw [Function.iterate_succ_apply]
        refine Nat.le_trans ?_ (ih (f.skip o))
        rw [Frame.skip, Nat.add_assoc]
        exact Nat.le_add_right ..

namespace Worker

/-- Every frame of a run is well formed, and the counters count. -/
theorem sends_wellFormed {env : Environment} (henv : ∀ i, ∀ p ∈ env.offers i, 0 < p.size)
    (pktBuffer content : Nat → UInt8) (n : Nat) :
    (leftover ((init pktBuffer content).transmit env n).2.queue.accepted
      ((init pktBuffer content).cursor 0) = []) ∧
    (∀ i (h : i + 1 < ((init pktBuffer content).transmit env n).1.length),
      ((init pktBuffer content).transmit env n).1[i + 1].frame.counter =
        ((init pktBuffer content).transmit env n).1[i].frame.counter + 1) ∧
    (∀ i (h : i < ((init pktBuffer content).transmit env n).1.length),
      WellFormed ((init pktBuffer content).transmit env n).2.queue.accepted
        (((init pktBuffer content).transmit env i).2.cursor 0)
        (((init pktBuffer content).transmit env (i + 1)).2.cursor 0)
        ((init pktBuffer content).transmit env n).1[i].frame) := by
  have hs := transmit_stream henv pktBuffer content n
  refine ⟨rfl, fun i h => ?_, fun i h => (hs.spec i h).wellFormed⟩
  rw [hs.counter, hs.counter, UInt16.ofNat_add]
  rfl

theorem sends_wellFormed_twoPackets :
    ∃ h : 0 < ((init (fun _ => 0) fun _ => 0).transmit twoPackets 2).1.length,
      WellFormed ((init (fun _ => 0) fun _ => 0).transmit twoPackets 2).2.queue.accepted
        (((init (fun _ => 0) fun _ => 0).transmit twoPackets 0).2.cursor 0)
        (((init (fun _ => 0) fun _ => 0).transmit twoPackets 1).2.cursor 0)
        (((init (fun _ => 0) fun _ => 0).transmit twoPackets 2).1.get ⟨0, h⟩).frame :=
  ⟨by decide +kernel, (sends_wellFormed twoPackets_nonempty (fun _ => 0) (fun _ => 0) 2).2.2 0 _⟩

end Worker

end RyFi.Modem
