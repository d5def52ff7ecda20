import RyFi.Modem.FrameLayout

/-! # The receiver on a frame of the transmitter

`Extract.loop` follows the chunks of a `Filled` frame: a chunk that starts a packet costs a
`readSize` and at most one `readPacket` (`land_start`), the rest of an unfinished packet one
`readPacket` (`land_rest`).  `onFrame_synced` is the case where the receiver holds the packet
the frame continues, `onFrame_fresh` the case where it drops or lacks it.
-/

namespace RyFi.Modem

open CLoop

/-! ## Packets and their bytes -/

/-- The packets finished between two cursors. -/
def finished (acc : List Packet) (c c' : Cursor) : List Packet :=
  (List.range' c.packet (c'.packet - c.packet)).map (packetAt acc)

theorem finished_append {acc : List Packet} {c d e : Cursor} (h : c.packet ≤ d.packet)
    (h' : d.packet ≤ e.packet) : finished acc c d ++ finished acc d e = finished acc c e := by
  have hmid : d.packet = c.packet + (d.packet - c.packet) := by omega
  have hlen : e.packet - c.packet = (d.packet - c.packet) + (e.packet - d.packet) := by omega
  rw [finished, finished, finished, ← List.map_append, hlen, ← List.range'_append_1, ← hmid]

theorem finished_nil {acc : List Packet} {c d : Cursor} (h : d.packet ≤ c.packet) :
    finished acc c d = [] := by
  simp [finished, Nat.sub_eq_zero_of_le h]

theorem byteAt_size (acc : List Packet) (k : Nat) :
    (Frame.word (byteAt acc k 0) (byteAt acc k 1)).toNat = (packetAt acc k).size := by
  have hlt := (packetAt acc k).size_lt
  have hhi : (UInt8.ofNat (((packetAt acc k).size >>> 8) &&& 0xFF)).toNat =
      (packetAt acc k).size / 256 := by
    rw [UInt8.toNat_ofNat', Nat.shiftRight_eq_div_pow, Nat.and_two_pow_sub_one_eq_mod _ 8]
    omega
  have hlo : (UInt8.ofNat ((packetAt acc k).size &&& 0xFF)).toNat =
      (packetAt acc k).size % 256 := by
    rw [UInt8.toNat_ofNat', Nat.and_two_pow_sub_one_eq_mod _ 8]
    omega
  rw [Frame.word_toNat]
  change (UInt8.ofNat (((packetAt acc k).size >>> 8) &&& 0xFF)).toNat * 256 +
    (UInt8.ofNat ((packetAt acc k).size &&& 0xFF)).toNat = _
  rw [hhi, hlo]
  omega

theorem byteAt_content {acc : List Packet} {k j : Nat} (h : j < (packetAt acc k).size) :
    byteAt acc k (j + 2) = (packetAt acc k).content.get ⟨j, h⟩ := by
  have hget : (packetAt acc k).content[j]? = some ((packetAt acc k).content.get ⟨j, h⟩) :=
    List.getElem?_eq_getElem h
  simp [byteAt, Packet.serialize, List.getD_eq_getElem?_getD, hget]

/-- The packet handed over is the accepted one when the buffer holds its content. -/
theorem packet_eq {acc : List Packet} {k : Nat} {pktBuffer : Nat → UInt8} {pktExpected : UInt16}
    (hsize : pktExpected.toNat = (packetAt acc k).size)
    (hbytes : ∀ j, j < (packetAt acc k).size → pktBuffer j = byteAt acc k (j + 2)) :
    Extract.packet pktBuffer pktExpected = packetAt acc k := by
  apply Packet.ext
  have hlen : (packetAt acc k).content.length = (packetAt acc k).size := rfl
  apply List.ext_getElem
  · simp [Extract.packet, hsize, hlen]
  · intro j hj hj'
    simp only [Extract.packet, List.getElem_map, List.getElem_range]
    rw [hbytes j hj', byteAt_content hj']
    rfl

/-! ## One chunk -/

/-- The partial packet of the receiver is the one unfinished at `c`. -/
structure Holds (acc : List Packet) (c : Cursor) (pktBuffer : Nat → UInt8)
    (pktExpected : UInt16) (pktRead : Nat) : Prop where
  none : c.written = 0 → pktExpected = 0 ∧ pktRead = 0
  size : c.written ≠ 0 → pktExpected.toNat = (packetAt acc c.packet).size
  read : c.written ≠ 0 → pktRead + 2 = c.written
  bytes : c.written ≠ 0 → ∀ j, j + 2 < c.written → pktBuffer j = byteAt acc c.packet (j + 2)

namespace Extract

variable {acc : List Packet} {frame : Frame} {beyond : Nat → UInt8} {c c' : Cursor}
  {chunks : List Chunk}

/-- The loop went over the chunk at `c`.  After the last marked packet it skips the rest. -/
structure Landed (acc : List Packet) (c : Cursor) (skips : Prop) (s s' : Extract) : Prop where
  holds : Holds acc (c.advance acc) s'.pktBuffer s'.pktExpected s'.pktRead
  delivered : s'.delivered = s.delivered ++ finished acc c (c.advance acc)
  ends : skips → s'.frameRead = 886
  more : ¬ skips → s'.frameRead = (c.advance acc).offset

theorem advance_packet_done (h : (c.advance acc).written = 0) :
    (c.advance acc).packet = c.packet + 1 := by
  rw [Cursor.packet, if_pos h]; rfl

theorem advance_packet_unfinished (h : (c.advance acc).written ≠ 0) :
    (c.advance acc).packet = c.packet := by
  rw [Cursor.packet, if_neg h]; rfl

theorem finished_advance_done (h : (c.advance acc).written = 0) :
    finished acc c (c.advance acc) = [packetAt acc c.packet] := by
  rw [finished, advance_packet_done h, Nat.add_sub_cancel_left]
  rfl

theorem finished_advance_unfinished (h : (c.advance acc).written ≠ 0) :
    finished acc c (c.advance acc) = [] :=
  finished_nil (Nat.le_of_eq (advance_packet_unfinished h))

/-- One `readPacket` takes the bytes of the chunk from `w` on. -/
theorem landed_readPacket (ready : c.Ready acc)
    (hbytes : ∀ j, j < (c.chunk acc).length →
      frame.contentAt beyond (c.offset + j) = byteAt acc c.packet (c.written + j))
    {s : Extract} {w : Nat} (hw : c.written ≤ w)
    (hwlt : w < c.written + (c.chunk acc).length)
    (hsize : s.pktExpected.toNat = (packetAt acc c.packet).size)
    (hread : s.pktRead + 2 = w) (hframe : s.frameRead = c.offset + (w - c.written))
    (hbuffer : ∀ j, j + 2 < w → s.pktBuffer j = byteAt acc c.packet (j + 2)) :
    Landed acc c (s.lastPacket = true ∨ frame.firstPacket = PKT_OFFS_NONE) s
        (s.readPacket frame beyond) ∧
      (s.readPacket frame beyond).firstPacket = s.firstPacket := by
  have hpos := ready.length_pos
  have hlen : (c.chunk acc).length = min (c.total acc - c.written) (886 - c.offset) := rfl
  have htotal : c.total acc = (packetAt acc c.packet).size + 2 := rfl
  have hoffset : (c.advance acc).offset = c.offset + (c.chunk acc).length := rfl
  have hreadable : s.readable = c.written + (c.chunk acc).length - w := by
    simp only [readable, hsize, hframe, FRAME_DATA_SIZE_eq]
    omega
  -- the buffer after the copy, up to the end of the chunk
  have hcopied : ∀ j, j + 2 < c.written + (c.chunk acc).length →
      copyRange s.pktBuffer s.pktRead (frame.contentAt beyond) s.frameRead s.readable j =
        byteAt acc c.packet (j + 2) := by
    intro j hj
    by_cases hold : j < s.pktRead
    · rw [copyRange_below hold]
      exact hbuffer j (by omega)
    · obtain ⟨i, rfl⟩ : ∃ i, j = s.pktRead + i := ⟨j - s.pktRead, by omega⟩
      rw [copyRange_inside (by omega), hframe]
      have hbyte := hbytes (w - c.written + i) (by omega)
      rw [show c.offset + (w - c.written) + i = c.offset + (w - c.written + i) by omega, hbyte]
      congr 1
      omega
  obtain ⟨hzero, hend⟩ | ⟨hfull, hge, hwritten, hlt⟩ := ready.advance_written
  · have complete : s.pktRead + s.readable ≥ s.pktExpected.toNat := by omega
    have hpacket : packet (copyRange s.pktBuffer s.pktRead (frame.contentAt beyond) s.frameRead
        s.readable) s.pktExpected = packetAt acc c.packet :=
      packet_eq hsize fun j hj => hcopied j (by omega)
    have hholds : Holds acc (c.advance acc)
        (copyRange s.pktBuffer s.pktRead (frame.contentAt beyond) s.frameRead s.readable) 0 0 :=
      { none := fun _ => ⟨rfl, rfl⟩
        size := fun hne => absurd hzero hne
        read := fun hne => absurd hzero hne
        bytes := fun hne => absurd hzero hne }
    by_cases last : s.lastPacket = true ∨ frame.firstPacket = PKT_OFFS_NONE
    · rw [readPacket_last complete last, hpacket]
      refine ⟨⟨hholds, ?_, fun _ => rfl, fun hmore => absurd last hmore⟩, rfl⟩
      rw [finished_advance_done hzero]
    · rw [readPacket_more complete last, hpacket]
      refine ⟨⟨hholds, ?_, fun hlast => absurd hlast last, fun _ => ?_⟩, rfl⟩
      · rw [finished_advance_done hzero]
      · change s.frameRead + s.readable = _
        omega
  · have hne : (c.advance acc).written ≠ 0 := by omega
    have hpacket := advance_packet_unfinished hne
    rw [readPacket_pending (by omega)]
    refine ⟨⟨⟨fun hzero => absurd hzero hne, fun _ => ?_, fun _ => ?_, fun _ j hj => ?_⟩,
      ?_, fun _ => ?_, fun _ => ?_⟩, rfl⟩
    · rw [hpacket]; exact hsize
    · change s.pktRead + s.readable + 2 = _
      omega
    · rw [hpacket]; exact hcopied j (by omega)
    · rw [finished_advance_unfinished hne, List.append_nil]
    · change s.frameRead + s.readable = _
      omega
    · change s.frameRead + s.readable = _
      omega

/-- The rest of the unfinished packet. -/
theorem land_rest (ready : c.Ready acc)
    (hbytes : ∀ j, j < (c.chunk acc).length →
      frame.contentAt beyond (c.offset + j) = byteAt acc c.packet (c.written + j))
    (hw : c.written ≠ 0) {s : Extract}
    (holds : Holds acc c s.pktBuffer s.pktExpected s.pktRead) (hframe : s.frameRead = c.offset) :
    ∃ s', s.loop frame beyond = s'.loop frame beyond ∧ s'.firstPacket = s.firstPacket ∧
      Landed acc c (s.lastPacket = true ∨ frame.firstPacket = PKT_OFFS_NONE) s s' := by
  have hpos := ready.length_pos
  have hunf := ready.unfinished hw
  simp only [FRAME_DATA_SIZE_eq] at hunf
  have hexp : s.pktExpected ≠ 0 := by
    intro hzero
    have hsize := holds.size hw
    have hsizepos := ready.packet_pos
    rw [hzero] at hsize
    exact absurd hsize (Nat.ne_of_lt hsizepos)
  have hrun : s.running = true := running_iff.mpr (by simp only [FRAME_DATA_SIZE_eq]; omega)
  have hlanded := @landed_readPacket acc frame beyond c ready hbytes s c.written (Nat.le_refl _)
    (by omega) (holds.size hw) (holds.read hw) (by omega) (holds.bytes hw)
  refine ⟨s.readPacket frame beyond, ?_, hlanded.2, hlanded.1⟩
  rw [loop_unfold hrun, step, if_pos hexp]

/-- A chunk that starts a packet. -/
theorem land_start (ready : c.Ready acc)
    (hbytes : ∀ j, j < (c.chunk acc).length →
      frame.contentAt beyond (c.offset + j) = byteAt acc c.packet (c.written + j))
    (hw : c.written = 0) {s : Extract} (hexp : s.pktExpected = 0) (hread : s.pktRead = 0)
    (hroom : s.frameRead ≤ 884) (hoffset : s.sizeOffset frame = c.offset) :
    ∃ s', s.loop frame beyond = s'.loop frame beyond ∧ s'.firstPacket = false ∧
      Landed acc c (c.offset = frame.lastPacket.toNat ∨ frame.firstPacket = PKT_OFFS_NONE)
        s s' := by
  have hpos := ready.length_pos
  have hsizepos := ready.packet_pos
  have hlen : (c.chunk acc).length = min (c.total acc - c.written) (886 - c.offset) := rfl
  have htotal : c.total acc = (packetAt acc c.packet).size + 2 := rfl
  have hfresh := ready.fresh hw
  simp only [FRAME_DATA_SIZE_eq] at hfresh
  have hb : ∀ j, j < (c.chunk acc).length →
      frame.contentAt beyond (c.offset + j) = byteAt acc c.packet j := by
    intro j hj
    rw [hbytes j hj, hw, Nat.zero_add]
  have hsize : (Frame.word (frame.contentAt beyond c.offset)
      (frame.contentAt beyond (c.offset + 1))).toNat = (packetAt acc c.packet).size := by
    rw [hb 1 (by omega), show c.offset = c.offset + 0 from rfl, hb 0 (by omega)]
    exact byteAt_size acc c.packet
  have hrun : s.running = true := running_iff.mpr (by simp only [FRAME_DATA_SIZE_eq]; omega)
  have hshort : ¬ FRAME_DATA_SIZE - s.frameRead < 2 := by
    simp only [FRAME_DATA_SIZE_eq]; omega
  have hfirst : s.loop frame beyond = (s.readSize frame beyond).loop frame beyond := by
    rw [loop_unfold hrun, step, if_neg (not_not.mpr hexp)]
  rw [hfirst, readSize_room hshort]
  simp only [hoffset]
  generalize hword : Frame.word (frame.contentAt beyond c.offset)
    (frame.contentAt beyond (c.offset + 1)) = size at hsize
  generalize hs₁ : ({ s with
      firstPacket := false
      lastPacket := c.offset == frame.lastPacket.toNat
      pktExpected := size
      accesses := s.accesses ++ [.content c.offset 1, .content (c.offset + 1) 1]
      frameRead := c.offset + 2 } : Extract) = s₁
  have hsize₁ : s₁.pktExpected.toNat = (packetAt acc c.packet).size := by rw [← hs₁]; exact hsize
  have hread₁ : s₁.pktRead = 0 := by rw [← hs₁]; exact hread
  have hframe₁ : s₁.frameRead = c.offset + 2 := by rw [← hs₁]
  have hdel₁ : s₁.delivered = s.delivered := by rw [← hs₁]
  have hfirst₁ : s₁.firstPacket = false := by rw [← hs₁]
  have hlast₁ : (s₁.lastPacket = true ∨ frame.firstPacket = PKT_OFFS_NONE) ↔
      (c.offset = frame.lastPacket.toNat ∨ frame.firstPacket = PKT_OFFS_NONE) := by
    rw [← hs₁]; simp
  by_cases hshort₁ : (c.chunk acc).length = 2
  · -- the size field fills the frame
    obtain ⟨hzero, hend⟩ | ⟨hfull, hge, hwritten, hlt⟩ := ready.advance_written
    · omega
    have hne : (c.advance acc).written ≠ 0 := by omega
    have hpacket := advance_packet_unfinished hne
    have hfull' : (c.advance acc).offset = c.offset + (c.chunk acc).length := rfl
    refine ⟨s₁, rfl, hfirst₁, ⟨fun hzero => absurd hzero hne, fun _ => ?_, fun _ => ?_,
      fun _ j hj => ?_⟩, ?_, fun _ => ?_, fun _ => ?_⟩
    · rw [hpacket]; exact hsize₁
    · omega
    · omega
    · rw [finished_advance_unfinished hne, List.append_nil, hdel₁]
    · omega
    · omega
  · have hexp₁ : s₁.pktExpected ≠ 0 := by
      intro hzero
      rw [hzero] at hsize₁
      exact absurd hsize₁ (Nat.ne_of_lt hsizepos)
    have hrun₁ : s₁.running = true := running_iff.mpr (by simp only [FRAME_DATA_SIZE_eq]; omega)
    obtain ⟨hlanded, hfirst₂⟩ := @landed_readPacket acc frame beyond c ready hbytes s₁ 2 (by omega)
      (by omega) hsize₁ (by omega) (by omega) (fun j hj => by omega)
    refine ⟨s₁.readPacket frame beyond, ?_, hfirst₂.trans hfirst₁, hlanded.holds, ?_, ?_, ?_⟩
    · rw [loop_unfold hrun₁, step, if_pos hexp₁]
    · rw [hlanded.delivered, hdel₁]
    · intro hskips; exact hlanded.ends (hlast₁.mpr hskips)
    · intro hmore; exact hlanded.more (fun hskips => hmore (hlast₁.mp hskips))

/-! ## All chunks that start a packet -/

theorem startOffsets_eq (h : Filled acc (frame.contentAt beyond) c chunks c')
    (hw : c.written = 0) : startOffsets chunks = chunks.map (·.offset) := by
  have hall : ∀ ch ∈ chunks, (ch.start == 0) = true := fun ch hch => by
    simpa using h.start_eq_zero hw hch
  rw [startOffsets, List.filter_eq_self.mpr hall]

/-- A further chunk lies behind the first one, which then ended its packet. -/
theorem advance_of_more (ready : c.Ready acc)
    (rest : Filled acc (frame.contentAt beyond) (c.advance acc) chunks c') (hne : chunks ≠ []) :
    (c.advance acc).written = 0 ∧ (c.advance acc).offset ≤ 884 := by
  cases rest with
  | nil c => exact absurd rfl hne
  | cons ready' _ _ =>
    obtain ⟨hzero, -⟩ | ⟨hfull, hge, -⟩ := ready.advance_written
    · have := ready'.fresh hzero
      simp only [FRAME_DATA_SIZE_eq] at this
      exact ⟨hzero, by omega⟩
    · have := (ready'.unfinished (by omega)).1
      simp only [FRAME_DATA_SIZE_eq] at this
      omega

theorem packet_le (h : Filled acc (frame.contentAt beyond) c chunks c') :
    c.packet ≤ c'.packet := by
  induction h with
  | nil c => exact Nat.le_refl _
  | @cons c chunks c' ready bytes rest ih =>
    have hstep : c.packet ≤ (c.advance acc).packet := by
      by_cases hzero : (c.advance acc).written = 0
      · rw [advance_packet_done hzero]; omega
      · rw [advance_packet_unfinished hzero]
    omega

/-- The loop delivers the packets of a frame part in which every chunk starts one. -/
theorem loop_starts (h : Filled acc (frame.contentAt beyond) c chunks c') (hw : c.written = 0)
    (hne : chunks ≠ []) (hfirst : frame.firstPacket ≠ PKT_OFFS_NONE)
    (hlast : frame.lastPacket = pointer (startOffsets chunks).getLast?) {s : Extract}
    (hexp : s.pktExpected = 0) (hread : s.pktRead = 0) (hroom : s.frameRead ≤ 884)
    (hoffset : s.sizeOffset frame = c.offset) :
    Holds acc c' (s.loop frame beyond).pktBuffer (s.loop frame beyond).pktExpected
        (s.loop frame beyond).pktRead ∧
      (s.loop frame beyond).delivered = s.delivered ++ finished acc c c' := by
  induction h generalizing s with
  | nil c => exact absurd rfl hne
  | @cons c chunks c' ready bytes rest ih =>
    have hfresh := ready.fresh hw
    simp only [FRAME_DATA_SIZE_eq] at hfresh
    obtain ⟨s', hloop, hfirst', landed⟩ :=
      land_start ready bytes hw hexp hread hroom hoffset
    have hstarts := startOffsets_eq (.cons ready bytes rest) hw
    rw [hstarts] at hlast
    rw [hloop]
    by_cases hrest : chunks = []
    · -- the last chunk: the rest of the frame is skipped
      subst hrest
      cases rest
      have hoff : c.offset = frame.lastPacket.toNat := by
        rw [hlast]
        exact (pointer_some_toNat (o := c.offset) (by omega)).symm
      have hstop : s'.running = false := by
        rw [← Bool.not_eq_true, running_iff, landed.ends (Or.inl hoff)]
        simp
      rw [loop_of_not_running hstop]
      exact ⟨landed.holds, landed.delivered⟩
    · -- another packet starts behind this one, and the loop goes on there
      obtain ⟨hzero, hlow⟩ := advance_of_more ready rest hrest
      have hstarts' := startOffsets_eq rest hzero
      have hlast' : frame.lastPacket = pointer (startOffsets chunks).getLast? := by
        rw [hlast, hstarts', List.map_cons, List.getLast?_cons]
        cases hgl : (chunks.map (·.offset)).getLast? with
        | none => simp [hrest] at hgl
        | some o => rfl
      have hmore : ¬ (c.offset = frame.lastPacket.toNat ∨ frame.firstPacket = PKT_OFFS_NONE) := by
        rintro (heq | hnone)
        · -- the last start lies behind this one
          have hstarted : chunks.map (·.offset) ≠ [] := by simpa using hrest
          obtain ⟨o, ho⟩ : ∃ o, (chunks.map (·.offset)).getLast? = some o :=
            ⟨_, List.getLast?_eq_some_getLast hstarted⟩
          obtain ⟨ch, hch, rfl⟩ := List.mem_map.mp (List.mem_of_getLast? ho)
          have hbounds := rest.chunk_bounds hch
          have hpos := ready.length_pos
          have hoff' : (c.advance acc).offset = c.offset + (c.chunk acc).length := rfl
          rw [hlast', hstarts', ho, pointer_some_toNat (by omega)] at heq
          omega
        · exact hfirst hnone
      have hexp' := landed.holds.none hzero
      have hframe := landed.more hmore
      obtain ⟨hholds, hdelivered⟩ := ih hzero hrest hlast' (s := s') hexp'.1 hexp'.2 (by omega)
        (by rw [sizeOffset, hfirst', hframe]; rfl)
      refine ⟨hholds, ?_⟩
      have hpacket := packet_le rest
      rw [hdelivered, landed.delivered, List.append_assoc, finished_append ?_ hpacket]
      rw [advance_packet_done hzero]
      omega

theorem next_le_advance (ready : c.Ready acc) : c.next ≤ (c.advance acc).next := by
  change c.next ≤ c.packet + 1
  by_cases hw : c.written = 0
  · rw [Cursor.packet, if_pos hw]; omega
  · have := (ready.unfinished hw).2.1
    rw [Cursor.packet, if_neg hw]; omega

theorem next_le (h : Filled acc (frame.contentAt beyond) c chunks c') : c.next ≤ c'.next := by
  induction h with
  | nil c => exact Nat.le_refl _
  | cons ready bytes rest ih => exact Nat.le_trans (next_le_advance ready) ih

theorem packet_le_next (c : Cursor) : c.packet ≤ c.next := by
  unfold Cursor.packet
  split <;> omega

/-- The first chunk starts a packet where the cursor is. -/
theorem head_startOffsets (h : Filled acc (frame.contentAt beyond) c chunks c')
    (hne : chunks ≠ []) (hw : c.written = 0) :
    (startOffsets chunks).head? = some c.offset ∧ c.offset ≤ 884 ∧ c.next < c'.next := by
  rw [startOffsets_eq h hw]
  cases h with
  | nil c => exact absurd rfl hne
  | cons ready bytes rest =>
    have hfresh := ready.fresh hw
    simp only [FRAME_DATA_SIZE_eq] at hfresh
    refine ⟨rfl, by omega, Nat.lt_of_lt_of_le ?_ (next_le rest)⟩
    change c.next < c.packet + 1
    rw [Cursor.packet, if_pos hw]
    omega

/-- A frame either starts no packet, or all packets from some cursor on. -/
theorem starts_cases (h : Filled acc (frame.contentAt beyond) c chunks c') :
    startOffsets chunks = [] ∧ c'.next = c.next ∨
      ∃ d rest, Filled acc (frame.contentAt beyond) d rest c' ∧ rest ≠ [] ∧ d.written = 0 ∧
        d.next = c.next ∧ startOffsets chunks = startOffsets rest := by
  cases h with
  | nil c => exact Or.inl ⟨rfl, rfl⟩
  | @cons _ chunks _ ready bytes rest =>
    by_cases hw : c.written = 0
    · exact Or.inr ⟨c, _, .cons ready bytes rest, by simp, hw, rfl, rfl⟩
    · have hskip : startOffsets (c.chunk acc :: chunks) = startOffsets chunks := by
        have hstart : ((c.chunk acc).start == 0) = false := by
          simpa [Cursor.chunk] using hw
        simp [startOffsets, hstart]
      have hnext : (c.advance acc).next = c.next := by
        have := (ready.unfinished hw).2.1
        change c.packet + 1 = c.next
        rw [Cursor.packet, if_neg hw]
        omega
      by_cases hrest : chunks = []
      · subst hrest
        cases rest
        exact Or.inl ⟨hskip, hnext⟩
      · exact Or.inr ⟨_, _, rest, hrest, (advance_of_more ready rest hrest).1, hnext, hskip⟩

end Extract

/-! ## One frame -/

theorem Filled.offset_le_frame {acc : List Packet} {content : Nat → UInt8} {c c' : Cursor}
    {chunks : List Chunk} (h : Filled acc content c chunks c') (hc : c.offset ≤ 886) :
    c'.offset ≤ 886 := by
  induction h with
  | nil c => exact hc
  | cons ready bytes rest ih => exact ih ready.length_pos.2.1

theorem Filled.ready {acc : List Packet} {content : Nat → UInt8} {c c' : Cursor}
    {chunks : List Chunk} (h : Filled acc content c chunks c') (hne : chunks ≠ []) :
    c.Ready acc := by
  cases h with
  | nil c => exact absurd rfl hne
  | cons ready bytes rest => exact ready

namespace FrameSpec

variable {acc : List Packet} {c c' : Cursor} {sent : SentFrame}

/-- The chunks lie inside the frame, whatever memory holds behind it. -/
theorem filled_beyond (spec : FrameSpec acc c c' sent) (beyond : Nat → UInt8) :
    ∃ offset, Filled acc (sent.frame.contentAt beyond) c sent.chunks
      ⟨offset, c'.next, c'.written⟩ := by
  obtain ⟨offset, filled⟩ := spec.filled
  have hle := filled.offset_le_frame (by rw [spec.start]; omega)
  refine ⟨offset, filled.congr fun i hi => ?_⟩
  have hlt : i < FRAME_DATA_SIZE := Nat.lt_of_lt_of_le hi hle
  rw [Frame.contentAt, Frame.contentAt, dif_pos hlt, dif_pos hlt]

theorem first_eq_none (spec : FrameSpec acc c c' sent) (h : startOffsets sent.chunks = []) :
    sent.frame.firstPacket = PKT_OFFS_NONE := by
  rw [spec.first, h]; rfl

end FrameSpec

namespace Receiver

variable {acc : List Packet} {c c' : Cursor} {sent : SentFrame} {beyond : Nat → UInt8}
  {r : Receiver}

/-- The partial packet of the receiver is the one unfinished at `c`. -/
def Holding (acc : List Packet) (c : Cursor) (r : Receiver) : Prop :=
  Holds acc c r.pktBuffer r.pktExpected r.pktRead

/-- No partial packet. -/
def Idle (r : Receiver) : Prop := r.pktExpected = 0 ∧ r.pktRead = 0

theorem holding_of_eq {offset : Nat} (h : Holding acc ⟨offset, c.next, c.written⟩ r) :
    Holding acc c r :=
  ⟨h.none, h.size, h.read, h.bytes⟩

/-- A frame that continues the packet the receiver holds. -/
theorem onFrame_synced (spec : FrameSpec acc c c' sent)
    (hcounter : sent.frame.counter = r.lastCounter + 1) (hw : c.written ≠ 0)
    (holding : r.Holding acc c) :
    (r.onFrame sent.frame beyond).receiver.Holding acc c' ∧
      (r.onFrame sent.frame beyond).delivered = finished acc c c' := by
  obtain ⟨offset, filled⟩ := spec.filled_beyond beyond
  have hexp : r.pktExpected ≠ 0 := by
    intro hzero
    have hsize := holding.size hw
    have hpos := (filled.ready (spec.busy hw)).packet_pos
    rw [hzero] at hsize
    exact absurd hsize (Nat.ne_of_lt hpos)
  have hskip : ¬ (r.pktExpected = 0 ∧ sent.frame.firstPacket = PKT_OFFS_NONE) :=
    fun h => hexp h.1
  simp only [onFrame, hcounter, ne_eq, not_true_eq_false, if_false, if_neg hskip]
  generalize hr : ({ r with lastCounter := r.lastCounter + 1 } : Receiver) = r'
  have holds : Holds acc c (r'.loopStart 0).pktBuffer (r'.loopStart 0).pktExpected
      (r'.loopStart 0).pktRead := by
    rw [← hr]; exact holding
  suffices h : Holds acc ⟨offset, c'.next, c'.written⟩
      ((r'.loopStart 0).loop sent.frame beyond).pktBuffer
      ((r'.loopStart 0).loop sent.frame beyond).pktExpected
      ((r'.loopStart 0).loop sent.frame beyond).pktRead ∧
      ((r'.loopStart 0).loop sent.frame beyond).delivered =
        finished acc c ⟨offset, c'.next, c'.written⟩ from
    ⟨holding_of_eq h.1, h.2⟩
  have hbusy := spec.busy hw
  have hfirst := spec.first
  have hlast := spec.last
  generalize sent.chunks = chunks at filled hbusy hfirst hlast
  generalize (⟨offset, c'.next, c'.written⟩ : Cursor) = e at filled
  -- the frame starts with the rest of the packet the receiver holds
  cases filled with
  | nil c => exact absurd rfl hbusy
  | @cons _ chunks _ ready bytes rest =>
    have hstarts : startOffsets (c.chunk acc :: chunks) = startOffsets chunks := by
      have hstart : ((c.chunk acc).start == 0) = false := by simpa [Cursor.chunk] using hw
      simp [startOffsets, hstart]
    rw [hstarts] at hfirst hlast
    obtain ⟨s', hloop, hfirst', landed⟩ :=
      Extract.land_rest ready bytes hw holds (by simp [loopStart, spec.start])
    rw [hloop]
    by_cases hrest : chunks = []
    · -- nothing starts in this frame: the rest of it is skipped
      subst hrest
      cases rest
      have hframe := landed.ends (Or.inr hfirst)
      have hstop : s'.running = false := by
        rw [← Bool.not_eq_true, Extract.running_iff, hframe]
        simp
      rw [Extract.loop_of_not_running hstop]
      exact ⟨landed.holds, landed.delivered⟩
    · -- the first start in the frame lies right behind the finished packet
      obtain ⟨hzero, hlow⟩ := Extract.advance_of_more ready rest hrest
      obtain ⟨hhead, -, -⟩ := Extract.head_startOffsets rest hrest hzero
      rw [hhead] at hfirst
      have hne : sent.frame.firstPacket ≠ PKT_OFFS_NONE := by
        rw [hfirst]; exact pointer_some_ne (by omega)
      have hframe := landed.more (by simp [loopStart, hne])
      have hidle := landed.holds.none hzero
      have hoffset : s'.sizeOffset sent.frame = (c.advance acc).offset := by
        have hflag : s'.firstPacket = true := hfirst'
        rw [Extract.sizeOffset, if_pos hflag, hfirst, pointer_some_toNat (by omega)]
      obtain ⟨hholds, hdelivered⟩ := Extract.loop_starts rest hzero hrest hne hlast hidle.1
        hidle.2 (by omega) hoffset
      refine ⟨hholds, ?_⟩
      have hpacket := Extract.packet_le rest
      rw [hdelivered, landed.delivered, List.append_assoc, finished_append ?_ hpacket]
      · rfl
      · rw [Extract.advance_packet_done hzero]
        omega

/-- A frame met without its predecessor or without a partial packet: the receiver takes
    the packets that start in it. -/
theorem onFrame_fresh (spec : FrameSpec acc c c' sent)
    (hfresh : sent.frame.counter ≠ r.lastCounter + 1 ∨ r.Idle) :
    (r.onFrame sent.frame beyond).delivered =
        (List.range' c.next (c'.packet - c.next)).map (packetAt acc) ∧
      (c.next < c'.next ∧ (r.onFrame sent.frame beyond).receiver.Holding acc c' ∨
        c'.next = c.next ∧ (r.onFrame sent.frame beyond).receiver.Idle) := by
  obtain ⟨offset, filled⟩ := spec.filled_beyond beyond
  obtain ⟨hnone, hnext⟩ | ⟨d, rest, hrest, hne, hzero, hnext, hstarts⟩ :=
    Extract.starts_cases filled
  · -- no packet starts here
    change c'.next = c.next at hnext
    have hfirst := spec.first_eq_none hnone
    have hpacket := Extract.packet_le_next c'
    have hempty : (List.range' c.next (c'.packet - c.next)).map (packetAt acc) = [] := by
      rw [Nat.sub_eq_zero_of_le (by omega)]
      rfl
    rw [hempty]
    refine ⟨?_, Or.inr ⟨hnext, ?_⟩⟩
    · by_cases hcounter : sent.frame.counter = r.lastCounter + 1
      · obtain hbad | hidle := hfresh
        · exact absurd hcounter hbad
        · simp [onFrame, hcounter, hidle.1, hfirst]
      · simp [onFrame, hcounter, hfirst]
    · by_cases hcounter : sent.frame.counter = r.lastCounter + 1
      · obtain hbad | hidle := hfresh
        · exact absurd hcounter hbad
        · simpa [onFrame, hcounter, hidle.1, hfirst, Idle] using hidle.2
      · simp [onFrame, hcounter, hfirst, Idle]
  · obtain ⟨hhead, hlow, hlt⟩ := Extract.head_startOffsets hrest hne hzero
    have hfirst : sent.frame.firstPacket = pointer (some d.offset) := by
      rw [spec.first, hstarts, hhead]
    have hfirstne : sent.frame.firstPacket ≠ PKT_OFFS_NONE := by
      rw [hfirst]; exact pointer_some_ne (by omega)
    have hfirstNat : sent.frame.firstPacket.toNat = d.offset := by
      rw [hfirst, pointer_some_toNat (by omega)]
    have hlast := spec.last
    rw [hstarts] at hlast
    have hdpacket : d.packet = c.next := by rw [Cursor.packet, if_pos hzero, hnext]
    -- both branches extract from an idle state, at `firstPacket` or at 0
    have hextract : ∀ (r' : Receiver) (frameRead : Nat), r'.Idle → frameRead ≤ 884 →
        (r'.extract sent.frame beyond frameRead).delivered =
            (List.range' c.next (c'.packet - c.next)).map (packetAt acc) ∧
          (r'.extract sent.frame beyond frameRead).receiver.Holding acc c' := by
      intro r' frameRead hidle hle
      have hoffset : (r'.loopStart frameRead).sizeOffset sent.frame = d.offset := by
        rw [Extract.sizeOffset, loopStart, if_pos rfl, hfirstNat]
      obtain ⟨hholds, hdelivered⟩ := Extract.loop_starts hrest hzero hne hfirstne hlast
        hidle.1 hidle.2 hle hoffset
      have hdel : finished acc d ⟨offset, c'.next, c'.written⟩ =
          (List.range' c.next (c'.packet - c.next)).map (packetAt acc) := by
        rw [finished, hdpacket]; rfl
      refine ⟨?_, holding_of_eq hholds⟩
      rw [← hdel]
      exact hdelivered
    have hlt' : c.next < c'.next := by
      rw [← hnext]; exact hlt
    by_cases hcounter : sent.frame.counter = r.lastCounter + 1
    · obtain hbad | hidle := hfresh
      · exact absurd hcounter hbad
      · have hskip : ¬ (r.pktExpected = 0 ∧ sent.frame.firstPacket = PKT_OFFS_NONE) :=
          fun h => hfirstne h.2
        simp only [onFrame, hcounter, ne_eq, not_true_eq_false, if_false, if_neg hskip]
        have h := hextract { r with lastCounter := r.lastCounter + 1 } 0 hidle (by omega)
        exact ⟨h.1, Or.inl ⟨hlt', h.2⟩⟩
    · have hnear : ¬ sent.frame.firstPacket.toNat > FRAME_DATA_SIZE - 2 := by
        simp only [FRAME_DATA_SIZE_eq]; omega
      simp only [onFrame, ne_eq, hcounter, not_false_eq_true, if_true, hfirstne, if_neg hnear]
      have h := hextract ⟨sent.frame.counter, r.pktBuffer, 0, 0⟩ sent.frame.firstPacket.toNat
        ⟨rfl, rfl⟩ (by omega)
      exact ⟨h.1, Or.inl ⟨hlt', h.2⟩⟩

theorem onFrame_lastCounter (r : Receiver) (frame : Frame) :
    (r.onFrame frame beyond).receiver.lastCounter = frame.counter := by
  simp only [onFrame]
  split
  · split
    · split <;> rfl
    · rfl
  · split <;> rfl

end Receiver

end RyFi.Modem
