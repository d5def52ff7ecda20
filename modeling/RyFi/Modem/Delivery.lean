import RyFi.Modem.Extraction

/-! # Delivery over a lossy channel

The frames of a run of the transmitter lie one behind the other in the stream of accepted
packets (`FrameStream`), whose bytes are ordered by `Cursor.Past`.  `Link` says how the receiver
stands to the stream after some frames, lost or not; `link_step` carries it over one frame
and `delivers_exactly` over a run.
-/

namespace RyFi.Modem

open CLoop

/-! ## What was received -/

/-- The chunk holds byte `j` of packet `k`. -/
def Chunk.covers (ch : Chunk) (k j : Nat) : Bool :=
  ch.packet == k && decide (ch.start ≤ j) && decide (j < ch.start + ch.length)

/-- The frame holds byte `j` of packet `k`. -/
def SentFrame.carries (sent : SentFrame) (k j : Nat) : Bool :=
  sent.chunks.any fun ch => ch.covers k j

/-- The frames that are not lost, with their numbers. -/
def survivors (keep : Nat → Bool) (frames : List SentFrame) : List (SentFrame × Nat) :=
  frames.zipIdx.filter fun fi => keep fi.2

/-- Every byte of packet `k`, its length included, lies in a received frame. -/
def fullyReceived (acc : List Packet) (received : List (SentFrame × Nat)) (k : Nat) : Bool :=
  (List.range (packetAt acc k).serializedSize).all fun j =>
    received.any fun fi => fi.1.carries k j

theorem survivors_append (keep : Nat → Bool) (frames : List SentFrame) (sent : SentFrame) :
    survivors keep (frames ++ [sent]) =
      survivors keep frames ++ (if keep frames.length then [(sent, frames.length)] else []) := by
  by_cases h : keep frames.length = true <;>
    simp [survivors, List.zipIdx_append, List.filter_append, h]

/-! ## The order of the bytes -/

/-- Byte `j` of packet `k` lies before the cursor. -/
def Cursor.Past (c : Cursor) (k j : Nat) : Prop :=
  k < c.packet ∨ k = c.packet ∧ j < c.written

section

variable {acc : List Packet} {content : Nat → UInt8} {c c' : Cursor} {chunks : List Chunk}
  {k j : Nat}

theorem past_advance (ready : c.Ready acc) (h : c.Past k j) : (c.advance acc).Past k j := by
  by_cases hzero : (c.advance acc).written = 0
  · have hpacket := Extract.advance_packet_done hzero
    unfold Cursor.Past at h ⊢
    omega
  · have hpacket := Extract.advance_packet_unfinished hzero
    have hlen := ready.length_pos
    obtain ⟨hz, -⟩ | ⟨-, -, hwritten, -⟩ := ready.advance_written
    · exact absurd hz hzero
    · unfold Cursor.Past at h ⊢
      omega

theorem chunk_covers_iff (ready : c.Ready acc) (hj : j < (packetAt acc k).serializedSize) :
    (c.chunk acc).covers k j = true ↔ ¬ c.Past k j ∧ (c.advance acc).Past k j := by
  have hcovers : (c.chunk acc).covers k j = true ↔
      c.packet = k ∧ c.written ≤ j ∧ j < c.written + (c.chunk acc).length := by
    simp only [Chunk.covers, Bool.and_eq_true, beq_iff_eq, decide_eq_true_eq, and_assoc]
    rfl
  have hpos := ready.length_pos
  rw [hcovers]
  by_cases hzero : (c.advance acc).written = 0
  · have hpacket := Extract.advance_packet_done hzero
    obtain ⟨-, hend⟩ | ⟨-, hge, -⟩ := ready.advance_written
    · unfold Cursor.Past
      rw [hpacket, hzero]
      constructor
      · rintro ⟨rfl, hle, hlt⟩
        omega
      · rintro ⟨hnot, hpast⟩
        have hk : c.packet = k := by omega
        have htotal : c.total acc = (packetAt acc k).serializedSize := by rw [← hk]; rfl
        omega
    · omega
  · have hpacket := Extract.advance_packet_unfinished hzero
    obtain ⟨hz, -⟩ | ⟨-, -, hwritten, -⟩ := ready.advance_written
    · exact absurd hz hzero
    · unfold Cursor.Past
      rw [hpacket, hwritten]
      omega

theorem past_filled (h : Filled acc content c chunks c') (hpast : c.Past k j) :
    c'.Past k j := by
  induction h with
  | nil c => exact hpast
  | cons ready bytes rest ih => exact ih (past_advance ready hpast)

/-- A frame with chunks goes past the byte it begins with. -/
theorem past_first (h : Filled acc content c chunks c') (hne : chunks ≠ []) :
    c'.Past c.packet c.written := by
  cases h with
  | nil c => exact absurd rfl hne
  | cons ready bytes rest =>
    apply past_filled rest
    have hpos := ready.length_pos
    by_cases hzero : (c.advance acc).written = 0
    · exact Or.inl (by rw [Extract.advance_packet_done hzero]; omega)
    · obtain ⟨hz, -⟩ | ⟨-, -, hwritten, -⟩ := ready.advance_written
      · exact absurd hz hzero
      · exact Or.inr ⟨(Extract.advance_packet_unfinished hzero).symm, by omega⟩

/-- The chunks hold exactly the bytes between the two cursors. -/
theorem covers_iff (h : Filled acc content c chunks c')
    (hj : j < (packetAt acc k).serializedSize) :
    (chunks.any fun ch => ch.covers k j) = true ↔ ¬ c.Past k j ∧ c'.Past k j := by
  induction h with
  | nil c => simp
  | cons ready bytes rest ih =>
    rw [List.any_cons, Bool.or_eq_true, chunk_covers_iff ready hj, ih]
    have hto := past_advance (k := k) (j := j) ready
    have hend := past_filled (k := k) (j := j) rest
    tauto

end

/-! ## Streams of frames -/

/-- The frames lead through the stream of the packets `acc` along the cursors `cur`. -/
structure FrameStream (acc : List Packet) (frames : List SentFrame) (cur : Nat → Cursor) : Prop where
  start : (cur 0).packet = 0 ∧ (cur 0).written = 0
  counter : ∀ n (h : n < frames.length), frames[n].frame.counter = UInt16.ofNat n
  spec : ∀ n (h : n < frames.length), FrameSpec acc (cur n) (cur (n + 1)) frames[n]
  final_packet : (cur frames.length).packet ≤ acc.length
  final_written : (cur frames.length).written ≠ 0 →
    (cur frames.length).written < (cur frames.length).total acc

namespace Worker

theorem transmit_succ (env : Environment) (w : Worker) (n : Nat) :
    w.transmit env (n + 1) =
      ((w.transmit env n).1 ++ [((w.transmit env n).2.sendFrame env).1],
        ((w.transmit env n).2.sendFrame env).2) := rfl

theorem transmit_length (env : Environment) (w : Worker) (n : Nat) :
    (w.transmit env n).1.length = n := by
  induction n with
  | zero => rfl
  | succ n ih => rw [transmit_succ]; simp [ih]

theorem transmit_inv {env : Environment} (henv : ∀ i, ∀ p ∈ env.offers i, 0 < p.size)
    {w : Worker} (h : w.Inv) (n : Nat) :
    (w.transmit env n).2.Inv ∧
      (w.transmit env n).2.counter = w.counter + UInt16.ofNat n := by
  induction n with
  | zero => exact ⟨h, by simp [transmit]⟩
  | succ n ih =>
    have hspec := sendFrame_spec henv ih.1
    rw [transmit_succ]
    refine ⟨hspec.1, ?_⟩
    rw [hspec.2.2.2.1, ih.2, UInt16.ofNat_add, UInt16.add_assoc]
    rfl

/-- The frames of a run from the start form a stream of the packets accepted in the run. -/
theorem transmit_stream {env : Environment} (henv : ∀ i, ∀ p ∈ env.offers i, 0 < p.size)
    (pktBuffer content : Nat → UInt8) (n : Nat) :
    FrameStream ((init pktBuffer content).transmit env n).2.queue.accepted
      ((init pktBuffer content).transmit env n).1
      fun i => ((init pktBuffer content).transmit env i).2.cursor 0 := by
  generalize hw : init pktBuffer content = w
  have hinv : w.Inv := hw ▸ inv_init pktBuffer content
  have hcounter : w.counter = 0 := by rw [← hw]; rfl
  have hfinal : ∀ n, ((w.transmit env n).2.cursor 0).packet ≤
        (w.transmit env n).2.queue.accepted.length ∧
      (((w.transmit env n).2.cursor 0).written ≠ 0 →
        ((w.transmit env n).2.cursor 0).written <
          ((w.transmit env n).2.cursor 0).total (w.transmit env n).2.queue.accepted) := by
    intro n
    obtain ⟨hwinv, -⟩ := transmit_inv henv hinv n
    refine ⟨Nat.le_trans (Extract.packet_le_next _) hwinv.queue.popped_le, fun hne => ?_⟩
    have hunf := hwinv.unfinished hne
    have hlt := hunf.written_lt
    rw [hunf.toWrite] at hlt
    have hpacket : ((w.transmit env n).2.cursor 0).packet =
        (w.transmit env n).2.queue.popped - 1 := if_neg hne
    rw [Cursor.total, hpacket]
    exact hlt
  -- one frame more: the packets accepted meanwhile only extend the list
  induction n with
  | zero =>
    refine ⟨by rw [← hw]; exact ⟨rfl, rfl⟩, ?_, ?_, (hfinal 0).1, (hfinal 0).2⟩
    · intro n h; exact absurd h (Nat.not_lt_zero n)
    · intro n h; exact absurd h (Nat.not_lt_zero n)
  | succ n ih =>
    obtain ⟨hwinv, hwcounter⟩ := transmit_inv henv hinv n
    obtain ⟨-, hspec, hsent, -, hacc⟩ := sendFrame_spec henv hwinv
    have hlen := transmit_length env w n
    have hlen' := transmit_length env w (n + 1)
    rw [transmit_succ] at hlen' ⊢
    refine ⟨ih.start, ?_, ?_, ?_, ?_⟩
    · intro i hi
      by_cases hlast : i < n
      · rw [List.getElem_append_left (by omega)]
        exact ih.counter i (by omega)
      · obtain rfl : i = n := by omega
        rw [List.getElem_append_right (by omega)]
        simp only [hlen, Nat.sub_self, List.getElem_cons_zero]
        rw [hsent, hwcounter, hcounter, UInt16.zero_add]
    · intro i hi
      by_cases hlast : i < n
      · rw [List.getElem_append_left (by omega)]
        exact (ih.spec i (by omega)).mono hacc
      · obtain rfl : i = n := by omega
        rw [List.getElem_append_right (by omega)]
        simp only [hlen, Nat.sub_self, List.getElem_cons_zero]
        exact hspec
    · rw [hlen']; exact (hfinal (n + 1)).1
    · rw [hlen']; exact (hfinal (n + 1)).2

end Worker

/-! ## One frame of a stream, lost or received -/

namespace FrameStream

variable {acc : List Packet} {frames : List SentFrame} {cur : Nat → Cursor}
  {keep : Nat → Bool} {n k j : Nat}

/-- Byte `j` of packet `k` lies in one of the first `n` frames, received. -/
def Got (keep : Nat → Bool) (frames : List SentFrame) (n k j : Nat) : Prop :=
  ((survivors keep (frames.take n)).any fun fi => fi.1.carries k j) = true

/-- What was sent of the packet unfinished after `n` frames was received. -/
def Tracked (cur : Nat → Cursor) (keep : Nat → Bool) (frames : List SentFrame) (n : Nat) :
    Prop :=
  ∀ j, j < (cur n).written → Got keep frames n (cur n).packet j

theorem survivors_take (hn : n < frames.length) :
    survivors keep (frames.take (n + 1)) =
      survivors keep (frames.take n) ++ (if keep n then [(frames[n], n)] else []) := by
  have hlen : (frames.take n).length = n := by rw [List.length_take]; omega
  rw [List.take_succ_eq_append_getElem hn, survivors_append, hlen]

theorem carries_iff (hs : FrameStream acc frames cur) (hn : n < frames.length)
    (hj : j < (packetAt acc k).serializedSize) :
    frames[n].carries k j = true ↔ ¬ (cur n).Past k j ∧ (cur (n + 1)).Past k j := by
  obtain ⟨offset, filled⟩ := (hs.spec n hn).filled
  have hiff := covers_iff filled hj
  exact hiff

theorem got_succ (hs : FrameStream acc frames cur) (hn : n < frames.length)
    (hj : j < (packetAt acc k).serializedSize) :
    Got keep frames (n + 1) k j ↔
      Got keep frames n k j ∨ keep n = true ∧ ¬ (cur n).Past k j ∧ (cur (n + 1)).Past k j := by
  rw [Got, Got, survivors_take hn, List.any_append, Bool.or_eq_true]
  by_cases hkeep : keep n = true
  · simp [hkeep, hs.carries_iff hn hj]
  · simp [hkeep]

theorem past_succ (hs : FrameStream acc frames cur) (hn : n < frames.length)
    (h : (cur n).Past k j) : (cur (n + 1)).Past k j := by
  obtain ⟨offset, filled⟩ := (hs.spec n hn).filled
  have hpast := past_filled filled h
  exact hpast

theorem past_of_got (hs : FrameStream acc frames cur) (hn : n ≤ frames.length)
    (hj : j < (packetAt acc k).serializedSize) (h : Got keep frames n k j) :
    (cur n).Past k j := by
  induction n with
  | zero => simp [Got, survivors] at h
  | succ n ih =>
    obtain hold | ⟨-, -, hnew⟩ := (hs.got_succ (by omega) hj).mp h
    · exact hs.past_succ (by omega) (ih (by omega) hold)
    · exact hnew

theorem packet_le_succ (hs : FrameStream acc frames cur) (hn : n < frames.length) :
    (cur n).packet ≤ (cur (n + 1)).packet := by
  obtain ⟨offset, filled⟩ := (hs.spec n hn).filled
  have hle := Extract.packet_le filled
  exact hle

/-- An unfinished packet is really unfinished, and its frame carries some more of it. -/
theorem unfinished (hs : FrameStream acc frames cur) (hn : n < frames.length)
    (hw : (cur n).written ≠ 0) :
    (cur n).next = (cur n).packet + 1 ∧ (cur n).written < (cur n).total acc ∧
      ((cur (n + 1)).packet = (cur n).packet → (cur n).written < (cur (n + 1)).written) := by
  obtain ⟨offset, filled⟩ := (hs.spec n hn).filled
  have ready := filled.ready ((hs.spec n hn).busy hw)
  obtain ⟨-, hnext, -, hlt⟩ := ready.unfinished hw
  refine ⟨by rw [Cursor.packet, if_neg hw]; omega, hlt, fun hpacket => ?_⟩
  have hpast := past_first filled ((hs.spec n hn).busy hw)
  obtain hlt' | ⟨-, hlt'⟩ : (cur (n + 1)).Past (cur n).packet (cur n).written := hpast
  · omega
  · exact hlt'

/-! ### What must be delivered -/

theorem fullyReceived_iff :
    fullyReceived acc (survivors keep (frames.take n)) k = true ↔
      ∀ j, j < (packetAt acc k).serializedSize → Got keep frames n k j := by
  simp only [fullyReceived, List.all_eq_true, List.mem_range, Got]

/-- A packet not yet finished is not fully received. -/
theorem not_fullyReceived (hs : FrameStream acc frames cur) (hn : n ≤ frames.length)
    (hk : (cur n).packet ≤ k) :
    fullyReceived acc (survivors keep (frames.take n)) k = false := by
  rw [← Bool.not_eq_true, fullyReceived_iff]
  intro hall
  have htotal : 0 < (packetAt acc k).serializedSize := Nat.succ_pos _
  obtain hlt | ⟨heq, hlt⟩ :=
    hs.past_of_got hn (by omega) (hall ((packetAt acc k).serializedSize - 1) (by omega))
  · omega
  · have hw : (cur n).written ≠ 0 := by omega
    have hunf : (cur n).written < (cur n).total acc := by
      by_cases hlast : n < frames.length
      · exact (hs.unfinished hlast hw).2.1
      · obtain rfl : n = frames.length := by omega
        exact hs.final_written hw
    rw [Cursor.total, ← heq] at hunf
    omega

/-- Whether a finished packet was received is not changed by later frames. -/
theorem fullyReceived_old (hs : FrameStream acc frames cur) (hn : n < frames.length)
    (hk : k < (cur n).packet) :
    fullyReceived acc (survivors keep (frames.take (n + 1))) k =
      fullyReceived acc (survivors keep (frames.take n)) k := by
  rw [Bool.eq_iff_iff, fullyReceived_iff, fullyReceived_iff]
  have hpast : ∀ j, (cur n).Past k j := fun _ => Or.inl hk
  constructor
  · intro hall j hj
    obtain hold | ⟨-, hnot, -⟩ := (hs.got_succ hn hj).mp (hall j hj)
    · exact hold
    · exact absurd (hpast j) hnot
  · intro hall j hj
    exact (hs.got_succ hn hj).mpr (Or.inl (hall j hj))

/-- A packet that ends in a received frame is fully received unless a part of it was lost. -/
theorem fullyReceived_new (hs : FrameStream acc frames cur) (hn : n < frames.length)
    (hkeep : keep n = true) (hk : (cur n).packet ≤ k) (hk' : k < (cur (n + 1)).packet) :
    fullyReceived acc (survivors keep (frames.take (n + 1))) k = true ↔
      (k = (cur n).packet → Tracked cur keep frames n) := by
  rw [fullyReceived_iff]
  constructor
  · rintro hall rfl j hj
    have hlt : j < (packetAt acc (cur n).packet).serializedSize := by
      have := (hs.unfinished hn (by omega)).2.1
      rw [Cursor.total] at this
      omega
    obtain hold | ⟨-, hnot, -⟩ := (hs.got_succ hn hlt).mp (hall j hlt)
    · exact hold
    · exact absurd (Or.inr ⟨rfl, hj⟩) hnot
  · intro htracked j hj
    rw [hs.got_succ hn hj]
    by_cases hpast : (cur n).Past k j
    · obtain hlt | ⟨rfl, hlt⟩ := hpast
      · omega
      · exact Or.inl (htracked rfl j hlt)
    · exact Or.inr ⟨hkeep, hpast, Or.inl hk'⟩

/-- The fully received packets among those that end in frame `n`. -/
def arriving (acc : List Packet) (frames : List SentFrame) (cur : Nat → Cursor)
    (keep : Nat → Bool) (n : Nat) : List Packet :=
  ((List.range' (cur n).packet ((cur (n + 1)).packet - (cur n).packet)).filter
    (fullyReceived acc (survivors keep (frames.take (n + 1))))).map (packetAt acc)

theorem arrived_succ (hs : FrameStream acc frames cur) (hn : n < frames.length) :
    ((List.range (cur (n + 1)).packet).filter
        (fullyReceived acc (survivors keep (frames.take (n + 1))))).map (packetAt acc) =
      ((List.range (cur n).packet).filter
        (fullyReceived acc (survivors keep (frames.take n)))).map (packetAt acc) ++
      arriving acc frames cur keep n := by
  have hle := hs.packet_le_succ hn
  have hsplit : List.range (cur (n + 1)).packet = List.range (cur n).packet ++
      List.range' (cur n).packet ((cur (n + 1)).packet - (cur n).packet) := by
    rw [List.range_eq_range', List.range_eq_range',
      show (cur (n + 1)).packet = (cur n).packet + ((cur (n + 1)).packet - (cur n).packet) by
        omega, ← List.range'_append_1]
    simp
  rw [hsplit, List.filter_append, List.map_append, arriving]
  congr 2
  apply List.filter_congr
  intro k hk
  exact hs.fullyReceived_old hn (List.mem_range.mp hk)

theorem arriving_lost (hs : FrameStream acc frames cur) (hn : n < frames.length)
    (hkeep : ¬ keep n = true) : arriving acc frames cur keep n = [] := by
  have hnone : (List.range' (cur n).packet ((cur (n + 1)).packet - (cur n).packet)).filter
      (fullyReceived acc (survivors keep (frames.take (n + 1)))) = [] := by
    rw [List.filter_eq_nil_iff]
    intro k hk
    rw [List.mem_range'_1] at hk
    rw [survivors_take hn, if_neg hkeep, List.append_nil, hs.not_fullyReceived (by omega) hk.1]
    exact Bool.false_ne_true
  rw [arriving, hnone]
  rfl

/-- All packets that end in a received frame arrive when the unfinished one was tracked. -/
theorem arriving_tracked (hs : FrameStream acc frames cur) (hn : n < frames.length)
    (hkeep : keep n = true) (htracked : Tracked cur keep frames n) :
    arriving acc frames cur keep n = finished acc (cur n) (cur (n + 1)) := by
  rw [arriving, finished, List.filter_eq_self.mpr]
  intro k hk
  rw [List.mem_range'_1] at hk
  exact (hs.fullyReceived_new hn hkeep hk.1 (by omega)).mpr fun _ => htracked

/-- Otherwise those that start in it. -/
theorem arriving_fresh (hs : FrameStream acc frames cur) (hn : n < frames.length)
    (hkeep : keep n = true)
    (hlost : (cur n).written ≠ 0 → ¬ Tracked cur keep frames n) :
    arriving acc frames cur keep n =
      (List.range' (cur n).next ((cur (n + 1)).packet - (cur n).next)).map (packetAt acc) := by
  by_cases hw : (cur n).written = 0
  · have hpacket : (cur n).packet = (cur n).next := if_pos hw
    rw [hs.arriving_tracked hn hkeep fun j hj => by omega, finished, hpacket]
  · have hnext := (hs.unfinished hn hw).1
    have hle := hs.packet_le_succ hn
    by_cases heq : (cur (n + 1)).packet = (cur n).packet
    · simp [arriving, heq, hnext]
    · have hfirst : ¬ fullyReceived acc (survivors keep (frames.take (n + 1)))
          (cur n).packet = true := fun hfull =>
        hlost hw ((hs.fullyReceived_new hn hkeep (Nat.le_refl _) (by omega)).mp hfull rfl)
      have hlen : (cur (n + 1)).packet - (cur n).packet =
          ((cur (n + 1)).packet - (cur n).next) + 1 := by omega
      rw [arriving, hlen, List.range'_succ, List.filter_cons_of_neg hfirst, ← hnext,
        List.filter_eq_self.mpr]
      intro k hk
      rw [List.mem_range'_1] at hk
      exact (hs.fullyReceived_new hn hkeep (by omega) (by omega)).mpr fun h => by omega

/-! ### How the receiver stands to the stream -/

/-- The next frame received from number `n` on will not be taken for a successor. -/
def Behind (keep : Nat → Bool) (frames : List SentFrame) (n : Nat) (r : Receiver) : Prop :=
  ∀ i, n ≤ i → i < frames.length → keep i = true →
    (∀ m, n ≤ m → m < i → keep m = false) → UInt16.ofNat i ≠ r.lastCounter + 1

/-- The receiver after the first `n` frames. -/
inductive Link (acc : List Packet) (frames : List SentFrame) (cur : Nat → Cursor)
    (keep : Nat → Bool) (n : Nat) (r : Receiver) : Prop where
  | idle (hidle : r.Idle) (hlost : (cur n).written ≠ 0 → ¬ Tracked cur keep frames n)
  | behind (hbehind : Behind keep frames n r)
      (hlost : (cur n).written ≠ 0 → ¬ Tracked cur keep frames n)
  | synced (hw : (cur n).written ≠ 0) (htracked : Tracked cur keep frames n)
      (holding : r.Holding acc (cur n)) (last : Nat) (hlast : n = last + 1)
      (hkeep : keep last = true) (hcounter : r.lastCounter = UInt16.ofNat last)

/-- Fewer than 65536 frames are lost between two received ones. -/
def FewLost (keep : Nat → Bool) (count : Nat) : Prop :=
  ∀ i j, i < j → j < count → keep i = true → keep j = true →
    (∀ m, i < m → m < j → keep m = false) → j - i - 1 < 65536

theorem tracked_succ (hs : FrameStream acc frames cur) (hn : n < frames.length)
    (hkeep : keep n = true)
    (hold : ∀ j, (cur n).Past (cur (n + 1)).packet j → j < (cur (n + 1)).written →
      Got keep frames n (cur (n + 1)).packet j)
    (hlt : (cur (n + 1)).written ≠ 0 → (cur (n + 1)).written < (cur (n + 1)).total acc) :
    Tracked cur keep frames (n + 1) := by
  intro j hj
  have htotal : j < (packetAt acc (cur (n + 1)).packet).serializedSize :=
    Nat.lt_trans hj (hlt (by omega))
  rw [hs.got_succ hn htotal]
  by_cases hpast : (cur n).Past (cur (n + 1)).packet j
  · exact Or.inl (hold j hpast hj)
  · exact Or.inr ⟨hkeep, hpast, Or.inr ⟨rfl, hj⟩⟩

theorem written_lt (hs : FrameStream acc frames cur) (hn : n ≤ frames.length)
    (hw : (cur n).written ≠ 0) : (cur n).written < (cur n).total acc := by
  by_cases hlast : n < frames.length
  · exact (hs.unfinished hlast hw).2.1
  · obtain rfl : n = frames.length := by omega
    exact hs.final_written hw

/-- A lost byte of the packet stays lost. -/
theorem not_tracked_succ (hs : FrameStream acc frames cur) (hn : n < frames.length)
    (hpacket : (cur (n + 1)).packet = (cur n).packet) (hw : (cur n).written ≠ 0)
    (hlost : ¬ Tracked cur keep frames n) : ¬ Tracked cur keep frames (n + 1) := by
  intro htracked
  apply hlost
  obtain ⟨-, htotal, hprogress⟩ := hs.unfinished hn hw
  have hmore := hprogress hpacket
  intro j hj
  have hgot := htracked j (by omega)
  rw [hpacket, hs.got_succ hn (Nat.lt_trans hj htotal)] at hgot
  obtain hold | ⟨-, hnot, -⟩ := hgot
  · exact hold
  · exact absurd (Or.inr ⟨rfl, hj⟩) hnot

/-- A lost frame takes a part of the unfinished packet with it. -/
theorem not_tracked_lost (hs : FrameStream acc frames cur) (hn : n < frames.length)
    (hkeep : ¬ keep n = true) (hw : (cur (n + 1)).written ≠ 0) :
    ¬ Tracked cur keep frames (n + 1) := by
  intro htracked
  have hlt := hs.written_lt (by omega) hw
  have htotal : (cur (n + 1)).written - 1 <
      (packetAt acc (cur (n + 1)).packet).serializedSize := by
    rw [Cursor.total] at hlt
    omega
  have hgot := htracked ((cur (n + 1)).written - 1) (by omega)
  rw [hs.got_succ hn htotal] at hgot
  obtain hold | ⟨hkept, -⟩ := hgot
  · have hle := hs.packet_le_succ hn
    obtain hpast | ⟨hpacket, hpast⟩ := hs.past_of_got (by omega) htotal hold
    · omega
    · have := (hs.unfinished hn (by omega)).2.2 hpacket
      omega
  · exact hkeep hkept

theorem ofNat_ne_succ {i l : Nat} (h : l + 1 < i) (h' : i - l - 1 < 65536) :
    UInt16.ofNat i ≠ UInt16.ofNat l + 1 := by
  intro heq
  have hmod : i % 2 ^ 16 = (l + 1) % 2 ^ 16 := by
    have hNat := congrArg UInt16.toNat heq
    rw [show UInt16.ofNat l + 1 = UInt16.ofNat (l + 1) by rw [UInt16.ofNat_add]; rfl,
      UInt16.toNat_ofNat', UInt16.toNat_ofNat'] at hNat
    exact hNat
  omega

/-- A lost frame leaves the receiver behind, unless it has nothing to lose. -/
theorem link_lost (hs : FrameStream acc frames cur) (hfew : FewLost keep frames.length)
    (hn : n < frames.length) (hkeep : ¬ keep n = true) {r : Receiver}
    (h : Link acc frames cur keep n r) : Link acc frames cur keep (n + 1) r := by
  have hlost := fun hw => hs.not_tracked_lost hn hkeep hw
  cases h with
  | idle hidle _ => exact .idle hidle hlost
  | behind hbehind _ =>
    refine .behind (fun i hi hlen hkept hnone => ?_) hlost
    refine hbehind i (by omega) hlen hkept fun m hm hm' => ?_
    by_cases heq : m = n
    · rw [heq]; simpa using hkeep
    · exact hnone m (by omega) hm'
  | synced hw _ _ last hlast hkept hcounter =>
    refine .behind (fun i hi hlen hkept' hnone => ?_) hlost
    rw [hcounter]
    refine ofNat_ne_succ (by omega) (hfew last i (by omega) hlen hkept hkept' ?_)
    intro m hm hm'
    by_cases heq : m = n
    · rw [heq]; simpa using hkeep
    · exact hnone m (by omega) hm'

/-- A received frame delivers what arrives with it. -/
theorem link_received (hs : FrameStream acc frames cur) (hn : n < frames.length)
    (hkeep : keep n = true) {r : Receiver} (beyond : Nat → UInt8)
    (h : Link acc frames cur keep n r) :
    Link acc frames cur keep (n + 1) (r.onFrame frames[n].frame beyond).receiver ∧
      (r.onFrame frames[n].frame beyond).delivered = arriving acc frames cur keep n := by
  have hspec := hs.spec n hn
  have hcounter' := hs.counter n hn
  have hlastCounter : (r.onFrame frames[n].frame beyond).receiver.lastCounter =
      UInt16.ofNat n := by
    rw [Receiver.onFrame_lastCounter, hcounter']
  have hle := hs.packet_le_succ hn
  -- a receiver that holds the unfinished packet of the next cursor
  have hnext : (∀ j, (cur n).Past (cur (n + 1)).packet j → j < (cur (n + 1)).written →
        Got keep frames n (cur (n + 1)).packet j) →
      (r.onFrame frames[n].frame beyond).receiver.Holding acc (cur (n + 1)) →
      Link acc frames cur keep (n + 1) (r.onFrame frames[n].frame beyond).receiver := by
    intro hold holding
    by_cases hzero : (cur (n + 1)).written = 0
    · exact .idle (holding.none hzero) fun hw => absurd hzero hw
    · exact .synced hzero (hs.tracked_succ hn hkeep hold (hs.written_lt (by omega))) holding n
        rfl hkeep hlastCounter
  -- a receiver that lacks the unfinished packet
  have hfresh : frames[n].frame.counter ≠ r.lastCounter + 1 ∨ r.Idle →
      ((cur n).written ≠ 0 → ¬ Tracked cur keep frames n) →
      Link acc frames cur keep (n + 1) (r.onFrame frames[n].frame beyond).receiver ∧
        (r.onFrame frames[n].frame beyond).delivered = arriving acc frames cur keep n := by
    intro hdrop hlost
    obtain ⟨hdelivered, hstate⟩ := @Receiver.onFrame_fresh _ _ _ _ beyond _ hspec hdrop
    rw [hdelivered, hs.arriving_fresh hn hkeep hlost]
    refine ⟨?_, rfl⟩
    obtain ⟨hlt, holding⟩ | ⟨hsame, hidle⟩ := hstate
    · -- the unfinished packet starts in this frame
      refine hnext (fun j hpast hj => ?_) holding
      exfalso
      have hpacket : (cur (n + 1)).packet = (cur (n + 1)).next - 1 := if_neg (by omega)
      by_cases hw : (cur n).written = 0
      · have hpacket' : (cur n).packet = (cur n).next := if_pos hw
        unfold Cursor.Past at hpast
        omega
      · have hnext' := (hs.unfinished hn hw).1
        unfold Cursor.Past at hpast
        omega
    · refine .idle hidle fun hw => ?_
      have hpacket : (cur (n + 1)).packet = (cur (n + 1)).next - 1 := if_neg hw
      by_cases hw' : (cur n).written = 0
      · have hpacket' : (cur n).packet = (cur n).next := if_pos hw'
        have hnext' := Extract.packet_le_next (cur (n + 1))
        have hpast : (cur (n + 1)).next = 0 := by omega
        obtain ⟨offset, filled⟩ := hspec.filled
        by_cases hempty : frames[n].chunks = []
        · rw [hempty] at filled
          generalize he : (⟨offset, (cur (n + 1)).next, (cur (n + 1)).written⟩ : Cursor) = e
            at filled
          cases filled
          have hsame := congrArg Cursor.written he
          exact absurd (hsame.trans hw') hw
        · have hprogress := (Extract.head_startOffsets filled hempty hw').2.2
          change (cur n).next < (cur (n + 1)).next at hprogress
          omega
      · have hnext' := (hs.unfinished hn hw').1
        exact hs.not_tracked_succ hn (by omega) hw' (hlost hw')
  cases h with
  | idle hidle hlost => exact hfresh (Or.inr hidle) hlost
  | behind hbehind hlost =>
    refine hfresh (Or.inl ?_) hlost
    rw [hcounter']
    exact hbehind n (Nat.le_refl n) hn hkeep fun m hm hm' => by omega
  | synced hw htracked holding last hlast hkept hcounter =>
    have hconsecutive : frames[n].frame.counter = r.lastCounter + 1 := by
      rw [hcounter', hcounter, hlast, UInt16.ofNat_add]
      rfl
    obtain ⟨holding', hdelivered⟩ :=
      @Receiver.onFrame_synced _ _ _ _ beyond _ hspec hconsecutive hw holding
    rw [hdelivered, hs.arriving_tracked hn hkeep htracked]
    refine ⟨hnext (fun j hpast _ => ?_) holding', rfl⟩
    obtain hlt | ⟨heq, hlt⟩ := hpast
    · omega
    · rw [heq]; exact htracked j hlt

end FrameStream

/-! ## Runs -/

open FrameStream

/-- What the receiver gets: the surviving frames, serialized and deserialized, each with
    what its memory holds behind the frame. -/
def received (beyond : Nat → Nat → UInt8) (frames : List (SentFrame × Nat)) :
    List (Frame × (Nat → UInt8)) :=
  frames.map fun fi => (Frame.deserialize fi.1.frame.serialize, beyond fi.2)

theorem run_stream {acc : List Packet} {frames : List SentFrame} {cur : Nat → Cursor}
    {keep : Nat → Bool} (hs : FrameStream acc frames cur) (hfew : FewLost keep frames.length)
    {r : Receiver} (hstart : Link acc frames cur keep 0 r) (beyond : Nat → Nat → UInt8)
    (n : Nat) (hn : n ≤ frames.length) :
    Link acc frames cur keep n
        (r.run (received beyond (survivors keep (frames.take n)))).receiver ∧
      (r.run (received beyond (survivors keep (frames.take n)))).delivered =
        ((List.range (cur n).packet).filter
          (fullyReceived acc (survivors keep (frames.take n)))).map (packetAt acc) := by
  induction n with
  | zero =>
    refine ⟨by simpa [survivors, received, Receiver.run] using hstart, ?_⟩
    rw [hs.start.1]
    simp [survivors, received, Receiver.run]
  | succ n ih =>
    obtain ⟨hlink, hdelivered⟩ := ih (by omega)
    rw [hs.arrived_succ (by omega), survivors_take (by omega)]
    by_cases hkeep : keep n = true
    · have hone : received beyond (survivors keep (frames.take n) ++ [(frames[n], n)]) =
          received beyond (survivors keep (frames.take n)) ++
            [(frames[n].frame, beyond n)] := by
        simp [received, Frame.deserialize_serialize]
      rw [if_pos hkeep, hone, Receiver.run_snoc]
      obtain ⟨hlink', hnew⟩ := hs.link_received (by omega) hkeep (beyond n) hlink
      refine ⟨hlink', ?_⟩
      simp only [hnew, hdelivered]
    · rw [if_neg hkeep, List.append_nil, hs.arriving_lost (by omega) hkeep, List.append_nil]
      exact ⟨hs.link_lost hfew (by omega) hkeep hlink, hdelivered⟩

/-- The receiver hands over exactly the accepted packets that were fully received, in the
    order they were accepted. -/
theorem delivers_exactly (env : Environment) (henv : ∀ i, ∀ p ∈ env.offers i, 0 < p.size)
    (pktBuffer content : Nat → UInt8) (count : Nat) (keep : Nat → Bool)
    (hfew : FewLost keep count) (beyond : Nat → Nat → UInt8) (r : Receiver) (hr : r.Reachable)
    (hstart : r.pktExpected = 0 ∨
      ∀ fi ∈ (survivors keep
          ((Worker.init pktBuffer content).transmit env count).1).head?,
        r.lastCounter + 1 ≠ fi.1.frame.counter) :
    (r.run (received beyond (survivors keep
        ((Worker.init pktBuffer content).transmit env count).1))).delivered =
      ((List.range
          ((Worker.init pktBuffer content).transmit env count).2.queue.accepted.length).filter
        (fullyReceived ((Worker.init pktBuffer content).transmit env count).2.queue.accepted
          (survivors keep ((Worker.init pktBuffer content).transmit env count).1))).map
        (packetAt ((Worker.init pktBuffer content).transmit env count).2.queue.accepted) := by
  have hs := Worker.transmit_stream henv pktBuffer content count
  have hlen := Worker.transmit_length env (Worker.init pktBuffer content) count
  generalize ((Worker.init pktBuffer content).transmit env count).1 = frames at *
  generalize ((Worker.init pktBuffer content).transmit env count).2.queue.accepted = acc at *
  generalize (fun i => ((Worker.init pktBuffer content).transmit env i).2.cursor 0) = cur at hs
  have hlost : (cur 0).written ≠ 0 → ¬ Tracked cur keep frames 0 :=
    fun hw => absurd hs.start.2 hw
  have hlink : Link acc frames cur keep 0 r := by
    obtain hzero | hfirst := hstart
    · obtain hlt | hidle := Receiver.wf_of_reachable hr
      · simp [hzero] at hlt
      · exact .idle hidle hlost
    · refine .behind (fun i _ hi hkeep hnone heq => ?_) hlost
      -- frame `i` is the first survivor
      have hhead : (survivors keep frames).head? = some (frames[i], i) := by
        rw [survivors, List.head?_filter, List.find?_eq_some_iff_getElem]
        refine ⟨hkeep, i, by simpa using hi, by simp, fun m hm => ?_⟩
        simp [hnone m (Nat.zero_le m) hm]
      exact hfirst _ hhead (by rw [hs.counter i hi]; exact heq.symm)
  obtain ⟨-, hdelivered⟩ :=
    run_stream hs (hlen ▸ hfew) hlink beyond frames.length (Nat.le_refl _)
  rw [List.take_length] at hdelivered
  rw [hdelivered]
  congr 1
  have hsplit : List.range acc.length = List.range (cur frames.length).packet ++
      List.range' (cur frames.length).packet (acc.length - (cur frames.length).packet) := by
    have hle := hs.final_packet
    rw [List.range_eq_range', List.range_eq_range',
      show acc.length = (cur frames.length).packet +
        (acc.length - (cur frames.length).packet) by omega, ← List.range'_append_1]
    simp
  rw [hsplit, List.filter_append, List.self_eq_append_right, List.filter_eq_nil_iff]
  intro k hk
  rw [List.mem_range'_1] at hk
  have hnot : fullyReceived acc (survivors keep (frames.take frames.length)) k = false :=
    hs.not_fullyReceived (Nat.le_refl _) hk.1
  rw [List.take_length] at hnot
  rw [hnot]
  exact Bool.false_ne_true

/-- Two packets, offered before the pops that open frames 0 and 1. -/
def twoPackets : Environment where
  offers i :=
    if i = 0 then [⟨[1, 2, 3], by decide⟩] else if i = 2 then [⟨[4, 5], by decide⟩] else []
  rand _ := 0

theorem twoPackets_nonempty : ∀ i, ∀ p ∈ twoPackets.offers i, 0 < p.size := by
  intro i p hp
  simp only [twoPackets] at hp
  split at hp
  · rw [List.mem_singleton.mp hp]
    decide
  · split at hp
    · rw [List.mem_singleton.mp hp]
      decide
    · cases hp

/-- The second packet travels in frame 1, which is lost. -/
theorem delivers_first_of_two :
    ((Receiver.init fun _ => 0).run (received (fun _ _ => 0) (survivors (fun n => n != 1)
      ((Worker.init (fun _ => 0) fun _ => 0).transmit twoPackets 3).1))).delivered =
      [⟨[1, 2, 3], by decide⟩] := by
  have hfew : FewLost (fun n => n != 1) 3 := fun i j hij hj _ _ _ => by omega
  rw [delivers_exactly twoPackets twoPackets_nonempty (fun _ => 0) (fun _ => 0) 3
    (fun n => n != 1) hfew (fun _ _ => 0) (Receiver.init fun _ => 0) ⟨_, [], rfl⟩ (Or.inl rfl)]
  decide +kernel

end RyFi.Modem
