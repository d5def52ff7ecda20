import RyFi.Modem.Delivery
import RyFi.Modem.Threads

/-! # Packets from end to end

The transmitter's worker writes its frames into the first stream of the encoders, and the
receiver's worker reads its frames from the last stream of the decoders.  Whatever the
interleaving of all these threads, however the symbols are cut into blocks on the way, and
whichever blocks but the deframer are stopped and started again, the packets handed over are
those that the frames which came through carry in full.  The channel turns the symbols and
does nothing else.
-/

namespace RyFi.Modem

open FrameStream RyFi.Dsp

/-- The memory behind each of the frames that came through, by the numbers of the frames. -/
theorem exists_beyond {α β : Type} (xs : List (α × Nat)) (hnodup : (xs.map Prod.snd).Nodup)
    (ys : List β) (hlen : xs.length = ys.length) (b : β) :
    ∃ f : Nat → β, xs.map (fun x => f x.2) = ys := by
  induction xs generalizing ys with
  | nil => exact ⟨fun _ => b, (List.eq_nil_of_length_eq_zero hlen.symm).symm⟩
  | cons x xs ih =>
    cases ys with
    | nil => cases hlen
    | cons y ys =>
      rw [List.map_cons, List.nodup_cons] at hnodup
      obtain ⟨f, hf⟩ := ih hnodup.2 ys (Nat.succ.inj hlen)
      refine ⟨Function.update f x.2 y, ?_⟩
      rw [List.map_cons, Function.update_self, ← hf]
      refine congrArg (y :: ·) (List.map_congr_left fun x' hx' => ?_)
      refine Function.update_of_ne (fun heq => hnodup.1 ?_) _ _
      rw [← heq]
      exact List.mem_map_of_mem hx'

section

variable {F : Type} [SampleType F] {neon : Bool} {register : BitVec 64}

/-- A transmitter and a receiver over an ideal symbol channel, at some moment. -/
structure Joined (frames : List SentFrame) (rot : Nat) (t : (Transmitter.threads F).State)
    (r : (Receiver.threads F neon register).State) : Prop where
  transmitter : ∃ start, Initial start ∧ (Transmitter.threads F).Reachable start t
  receiver : ∃ start, Initial start ∧ (Receiver.threads F neon register).Reachable start r
  /-- The worker has written these frames. -/
  source : (t.cell 0).sent = frames.map fun f => f.frame.serialize
  rot_lt : rot < 4
  /-- What has come through the channel. -/
  channel : (r.cell 0).sent.flatten <+: (t.cell 3).sent.flatten.map (rotateBy rot)
  /-- The deframer's register, which is not initialized, does not lock early. -/
  register_late : ¬ Deframer.Premature register
    ((Framer.syncSyms : List (ComplexT F)).map (rotateBy rot))
  /-- A deframer that is stopped may take up in the middle of a frame. -/
  deframer : (r.proc 0).stops = 0

/-- How often a block was stopped. -/
def stops (t : (Transmitter.threads F).State) (r : (Receiver.threads F neon register).State) :
    Nat :=
  (t.proc 0).stops + (t.proc 1).stops + (t.proc 2).stops + ((r.proc 1).stops + (r.proc 2).stops)

variable {frames : List SentFrame} {rot : Nat} {t : (Transmitter.threads F).State}
  {r : (Receiver.threads F neon register).State}

theorem Joined.lossy (hexact : ExactSamples F) (h : Joined frames rot t r) :
    Lossy Eq (stops t r) (frames.map fun f => f.frame.serialize) (r.cell 3).taken := by
  obtain ⟨start, hstart, hreach⟩ := h.transmitter
  obtain ⟨start', hstart', hreach'⟩ := h.receiver
  obtain ⟨kept, hkept, hsymbols⟩ := (Transmitter.symbols_lossy hstart hreach).exists_kept
  have hframes := Receiver.frames_lossy hexact h.rot_lt h.register_late hstart' hreach' h.deframer
    hsymbols h.channel
  have hsent : Lossy Eq (stops t r) (frames.map fun f => f.frame.serialize) (r.cell 3).sent := by
    refine Lossy.imp (h.source ▸ hkept.comp hframes) ?_
    rintro frame - frame' - ⟨_, rfl, rfl⟩
    rfl
  rcases Link.sent_of_inv ((holds_reachable hstart' hreach').cell 3 (by decide)) with
    hall | ⟨b, hlast⟩
  · exact hall ▸ hsent
  · exact (hlast ▸ hsent).of_initial (List.prefix_append _ [b])

/-- The frames that come through are some of those that were written, in order. -/
theorem Joined.survive (hexact : ExactSamples F) (h : Joined frames rot t r) :
    ∃ keep, (r.cell 3).taken = (survivors keep frames).map (fun fi => fi.1.frame.serialize) ∧
      (stops t r < 65536 → FewLost keep frames.length) := by
  obtain ⟨keep, hall, hgap⟩ := (h.lossy hexact).of_map.exists_keep
  refine ⟨keep, ?_, fun hstops i j hij _ _ hj hlost => ?_⟩
  · have hsame := List.forall₂_map_left_iff.mpr hall
    have heq := (congrFun₂ List.forall₂_eq_eq_eq _ _).mp hsame
    rw [List.map_map] at heq
    exact heq.symm
  · have hle := hgap (i + 1) j hij hj fun k hk hk' => hlost k hk hk'
    omega

end

/-- Any frames can come through, turned by any quarter turns. -/
theorem exists_joined {F : Type} [SampleType F] (hexact : ExactSamples F) {rot : Nat}
    (hrot : rot < 4) (neon : Bool) {register : BitVec 64}
    (hregister : ¬ Deframer.Premature register
      ((Framer.syncSyms : List (ComplexT F)).map (rotateBy rot)))
    (frames : List SentFrame) :
    ∃ (t : (Transmitter.threads F).State) (r : (Receiver.threads F neon register).State),
      Joined frames rot t r ∧ Quiet t ∧ Quiet r ∧ (∀ i, (t.proc i).stops = 0) ∧
        (∀ i, (r.proc i).stops = 0) ∧
        (r.cell 0).sent.flatten = (t.cell 3).sent.flatten.map (rotateBy rot) := by
  have hsize : ∀ frame ∈ frames.map fun f => f.frame.serialize, frame.length = 892 := by
    intro frame hframe
    obtain ⟨f, -, rfl⟩ := List.mem_map.mp hframe
    exact f.frame.serialize_length
  obtain ⟨start, t, hstart, ht, hquiet, hstops, hsent⟩ :=
    Transmitter.exists_sent (F := F) (frames.map fun f => f.frame.serialize) hsize
  have hframes := Transmitter.symbols_all hstart ht hquiet (hsent ▸ hsize) fun i _ => hstops i
  obtain ⟨start', r, hstart', hr, hquiet', hstops', hreceived⟩ :=
    Receiver.exists_received hexact hrot neon hregister hframes List.flatten_singleton
  have hchannel := (congrArg List.flatten hreceived).trans List.flatten_singleton
  refine ⟨t, r, ?_, hquiet, hquiet', hstops, hstops', hchannel⟩
  exact ⟨⟨start, hstart, ht⟩, ⟨start', hstart', hr⟩, hsent, hrot,
    hchannel ▸ List.prefix_refl _, hregister, hstops' 0⟩

/-! ## What the receiver's worker makes of the frames -/

section

variable {keep : Nat → Bool} {frames : List SentFrame} {acc : List Packet} {cur : Nat → Cursor}

theorem survivors_nodup (keep : Nat → Bool) (frames : List SentFrame) :
    ((survivors keep frames).map Prod.snd).Nodup := by
  refine List.Nodup.sublist (List.filter_sublist.map Prod.snd) ?_
  rw [List.zipIdx_map_snd]
  exact List.nodup_range'

/-- Frames read from memory that holds anything behind them. -/
theorem exists_received {bytes : List (List UInt8)}
    (hbytes : bytes = (survivors keep frames).map fun fi => fi.1.frame.serialize)
    {inputs : List (Frame × (Nat → UInt8))}
    (hinputs : inputs.map Prod.fst = bytes.map Frame.deserialize) :
    ∃ beyond, inputs = received beyond (survivors keep frames) := by
  have hlen : (survivors keep frames).length = (inputs.map Prod.snd).length := by
    have hinputs' := congrArg List.length hinputs
    rw [List.length_map, List.length_map, hbytes, List.length_map] at hinputs'
    rw [List.length_map, hinputs']
  obtain ⟨beyond, hbeyond⟩ :=
    exists_beyond _ (survivors_nodup keep frames) _ hlen fun _ => 0
  refine ⟨beyond, ?_⟩
  rw [hbytes, List.map_map] at hinputs
  rw [List.zip_of_prod hinputs hbeyond.symm, received, List.zip_map']
  rfl

/-- No packet is finished behind the last frame. -/
theorem fullyReceived_range (hs : FrameStream acc frames cur) :
    (List.range acc.length).filter (fullyReceived acc (survivors keep frames)) =
      (List.range (cur frames.length).packet).filter
        (fullyReceived acc (survivors keep frames)) := by
  obtain ⟨rest, hrest⟩ := Nat.exists_eq_add_of_le hs.final_packet
  rw [hrest, List.range_add, List.filter_append, List.append_right_eq_self, List.filter_eq_nil_iff]
  intro k hk
  obtain ⟨j, -, rfl⟩ := List.mem_map.mp hk
  have hnot : fullyReceived acc (survivors keep (frames.take frames.length))
      ((cur frames.length).packet + j) = false :=
    hs.not_fullyReceived (Nat.le_refl _) (Nat.le_add_right _ j)
  rw [List.take_length] at hnot
  rw [hnot]
  exact Bool.false_ne_true

/-- What the worker hands over of the frames that came through. -/
theorem run_inputs (hs : FrameStream acc frames cur) (hfew : FewLost keep frames.length)
    {bytes : List (List UInt8)}
    (hbytes : bytes = (survivors keep frames).map fun fi => fi.1.frame.serialize)
    {inputs : List (Frame × (Nat → UInt8))}
    (hinputs : inputs.map Prod.fst = bytes.map Frame.deserialize) (pktBuffer : Nat → UInt8) :
    ((Receiver.init pktBuffer).run inputs).delivered =
      ((List.range acc.length).filter
        (fullyReceived acc (survivors keep frames))).map (packetAt acc) := by
  obtain ⟨beyond, rfl⟩ := exists_received hbytes hinputs
  have hlink : Link acc frames cur keep 0 (Receiver.init pktBuffer) :=
    .idle ⟨rfl, rfl⟩ fun hw => absurd hs.start.2 hw
  obtain ⟨-, hdelivered⟩ := run_stream hs hfew hlink beyond frames.length (Nat.le_refl _)
  rw [List.take_length] at hdelivered
  rw [hdelivered, fullyReceived_range hs]

/-- Without losses a packet is received once it is finished. -/
theorem fullyReceived_finished (hs : FrameStream acc frames cur) {k : Nat}
    (hk : k < (cur frames.length).packet) :
    fullyReceived acc (survivors (fun _ => true) frames) k = true := by
  have hgot : ∀ n, n ≤ frames.length → ∀ j, j < (packetAt acc k).serializedSize →
      (cur n).Past k j → Got (fun _ => true) frames n k j := by
    intro n
    induction n with
    | zero =>
      intro _ j _ hpast
      rw [Cursor.Past, hs.start.1, hs.start.2] at hpast
      omega
    | succ n ih =>
      intro hn j hj hpast
      rw [hs.got_succ hn hj]
      by_cases hbefore : (cur n).Past k j
      · exact Or.inl (ih (Nat.le_of_succ_le hn) j hj hbefore)
      · exact Or.inr ⟨rfl, hbefore, hpast⟩
  have hall : fullyReceived acc (survivors (fun _ => true) (frames.take frames.length)) k = true :=
    fullyReceived_iff.mpr fun j hj => hgot frames.length (Nat.le_refl _) j hj (Or.inl hk)
  rwa [List.take_length] at hall

/-- Without losses the packets that are finished are handed over. -/
theorem map_finished (hs : FrameStream acc frames cur) :
    ((List.range acc.length).filter
        (fullyReceived acc (survivors (fun _ => true) frames))).map (packetAt acc) =
      acc.take (cur frames.length).packet := by
  rw [fullyReceived_range hs, List.filter_eq_self.mpr fun k hk =>
    fullyReceived_finished hs (List.mem_range.mp hk)]
  refine List.ext_getElem ?_ fun k hk hk' => ?_
  · rw [List.length_map, List.length_range, List.length_take, Nat.min_eq_left hs.final_packet]
  · rw [List.getElem_map, List.getElem_range, List.getElem_take, packetAt, List.getD_eq_getElem]

theorem serialize_survivors (frames : List SentFrame) :
    (survivors (fun _ => true) frames).map (fun fi => fi.1.frame.serialize) =
      frames.map fun f => f.frame.serialize := by
  have hfst := congrArg (List.map fun f => f.frame.serialize) (List.zipIdx_map_fst 0 frames)
  rw [List.map_map] at hfst
  rw [survivors, List.filter_eq_self.mpr fun _ _ => rfl]
  exact hfst

theorem fewLost_all (count : Nat) : FewLost (fun _ => true) count := fun i j hij _ _ _ hlost => by
  by_cases hnext : i + 1 < j
  · cases hlost (i + 1) (Nat.lt_succ_self i) hnext
  · omega

end

/-! ## Packets -/

/-- Frames with cleared memory behind them. -/
theorem map_fst_received (frames : List (List UInt8)) :
    (frames.map fun bytes => (Frame.deserialize bytes, fun _ : Nat => (0 : UInt8))).map Prod.fst =
      frames.map Frame.deserialize := by
  rw [List.map_map]
  rfl

section

variable {F : Type} [SampleType F] {neon : Bool} {register : BitVec 64}
  (hexact : ExactSamples F) (env : Environment) (henv : ∀ i, ∀ p ∈ env.offers i, 0 < p.size)
  (pktBuffer content : Nat → UInt8) (count : Nat) {rot : Nat} {t : (Transmitter.threads F).State}
  {r : (Receiver.threads F neon register).State}
  (h : Joined ((Worker.init pktBuffer content).transmit env count).1 rot t r)
  {inputs : List (Frame × (Nat → UInt8))}
  (hinputs : inputs.map Prod.fst = (r.cell 3).taken.map Frame.deserialize)
  (pktBuffer' : Nat → UInt8)

include hexact henv h hinputs

/-- In every interleaving of the threads at both ends the receiver hands over exactly the
    packets that the frames which came through carry in full, each once and in the order
    `send` accepted them; what is lost is at most a frame for each time a block is stopped.
    `Joined` is what this needs: a channel that turns the symbols, a deframer that is not
    stopped, and a register that does not lock early. -/
theorem delivers_packets (hstops : stops t r < 65536) :
    Lossy Eq (stops t r) (((Worker.init pktBuffer content).transmit env count).1.map
      fun f => f.frame.serialize) (r.cell 3).taken ∧
    ∃ keep,
      (r.cell 3).taken =
        (survivors keep ((Worker.init pktBuffer content).transmit env count).1).map
          (fun fi => fi.1.frame.serialize) ∧
      ((Receiver.init pktBuffer').run inputs).delivered =
        ((List.range
            ((Worker.init pktBuffer content).transmit env count).2.queue.accepted.length).filter
          (fullyReceived ((Worker.init pktBuffer content).transmit env count).2.queue.accepted
            (survivors keep ((Worker.init pktBuffer content).transmit env count).1))).map
          (packetAt ((Worker.init pktBuffer content).transmit env count).2.queue.accepted) := by
  obtain ⟨keep, hbytes, hfew⟩ := h.survive hexact
  exact ⟨h.lossy hexact, keep, hbytes,
    run_inputs (Worker.transmit_stream henv pktBuffer content count) (hfew hstops) hbytes hinputs
      pktBuffer'⟩

omit [SampleType F] hexact henv h hinputs in
theorem delivers_packets_twoPackets :
    ∃ (r : (Receiver.threads Rat false (BitVec.allOnes 64)).State)
      (inputs : List (Frame × (Nat → UInt8))) (keep : Nat → Bool),
      (r.cell 3).taken =
        (survivors keep ((Worker.init (fun _ => 0) fun _ => 0).transmit twoPackets 3).1).map
          (fun fi => fi.1.frame.serialize) ∧
      ((Receiver.init fun _ => 0).run inputs).delivered =
        ((List.range 2).filter (fullyReceived [⟨[1, 2, 3], by decide⟩, ⟨[4, 5], by decide⟩]
          (survivors keep ((Worker.init (fun _ => 0) fun _ => 0).transmit twoPackets 3).1))).map
          (packetAt [⟨[1, 2, 3], by decide⟩, ⟨[4, 5], by decide⟩]) := by
  have hrot : ROT_270_DEG < 4 := by decide
  obtain ⟨t, r, hjoined, -, -, hstops, hstops', -⟩ := exists_joined exactSamples_rat hrot false
    (not_premature_ones hrot)
    ((Worker.init (fun _ => 0) fun _ => 0).transmit twoPackets 3).1
  have hfew : stops t r < 65536 := by
    simp only [stops, hstops, hstops']
    decide
  obtain ⟨-, keep, htaken, hdelivered⟩ := delivers_packets exactSamples_rat twoPackets
    twoPackets_nonempty (fun _ => 0) (fun _ => 0) 3 hjoined (map_fst_received _) (fun _ => 0) hfew
  have haccepted :
      ((Worker.init (fun _ => 0) fun _ => 0).transmit twoPackets 3).2.queue.accepted =
        [⟨[1, 2, 3], by decide⟩, ⟨[4, 5], by decide⟩] := by decide +kernel
  rw [haccepted] at hdelivered
  exact ⟨r, _, keep, htaken, hdelivered⟩

/-- When no thread can go on, nothing was stopped and all symbols came through, turned by a
    quarter and to a register that does not lock early, the receiver has handed over every
    packet that was accepted and is neither queued nor partly sent. -/
theorem delivers_all (hquiet : Quiet t) (hquiet' : Quiet r)
    (hstops : ∀ i, i < 3 → (t.proc i).stops = 0) (hstops' : ∀ i, i < 3 → (r.proc i).stops = 0)
    (hchannel : (r.cell 0).sent.flatten = (t.cell 3).sent.flatten.map (rotateBy rot)) :
    ((Receiver.init pktBuffer').run inputs).delivered =
      ((Worker.init pktBuffer content).transmit env count).2.queue.accepted.take
        (((Worker.init pktBuffer content).transmit env count).2.cursor 0).packet := by
  obtain ⟨start, hstart, hreach⟩ := h.transmitter
  obtain ⟨start', hstart', hreach'⟩ := h.receiver
  have hs := Worker.transmit_stream henv pktBuffer content count
  have hlen := Worker.transmit_length env (Worker.init pktBuffer content) count
  have hsize : ∀ frame ∈ (t.cell 0).sent, frame.length = 892 := by
    rw [h.source]
    intro frame hframe
    obtain ⟨f, -, rfl⟩ := List.mem_map.mp hframe
    exact f.frame.serialize_length
  have hsymbols := Transmitter.symbols_all hstart hreach hquiet hsize hstops
  have hframes := Receiver.frames_all hexact h.rot_lt h.register_late hstart' hreach' h.deframer
    hsymbols h.channel hquiet' (hstops' 1 (by decide)) (hstops' 2 (by decide)) hchannel
  have hbytes : (r.cell 3).taken =
      (survivors (fun _ => true) ((Worker.init pktBuffer content).transmit env count).1).map
        fun fi => fi.1.frame.serialize :=
    hframes.trans (h.source.trans (serialize_survivors _).symm)
  have hdelivered := run_inputs hs (fewLost_all _) hbytes hinputs pktBuffer'
  rw [hdelivered, map_finished hs]
  simp only [hlen]

omit [SampleType F] hexact henv h hinputs in
theorem delivers_all_twoPackets :
    ∃ (r : (Receiver.threads Rat false (BitVec.allOnes 64)).State)
      (inputs : List (Frame × (Nat → UInt8))),
      inputs.map Prod.fst = (r.cell 3).taken.map Frame.deserialize ∧
      ((Receiver.init fun _ => 0).run inputs).delivered =
        [⟨[1, 2, 3], by decide⟩, ⟨[4, 5], by decide⟩] := by
  have hrot : ROT_90_DEG < 4 := by decide
  obtain ⟨t, r, hjoined, hquiet, hquiet', hstops, hstops', hchannel⟩ :=
    exists_joined exactSamples_rat hrot false (not_premature_ones hrot)
      ((Worker.init (fun _ => 0) fun _ => 0).transmit twoPackets 3).1
  have hdelivered := delivers_all exactSamples_rat twoPackets twoPackets_nonempty (fun _ => 0)
    (fun _ => 0) 3 hjoined (map_fst_received _) (fun _ => 0) hquiet hquiet' (fun i _ => hstops i)
    (fun i _ => hstops' i) hchannel
  refine ⟨r, _, map_fst_received _, hdelivered.trans ?_⟩
  decide +kernel

end

end RyFi.Modem
