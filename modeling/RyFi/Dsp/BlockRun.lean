import RyFi.Dsp.Block

/-! # What a block has done so far

The invariant of one block between its two streams (`Connected`): where its worker stands in
each of them, which stop flags are set, and that its history is a run of its machine alone on
the blocks it has read (`History`).  A stop costs at most one block.
-/

namespace RyFi.Dsp

open BlockMachine BlockMachine.Machine

variable {I O : Type} {M : Machine I O}

/-! ## Sides of a stream, composed -/

namespace Link

variable {T : Type} {l l₁ l₂ : Link T}

theorem WriterFrame.refl (l : Link T) : WriterFrame l l :=
  ⟨rfl, rfl, rfl, Or.inl rfl, fun _ => ⟨rfl, rfl⟩⟩

theorem WriterFrame.trans (h : WriterFrame l l₁) (h' : WriterFrame l₁ l₂) : WriterFrame l l₂ where
  taken := h'.taken.trans h.taken
  readerStop := h'.readerStop.trans h.readerStop
  wakesReader := h'.wakesReader.trans h.wakesReader
  reader := by
    rcases h.reader with hsame | ⟨hasleep, hread⟩
    · rw [← hsame]
      exact h'.reader
    · rcases h'.reader with hsame' | ⟨hasleep', -⟩
      · exact Or.inr ⟨hasleep, hsame'.trans hread⟩
      · simp [hread] at hasleep'
  held := fun hholding => by
    have hsame : l₁.reader = l.reader :=
      h.reader.resolve_right fun hasleep => by simp [hholding] at hasleep
    obtain ⟨hbuf, hsize⟩ := h.held hholding
    obtain ⟨hbuf', hsize'⟩ := h'.held (hsame.trans hholding)
    exact ⟨hbuf'.trans hbuf, hsize'.trans hsize⟩

theorem ReaderFrame.refl (l : Link T) : ReaderFrame l l :=
  ⟨rfl, rfl, rfl, Or.inl rfl, rfl⟩

theorem ReaderFrame.trans (h : ReaderFrame l l₁) (h' : ReaderFrame l₁ l₂) : ReaderFrame l l₂ where
  sent := h'.sent.trans h.sent
  writerStop := h'.writerStop.trans h.writerStop
  wakesWriter := h'.wakesWriter.trans h.wakesWriter
  writer := by
    rcases h.writer with hsame | ⟨size, hasleep, hswap⟩
    · rw [← hsame]
      exact h'.writer
    · rcases h'.writer with hsame' | ⟨size', hasleep', -⟩
      · exact Or.inr ⟨size, hasleep, hsame'.trans hswap⟩
      · simp [hswap] at hasleep'
  writeBuf := h'.writeBuf.trans h.writeBuf

/-- Steps of the writing side, one after the other. -/
def Writes (l l' : Link T) : Prop := Relation.ReflTransGen WriterStep l l'

/-- Steps of the reading side, one after the other. -/
def Reads (l l' : Link T) : Prop := Relation.ReflTransGen ReaderStep l l'

theorem Writes.keeps (hrun : Writes l l₁) (h : l.Inv) : l₁.Inv ∧ WriterFrame l l₁ := by
  induction hrun with
  | refl => exact ⟨h, .refl l⟩
  | tail _ hstep ih =>
    exact ⟨inv_writerStep ih.1 hstep, ih.2.trans (writerStep_frame ih.1 hstep)⟩

theorem Reads.keeps (hrun : Reads l l₁) (h : l.Inv) : l₁.Inv ∧ ReaderFrame l l₁ := by
  induction hrun with
  | refl => exact ⟨h, .refl l⟩
  | tail _ hstep ih =>
    exact ⟨inv_readerStep ih.1 hstep, ih.2.trans (readerStep_frame hstep)⟩

end Link

/-! ## Invariant of a block -/

/-- Where a worker stands in its two streams. -/
def Positions : Phase → Reader → Writer → Prop
  | .ended, r, w => r = .idle ∧ w = .idle
  | .reading, r, w => (r = .read ∨ r = .asleep) ∧ w = .idle
  | .processing _ _, r, w => r = .holding ∧ w = .idle
  | .releasing _, r, w => (r = .flush ∨ r = .free ∨ r = .notify) ∧ w = .idle
  | .handing resume, r, w => r = (if resume.isSome then .holding else .idle) ∧ w ≠ .idle

/-- The flags of the two streams as `stop` goes on. -/
def Flags : Control → Link I → Link O → Prop
  | .running, i, o | .stopped, i, o => i.readerStop = false ∧ i.wakesReader = false ∧
      o.writerStop = false ∧ o.wakesWriter = false
  | .stoppingReader, i, o => i.readerStop = true ∧ i.wakesReader = true ∧
      o.writerStop = false ∧ o.wakesWriter = false
  | .stoppedReader, i, o => i.readerStop = true ∧ i.wakesReader = false ∧
      o.writerStop = false ∧ o.wakesWriter = false
  | .stoppingWriter, i, o => i.readerStop = true ∧ i.wakesReader = false ∧
      o.writerStop = true ∧ o.wakesWriter = true
  | .joining, i, o => i.readerStop = true ∧ i.wakesReader = false ∧
      o.writerStop = true ∧ o.wakesWriter = false
  | .clearing, i, o => i.readerStop = false ∧ i.wakesReader = false ∧
      o.writerStop = true ∧ o.wakesWriter = false

/-- The thread has been joined. -/
def Control.joined : Control → Bool
  | .clearing | .stopped => true
  | _ => false

/-- `stop` has begun and the thread may still run. -/
def Control.stopping : Control → Bool
  | .stoppingReader | .stoppedReader | .stoppingWriter | .joining => true
  | _ => false

/-- A block may still be lost before the thread ends. -/
def Phase.active : Phase → Bool
  | .ended | .releasing .stop => false
  | _ => true

/-- A stop that has not cost a block, and still may. -/
def credit (control : Control) (phase : Phase) : Nat := (control.stopping && phase.active).toNat

/-- Both ends of a block that is ready: handed over or lost. -/
def Pending (M : Machine I O) (input : Link I) (output : Link O) (size lost : Nat)
    (state : M.State) (held : Option (Held I)) : Prop :=
  (∀ output', Run M input.taken (output.sent ++ [block output.writeBuf size]) lost
    ⟨state, output', held⟩) ∧
  Run M input.taken output.sent (lost + 1) ⟨state, output.writeBuf, none⟩

/-- The rest of the block that is held while another one is handed over. -/
def heldRest (buf : Nat → I) (resume : Option (Nat × Nat)) : Option (Held I) :=
  resume.map fun r => ⟨buf, r.1, r.2⟩

/-- What was read and sent is a run of the machine alone. -/
def History (input : Link I) (w : Worker M) (output : Link O) (lost : Nat) : Prop :=
  match w.phase with
  | .processing count next => Run M input.taken output.sent lost
      ⟨w.state, output.writeBuf, some ⟨input.readBuf, count, next⟩⟩
  | .releasing (.hand size) => Pending M input output size lost w.state none
  | .handing resume =>
    match output.writer with
    | .swap size | .asleep size =>
      Pending M input output size lost w.state (heldRest input.readBuf resume)
    | _ => Run M input.taken output.sent lost
        ⟨w.state, output.writeBuf, heldRest input.readBuf resume⟩
  | _ => Run M input.taken output.sent lost ⟨w.state, output.writeBuf, none⟩

structure Connected (input : Link I) (w : Worker M) (output : Link O) : Prop where
  positions : Positions w.phase input.reader output.writer
  flags : Flags w.control input output
  joined : w.control.joined = true → w.phase = .ended
  alive : w.control = .running → w.phase.active = true
  history : ∃ lost, lost + credit w.control w.phase ≤ w.stops ∧ History input w output lost

/-! ### The neighbours -/

variable {input input' : Link I} {w : Worker M} {output output' : Link O}

/-- The history only depends on what was read and, while a block is held, on the block. -/
theorem History.of_input {lost : Nat} (h : History input w output lost)
    (taken : input'.taken = input.taken)
    (positions : Positions w.phase input.reader output.writer)
    (held : input.reader = .holding → input'.readBuf = input.readBuf) :
    History input' w output lost := by
  obtain ⟨phase, state, control, stops⟩ := w
  cases phase with
  | processing count next =>
    have hbuf := held positions.1
    simpa only [History, taken, hbuf] using h
  | releasing after =>
    cases after with
    | hand size => simpa only [History, Pending, taken] using h
    | again | stop => simpa only [History, taken] using h
  | handing resume =>
    have hrest : heldRest input'.readBuf resume = heldRest input.readBuf resume := by
      cases resume with
      | none => rfl
      | some r => rw [held positions.1]
    simp only [History] at h ⊢
    split at h
    all_goals simpa only [Pending, taken, hrest] using h
  | ended | reading => simpa only [History, taken] using h

theorem History.of_output {lost : Nat} (h : History input w output lost)
    (sent : output'.sent = output.sent) (writeBuf : output'.writeBuf = output.writeBuf)
    (writer : output'.writer = output.writer ∨
      ∃ size, output.writer = .asleep size ∧ output'.writer = .swap size) :
    History input w output' lost := by
  obtain ⟨phase, state, control, stops⟩ := w
  cases phase with
  | handing resume =>
    rcases writer with hsame | ⟨size, hasleep, hswap⟩
    · simp only [History, hsame] at h ⊢
      split at h
      all_goals simpa only [Pending, sent, writeBuf] using h
    · simp only [History, hasleep] at h
      simpa only [History, hswap, Pending, sent, writeBuf] using h
  | releasing after =>
    cases after with
    | hand size => simpa only [History, Pending, sent, writeBuf] using h
    | again | stop => simpa only [History, sent, writeBuf] using h
  | ended | reading | processing => simpa only [History, sent, writeBuf] using h

theorem Flags.of_same {control : Control} (h : Flags control input output)
    (readerStop : input'.readerStop = input.readerStop)
    (wakesReader : input'.wakesReader = input.wakesReader)
    (writerStop : output'.writerStop = output.writerStop)
    (wakesWriter : output'.wakesWriter = output.wakesWriter) : Flags control input' output' := by
  cases control <;> simpa only [Flags, readerStop, wakesReader, writerStop, wakesWriter] using h

theorem Positions.of_reader {phase : Phase} {r r' : Reader} {w : Writer} (h : Positions phase r w)
    (same : r' = r ∨ r = .asleep ∧ r' = .read) : Positions phase r' w := by
  rcases same with rfl | ⟨rfl, rfl⟩
  · exact h
  · cases phase with
    | reading => exact ⟨Or.inl rfl, h.2⟩
    | handing resume => cases resume <;> cases h.1
    | ended | processing => cases h.1
    | releasing => rcases h.1 with hr | hr | hr <;> cases hr

theorem Positions.of_writer {phase : Phase} {r : Reader} {w w' : Writer} (h : Positions phase r w)
    (same : w' = w ∨ ∃ size, w = .asleep size ∧ w' = .swap size) : Positions phase r w' := by
  rcases same with rfl | ⟨size, rfl, rfl⟩
  · exact h
  · cases phase with
    | handing resume => exact ⟨h.1, Writer.noConfusion⟩
    | ended | reading | processing | releasing => cases h.2

theorem Connected.of_writerFrame (h : Connected input w output)
    (frame : Link.WriterFrame input input') : Connected input' w output where
  positions := h.positions.of_reader frame.reader
  flags := h.flags.of_same frame.readerStop frame.wakesReader rfl rfl
  joined := h.joined
  alive := h.alive
  history := by
    obtain ⟨lost, hlost, hhistory⟩ := h.history
    exact ⟨lost, hlost, hhistory.of_input frame.taken h.positions fun hr => (frame.held hr).1⟩

theorem Connected.of_readerFrame (h : Connected input w output)
    (frame : Link.ReaderFrame output output') : Connected input w output' where
  positions := h.positions.of_writer frame.writer
  flags := h.flags.of_same rfl rfl frame.writerStop frame.wakesWriter
  joined := h.joined
  alive := h.alive
  history := by
    obtain ⟨lost, hlost, hhistory⟩ := h.history
    exact ⟨lost, hlost, hhistory.of_output frame.sent frame.writeBuf frame.writer⟩

/-! ### A step -/

namespace Link

variable {w' : Worker M}

/-! A block does to its streams what the sides of a stream may do. -/

theorem workerStep_sides (hpos : Positions w.phase input.reader output.writer)
    (hstep : WorkerStep M input w output input' w' output') :
    Reads input input' ∧ Writes output output' := by
  cases hstep with
  | readWaits hinside | readStopped hinside | readBlock hinside =>
    exact ⟨.single (.read hinside), .refl⟩
  | emit hcall =>
    exact ⟨.single (.modify hpos.1 _), .tail (.single (.fill hpos.2 _)) (.enter (by exact hpos.2) _)⟩
  | done hcall =>
    exact ⟨.tail (.single (.modify hpos.1 _)) (.release hpos.1), .single (.fill hpos.2 _)⟩
  | flushInside hinside | flushStop hinside => exact ⟨.single (.flush hinside), .refl⟩
  | flushAgain hinside =>
    exact ⟨.tail (.single (.flush hinside)) (.enter (flush_returns hinside)), .refl⟩
  | flushHand hinside => exact ⟨.single (.flush hinside), .single (.enter hpos.2 _)⟩
  | swapInside hinside | swapResume hinside | abandon hinside =>
    exact ⟨.refl, .single (.swap hinside)⟩
  | swapAgain hinside => exact ⟨.single (.enter hpos.1), .single (.swap hinside)⟩
  | abandonHeld hinside => exact ⟨.single (.release hpos.1), .single (.swap hinside)⟩

theorem blockStep_sides (h : Connected input w output)
    (hstep : BlockStep M input w output input' w' output') :
    Reads input input' ∧ Writes output output' := by
  have hpos := h.positions
  cases hstep with
  | worker hstep => exact workerStep_sides hpos hstep
  | spurious hstep =>
    cases hstep with
    | read => exact ⟨.single (.spurious _), .refl⟩
    | swap => exact ⟨.refl, .single (.spurious _)⟩
  | control hstep =>
    cases hstep with
    | stopReader => exact ⟨.single (.stop _), .refl⟩
    | notifyReader => exact ⟨.single (.notify h.flags.2.1), .refl⟩
    | stopWriter => exact ⟨.refl, .single (.stop _)⟩
    | notifyWriter => exact ⟨.refl, .single (.notify h.flags.2.2.2)⟩
    | joined => exact ⟨.single (.clear hpos.1), .refl⟩
    | cleared => exact ⟨.refl, .single (.clear hpos.2)⟩
    | start => exact ⟨.single (.enter hpos.1), .refl⟩

end Link

/-- Only a stop lets `swap` fail. -/
theorem stopping_of_writerStop {control : Control} {phase : Phase}
    (hflags : Flags control input output) (hjoined : control.joined = true → phase = .ended)
    (hphase : phase ≠ .ended) (hstop : output.writerStop = true) : control.stopping = true := by
  cases control with
  | running | stoppingReader | stoppedReader | stopped => simp [Flags, hstop] at hflags
  | stoppingWriter | joining => rfl
  | clearing => exact absurd (hjoined rfl) hphase

theorem running_flags {control : Control} (hflags : Flags control input output)
    (hrun : control = .running) : input.readerStop = false ∧ output.writerStop = false := by
  subst hrun
  exact ⟨hflags.1, hflags.2.2.1⟩

theorem credit_ended (control : Control) : credit control .ended = 0 := by
  simp [credit, Phase.active]

theorem credit_le_one (control : Control) (phase : Phase) : credit control phase ≤ 1 :=
  Bool.toNat_le _

variable {w' : Worker M}

theorem connected_workerStep (h : Connected input w output)
    (hstep : WorkerStep M input w output input' w' output') : Connected input' w' output' := by
  obtain ⟨hpos, hflags, hjoined, halive, lost, hlost, hhistory⟩ := h
  cases hstep with
  | readWaits hinside =>
    cases Link.read_cases hinside with
    | sleep hreader hrunning hempty =>
      exact ⟨⟨Or.inr rfl, hpos.2⟩, hflags.of_same rfl rfl rfl rfl, hjoined, halive, lost, hlost, hhistory⟩
  | readStopped hinside =>
    cases Link.read_cases hinside with
    | stopped hreader hstop =>
      refine ⟨⟨rfl, hpos.2⟩, hflags.of_same rfl rfl rfl rfl, fun _ => rfl, fun hrun => ?_, lost, ?_,
        hhistory⟩
      · exact absurd hstop (by simp [(running_flags hflags hrun).1])
      · rw [credit_ended]
        exact (Nat.le_add_right _ _).trans hlost
  | readBlock hinside =>
    cases Link.read_cases hinside with
    | take hreader hrunning hready =>
      exact ⟨⟨rfl, hpos.2⟩, hflags.of_same rfl rfl rfl rfl,
        fun hj => absurd (hjoined hj) Phase.noConfusion, fun _ => rfl, lost, hlost, .take hhistory _ _⟩
  | emit hcall =>
    refine ⟨⟨hpos.1, Writer.noConfusion⟩, hflags.of_same rfl rfl rfl rfl,
      fun hj => absurd (hjoined hj) Phase.noConfusion, fun _ => rfl, lost, hlost, ?_, ?_⟩
    · exact fun output' => .emit hhistory hcall output'
    · exact .emitLost hhistory hcall
  | done hcall =>
    rename_i last _
    cases last with
    | none =>
      exact ⟨⟨Or.inl rfl, hpos.2⟩, hflags.of_same rfl rfl rfl rfl,
        fun hj => absurd (hjoined hj) Phase.noConfusion, fun _ => rfl, lost, hlost, .done hhistory hcall⟩
    | some size =>
      exact ⟨⟨Or.inl rfl, hpos.2⟩, hflags.of_same rfl rfl rfl rfl,
        fun hj => absurd (hjoined hj) Phase.noConfusion, fun _ => rfl, lost, hlost,
        fun output' => .last hhistory hcall output', .lastLost hhistory hcall⟩
  | flushInside hinside =>
    cases Link.flush_cases hinside with
    | clear hreader =>
      exact ⟨⟨Or.inr (Or.inl rfl), hpos.2⟩, hflags.of_same rfl rfl rfl rfl, hjoined, halive, lost, hlost,
        hhistory⟩
    | free hreader =>
      exact ⟨⟨Or.inr (Or.inr rfl), hpos.2⟩, hflags.of_same rfl rfl rfl rfl, hjoined, halive, lost, hlost,
        hhistory⟩
  | flushAgain hinside =>
    cases Link.flush_cases hinside with
    | notify hreader =>
      exact ⟨⟨Or.inl rfl, hpos.2⟩, hflags.of_same rfl rfl rfl rfl,
        fun hj => absurd (hjoined hj) Phase.noConfusion, fun _ => rfl, lost, hlost, hhistory⟩
  | flushHand hinside =>
    cases Link.flush_cases hinside with
    | notify hreader =>
      exact ⟨⟨rfl, Writer.noConfusion⟩, hflags.of_same rfl rfl rfl rfl,
        fun hj => absurd (hjoined hj) Phase.noConfusion, fun _ => rfl, lost, hlost, hhistory⟩
  | flushStop hinside =>
    cases Link.flush_cases hinside with
    | notify hreader =>
      refine ⟨⟨rfl, hpos.2⟩, hflags.of_same rfl rfl rfl rfl, fun _ => rfl, fun hrun => ?_, lost, ?_,
        hhistory⟩
      · exact absurd (halive hrun) Bool.false_ne_true
      · rw [credit_ended]
        exact (Nat.le_add_right _ _).trans hlost
  | swapInside hinside =>
    cases Link.swap_cases hinside with
    | exchange size hwriter hrunning hfree =>
      simp only [History, hwriter] at hhistory
      exact ⟨⟨hpos.1, Writer.noConfusion⟩, hflags.of_same rfl rfl rfl rfl, hjoined, halive, lost, hlost,
        hhistory.1 _⟩
    | sleep size hwriter hrunning htaken =>
      simp only [History, hwriter] at hhistory
      exact ⟨⟨hpos.1, Writer.noConfusion⟩, hflags.of_same rfl rfl rfl rfl, hjoined, halive, lost, hlost,
        hhistory⟩
    | ready hwriter =>
      simp only [History, hwriter] at hhistory
      exact ⟨⟨hpos.1, Writer.noConfusion⟩, hflags.of_same rfl rfl rfl rfl, hjoined, halive, lost, hlost,
        hhistory⟩
  | swapResume hinside =>
    cases Link.swap_cases hinside with
    | notify hwriter =>
      simp only [History, hwriter] at hhistory
      exact ⟨⟨hpos.1, rfl⟩, hflags.of_same rfl rfl rfl rfl,
        fun hj => absurd (hjoined hj) Phase.noConfusion, fun _ => rfl, lost, hlost, hhistory⟩
  | swapAgain hinside =>
    cases Link.swap_cases hinside with
    | notify hwriter =>
      simp only [History, hwriter] at hhistory
      exact ⟨⟨Or.inl rfl, rfl⟩, hflags.of_same rfl rfl rfl rfl,
        fun hj => absurd (hjoined hj) Phase.noConfusion, fun _ => rfl, lost, hlost, hhistory⟩
  | abandonHeld hinside =>
    cases Link.swap_cases hinside with
    | abandon size hwriter hstop =>
      have hstopping := stopping_of_writerStop hflags hjoined Phase.noConfusion hstop
      simp only [credit, hstopping] at hlost
      simp only [History, hwriter] at hhistory
      refine ⟨⟨Or.inl rfl, rfl⟩, hflags.of_same rfl rfl rfl rfl,
        fun hj => absurd (hjoined hj) Phase.noConfusion, fun hrun => ?_, lost + 1, ?_, hhistory.2⟩
      · exact absurd hstop (by simp [(running_flags hflags hrun).2])
      · simpa [credit, Phase.active] using hlost
  | abandon hinside =>
    cases Link.swap_cases hinside with
    | abandon size hwriter hstop =>
      have hstopping := stopping_of_writerStop hflags hjoined Phase.noConfusion hstop
      simp only [credit, hstopping] at hlost
      simp only [History, hwriter] at hhistory
      refine ⟨⟨hpos.1, rfl⟩, hflags.of_same rfl rfl rfl rfl, fun _ => rfl, fun hrun => ?_, lost + 1,
        ?_, hhistory.2⟩
      · exact absurd hstop (by simp [(running_flags hflags hrun).2])
      · simpa [credit, Phase.active] using hlost

theorem connected_spuriousStep (h : Connected input w output)
    (hstep : SpuriousStep M input w output input' w' output') : Connected input' w' output' := by
  obtain ⟨hpos, hflags, hjoined, halive, lost, hlost, hhistory⟩ := h
  cases hstep with
  | read =>
    exact ⟨hpos.of_reader (Link.reader_wake _), hflags.of_same rfl rfl rfl rfl, hjoined, halive, lost,
      hlost, hhistory⟩
  | swap =>
    exact ⟨hpos.of_writer (Link.writer_wake _), hflags.of_same rfl rfl rfl rfl, hjoined, halive, lost,
      hlost, hhistory.of_output rfl rfl (Link.writer_wake _)⟩

theorem connected_controlStep (h : Connected input w output)
    (hstep : ControlStep M input w output input' w' output') : Connected input' w' output' := by
  obtain ⟨hpos, hflags, hjoined, halive, lost, hlost, hhistory⟩ := h
  cases hstep with
  | stopReader =>
    refine ⟨hpos, ⟨rfl, rfl, hflags.2.2⟩, nofun, nofun, lost, ?_,
      hhistory.of_input rfl hpos fun _ => rfl⟩
    exact Nat.add_le_add hlost (credit_le_one _ _)
  | notifyReader =>
    exact ⟨hpos.of_reader (Link.reader_wake _), ⟨hflags.1, rfl, hflags.2.2⟩,
      nofun, nofun, lost, hlost, hhistory.of_input rfl hpos fun _ => rfl⟩
  | stopWriter =>
    exact ⟨hpos, ⟨hflags.1, hflags.2.1, rfl, rfl⟩, nofun, nofun, lost, hlost,
      hhistory.of_output rfl rfl (Or.inl rfl)⟩
  | notifyWriter =>
    exact ⟨hpos.of_writer (Link.writer_wake _), ⟨hflags.1, hflags.2.1, hflags.2.2.1, rfl⟩,
      nofun, nofun, lost, hlost, hhistory.of_output rfl rfl (Link.writer_wake _)⟩
  | joined =>
    exact ⟨hpos, ⟨rfl, hflags.2.1, hflags.2.2⟩, fun _ => rfl, nofun, lost, hlost, hhistory⟩
  | cleared =>
    exact ⟨hpos, ⟨hflags.1, hflags.2.1, rfl, hflags.2.2.2⟩, fun _ => rfl, nofun, lost, hlost,
      hhistory⟩
  | start =>
    exact ⟨⟨Or.inl rfl, hpos.2⟩, hflags, nofun, fun _ => rfl, lost, hlost, hhistory⟩

/-- A block keeps its invariant. -/
theorem connected_step (h : Connected input w output)
    (hstep : BlockStep M input w output input' w' output') : Connected input' w' output' := by
  cases hstep with
  | worker hstep => exact connected_workerStep h hstep
  | spurious hstep => exact connected_spuriousStep h hstep
  | control hstep => exact connected_controlStep h hstep

end RyFi.Dsp
