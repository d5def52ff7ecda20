import RyFi.Dsp.BlockRun
import RyFi.Lib.Chain

/-! # Pipelines of blocks

`n` blocks, each reading the stream that the one before writes, between a source and a sink
that use the first and the last stream in any way a stream allows.  All threads interleave,
and every block may be stopped and started at any time.

What goes in and comes out of each block is a run of its machine alone (`Connected.explained`),
up to one lost block for each stop; and a pipeline in which no thread can go on has passed on
everything (`drained_link`, `drained_block`).
-/

namespace RyFi.Dsp

open BlockMachine ProcessChain

variable {n : Nat} {T : Nat → Type} {M : ∀ i, Machine (T i) (T (i + 1))}

/-- The blocks of a pipeline and the streams between them. -/
def pipeline (n : Nat) {T : Nat → Type} (M : ∀ i, Machine (T i) (T (i + 1))) : Chain n where
  Cell i := Link (T i)
  Proc i := Worker (M i)
  step i := BlockStep (M i)
  source := Link.WriterStep
  sink := Link.ReaderStep

/-- A pipeline that has been set up and not started. -/
structure Initial (s : (pipeline n M).State) : Prop where
  link : ∀ i, ∃ writeBuf readBuf, s.cell i = Link.init writeBuf readBuf
  worker : ∀ i, ∃ state, (M i).Start state ∧ s.proc i = ⟨.ended, state, .stopped, 0⟩

/-- The annotations of its threads and streams. -/
def pipelineOutline (n : Nat) {T : Nat → Type} (M : ∀ i, Machine (T i) (T (i + 1))) :
    (pipeline n M).Outline where
  cellInv _ := Link.Inv
  procInv _ := Connected
  writes _ := Link.WriterFrame
  reads _ := Link.ReaderFrame
  step_keeps _ _ _ _ _ _ _ _ hin hout hproc hstep := by
    obtain ⟨hreads, hwrites⟩ := Link.blockStep_sides hproc hstep
    exact ⟨hreads.keeps hin, hwrites.keeps hout, connected_step hproc hstep⟩
  source_keeps hcell hstep := ⟨Link.inv_writerStep hcell hstep, Link.writerStep_frame hcell hstep⟩
  sink_keeps hcell hstep := ⟨Link.inv_readerStep hcell hstep, Link.readerStep_frame hstep⟩
  stable_input _ _ _ _ _ _ _ hproc hwrites := hproc.of_writerFrame hwrites
  stable_output _ _ _ _ _ _ _ hproc hreads := hproc.of_readerFrame hreads

theorem holds_initial {s : (pipeline n M).State} (h : Initial s) : (pipelineOutline n M).Holds s := by
  constructor
  · intro i _
    obtain ⟨writeBuf, readBuf, hlink⟩ := h.link i
    rw [hlink]
    exact Link.inv_init writeBuf readBuf
  · intro i _
    obtain ⟨writeBuf, readBuf, hlink⟩ := h.link i
    obtain ⟨writeBuf', readBuf', hlink'⟩ := h.link (i + 1)
    obtain ⟨state, hstart, hworker⟩ := h.worker i
    rw [hlink, hlink', hworker]
    exact ⟨⟨rfl, rfl⟩, ⟨rfl, rfl, rfl, rfl⟩, fun _ => rfl, nofun, 0, Nat.le_refl 0, .start hstart _⟩

theorem holds_reachable {start s : (pipeline n M).State} (h : Initial start)
    (hs : (pipeline n M).Reachable start s) : (pipelineOutline n M).Holds s :=
  Chain.Outline.holds_reachable (holds_initial h) hs

/-! ## Runs -/

/-- A block has taken `taken` and sent `sent`: its machine alone, from its start, makes `sent`
    of `taken` and perhaps one more block, with at most `stops` of its blocks lost. -/
def Explained {I O : Type} (M : Machine I O) (stops : Nat) (taken : List (List I))
    (sent : List (List O)) : Prop :=
  ∃ lost rest config, lost ≤ stops ∧ rest.length ≤ 1 ∧ M.Run taken (sent ++ rest) lost config

theorem Connected.explained {I O : Type} {M : Machine I O} {input : Link I} {w : Worker M}
    {output : Link O} (h : Connected input w output) :
    Explained M w.stops input.taken output.sent := by
  obtain ⟨lost, hlost, hhistory⟩ := h.history
  obtain ⟨phase, state, control, stops⟩ := w
  have hle : lost ≤ stops := (Nat.le_add_right _ _).trans hlost
  have hnone : ∀ {config}, M.Run input.taken output.sent lost config →
      Explained M stops input.taken output.sent := fun {config} hrun =>
    ⟨lost, [], config, hle, Nat.zero_le 1, (List.append_nil output.sent).symm ▸ hrun⟩
  have hpending : ∀ {size held}, Pending M input output size lost state held →
      Explained M stops input.taken output.sent := fun {size held} hrun =>
    ⟨lost, [block output.writeBuf size], ⟨state, output.writeBuf, held⟩, hle, Nat.le_refl 1,
      hrun.1 _⟩
  cases phase with
  | processing count next => exact hnone hhistory
  | releasing after =>
    cases after with
    | hand size => exact hpending hhistory
    | again | stop => exact hnone hhistory
  | handing resume =>
    simp only [History] at hhistory
    split at hhistory
    · exact hpending hhistory
    · exact hpending hhistory
    · exact hnone hhistory
  | ended | reading => exact hnone hhistory

/-! ## Blocks that make one block of one -/

section

variable {I O : Type} {M : Machine I O} {Inv : M.State → Prop} {P : List I → Prop}
  {R : List I → List O → Prop} {input : Link I} {w : Worker M} {output : Link O}

theorem Connected.lossy (h : Connected input w output) (hone : M.OneForOne Inv P R)
    (hinput : input.Inv) (hsent : ∀ x ∈ input.sent, P x) :
    Lossy R w.stops input.sent output.sent := by
  obtain ⟨lost, rest, config, hlost, -, hrun⟩ := h.explained
  rcases Link.sent_of_inv hinput with hall | ⟨b, hlast⟩
  · rw [hall] at hsent ⊢
    exact (hone.lossy hrun hsent).more hlost
  · rw [hlast] at hsent ⊢
    exact ((hone.lossy hrun fun x hx => hsent x (List.mem_append_left [b] hx)).more hlost).append [b]

/-- A call that a worker is about to make returns. -/
theorem Connected.returns (h : Connected input w output) (hone : M.OneForOne Inv P R)
    (hreturning : M.Returning Inv P) (hinput : input.Inv) (hsent : ∀ x ∈ input.sent, P x)
    {count next : Nat} (hphase : w.phase = .processing count next) :
    ∃ work outcome, M.process count next ⟨w.state, input.readBuf, output.writeBuf⟩ work outcome := by
  have htaken : ∀ x ∈ input.taken, P x := fun x hx => by
    rcases Link.sent_of_inv hinput with hall | ⟨b, hlast⟩
    · exact hsent x (hall ▸ hx)
    · exact hsent x (hlast ▸ List.mem_append_left [b] hx)
  obtain ⟨lost, -, hhistory⟩ := h.history
  simp only [History, hphase] at hhistory
  obtain ⟨hinv, used, kept, hused, -⟩ := hone.run hhistory htaken
  exact hreturning _ hinv (htaken _ (by simp [hused, Machine.Config.holds]))

end

/-! ## Blocks that make one stream of another -/

section

variable {I O : Type} {M : Machine I O} {Inv : List I → M.State → Prop} {F : List I → List O}
  {input : Link I} {w : Worker M} {output : Link O}

/-- The blocks a worker has made are the beginning of what it makes of its input; it has sent
    them all, but for one for each time it was stopped. -/
theorem Connected.stream_made (h : Connected input w output) (hstream : M.Streaming Inv F)
    (hcausal : ∀ l l', F l <+: F (l ++ l')) (hinput : input.Inv) :
    ∃ made, made.flatten <+: F input.sent.flatten ∧ output.sent.Sublist made ∧
      made.length ≤ output.sent.length + w.stops := by
  obtain ⟨lost, rest, config, hlost, -, hrun⟩ := h.explained
  obtain ⟨used, made, hused, -, hmade, hsub, hlen⟩ := hstream.run hrun
  obtain ⟨sent, last, rfl, hsent, hlast⟩ := List.append_sublist_iff.mp hsub
  have hbegin : used <+: input.sent := by
    have htaken : used <+: input.taken := hused ▸ List.prefix_append used config.holds
    rcases Link.sent_of_inv hinput with hall | ⟨b, hlast⟩
    · exact hall ▸ htaken
    · exact htaken.trans (hlast ▸ List.prefix_append _ [b])
  obtain ⟨later, hlater⟩ := hbegin
  refine ⟨sent, ?_, hsent, ?_⟩
  · rw [← hlater, List.flatten_append]
    refine List.IsPrefix.trans ?_ (hcausal used.flatten later.flatten)
    rw [hmade, List.flatten_append]
    exact List.prefix_append _ _
  · -- what waits to be handed over is neither sent nor lost
    have hwaiting := hlast.length_le
    rw [List.length_append, List.length_append] at hlen
    omega

end

/-! ## Drained pipelines -/

/-- Nothing can go on but from outside: all blocks are started and no worker has a step; the
    source is not inside of `swap` unless it waits, the sink waits in `read`. -/
structure Quiet (s : (pipeline n M).State) : Prop where
  running : ∀ i, i < n → (s.proc i).control = .running
  stuck : ∀ i, i < n → ∀ a p b,
    ¬ WorkerStep (M i) (s.cell i) (s.proc i) (s.cell (i + 1)) a p b
  source : (s.cell 0).swapStep = none
  sink : (s.cell n).reader = .asleep

/-- A call of `process` that a worker is about to make returns. -/
def Returns (s : (pipeline n M).State) : Prop :=
  ∀ i, i < n → ∀ {count next}, (s.proc i).phase = .processing count next →
    ∃ work outcome, (M i).process count next
      ⟨(s.proc i).state, (s.cell i).readBuf, (s.cell (i + 1)).writeBuf⟩ work outcome

section

variable {I O : Type} {M : Machine I O} {input : Link I} {w : Worker M} {output : Link O}

/-- A worker without a step sleeps. -/
theorem asleep_of_stuck (h : Connected input w output) (hrunning : w.control = .running)
    (hcall : ∀ {count next}, w.phase = .processing count next → ∃ work outcome,
      M.process count next ⟨w.state, input.readBuf, output.writeBuf⟩ work outcome)
    (hstuck : ∀ a p b, ¬ WorkerStep M input w output a p b) :
    (w.phase = .reading ∧ input.reader = .asleep ∧ output.writer = .idle) ∨
      ∃ size, output.writer = .asleep size := by
  have hpos := h.positions
  have halive := h.alive hrunning
  obtain ⟨phase, state, control, stops⟩ := w
  cases phase with
  | ended => cases halive
  | reading =>
    refine Or.inl ⟨rfl, hpos.1.resolve_left fun hreader => ?_, hpos.2⟩
    -- at the condition of its wait it goes on or falls asleep
    cases hstep : input.readStep with
    | none =>
      simp only [Link.readStep, hreader] at hstep
      split at hstep
      · split at hstep <;> cases hstep
      · cases hstep
    | some r =>
      obtain ⟨input', result⟩ := r
      cases result with
      | none => exact hstuck _ _ _ (.readWaits hstep)
      | some result =>
        cases result with
        | none => exact hstuck _ _ _ (.readStopped hstep)
        | some count => exact hstuck _ _ _ (.readBlock hstep)
  | processing count next =>
    obtain ⟨work, outcome, hprocess⟩ := hcall rfl
    cases outcome with
    | emit size next' => exact absurd (.emit hprocess) (hstuck _ _ _)
    | done last => exact absurd (.done hprocess) (hstuck _ _ _)
  | releasing after =>
    exfalso
    rcases hpos.1 with hreader | hreader | hreader
    · exact hstuck _ _ _ (.flushInside (by rw [Link.flushStep, hreader]))
    · exact hstuck _ _ _ (.flushInside (by rw [Link.flushStep, hreader]))
    · have hstep : input.flushStep =
          some ({ input with writer := input.writer.wake, reader := .idle }, true) := by
        rw [Link.flushStep, hreader]
      cases after with
      | again => exact hstuck _ _ _ (.flushAgain hstep)
      | hand size => exact hstuck _ _ _ (.flushHand hstep)
      | stop => exact hstuck _ _ _ (.flushStop hstep)
  | handing resume =>
    cases hwriter : output.writer with
    | idle => exact absurd hwriter hpos.2
    | asleep size => exact Or.inr ⟨size, rfl⟩
    | swap size =>
      exfalso
      have hflag : output.writerStop = false := (running_flags h.flags hrunning).2
      cases hfree : output.canSwap with
      | false =>
        exact hstuck _ _ _ (.swapInside (by simp [Link.swapStep, hwriter, hfree, hflag]; rfl))
      | true =>
        exact hstuck _ _ _ (.swapInside (by simp [Link.swapStep, hwriter, hfree, hflag]; rfl))
    | ready => exact absurd (.swapInside (by rw [Link.swapStep, hwriter])) (hstuck _ _ _)
    | notify =>
      exfalso
      have hstep : output.swapStep =
          some ({ output with reader := output.reader.wake, writer := .idle }, some true) := by
        rw [Link.swapStep, hwriter]
      cases resume with
      | none => exact hstuck _ _ _ (.swapAgain hstep)
      | some r => exact hstuck _ _ _ (.swapResume hstep)

end

section

variable {start s : (pipeline n M).State} (h : Initial start)
  (hs : (pipeline n M).Reachable start s) (hquiet : Quiet s) (hreturns : Returns s)

include h hs hquiet hreturns

/-- In a quiet pipeline every reader waits for data: the last one does, and the block before a
    reader that waits cannot be waiting for it. -/
theorem reading_of_quiet (k : Nat) : ∀ i, i + k = n →
    (s.cell i).reader = .asleep ∧ ((i < n) → (s.proc i).phase = .reading ∧
      (s.cell (i + 1)).writer = .idle) := by
  have hholds := holds_reachable h hs
  induction k with
  | zero =>
    intro i hi
    rw [Nat.add_zero] at hi
    subst hi
    exact ⟨hquiet.sink, fun hlt => absurd hlt (Nat.lt_irrefl i)⟩
  | succ k ih =>
    intro i hi
    have hlt : i < n := by omega
    obtain ⟨hbehind, -⟩ := ih (i + 1) (by omega)
    rcases asleep_of_stuck (hholds.proc i hlt) (hquiet.running i hlt) (hreturns i hlt)
        (hquiet.stuck i hlt) with ⟨hphase, hreader, hwriter⟩ | ⟨size, hwriter⟩
    · exact ⟨hreader, fun _ => ⟨hphase, hwriter⟩⟩
    · exact absurd hwriter (Link.not_both_asleep (hholds.cell (i + 1) hlt) hbehind size)

/-- The source cannot be waiting for a reader that waits for it. -/
theorem source_idle : (s.cell 0).writer = .idle := by
  have hread := reading_of_quiet h hs hquiet hreturns n 0 (Nat.zero_add n)
  have hasleep := Link.not_both_asleep ((holds_reachable h hs).cell 0 (Nat.zero_le n)) hread.1
  have hsource := hquiet.source
  unfold Link.swapStep at hsource
  split at hsource
  next size hwriter =>
    split at hsource
    · split at hsource <;> cases hsource
    · cases hsource
  next => cases hsource
  next => cases hsource
  next hwriter => exact hwriter
  next size hwriter => exact absurd hwriter (hasleep size)

/-- Everything that was sent has been taken. -/
theorem drained_link {i : Nat} (hi : i ≤ n) : (s.cell i).sent = (s.cell i).taken := by
  have hread := fun i (hi : i ≤ n) => reading_of_quiet h hs hquiet hreturns (n - i) i (by omega)
  refine Link.empty_of_asleep ((holds_reachable h hs).cell i hi) (hread i hi).1 ?_
  cases i with
  | succ i => exact ((hread i (by omega)).2 hi).2
  | zero => exact source_idle h hs hquiet hreturns

/-- What a block has taken is used up. -/
theorem drained_block {i : Nat} (hi : i < n) : ∃ lost config, lost ≤ (s.proc i).stops ∧
    config.held = none ∧ (M i).Run (s.cell i).taken (s.cell (i + 1)).sent lost config := by
  obtain ⟨lost, hlost, hhistory⟩ := ((holds_reachable h hs).proc i hi).history
  have hread := reading_of_quiet h hs hquiet hreturns (n - i) i (by omega)
  simp only [History, (hread.2 hi).1] at hhistory
  exact ⟨lost, _, (Nat.le_add_right _ _).trans hlost, rfl, hhistory⟩

/-- A block that was never stopped has made a block of each that it was sent. -/
theorem drained_one {i : Nat} (hi : i < n) (hstops : (s.proc i).stops = 0)
    {Inv : (M i).State → Prop} {P : List (T i) → Prop} {R : List (T i) → List (T (i + 1)) → Prop}
    (hone : (M i).OneForOne Inv P R) (hsent : ∀ x ∈ (s.cell i).sent, P x) :
    List.Forall₂ R (s.cell i).sent (s.cell (i + 1)).sent := by
  obtain ⟨lost, config, hlost, hheld, hrun⟩ := drained_block h hs hquiet hreturns hi
  rw [drained_link h hs hquiet hreturns (Nat.le_of_lt hi)] at hsent ⊢
  rw [hstops, Nat.le_zero] at hlost
  rw [hlost] at hrun
  exact hone.all_sent hrun hheld hsent

/-- A block that was never stopped has made all it makes of its input. -/
theorem drained_stream {i : Nat} (hi : i < n) (hstops : (s.proc i).stops = 0)
    {Inv : List (T i) → (M i).State → Prop} {F : List (T i) → List (T (i + 1))}
    (hstream : (M i).Streaming Inv F) :
    (s.cell (i + 1)).sent.flatten = F (s.cell i).sent.flatten := by
  obtain ⟨lost, config, hlost, hheld, hrun⟩ := drained_block h hs hquiet hreturns hi
  rw [hstops, Nat.le_zero] at hlost
  rw [hlost, ← drained_link h hs hquiet hreturns (Nat.le_of_lt hi)] at hrun
  obtain ⟨used, hused, hsent⟩ := hstream.all_sent hrun
  have hholds : config.holds = [] := by rw [Machine.Config.holds, hheld]
  rw [hholds, List.append_nil] at hused
  rw [hsent, hused]

end

end RyFi.Dsp
