import RyFi.Dsp.Completion

/-! # Feeding a pipeline

A new pipeline can be started and given any blocks, one after the other, and comes to rest
after each: `exists_feed`.  What the source owes the first stream is what it has handed over
and what it is still handing over (`Link.promised`).
-/

namespace RyFi.Dsp

open BlockMachine ProcessChain

namespace Link

variable {T : Type} {l l' : Link T}

/-- The blocks handed over and the one that waits in `swap`. -/
def promised (l : Link T) : List (List T) :=
  match l.writer with
  | .swap size | .asleep size => l.sent ++ [block l.writeBuf size]
  | _ => l.sent

theorem promised_idle (h : l.writer = .idle) : l.promised = l.sent := by
  rw [promised, h]

theorem promised_swap {size : Nat} (h : l.writer = .swap size) :
    l.promised = l.sent ++ [block l.writeBuf size] := by
  rw [promised, h]

theorem sent_le_promised (l : Link T) : l.sent <+: l.promised := by
  unfold promised
  split
  · exact List.prefix_append _ _
  · exact List.prefix_append _ _
  · exact List.prefix_refl _

theorem promised_swapStep {result : Option Bool} (hstop : l.writerStop = false)
    (h : l.swapStep = some (l', result)) : l'.promised = l.promised ∧ l'.writerStop = false := by
  cases swap_cases h with
  | abandon size at_swap stopped => simp [hstop] at stopped
  | exchange size at_swap running free => exact ⟨by simp only [promised, at_swap], hstop⟩
  | sleep size at_swap running taken => exact ⟨by simp only [promised, at_swap], hstop⟩
  | ready at_ready => exact ⟨by simp only [promised, at_ready], hstop⟩
  | notify at_notify => exact ⟨by simp only [promised, at_notify], hstop⟩

theorem ReaderFrame.promised_eq (h : ReaderFrame l l') : l'.promised = l.promised := by
  rcases h.writer with hsame | ⟨size, hasleep, hswap⟩
  · rw [promised, promised, hsame, h.sent, h.writeBuf]
  · rw [promised, promised, hasleep, hswap, h.sent, h.writeBuf]

end Link

variable {n : Nat} {T : Nat → Type} {M : ∀ i, Machine (T i) (T (i + 1))}

/-- A step of the threads adds nothing to what was promised. -/
theorem promised_step {s s' : (pipeline n M).State} (hholds : (pipelineOutline n M).Holds s)
    (hstop : (s.cell 0).writerStop = false) (h : (busy n M).Step s s') :
    (s'.cell 0).promised = (s.cell 0).promised ∧ (s'.cell 0).writerStop = false := by
  have hreader : ∀ l, Link.ReaderFrame (s.cell 0) l →
      l.promised = (s.cell 0).promised ∧ l.writerStop = false := fun l hframe =>
    ⟨hframe.promised_eq, hframe.writerStop.trans hstop⟩
  cases h with
  | proc i lt moves cells procs =>
    by_cases hzero : i = 0
    · subst hzero
      obtain ⟨hreads, -⟩ := Link.blockStep_sides (hholds.proc 0 lt) (.worker moves)
      exact hreader _ (hreads.keeps (hholds.cell 0 (Nat.zero_le n))).2
    · rw [cells 0 (Ne.symm hzero) (Nat.succ_ne_zero i).symm]
      exact ⟨rfl, hstop⟩
  | source moves cells procs =>
    obtain ⟨result, hinside⟩ := moves
    exact Link.promised_swapStep hstop hinside
  | sink moves cells procs =>
    by_cases hzero : n = 0
    · subst hzero
      exact hreader _ (Link.readerStep_frame moves.readerStep)
    · rw [cells 0 (Ne.symm hzero)]
      exact ⟨rfl, hstop⟩

theorem promised_of_busy {s s' : (pipeline n M).State} (hholds : (pipelineOutline n M).Holds s)
    (hstop : (s.cell 0).writerStop = false) (h : (busy n M).Reachable s s') :
    (s'.cell 0).promised = (s.cell 0).promised ∧ (s'.cell 0).writerStop = false := by
  induction h with
  | refl => exact ⟨rfl, hstop⟩
  | tail hrun hstep ih =>
    have hmid := Chain.Outline.holds_reachable hholds (reachable_of_busy .refl hrun)
    obtain ⟨hsame, hstop'⟩ := promised_step hmid ih.2 hstep
    exact ⟨hsame.trans ih.1, hstop'⟩

theorem stops_of_busy {s s' : (pipeline n M).State} (h : (busy n M).Reachable s s') (i : Nat) :
    (s'.proc i).stops = (s.proc i).stops := by
  induction h with
  | refl => rfl
  | tail _ hstep ih =>
    refine Eq.trans ?_ ih
    cases hstep with
    | proc j lt moves cells procs =>
      by_cases hij : i = j
      · subst hij
        exact (control_workerStep moves).2
      · rw [procs i hij]
    | source moves cells procs | sink moves cells procs => rw [procs]

/-! ## Starting -/

theorem exists_initial [∀ i, Nonempty (T i)] (hstart : ∀ i, ∃ state, (M i).Start state) :
    ∃ start : (pipeline n M).State, Initial start := by
  choose state hstate using hstart
  let buf : ∀ i, Nat → T i := fun i _ => Classical.arbitrary (T i)
  exact ⟨⟨fun i => Link.init (buf i) (buf i), fun i => ⟨.ended, state i, .stopped, 0⟩⟩,
    fun i => ⟨_, _, rfl⟩, fun i => ⟨state i, hstate i, rfl⟩⟩

/-- The first `k` blocks are running, and nothing else has happened. -/
structure Started (start s : (pipeline n M).State) (k : Nat) : Prop where
  reach : (pipeline n M).Reachable start s
  link : ∀ i, (s.cell i).writer = .idle ∧ (s.cell i).sent = [] ∧ (s.cell i).writerStop = false ∧
    (s.cell i).readerStop = false
  running : ∀ i, i < k → (s.proc i).control = .running
  stops : ∀ i, (s.proc i).stops = 0
  rest : ∀ i, k ≤ i → ∃ state, s.proc i = ⟨.ended, state, .stopped, 0⟩

theorem started_zero {start : (pipeline n M).State} (h : Initial start) :
    Started start start 0 where
  reach := .refl
  link i := by
    obtain ⟨writeBuf, readBuf, hlink⟩ := h.link i
    rw [hlink]
    exact ⟨rfl, rfl, rfl, rfl⟩
  running := nofun
  stops i := by
    obtain ⟨state, -, hworker⟩ := h.worker i
    rw [hworker]
  rest i _ := by
    obtain ⟨state, -, hworker⟩ := h.worker i
    exact ⟨state, hworker⟩

theorem started_succ {start s : (pipeline n M).State} {k : Nat} (hk : k < n)
    (h : Started start s k) : ∃ s' : (pipeline n M).State, Started start s' (k + 1) := by
  obtain ⟨state, hworker⟩ := h.rest k (Nat.le_refl k)
  have hmove : ControlStep (M k) (s.cell k) (s.proc k) (s.cell (k + 1))
      { s.cell k with reader := .read } ⟨.reading, state, .running, 0⟩ (s.cell (k + 1)) := by
    rw [hworker]
    exact .start
  obtain ⟨s', hstep, hinput, hproc, houtput, hcells, hprocs⟩ :=
    @Chain.exists_proc _ (pipeline n M) s k hk _ _ _ (.control hmove)
  refine ⟨s', h.reach.tail hstep, fun i => ?_, fun i hi => ?_, fun i => ?_, fun i hi => ?_⟩
  · by_cases hik : i = k
    · subst hik
      rw [hinput]
      exact h.link i
    · by_cases hbehind : i = k + 1
      · subst hbehind
        rw [houtput]
        exact h.link (k + 1)
      · rw [hcells i hik hbehind]
        exact h.link i
  · by_cases hik : i = k
    · subst hik
      rw [hproc]
    · rw [hprocs i hik]
      exact h.running i (by omega)
  · by_cases hik : i = k
    · subst hik
      rw [hproc]
    · rw [hprocs i hik]
      exact h.stops i
  · rw [hprocs i (by omega)]
    exact h.rest i (by omega)

theorem exists_started {start : (pipeline n M).State} (h : Initial start) (k : Nat) (hk : k ≤ n) :
    ∃ s : (pipeline n M).State, Started start s k := by
  induction k with
  | zero => exact ⟨start, started_zero h⟩
  | succ k ih =>
    obtain ⟨s, hs⟩ := ih (Nat.le_of_succ_le hk)
    exact started_succ hk hs

/-! ## Blocks -/

/-- A running pipeline that has been promised `blocks`. -/
structure Fed (start : (pipeline n M).State) (blocks : List (List (T 0)))
    (s : (pipeline n M).State) : Prop where
  reach : (pipeline n M).Reachable start s
  running : Running s
  stops : ∀ i, (s.proc i).stops = 0
  sinkStop : (s.cell n).readerStop = false
  sourceStop : (s.cell 0).writerStop = false
  promised : (s.cell 0).promised = blocks

/-- A pipeline that has just been started. -/
theorem Started.fed {start s : (pipeline n M).State} (hs : Started start s n) :
    Fed start [] s where
  reach := hs.reach
  running := hs.running
  stops := hs.stops
  sinkStop := (hs.link n).2.2.2
  sourceStop := (hs.link 0).2.2.1
  promised := (Link.promised_idle (hs.link 0).1).trans (hs.link 0).2.1

section

variable {start : (pipeline n M).State} (h : Initial start)
  (hadvances : ∀ i, i < n → Advances (M i)) {blocks : List (List (T 0))}

include h

theorem Fed.of_busy {s s' : (pipeline n M).State} (hs : Fed start blocks s)
    (hrun : (busy n M).Reachable s s') : Fed start blocks s' := by
  have hholds := holds_reachable h hs.reach
  obtain ⟨hpromised, hsource⟩ := promised_of_busy hholds hs.sourceStop hrun
  exact ⟨reachable_of_busy hs.reach hrun, running_of_busy hs.running hrun,
    fun i => (stops_of_busy hrun i).trans (hs.stops i),
    (sinkStop_of_busy hholds hrun).trans hs.sinkStop, hsource, hpromised.trans hs.promised⟩

include hadvances

/-- It comes to rest. -/
theorem Fed.exists_quiet {s : (pipeline n M).State} (hs : Fed start blocks s) :
    ∃ s' : (pipeline n M).State, Fed start blocks s' ∧ Quiet s' := by
  obtain ⟨s', hrun, hrest⟩ := Chain.exists_rest (acc_of_busy h hs.reach hs.running hadvances)
  exact ⟨s', hs.of_busy h hrun, quiet_of_busy h hs.reach hs.running hs.sinkStop hrun hrest⟩

omit h hadvances in
/-- The source writes a block and enters `swap`. -/
theorem Fed.exists_next {s : (pipeline n M).State} (hs : Fed start blocks s)
    (hidle : (s.cell 0).writer = .idle) (b : List (T 0)) :
    ∃ s' : (pipeline n M).State, Fed start (blocks ++ [b]) s' := by
  obtain ⟨s₁, hfill, hcell, hcells, hprocs⟩ :=
    @Chain.exists_source _ (pipeline n M) s _ (.fill hidle fun i => b.getD i ((s.cell 0).writeBuf i))
  have hidle₁ : (s₁.cell 0).writer = .idle := by rw [hcell, hidle]
  obtain ⟨s₂, henter, hcell₂, hcells₂, hprocs₂⟩ :=
    @Chain.exists_source _ (pipeline n M) s₁ _ (.enter hidle₁ b.length)
  have hsink : (s₂.cell n).readerStop = (s.cell n).readerStop := by
    by_cases hzero : n = 0
    · subst hzero
      rw [hcell₂, hcell]
    · rw [hcells₂ n hzero, hcells n hzero]
  have hsent : (s.cell 0).sent = blocks := (Link.promised_idle hidle).symm.trans hs.promised
  refine ⟨s₂, (hs.reach.tail hfill).tail henter, fun i hi => ?_, fun i => ?_,
    hsink.trans hs.sinkStop, ?_, ?_⟩
  · rw [hprocs₂, hprocs]
    exact hs.running i hi
  · rw [hprocs₂, hprocs]
    exact hs.stops i
  · rw [hcell₂, hcell]
    exact hs.sourceStop
  · rw [hcell₂, hcell]
    refine (Link.promised_swap rfl).trans ?_
    simp only [hsent, block_getD]

/-- Whatever blocks a new pipeline is to be given, it can be started and takes them all. -/
theorem exists_feed (blocks : List (List (T 0)))
    (hreturns : ∀ s : (pipeline n M).State, (pipeline n M).Reachable start s →
      (∀ i, (s.proc i).stops = 0) → (s.cell 0).sent <+: blocks → Returns s) :
    ∃ s : (pipeline n M).State, (pipeline n M).Reachable start s ∧ Quiet s ∧
      (∀ i, (s.proc i).stops = 0) ∧ (s.cell 0).sent = blocks := by
  have hfed : ∃ s : (pipeline n M).State, Fed start blocks s ∧ Quiet s := by
    induction blocks using List.reverseRecOn with
    | nil =>
      obtain ⟨s, hs⟩ := exists_started h n (Nat.le_refl n)
      exact hs.fed.exists_quiet h hadvances
    | append_singleton blocks b ih =>
      obtain ⟨s, hs, hquiet⟩ := ih fun s hreach hstops hle =>
        hreturns s hreach hstops (hle.trans (List.prefix_append blocks [b]))
      have hle : (s.cell 0).sent <+: blocks := hs.promised ▸ Link.sent_le_promised _
      have hidle := source_idle h hs.reach hquiet
        (hreturns s hs.reach hs.stops (hle.trans (List.prefix_append blocks [b])))
      obtain ⟨s₁, hs₁⟩ := hs.exists_next hidle b
      exact hs₁.exists_quiet h hadvances
  obtain ⟨s, hs, hquiet⟩ := hfed
  have hle : (s.cell 0).sent <+: blocks := hs.promised ▸ Link.sent_le_promised _
  have hidle := source_idle h hs.reach hquiet (hreturns s hs.reach hs.stops hle)
  exact ⟨s, hs.reach, hquiet, hs.stops, (Link.promised_idle hidle).symm.trans hs.promised⟩

end

end RyFi.Dsp
