import RyFi.Dsp.Pipeline

/-! # Pipelines finish their work

Left alone, with all blocks running and the sink reading on, a pipeline comes to rest: `left`
counts what a worker can still do without its neighbours, and no worker adds to what the one
before it can do (`acc_of_busy`), and where it rests no thread can go on (`quiet_of_busy`).  Waits
that end without a notification are left out here: a thread could go on waking up for nothing.
-/

namespace RyFi.Dsp

open BlockMachine ProcessChain

namespace Link

variable {T : Type} {l l' : Link T}

/-- What a sink does that goes on reading. -/
inductive SinkWork : Link T → Link T → Prop where
  | enter {l : Link T} (idle : l.reader = .idle) : SinkWork l { l with reader := .read }
  | wait {l l' : Link T} (inside : l.readStep = some (l', none)) : SinkWork l l'
  | take {l l' : Link T} {count : Nat} (inside : l.readStep = some (l', some (some count))) :
      SinkWork l l'
  | release {l : Link T} (holding : l.reader = .holding) : SinkWork l { l with reader := .flush }
  | flush {l l' : Link T} {returns : Bool} (inside : l.flushStep = some (l', returns)) :
      SinkWork l l'

theorem SinkWork.readerStep (h : SinkWork l l') : ReaderStep l l' := by
  cases h with
  | enter idle => exact .enter idle
  | wait inside => exact .read inside
  | take inside => exact .read inside
  | release holding => exact .release holding
  | flush inside => exact .flush inside

theorem SinkWork.readerStop_eq (h : SinkWork l l') : l'.readerStop = l.readerStop := by
  cases h with
  | enter | release => rfl
  | wait inside =>
    cases read_cases inside with
    | sleep => rfl
  | take inside =>
    cases read_cases inside with
    | take => rfl
  | flush inside =>
    cases flush_cases inside with
    | clear | free | notify => rfl

/-- A sink that does not sleep can go on. -/
theorem exists_sinkWork (hstop : l.readerStop = false) (hawake : l.reader ≠ .asleep) :
    ∃ l', SinkWork l l' := by
  cases hreader : l.reader with
  | asleep => exact absurd hreader hawake
  | idle => exact ⟨_, .enter hreader⟩
  | read =>
    have hinside : ∃ r, l.readStep = some r := by
      simp only [readStep, hreader, hstop]
      split <;> exact ⟨_, rfl⟩
    obtain ⟨⟨l', result⟩, hread⟩ := hinside
    cases read_cases hread with
    | stopped at_read stop => simp [hstop] at stop
    | take at_read running ready => exact ⟨_, .take hread⟩
    | sleep at_read running empty => exact ⟨_, .wait hread⟩
  | holding => exact ⟨_, .release hreader⟩
  | flush | free | notify => exact ⟨_, .flush (by simp only [flushStep, hreader]; rfl)⟩

/-! ## What is left to do -/

/-- A wakeup that the reader still owes may cost the writer another turn. -/
def owed (l : Link T) : Nat := if l.reader = .notify then 2 else 0

/-- What the writer can still do inside of `swap`. -/
def swapLeft (l : Link T) : Nat :=
  match l.writer with
  | .idle => 0
  | .notify => 1
  | .ready => 2
  | .swap _ => (if l.canSwap then 5 else 11) + l.owed
  | .asleep _ => (if l.canSwap then 5 else 10) + l.owed

/-- A block that the reader has not taken yet, at `cost` for each block. -/
def waiting (cost : Nat → Nat) (l : Link T) : Nat :=
  if l.dataReady = true ∧ l.reader ≠ .holding ∧ l.reader ≠ .flush then cost l.dataSize else 0

theorem swapLeft_le (l : Link T) : l.swapLeft ≤ 13 := by
  have howed : l.owed ≤ 2 := by
    unfold owed
    split <;> omega
  unfold swapLeft
  split
  · omega
  · omega
  · omega
  · split <;> omega
  · split <;> omega

theorem swapLeft_idle (h : l.writer = .idle) : l.swapLeft = 0 := by
  rw [swapLeft, h]

theorem swapLeft_swapStep {result : Option Bool} (h : l.swapStep = some (l', result)) :
    l'.swapLeft < l.swapLeft := by
  cases swap_cases h with
  | abandon size at_swap stopped =>
    simp only [swapLeft, at_swap]
    split <;> omega
  | exchange size at_swap running free =>
    simp only [swapLeft, at_swap]
    split <;> omega
  | sleep size at_swap running taken =>
    simp only [swapLeft, at_swap, taken, owed, Bool.false_eq_true, if_false]
    omega
  | ready at_ready =>
    simp only [swapLeft, at_ready]
    omega
  | notify at_notify =>
    simp only [swapLeft, at_notify]
    omega

/-- The reader moves where the writer does not see it. -/
theorem swapLeft_congr (writer : l'.writer = l.writer) (canSwap : l'.canSwap = l.canSwap)
    (owed : l'.owed = l.owed) : l'.swapLeft = l.swapLeft := by
  rw [swapLeft, swapLeft, writer, canSwap, owed]

theorem swapLeft_readStep {result : Option (Option Nat)} (h : l.readStep = some (l', result)) :
    l'.swapLeft = l.swapLeft := by
  cases read_cases h with
  | stopped at_read stop | take at_read running ready | sleep at_read running empty =>
    exact swapLeft_congr rfl rfl (by simp [owed, at_read])

/-- The reader lets the writer go on where the writer has been counting on it. -/
theorem swapLeft_flushStep {returns : Bool} (hinv : l.Inv) (h : l.flushStep = some (l', returns)) :
    l'.swapLeft ≤ l.swapLeft := by
  cases flush_cases h with
  | clear at_flush =>
    refine Nat.le_of_eq ?_
    refine swapLeft_congr rfl rfl ?_
    simp [owed, at_flush]
  | free at_free =>
    obtain ⟨htaken, -, -⟩ := hinv.of_free at_free
    cases hwriter : l.writer with
    | idle | notify | ready => simp [swapLeft, hwriter]
    | swap size | asleep size => simp [swapLeft, hwriter, htaken, owed, at_free]
  | notify at_notify =>
    cases hwriter : l.writer with
    | idle | notify | ready => simp [swapLeft, hwriter, Writer.wake]
    | swap size => simp [swapLeft, hwriter, Writer.wake, owed]
    | asleep size =>
      simp only [swapLeft, hwriter, Writer.wake, owed, at_notify]
      split <;> simp

theorem waiting_congr {cost : Nat → Nat} (dataReady : l'.dataReady = l.dataReady)
    (dataSize : l'.dataSize = l.dataSize) (holding : l'.reader = .holding ↔ l.reader = .holding)
    (flush : l'.reader = .flush ↔ l.reader = .flush) : l'.waiting cost = l.waiting cost := by
  simp only [waiting, dataReady, dataSize, ne_eq, holding, flush]

theorem waiting_holding (cost : Nat → Nat) (h : l.reader = .holding ∨ l.reader = .flush) :
    l.waiting cost = 0 :=
  if_neg fun hwaits => h.elim hwaits.2.1 hwaits.2.2

theorem waiting_empty (cost : Nat → Nat) (h : l.dataReady = false) : l.waiting cost = 0 :=
  if_neg fun hwaits => by simp [h] at hwaits

/-! ### The sink -/

def readerLeft : Reader → Nat
  | .asleep => 0
  | .read => 1
  | .idle => 2
  | .notify => 4
  | .free => 5
  | .flush => 6
  | .holding => 7

/-- What a sink can still do. -/
def sinkLeft (l : Link T) : Nat := l.waiting (fun _ => 10) + readerLeft l.reader

/-- What waits to be read stays. -/
theorem sinkLeft_lt (dataReady : l'.dataReady = l.dataReady) (dataSize : l'.dataSize = l.dataSize)
    (holding : l'.reader = .holding ↔ l.reader = .holding)
    (flush : l'.reader = .flush ↔ l.reader = .flush)
    (less : readerLeft l'.reader < readerLeft l.reader) : l'.sinkLeft < l.sinkLeft := by
  rw [sinkLeft, sinkLeft, waiting_congr dataReady dataSize holding flush]
  exact Nat.add_lt_add_left less _

theorem sinkLeft_sinkWork (hinv : l.Inv) (h : SinkWork l l') :
    l'.sinkLeft < l.sinkLeft ∧ l'.swapLeft ≤ l.swapLeft := by
  cases h with
  | enter idle =>
    constructor
    · refine sinkLeft_lt rfl rfl ?_ ?_ ?_ <;> simp [idle, readerLeft]
    · refine Nat.le_of_eq ?_
      refine swapLeft_congr rfl rfl ?_
      simp [owed, idle]
  | wait inside =>
    refine ⟨?_, (swapLeft_readStep inside).le⟩
    cases read_cases inside with
    | sleep at_read running empty =>
      refine sinkLeft_lt rfl rfl ?_ ?_ ?_ <;> simp [at_read, readerLeft]
  | take inside =>
    refine ⟨?_, (swapLeft_readStep inside).le⟩
    cases read_cases inside with
    | take at_read running ready =>
      rw [sinkLeft, sinkLeft, waiting_holding _ (by simp), waiting, if_pos (by simp [ready, at_read]),
        at_read]
      simp [readerLeft]
  | release holding =>
    constructor
    · rw [sinkLeft, sinkLeft, waiting_holding _ (by simp), waiting_holding _ (by simp [holding]),
        holding]
      simp [readerLeft]
    · refine Nat.le_of_eq ?_
      refine swapLeft_congr rfl rfl ?_
      simp [owed, holding]
  | flush inside =>
    refine ⟨?_, swapLeft_flushStep hinv inside⟩
    cases flush_cases inside with
    | clear at_flush =>
      rw [sinkLeft, sinkLeft, waiting_empty _ rfl, waiting_holding _ (by simp [at_flush]), at_flush]
      simp [readerLeft]
    | free at_free =>
      refine sinkLeft_lt rfl rfl ?_ ?_ ?_ <;> simp [at_free, readerLeft]
    | notify at_notify =>
      refine sinkLeft_lt rfl rfl ?_ ?_ ?_ <;> simp [at_notify, readerLeft]

end Link

/-! ## The workers -/

/-- A call of `process` that hands over a block goes on behind where it started. -/
def Advances {I O : Type} (M : Machine I O) : Prop :=
  ∀ {count next w w' size next'}, M.process count next w w' (.emit size next') →
    next < next' ∧ next' ≤ count

/-- What a worker can still do with the block it has. -/
def Phase.left (reader : Reader) : Phase → Nat
  | .ended => 0
  | .reading => if reader = .read then 1 else 0
  | .processing count next => 40 * (count - next) + 30
  | .handing (some (count, next)) => 40 * (count - next) + 30
  | .handing none => 2
  | .releasing _ =>
    match reader with
    | .flush => 23
    | .free => 22
    | _ => 21

section

variable {I O : Type} {M : Machine I O}

/-- What a worker can still do before its neighbours do something. -/
def workerLeft (input : Link I) (w : Worker M) (output : Link O) : Nat :=
  input.waiting (fun size => 40 * size + 31) + w.phase.left input.reader + output.swapLeft

variable {input a : Link I} {w p : Worker M} {output b : Link O}

/-- A step in one stream only. -/
theorem workerLeft_output (hphase : p.phase.left input.reader ≤ w.phase.left input.reader)
    (hless : b.swapLeft < output.swapLeft) : workerLeft input p b < workerLeft input w output := by
  rw [workerLeft, workerLeft]
  omega

theorem workerLeft_input
    (hwaiting : a.waiting (fun size => 40 * size + 31) = input.waiting fun size => 40 * size + 31)
    (hless : p.phase.left a.reader + b.swapLeft < w.phase.left input.reader + output.swapLeft) :
    workerLeft a p b < workerLeft input w output := by
  rw [workerLeft, workerLeft, hwaiting]
  omega

theorem workerLeft_workerStep (h : Connected input w output) (hinv : input.Inv)
    (hrunning : w.control = .running) (hadvances : Advances M)
    (hstep : WorkerStep M input w output a p b) :
    workerLeft a p b < workerLeft input w output ∧ a.swapLeft ≤ input.swapLeft := by
  have hpos := h.positions
  have hflags := running_flags h.flags hrunning
  have halive := h.alive hrunning
  cases hstep with
  | readWaits inside =>
    refine ⟨?_, (Link.swapLeft_readStep inside).le⟩
    cases Link.read_cases inside with
    | sleep at_read running empty =>
      refine workerLeft_input (Link.waiting_congr rfl rfl ?_ ?_) ?_ <;> simp [Phase.left, at_read]
  | readStopped inside =>
    cases Link.read_cases inside with
    | stopped at_read stop => simp [hflags.1] at stop
  | readBlock inside =>
    refine ⟨?_, (Link.swapLeft_readStep inside).le⟩
    cases Link.read_cases inside with
    | take at_read running ready =>
      rw [workerLeft, workerLeft, Link.waiting_holding _ (by simp), Link.waiting,
        if_pos (by simp [ready, at_read])]
      simp only [Phase.left, at_read, if_true]
      omega
  | @emit _ _ _ _ count next size next' work call =>
    obtain ⟨hlt, hle⟩ := hadvances call
    refine ⟨workerLeft_input (Link.waiting_congr rfl rfl Iff.rfl Iff.rfl) ?_, Nat.le_refl _⟩
    have hswap := Link.swapLeft_le { output with writeBuf := work.output, writer := .swap size }
    rw [Link.swapLeft_idle hpos.2]
    simp only [Phase.left]
    omega
  | done call =>
    constructor
    · refine workerLeft_input ?_ ?_
      · rw [Link.waiting_holding _ (Or.inr rfl), Link.waiting_holding _ (Or.inl hpos.1)]
      · rw [Link.swapLeft_idle hpos.2, Link.swapLeft_idle (by exact hpos.2)]
        simp only [Phase.left]
        omega
    · refine Nat.le_of_eq ?_
      refine Link.swapLeft_congr rfl rfl ?_
      simp [Link.owed, hpos.1]
  | flushInside inside =>
    refine ⟨?_, Link.swapLeft_flushStep hinv inside⟩
    cases Link.flush_cases inside with
    | clear at_flush =>
      refine workerLeft_input ?_ ?_
      · rw [Link.waiting_empty _ rfl, Link.waiting_holding _ (Or.inr at_flush)]
      · simp [Phase.left, at_flush]
    | free at_free =>
      refine workerLeft_input (Link.waiting_congr rfl rfl ?_ ?_) ?_ <;> simp [Phase.left, at_free]
  | flushAgain inside =>
    have hswap := Link.swapLeft_flushStep hinv inside
    cases Link.flush_cases inside with
    | notify at_notify =>
      refine ⟨?_, le_trans (Nat.le_of_eq ?_) hswap⟩
      · refine workerLeft_input (Link.waiting_congr rfl rfl ?_ ?_) ?_ <;>
          simp [Phase.left, at_notify]
      · refine Link.swapLeft_congr rfl rfl ?_
        simp [Link.owed]
  | @flushHand _ _ size _ _ _ inside =>
    refine ⟨?_, Link.swapLeft_flushStep hinv inside⟩
    cases Link.flush_cases inside with
    | notify at_notify =>
      have hswap := Link.swapLeft_le { output with writer := .swap size }
      refine workerLeft_input (Link.waiting_congr rfl rfl ?_ ?_) ?_
      · simp [at_notify]
      · simp [at_notify]
      · rw [Link.swapLeft_idle hpos.2]
        simp only [Phase.left, at_notify]
        omega
  | flushStop inside => cases halive
  | swapInside inside =>
    exact ⟨workerLeft_output (Nat.le_refl _) (Link.swapLeft_swapStep inside), Nat.le_refl _⟩
  | swapResume inside =>
    exact ⟨workerLeft_output (Nat.le_refl _) (Link.swapLeft_swapStep inside), Nat.le_refl _⟩
  | swapAgain inside =>
    have hidle : input.reader = .idle := hpos.1
    have hless := Link.swapLeft_swapStep inside
    refine ⟨workerLeft_input (Link.waiting_congr rfl rfl ?_ ?_) ?_, Nat.le_of_eq ?_⟩
    · simp [hidle]
    · simp [hidle]
    · simp only [Phase.left, if_true]
      omega
    · refine Link.swapLeft_congr rfl rfl ?_
      simp [Link.owed, hidle]
  | abandonHeld inside | abandon inside =>
    cases Link.swap_cases inside with
    | abandon size at_swap stopped => simp [hflags.2] at stopped

end

/-! ## Pipelines left alone -/

variable {n : Nat} {T : Nat → Type} {M : ∀ i, Machine (T i) (T (i + 1))}

/-- The threads of a pipeline that nobody stops, with a source that adds no block. -/
def busy (n : Nat) {T : Nat → Type} (M : ∀ i, Machine (T i) (T (i + 1))) : Chain n where
  Cell i := Link (T i)
  Proc i := Worker (M i)
  step i := WorkerStep (M i)
  source l l' := ∃ result, l.swapStep = some (l', result)
  sink := Link.SinkWork

theorem step_of_busy {s s' : (pipeline n M).State} (h : (busy n M).Step s s') :
    (pipeline n M).Step s s' := by
  cases h with
  | proc i lt moves cells procs => exact .proc i lt (.worker moves) cells procs
  | source moves cells procs =>
    obtain ⟨result, hinside⟩ := moves
    exact .source (.swap hinside) cells procs
  | sink moves cells procs => exact .sink moves.readerStep cells procs

def Running (s : (pipeline n M).State) : Prop := ∀ i, i < n → (s.proc i).control = .running

theorem control_workerStep {I O : Type} {M : Machine I O} {input a : Link I} {w p : Worker M}
    {output b : Link O} (h : WorkerStep M input w output a p b) :
    p.control = w.control ∧ p.stops = w.stops := by
  cases h <;> exact ⟨rfl, rfl⟩

theorem running_step {s s' : (pipeline n M).State} (hrunning : Running s)
    (h : (busy n M).Step s s') : Running s' := by
  intro j hj
  cases h with
  | proc i lt moves cells procs =>
    by_cases hji : j = i
    · subst hji
      exact (control_workerStep moves).1.trans (hrunning j hj)
    · rw [procs j hji]
      exact hrunning j hj
  | source moves cells procs | sink moves cells procs =>
    rw [procs]
    exact hrunning j hj

def budget (n : Nat) {T : Nat → Type} (M : ∀ i, Machine (T i) (T (i + 1))) : (busy n M).Budget where
  source := Link.swapLeft
  own _ := workerLeft
  sink := Link.sinkLeft

theorem behind_le {s : (busy n M).State} {i : Nat} {l l' : Link (T i)}
    (h : l'.swapLeft ≤ l.swapLeft) : (budget n M).behind s i l' ≤ (budget n M).behind s i l := by
  cases i with
  | zero => exact h
  | succ i => exact Nat.add_le_add_left h _

theorem budget_spends (hadvances : ∀ i, i < n → Advances (M i)) :
    (budget n M).Spends fun s => (pipelineOutline n M).Holds s ∧ Running (n := n) s where
  keeps h hstep := ⟨Chain.Outline.holds_step h.1 (step_of_busy hstep), running_step h.2 hstep⟩
  step i _ _ _ _ hi h hstep := by
    obtain ⟨hless, hswap⟩ := workerLeft_workerStep (h.1.proc i hi) (h.1.cell i (Nat.le_of_lt hi))
      (h.2 i hi) (hadvances i hi) hstep
    exact ⟨hless, behind_le hswap⟩
  source _ hstep := Link.swapLeft_swapStep hstep.choose_spec
  sink h hstep := by
    obtain ⟨hless, hswap⟩ := Link.sinkLeft_sinkWork (h.1.cell n (Nat.le_refl n)) hstep
    exact ⟨hless, behind_le hswap⟩

/-- What a run of the threads alone can lead to. -/
theorem reachable_of_busy {start s s' : (pipeline n M).State} (hs : (pipeline n M).Reachable start s)
    (h : (busy n M).Reachable s s') : (pipeline n M).Reachable start s' :=
  hs.trans (Relation.ReflTransGen.mono (p := (pipeline n M).Step) (fun _ _ => step_of_busy) _ _ h)

theorem running_of_busy {s s' : (pipeline n M).State} (hrunning : Running s)
    (h : (busy n M).Reachable s s') : Running s' := by
  induction h with
  | refl => exact hrunning
  | tail _ hstep ih => exact running_step ih hstep

/-! ### Where nothing moves -/

section

variable {s : (pipeline n M).State} (hrest : ∀ s', ¬ (busy n M).Step s s')

include hrest

theorem stuck_of_rest {i : Nat} (hi : i < n) (a : Link (T i)) (p : Worker (M i))
    (b : Link (T (i + 1))) :
    ¬ WorkerStep (M i) (s.cell i) (s.proc i) (s.cell (i + 1)) a p b := fun hstep => by
  obtain ⟨s', hs', -⟩ := @Chain.exists_proc _ (busy n M) s i hi a p b hstep
  exact hrest s' hs'

theorem source_of_rest : (s.cell 0).swapStep = none := by
  cases hstep : (s.cell 0).swapStep with
  | none => rfl
  | some r =>
    obtain ⟨s', hs', -⟩ := @Chain.exists_source _ (busy n M) s r.1 ⟨r.2, hstep⟩
    exact absurd hs' (hrest s')

theorem sink_of_rest (l : Link (T n)) : ¬ Link.SinkWork (s.cell n) l := fun hstep => by
  obtain ⟨s', hs', -⟩ := @Chain.exists_sink _ (busy n M) s l hstep
  exact hrest s' hs'

theorem asleep_of_rest (hstop : (s.cell n).readerStop = false) : (s.cell n).reader = .asleep := by
  by_contra hawake
  obtain ⟨l, hwork⟩ := Link.exists_sinkWork hstop hawake
  exact sink_of_rest hrest l hwork

theorem quiet_of_rest (hrunning : Running s) (hstop : (s.cell n).readerStop = false) : Quiet s where
  running := hrunning
  stuck _ hi := stuck_of_rest hrest hi
  source := source_of_rest hrest
  sink := asleep_of_rest hrest hstop

end

/-! ### Runs come to rest -/

/-- The flag of the sink is the sink's. -/
theorem sinkStop_step {s s' : (pipeline n M).State} (hholds : (pipelineOutline n M).Holds s)
    (h : (busy n M).Step s s') : (s'.cell n).readerStop = (s.cell n).readerStop := by
  cases h with
  | proc i lt moves cells procs =>
    by_cases hlast : n = i + 1
    · subst hlast
      obtain ⟨-, hwrites⟩ := Link.blockStep_sides (hholds.proc i lt) (.worker moves)
      exact (hwrites.keeps (hholds.cell _ (Nat.le_refl _))).2.readerStop
    · rw [cells n (by omega) hlast]
  | source moves cells procs =>
    obtain ⟨result, hinside⟩ := moves
    by_cases hzero : n = 0
    · subst hzero
      exact (Link.writerStep_frame (hholds.cell 0 (Nat.le_refl 0)) (.swap hinside)).readerStop
    · rw [cells n hzero]
  | sink moves cells procs => exact moves.readerStop_eq

theorem sinkStop_of_busy {s s' : (pipeline n M).State} (hholds : (pipelineOutline n M).Holds s)
    (h : (busy n M).Reachable s s') : (s'.cell n).readerStop = (s.cell n).readerStop := by
  induction h with
  | refl => rfl
  | tail hrun hstep ih =>
    have hmid := Chain.Outline.holds_reachable hholds (reachable_of_busy .refl hrun)
    exact (sinkStop_step hmid hstep).trans ih

section

variable {start s : (pipeline n M).State} (h : Initial start)
  (hs : (pipeline n M).Reachable start s) (hrunning : Running s)
  (hstop : (s.cell n).readerStop = false)

include h hs hrunning hstop

/-- Where the threads have come to rest. -/
theorem quiet_of_busy {s' : (pipeline n M).State} (hrun : (busy n M).Reachable s s')
    (hrest : ∀ s'', ¬ (busy n M).Step s' s'') : Quiet s' := by
  have hstop' := (sinkStop_of_busy (holds_reachable h hs) hrun).trans hstop
  exact quiet_of_rest hrest (running_of_busy hrunning hrun) hstop'

omit hstop in
theorem acc_of_busy (hadvances : ∀ i, i < n → Advances (M i)) :
    Acc (fun s₂ s₁ => (busy n M).Step s₁ s₂) s :=
  (budget_spends hadvances).acc ⟨holds_reachable h hs, hrunning⟩

end

end RyFi.Dsp
