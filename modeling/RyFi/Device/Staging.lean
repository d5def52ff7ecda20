import RyFi.Device.Transmitter

/-! # Conservation of the staged samples

One iteration of the inner loop moves the front of what is left to an event
(`Drain.step_cases`), so the values converted so far are those that left `txStage`, in order,
followed by the rest of it.  A `tx_qbuf` that fails leaves everything where it was; in
`conserves` it never does.
-/

namespace RyFi.Device

open CLoop Modem

/-! ## What the events record -/

namespace Event

/-- The values that entered `txStage`. -/
def input : Event → List Int16
  | .converted values => values
  | _ => []

/-- The values that left it. -/
def output : Event → List Int16
  | .dropped _ values => values
  | .queued _ b => b.buf
  | _ => []

/-- The chunk handed over or dropped. -/
def chunk : Event → Option (List Int16)
  | .converted _ => none
  | .dropped _ values => some values
  | .failed _ b => some b.buf
  | .queued _ b => some b.buf

end Event

/-- Packets hold whole multiples of 256 samples. -/
structure Librfnm.Granular (lib : Librfnm) : Prop where
  pos : 0 < lib.RFNM_USB_TX_PACKET_ELEM_CNT
  dvd : 256 ∣ lib.RFNM_USB_TX_PACKET_ELEM_CNT

/-- Call `i` of `tx_dqbuf` gives a buffer. -/
def Librfnm.gives (lib : Librfnm) (i : Nat) : Bool := (lib.tx_dqbuf i).1 && (lib.tx_dqbuf i).2

/-- A positive multiple of 256 samples that fits a packet. -/
def Sized (lib : Librfnm) (values : List Int16) : Prop :=
  ∃ n, 0 < n ∧ values.length = 2 * (256 * n) ∧ 256 * n ≤ lib.RFNM_USB_TX_PACKET_ELEM_CNT

namespace RFNMTransmitter

/-- All values converted so far. -/
def converted (tx : RFNMTransmitter) : List Int16 := tx.events.flatMap Event.input

/-- All values queued or dropped so far. -/
def drained (tx : RFNMTransmitter) : List Int16 := tx.events.flatMap Event.output

section

variable {lib : Librfnm}

theorem chunkSize_spec (hlib : lib.Granular) {avail : Nat} (havail : 2 * 256 ≤ avail) :
    ∃ n, 0 < n ∧ chunkSize lib avail = 256 * n ∧
      256 * n ≤ lib.RFNM_USB_TX_PACKET_ELEM_CNT ∧ 2 * (256 * n) ≤ avail := by
  obtain ⟨m, hm⟩ := hlib.dvd
  have hpos := hlib.pos
  simp only [chunkSize]
  split
  · exact ⟨m, by omega, hm, by omega, by omega⟩
  · exact ⟨avail / (2 * 256), by omega, by omega, by omega, by omega⟩

/-! ## One iteration -/

namespace Drain

variable {d : Drain}

/-- The buffer handed to `tx_qbuf`. -/
def buffer (lib : Librfnm) (d : Drain) : TxBuf :=
  { buf := d.values lib, elem_cnt := UInt32.ofNat (chunkSize lib d.avail), tx_flags := 0 }

/-- What an iteration does, with the answers of librfnm that decide it. -/
theorem step_cases (lib : Librfnm) (d : Drain) :
    (lib.gives d.tx.dqbufs = false ∧ d.step lib =
      { d with
        tx := { d.tx with
          dqbufs := d.tx.dqbufs + 1
          events := d.tx.events ++ [.dropped (d.tx.erased + d.off) (d.values lib)] }
        off := d.off + 2 * chunkSize lib d.avail }) ∨
    (lib.gives d.tx.dqbufs = true ∧ lib.tx_qbuf d.tx.qbufs = false ∧ d.step lib =
      { d with
        tx := { d.tx with
          dqbufs := d.tx.dqbufs + 1
          qbufs := d.tx.qbufs + 1
          events := d.tx.events ++ [.failed (d.tx.erased + d.off) (d.buffer lib)] }
        returned := true }) ∨
    (lib.gives d.tx.dqbufs = true ∧ lib.tx_qbuf d.tx.qbufs = true ∧ d.step lib =
      { d with
        tx := { d.tx with
          dqbufs := d.tx.dqbufs + 1
          qbufs := d.tx.qbufs + 1
          events := d.tx.events ++ [.queued (d.tx.erased + d.off) (d.buffer lib)] }
        off := d.off + 2 * chunkSize lib d.avail }) := by
  cases hcode : (lib.tx_dqbuf d.tx.dqbufs).1 <;> cases hbuf : (lib.tx_dqbuf d.tx.dqbufs).2 <;>
    cases hok : lib.tx_qbuf d.tx.qbufs <;>
    simp [step, Librfnm.gives, buffer, hcode, hbuf, hok]

/-- What no iteration touches. -/
theorem step_frame (lib : Librfnm) (d : Drain) :
    (d.step lib).tx.txStage = d.tx.txStage ∧ (d.step lib).tx.erased = d.tx.erased ∧
      (d.step lib).tx.converted = d.tx.converted := by
  obtain ⟨-, hstep⟩ | ⟨-, -, hstep⟩ | ⟨-, -, hstep⟩ := step_cases lib d <;>
    rw [hstep] <;> simp [converted, Event.input]

theorem more_iff : d.more = true ↔ d.returned = false ∧ 2 * 256 ≤ d.avail := by
  simp [more]

theorem step_decreases (hlib : lib.Granular) (d : Drain) (hmore : d.more = true) :
    (d.step lib).variant < d.variant := by
  obtain ⟨hreturned, havail⟩ := more_iff.mp hmore
  obtain ⟨n, hpos, hchunk, -, hle⟩ := chunkSize_spec hlib havail
  have hbefore : d.variant = d.avail := by simp [variant, hreturned]
  have hlen : d.avail = d.tx.txStage.length - d.off := rfl
  rw [hbefore]
  obtain ⟨-, hstep⟩ | ⟨-, -, hstep⟩ | ⟨-, -, hstep⟩ := step_cases lib d
  · rw [hstep, hchunk]
    simp only [variant, hreturned, avail, Bool.false_eq_true, if_false]
    omega
  · rw [hstep]
    simp only [variant, if_true]
    omega
  · rw [hstep, hchunk]
    simp only [variant, hreturned, avail, Bool.false_eq_true, if_false]
    omega

/-- The chunk taken off what is left. -/
theorem values_append_drop (lib : Librfnm) (d : Drain) :
    d.values lib ++ d.tx.txStage.drop (d.off + 2 * chunkSize lib d.avail) =
      d.tx.txStage.drop d.off := by
  rw [← List.drop_drop, values, List.take_append_drop]

theorem sized_values (hlib : lib.Granular) (havail : 2 * 256 ≤ d.avail) :
    Sized lib (d.values lib) := by
  obtain ⟨n, hpos, hchunk, hfits, hle⟩ := chunkSize_spec hlib havail
  refine ⟨n, hpos, ?_, hfits⟩
  have hlen : d.avail = d.tx.txStage.length - d.off := rfl
  rw [values, hchunk, List.length_take, List.length_drop]
  omega

/-- The law inside the loop: what is left starts at `off`. -/
structure Balanced (lib : Librfnm) (d : Drain) : Prop where
  inside : d.off ≤ d.tx.txStage.length
  law : d.tx.converted = d.tx.drained ++ d.tx.txStage.drop d.off
  sized : ∀ e ∈ d.tx.events, ∀ values, e.chunk = some values → Sized lib values

theorem Balanced.step (hlib : lib.Granular) (hok : ∀ i, lib.tx_qbuf i = true) (h : d.Balanced lib)
    (hmore : d.more = true) : (d.step lib).Balanced lib ∧ (d.step lib).returned = false := by
  obtain ⟨hreturned, havail⟩ := more_iff.mp hmore
  obtain ⟨n, -, hchunk, -, hle⟩ := chunkSize_spec hlib havail
  have hlen : d.avail = d.tx.txStage.length - d.off := rfl
  have hsized := sized_values hlib havail
  have hinside := h.inside
  have hfront := values_append_drop lib d
  obtain ⟨-, hstep⟩ | ⟨-, hfail, -⟩ | ⟨-, -, hstep⟩ := step_cases lib d
  · rw [hstep]
    refine ⟨⟨by dsimp only; omega, ?_, ?_⟩, hreturned⟩
    · simp only [converted, drained, List.flatMap_append, List.flatMap_singleton, Event.input,
        Event.output, List.append_nil, List.append_assoc, hfront]
      exact h.law
    · intro e he values hvalues
      rcases List.mem_append.mp he with he | he
      · exact h.sized e he values hvalues
      · rw [List.mem_singleton.mp he] at hvalues
        rw [← Option.some.inj hvalues]
        exact hsized
  · rw [hok] at hfail
    cases hfail
  · rw [hstep]
    refine ⟨⟨by dsimp only; omega, ?_, ?_⟩, hreturned⟩
    · simp only [converted, drained, List.flatMap_append, List.flatMap_singleton, Event.input,
        Event.output, List.append_nil, List.append_assoc, buffer, hfront]
      exact h.law
    · intro e he values hvalues
      rcases List.mem_append.mp he with he | he
      · exact h.sized e he values hvalues
      · rw [List.mem_singleton.mp he] at hvalues
        rw [← Option.some.inj hvalues]
        exact hsized

/-- The loop ends, after finitely many iterations that all keep `P`. -/
theorem run_trace (hlib : lib.Granular) (P : Drain → Prop) (start : P d)
    (keeps : ∀ d, P d → d.more = true → P (d.step lib)) :
    ∃ n, d.run lib = (step lib)^[n] d ∧ ((step lib)^[n] d).more = false ∧
      (∀ k, k < n → ((step lib)^[k] d).more = true) ∧ ∀ k, k ≤ n → P ((step lib)^[k] d) := by
  obtain ⟨n, -, hrun, hexit, hmore⟩ := whileVariant_iterate (step_decreases hlib) d
  refine ⟨n, hrun, hexit, hmore, fun k hk => ?_⟩
  induction k with
  | zero => exact start
  | succ k ih =>
    rw [Function.iterate_succ_apply']
    exact keeps _ (ih (by omega)) (hmore k (by omega))

theorem run_frame (hlib : lib.Granular) (d : Drain) :
    (d.run lib).tx.txStage = d.tx.txStage ∧ (d.run lib).tx.erased = d.tx.erased ∧
      (d.run lib).tx.converted = d.tx.converted := by
  obtain ⟨n, hrun, -, -, hall⟩ := run_trace hlib
    (fun d' => d'.tx.txStage = d.tx.txStage ∧ d'.tx.erased = d.tx.erased ∧
      d'.tx.converted = d.tx.converted) ⟨rfl, rfl, rfl⟩
    fun d' hd _ => by
      obtain ⟨hstage, herased, hconverted⟩ := step_frame lib d'
      exact ⟨hstage.trans hd.1, herased.trans hd.2.1, hconverted.trans hd.2.2⟩
  rw [hrun]
  exact hall n (Nat.le_refl n)

end Drain

/-! ## Whole runs -/

/-- The law between two blocks. -/
structure Conserved (lib : Librfnm) (tx : RFNMTransmitter) : Prop where
  law : tx.converted = tx.drained ++ tx.txStage
  sized : ∀ e ∈ tx.events, ∀ values, e.chunk = some values → Sized lib values
  residue : tx.txStage.length < 2 * 256

variable {F : Type} [TxSample F] {tx : RFNMTransmitter}

theorem Conserved.stage (h : Conserved lib tx) (block : List (ComplexT F)) :
    Drain.Balanced lib ⟨tx.stage block, 0, false⟩ where
  inside := Nat.zero_le _
  law := by
    have hlaw := h.law
    simp only [converted, drained] at hlaw
    simp only [converted, drained, RFNMTransmitter.stage, List.flatMap_append,
      List.flatMap_singleton, Event.input, Event.output, List.append_nil, List.drop_zero, hlaw,
      List.append_assoc]
  sized := by
    intro e he values hvalues
    rcases List.mem_append.mp he with he | he
    · exact h.sized e he values hvalues
    · rw [List.mem_singleton.mp he] at hvalues
      cases hvalues

/-- The drain of a block: it ends, and the law holds before and after every iteration. -/
theorem Conserved.drain (hlib : lib.Granular) (hok : ∀ i, lib.tx_qbuf i = true)
    (h : Conserved lib tx) (block : List (ComplexT F)) :
    ∃ n, (tx.stage block).drain lib = (Drain.step lib)^[n] ⟨tx.stage block, 0, false⟩ ∧
      ((Drain.step lib)^[n] ⟨tx.stage block, 0, false⟩).more = false ∧
      ∀ k, k ≤ n → ((Drain.step lib)^[k] ⟨tx.stage block, 0, false⟩).Balanced lib ∧
        ((Drain.step lib)^[k] ⟨tx.stage block, 0, false⟩).returned = false := by
  obtain ⟨n, hrun, hexit, -, hall⟩ := Drain.run_trace hlib
    (fun d => d.Balanced lib ∧ d.returned = false) ⟨h.stage block, rfl⟩
    fun d hd hmore => hd.1.step hlib hok hmore
  exact ⟨n, hrun, hexit, hall⟩

theorem Conserved.process (hlib : lib.Granular) (hok : ∀ i, lib.tx_qbuf i = true)
    (h : Conserved lib tx) (block : List (ComplexT F)) : Conserved lib (tx.process lib block) := by
  obtain ⟨n, hrun, hexit, hall⟩ := h.drain hlib hok block
  obtain ⟨hbalanced, hreturned⟩ := hall n (Nat.le_refl n)
  rw [← hrun] at hexit hbalanced hreturned
  rw [RFNMTransmitter.process, hreturned, if_neg Bool.false_ne_true]
  refine ⟨hbalanced.law, hbalanced.sized, ?_⟩
  rw [Drain.more, hreturned] at hexit
  have hlen : ((tx.stage block).drain lib).avail =
    ((tx.stage block).drain lib).tx.txStage.length - ((tx.stage block).drain lib).off := rfl
  rw [List.length_drop, ← hlen]
  simpa using hexit

theorem Conserved.step (hlib : lib.Granular) (hok : ∀ i, lib.tx_qbuf i = true)
    (h : Conserved lib tx) (op : Op F) : Conserved lib (tx.step lib op) := by
  cases op with
  | start applied workStarted =>
    simp only [RFNMTransmitter.step, start]
    split_ifs
    all_goals exact ⟨h.law, h.sized, h.residue⟩
  | read block =>
    simp only [RFNMTransmitter.step]
    split_ifs
    · exact h
    · exact ⟨h.law, h.sized, h.residue⟩
    · exact h.process hlib hok block
  | stop =>
    simp only [RFNMTransmitter.step, stop]
    split_ifs
    all_goals exact ⟨h.law, h.sized, h.residue⟩

theorem conserved_run (hlib : lib.Granular) (hok : ∀ i, lib.tx_qbuf i = true) (ops : List (Op F)) :
    Conserved lib (init.run lib ops) := by
  induction ops using List.reverseRecOn with
  | nil => exact ⟨rfl, fun e he => absurd he List.not_mem_nil, Nat.zero_lt_succ _⟩
  | append_singleton ops op ih =>
    rw [RFNMTransmitter.run, List.foldl_append]
    exact ih.step hlib hok op

/-- The values an operation converts. -/
def reads (tx : RFNMTransmitter) : Op F → List Int16
  | .read block => if tx.working then convert block else []
  | _ => []

theorem converted_step (hlib : lib.Granular) (tx : RFNMTransmitter) (op : Op F) :
    (tx.step lib op).converted = tx.converted ++ tx.reads op := by
  cases op with
  | start applied workStarted =>
    simp only [RFNMTransmitter.step, start, reads, List.append_nil]
    split_ifs <;> rfl
  | read block =>
    have hframe := (Drain.run_frame hlib ⟨tx.stage block, 0, false⟩).2.2
    have hstage : (tx.stage block).converted = tx.converted ++ convert block := by
      simp [converted, RFNMTransmitter.stage, Event.input]
    cases hworking : tx.working with
    | false => simp [RFNMTransmitter.step, reads, hworking]
    | true =>
      by_cases hempty : block.length = 0
      · rw [List.length_eq_zero_iff] at hempty
        simp [RFNMTransmitter.step, reads, hworking, hempty, convert, converted]
      · simp only [RFNMTransmitter.step, reads, hworking, hempty, if_false, if_true,
          Bool.true_eq_false, RFNMTransmitter.process]
        rw [← hstage, ← hframe]
        split_ifs <;> rfl
  | stop =>
    simp only [RFNMTransmitter.step, stop, reads, List.append_nil]
    split_ifs <;> rfl

/-- The block that the worker reads at an operation. -/
def blockRead (tx : RFNMTransmitter) : Op F → List (List (ComplexT F))
  | .read block => if tx.working then [block] else []
  | _ => []

/-- The blocks that the worker reads in a run. -/
def blocksRead (lib : Librfnm) (tx : RFNMTransmitter) : List (Op F) → List (List (ComplexT F))
  | [] => []
  | op :: ops => tx.blockRead op ++ blocksRead lib (tx.step lib op) ops

theorem reads_eq (tx : RFNMTransmitter) (op : Op F) :
    tx.reads op = (tx.blockRead op).flatMap convert := by
  cases op with
  | read block => cases hworking : tx.working <;> simp [reads, blockRead, hworking]
  | _ => rfl

theorem converted_run (hlib : lib.Granular) (tx : RFNMTransmitter) (ops : List (Op F)) :
    (tx.run lib ops).converted = tx.converted ++ (tx.blocksRead lib ops).flatMap convert := by
  induction ops generalizing tx with
  | nil => simp [RFNMTransmitter.run, blocksRead]
  | cons op ops ih =>
    have hstep := converted_step hlib tx op
    have hrest := ih (tx.step lib op)
    rw [hstep, reads_eq, List.append_assoc, ← List.flatMap_append] at hrest
    exact hrest

/-- Nothing is lost, duplicated or reordered while `tx_qbuf` succeeds: in every state reached,
    and before and after every iteration of the loop on any further block, which ends.  What is
    conserved are two values for each sample of the blocks read. -/
theorem conserves (lib : Librfnm) (hlib : lib.Granular) (hok : ∀ i, lib.tx_qbuf i = true)
    (ops : List (Op F)) :
    (init.run lib ops).converted = (init.run lib ops).drained ++ (init.run lib ops).txStage ∧
    (init.run lib ops).converted = ((init.blocksRead lib ops).flatMap fun block =>
      block.flatMap fun x => [toCS16 x.re, toCS16 x.im]) ∧
    (∀ op, (init.run lib (ops ++ [op])).converted =
      (init.run lib ops).converted ++ (init.run lib ops).reads op) ∧
    (∀ e ∈ (init.run lib ops).events, ∀ values, e.chunk = some values → Sized lib values) ∧
    (init.run lib ops).txStage.length < 2 * 256 ∧
    ∀ block : List (ComplexT F), ∃ n,
      ((init.run lib ops).stage block).drain lib =
        (Drain.step lib)^[n] ⟨(init.run lib ops).stage block, 0, false⟩ ∧
      ((Drain.step lib)^[n] ⟨(init.run lib ops).stage block, 0, false⟩).more = false ∧
      ∀ k, k ≤ n →
        ((Drain.step lib)^[k] ⟨(init.run lib ops).stage block, 0, false⟩).Balanced lib := by
  have h := conserved_run hlib hok ops
  refine ⟨h.law, converted_run hlib init ops, fun op => ?_, h.sized, h.residue,
    fun block => ?_⟩
  · have hlast : init.run lib (ops ++ [op]) = (init.run lib ops).step lib op := by
      rw [RFNMTransmitter.run, List.foldl_append]
      rfl
    rw [hlast, converted_step hlib]
  · obtain ⟨n, hrun, hexit, hall⟩ := h.drain hlib hok block
    exact ⟨n, hrun, hexit, fun k hk => (hall k hk).1⟩

/-- Packets of 512 samples; every third `tx_dqbuf` finds the queue saturated. -/
def saturated : Librfnm where
  RFNM_USB_TX_PACKET_ELEM_CNT := 512
  tx_dqbuf i := (i % 3 != 1, true)
  tx_qbuf _ := true

/-- One block of 1500 samples. -/
def sampleOps : List (Op Rat) := [.start true true, .read (List.replicate 1500 ⟨1, 0⟩)]

theorem conserves_saturated :
    (init.run saturated sampleOps).converted =
      (init.run saturated sampleOps).drained ++ (init.run saturated sampleOps).txStage ∧
    (init.run saturated sampleOps).converted = (List.replicate 1500 [32767, 0]).flatten ∧
    (∀ e ∈ (init.run saturated sampleOps).events, ∀ values, e.chunk = some values →
      ∃ n, 0 < n ∧ values.length = 2 * (256 * n) ∧ 256 * n ≤ 512) ∧
    (init.run saturated sampleOps).txStage.length < 2 * 256 ∧
    ∃ n, ((Drain.step saturated)^[n]
      ⟨(init.run saturated sampleOps).stage (List.replicate 300 (⟨0, 1⟩ : ComplexT Rat)), 0,
        false⟩).more = false := by
  obtain ⟨hlaw, hinput, -, hsized, hresidue, hdrain⟩ :=
    conserves saturated ⟨by decide, by decide⟩ (fun _ => rfl) sampleOps
  obtain ⟨n, -, hends, -⟩ := hdrain (List.replicate 300 ⟨0, 1⟩)
  have hread : init.blocksRead saturated sampleOps = [List.replicate 1500 ⟨1, 0⟩] := rfl
  have hone : toCS16 (1 : Rat) = 32767 := by decide +kernel
  have hzero : toCS16 (0 : Rat) = 0 := by decide +kernel
  refine ⟨hlaw, ?_, hsized, hresidue, n, hends⟩
  rw [hinput, hread, List.flatMap_singleton, List.flatMap_replicate, hone, hzero]

end

end RFNMTransmitter

end RyFi.Device
