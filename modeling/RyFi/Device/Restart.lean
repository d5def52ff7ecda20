import RyFi.Device.Staging
import Mathlib.Data.List.Count

/-! # Failing queues and restarts

`txStage` outlives the worker, which drops what it drained only after the whole block.  A
`tx_qbuf` that fails after another chunk of the block was queued therefore leaves that chunk
staged, and the next start queues it again.  `FirstOrNone` is the exact condition on the
answers of librfnm under which this does not happen.
-/

namespace RyFi.Device

open CLoop Modem

namespace RFNMTransmitter

/-! ## What was queued -/

/-- The chunks queued so far, with their places in the sequence of converted values. -/
def queued (tx : RFNMTransmitter) : List (Nat × List Int16) :=
  tx.events.filterMap fun
    | .queued pos b => some (pos, b.buf)
    | _ => none

/-- Every converted value was queued at most once, and in order. -/
structure SentOnce (tx : RFNMTransmitter) : Prop where
  content : ∀ c ∈ tx.queued, c.2 = (tx.converted.drop c.1).take c.2.length
  increasing : tx.queued.Pairwise fun c c' => c.1 + c.2.length ≤ c'.1

/-- Nothing that was queued is still staged. -/
def Cleared (tx : RFNMTransmitter) : Prop := ∀ c ∈ tx.queued, c.1 + c.2.length ≤ tx.erased

/-! ## The calls of a drain -/

/-- The iterations of the inner loop when none of them returns. -/
def turns (lib : Librfnm) (avail : Nat) : Nat :=
  (avail / (2 * 256) * 256 + lib.RFNM_USB_TX_PACKET_ELEM_CNT - 1) / lib.RFNM_USB_TX_PACKET_ELEM_CNT

/-- The buffers that `n` calls of `tx_dqbuf` give. -/
def buffers (lib : Librfnm) (first n : Nat) : Nat :=
  (List.range n).countP fun i => lib.gives (first + i)

/-- On the buffers of a block `tx_qbuf` fails at the first one or not at all. -/
def FirstOrNone {F : Type} [TxSample F] (lib : Librfnm) (tx : RFNMTransmitter)
    (block : List (ComplexT F)) : Prop :=
  lib.tx_qbuf tx.qbufs = false ∨
    ∀ j, j < buffers lib tx.dqbufs (turns lib (tx.txStage ++ convert block).length) →
      lib.tx_qbuf (tx.qbufs + j) = true

section

variable {lib : Librfnm}

theorem turns_of_lt {avail : Nat} (hlib : lib.Granular) (havail : avail < 2 * 256) :
    turns lib avail = 0 := by
  have hpos := hlib.pos
  rw [turns, Nat.div_eq_of_lt havail, Nat.zero_mul, Nat.zero_add]
  exact Nat.div_eq_of_lt (by omega)

theorem ceil_add {p : Nat} (hpos : 0 < p) (u : Nat) :
    (u + p + p - 1) / p = (u + p - 1) / p + 1 := by
  rw [show u + p + p - 1 = (u + p - 1) + p by omega, Nat.add_div_right _ hpos]

theorem turns_chunk {avail : Nat} (hlib : lib.Granular) (havail : 2 * 256 ≤ avail) :
    turns lib avail = turns lib (avail - 2 * chunkSize lib avail) + 1 := by
  have hpos := hlib.pos
  obtain ⟨m, hm⟩ := hlib.dvd
  simp only [chunkSize, turns]
  split
  · have hrest : avail / (2 * 256) * 256 =
        (avail - 2 * lib.RFNM_USB_TX_PACKET_ELEM_CNT) / (2 * 256) * 256 +
          lib.RFNM_USB_TX_PACKET_ELEM_CNT := by
      omega
    rw [← ceil_add hpos, ← hrest]
  · have hrest : (avail - 2 * (avail / (2 * 256) * 256)) / (2 * 256) * 256 = 0 := by omega
    have hlow : 0 < avail / (2 * 256) * 256 := by omega
    have hnone : (lib.RFNM_USB_TX_PACKET_ELEM_CNT - 1) / lib.RFNM_USB_TX_PACKET_ELEM_CNT = 0 :=
      Nat.div_eq_of_lt (by omega)
    rw [hrest, Nat.zero_add, hnone]
    exact Nat.div_eq_of_lt_le (by omega) (by omega)

theorem buffers_succ (lib : Librfnm) (first n : Nat) :
    buffers lib first (n + 1) =
      buffers lib (first + 1) n + (if lib.gives first then 1 else 0) := by
  rw [buffers, buffers, List.range_succ_eq_map, List.countP_cons, List.countP_map]
  congr 1
  exact List.countP_congr fun i _ => by
    simp only [Function.comp, Nat.succ_eq_add_one, Nat.add_assoc, Nat.add_comm 1 i]

namespace Drain

variable {d : Drain}

theorem avail_step (hoff : (d.step lib).off = d.off + 2 * chunkSize lib d.avail) :
    (d.step lib).avail = d.avail - 2 * chunkSize lib d.avail := by
  rw [avail, (step_frame lib d).1, hoff, Nat.sub_add_eq]
  rfl

/-- The worker returns iff `tx_qbuf` fails on one of the buffers the block can get. -/
theorem run_returned_iff (hlib : lib.Granular) (hreturned : d.returned = false) :
    (d.run lib).returned = true ↔
      ∃ j, j < buffers lib d.tx.dqbufs (turns lib d.avail) ∧
        lib.tx_qbuf (d.tx.qbufs + j) = false := by
  induction hn : turns lib d.avail generalizing d with
  | zero =>
    have hdone : d.more = false := by
      by_contra hmore
      have havail := (more_iff.mp (by simpa using hmore)).2
      rw [turns_chunk hlib havail] at hn
      omega
    rw [run, whileVariant_of_not hdone, hreturned]
    simp [buffers]
  | succ n ih =>
    have hmore : d.more = true := by
      rw [more_iff]
      refine ⟨hreturned, ?_⟩
      by_contra hlt
      rw [turns_of_lt hlib (by omega)] at hn
      omega
    have hrest := turns_chunk hlib (more_iff.mp hmore).2
    rw [run, whileVariant_of_cond (step_decreases hlib) hmore, buffers_succ]
    obtain ⟨hgives, hstep⟩ | ⟨hgives, hfail, hstep⟩ | ⟨hgives, hok, hstep⟩ := step_cases lib d
    · have hnext := @ih (d.step lib) (by rw [hstep]; exact hreturned)
        (by rw [avail_step (by rw [hstep])]; omega)
      rw [run] at hnext
      rw [hnext, hstep, hgives]
      rfl
    · have hdone : (d.step lib).more = false := by rw [hstep]; rfl
      rw [whileVariant_of_not hdone, hstep, hgives]
      exact iff_of_true rfl ⟨0, Nat.succ_pos _, hfail⟩
    · have hnext := @ih (d.step lib) (by rw [hstep]; exact hreturned)
        (by rw [avail_step (by rw [hstep])]; omega)
      rw [run] at hnext
      rw [hnext, hstep, hgives]
      -- call number 0 succeeded: the others are the calls of the rest
      constructor
      · rintro ⟨j, hj, hfail⟩
        exact ⟨j + 1, Nat.succ_lt_succ hj, by rw [← hfail, Nat.add_right_comm, Nat.add_assoc]⟩
      · rintro ⟨j, hj, hfail⟩
        cases j with
        | zero => rw [Nat.add_zero, hok] at hfail; cases hfail
        | succ j =>
          exact ⟨j, Nat.lt_of_succ_lt_succ hj, by rw [← hfail, Nat.add_right_comm, Nat.add_assoc]⟩

/-! ## What a drain queues -/

/-- While `t` is drained: the chunks `new` were queued, from the front of what is staged. -/
structure Queuing (t : RFNMTransmitter) (d : Drain) (new : List (Nat × List Int16)) : Prop where
  frame : d.tx.txStage = t.txStage ∧ d.tx.erased = t.erased ∧ d.tx.converted = t.converted
  inside : d.off ≤ t.txStage.length
  queued : d.tx.queued = t.queued ++ new
  places : ∀ c ∈ new, t.erased ≤ c.1 ∧ 0 < c.2.length ∧ c.1 + c.2.length ≤ t.erased + d.off
  content : ∀ c ∈ new, c.2 = (t.converted.drop c.1).take c.2.length
  increasing : new.Pairwise fun c c' => c.1 + c.2.length ≤ c'.1

/-- While `t` is drained: the first call of `tx_qbuf` decides whether a chunk is queued. -/
structure FirstCall (lib : Librfnm) (t : RFNMTransmitter) (d : Drain)
    (new : List (Nat × List Int16)) : Prop where
  waiting : new = [] → d.returned = false → d.tx.qbufs = t.qbufs
  failed : new = [] → d.returned = true → lib.tx_qbuf t.qbufs = false
  queued : new ≠ [] → lib.tx_qbuf t.qbufs = true

section

variable {t : RFNMTransmitter} {new : List (Nat × List Int16)}

theorem Queuing.frame_step (h : Queuing t d new) (lib : Librfnm) :
    (d.step lib).tx.txStage = t.txStage ∧ (d.step lib).tx.erased = t.erased ∧
      (d.step lib).tx.converted = t.converted := by
  obtain ⟨hstage, herased, hconverted⟩ := step_frame lib d
  exact ⟨hstage.trans h.frame.1, herased.trans h.frame.2.1, hconverted.trans h.frame.2.2⟩

/-- An iteration that queues nothing. -/
theorem Queuing.skip {d' : Drain} (h : Queuing t d new)
    (hframe : d'.tx.txStage = t.txStage ∧ d'.tx.erased = t.erased ∧ d'.tx.converted = t.converted)
    (hqueued : d'.tx.queued = d.tx.queued) (hoff : d.off ≤ d'.off)
    (hinside : d'.off ≤ t.txStage.length) : Queuing t d' new where
  frame := hframe
  inside := hinside
  queued := hqueued.trans h.queued
  places := fun c hc => by
    obtain ⟨hlow, hlength, hhigh⟩ := h.places c hc
    exact ⟨hlow, hlength, by omega⟩
  content := h.content
  increasing := h.increasing

/-- An iteration that queues the next values. -/
theorem Queuing.push {d' : Drain} {values : List Int16} (h : Queuing t d new)
    (hframe : d'.tx.txStage = t.txStage ∧ d'.tx.erased = t.erased ∧ d'.tx.converted = t.converted)
    (hqueued : d'.tx.queued = d.tx.queued ++ [(t.erased + d.off, values)])
    (hoff : d'.off = d.off + values.length) (hpos : 0 < values.length)
    (hinside : d'.off ≤ t.txStage.length)
    (hvalues : values = (t.converted.drop (t.erased + d.off)).take values.length) :
    Queuing t d' (new ++ [(t.erased + d.off, values)]) where
  frame := hframe
  inside := hinside
  queued := by rw [hqueued, h.queued, List.append_assoc]
  places := by
    intro c hc
    rcases List.mem_append.mp hc with hc | hc
    · obtain ⟨hlow, hlength, hhigh⟩ := h.places c hc
      exact ⟨hlow, hlength, by omega⟩
    · rw [List.mem_singleton.mp hc]
      exact ⟨Nat.le_add_right _ _, hpos, by dsimp only; omega⟩
  content := by
    intro c hc
    rcases List.mem_append.mp hc with hc | hc
    · exact h.content c hc
    · rw [List.mem_singleton.mp hc]
      exact hvalues
  increasing := by
    rw [List.pairwise_append]
    refine ⟨h.increasing, List.pairwise_singleton _ _, fun c hc c' hc' => ?_⟩
    rw [List.mem_singleton.mp hc']
    exact (h.places c hc).2.2

theorem Queuing.step (hlib : lib.Granular) (hstaged : t.txStage = t.converted.drop t.erased)
    (h : Queuing t d new) (hcall : FirstCall lib t d new) (hmore : d.more = true) :
    ∃ new', Queuing t (d.step lib) new' ∧ FirstCall lib t (d.step lib) new' := by
  obtain ⟨hreturned, havail⟩ := more_iff.mp hmore
  obtain ⟨n, hpos, hchunk, -, hle⟩ := chunkSize_spec hlib havail
  obtain ⟨hstage, herased, -⟩ := h.frame
  have hlen : d.avail = t.txStage.length - d.off := by rw [avail, hstage]
  have hinside := h.inside
  have hcount : (d.values lib).length = 2 * (256 * n) := by
    rw [values, hstage, hchunk, List.length_take, List.length_drop]
    omega
  have hvalues : d.values lib =
      (t.converted.drop (t.erased + d.off)).take (d.values lib).length := by
    rw [hcount, values, hstage, hstaged, List.drop_drop, hchunk]
  have hframe := h.frame_step lib
  -- no buffer came back, the device refused it, or it was queued
  obtain ⟨-, hstep⟩ | ⟨-, hfail, hstep⟩ | ⟨-, hok, hstep⟩ := step_cases lib d
  · refine ⟨new, h.skip hframe ?_ ?_ ?_, ⟨?_, ?_, hcall.queued⟩⟩
    all_goals rw [hstep]
    · simp [RFNMTransmitter.queued]
    · exact Nat.le_add_right _ _
    · dsimp only
      omega
    · exact hcall.waiting
    · exact hcall.failed
  · refine ⟨new, h.skip hframe ?_ ?_ ?_, ⟨?_, ?_, hcall.queued⟩⟩
    all_goals rw [hstep]
    · simp [RFNMTransmitter.queued]
    · exact hinside
    · exact fun _ hfalse => absurd hfalse Bool.noConfusion
    · exact fun hnew _ => hcall.waiting hnew hreturned ▸ hfail
  · refine ⟨new ++ [(t.erased + d.off, d.values lib)],
      h.push hframe ?_ ?_ (by omega) ?_ hvalues, ⟨by simp, by simp, fun _ => ?_⟩⟩
    · rw [hstep, ← herased]
      simp [RFNMTransmitter.queued, buffer]
    · rw [hstep, hchunk, hcount]
    · rw [hstep, hchunk]
      dsimp only
      omega
    · by_cases hnew : new = []
      · exact hcall.waiting hnew hreturned ▸ hok
      · exact hcall.queued hnew

theorem run_queuing (hlib : lib.Granular) (hstaged : t.txStage = t.converted.drop t.erased) :
    ∃ new, Queuing t (t.drain lib) new ∧ FirstCall lib t (t.drain lib) new := by
  obtain ⟨n, hrun, -, -, hall⟩ := run_trace hlib
    (fun d => ∃ new, Queuing t d new ∧ FirstCall lib t d new) (d := ⟨t, 0, false⟩)
    ⟨[], ⟨⟨rfl, rfl, rfl⟩, Nat.zero_le _, (List.append_nil _).symm, by simp, by simp,
      List.Pairwise.nil⟩, fun _ _ => rfl, fun _ h => absurd h Bool.noConfusion, by simp⟩
    fun d ⟨new, h, hcall⟩ hmore => h.step hlib hstaged hcall hmore
  rw [drain, hrun]
  exact hall n (Nat.le_refl n)

end

end Drain

/-! ## Whole runs -/

/-- Between two operations. -/
structure Sound (tx : RFNMTransmitter) : Prop where
  staged : tx.txStage = tx.converted.drop tx.erased
  erased_le : tx.erased ≤ tx.converted.length
  sent : SentOnce tx
  cleared : Cleared tx

variable {F : Type} [TxSample F] {tx : RFNMTransmitter} {block : List (ComplexT F)}

theorem stage_converted (tx : RFNMTransmitter) (block : List (ComplexT F)) :
    (tx.stage block).converted = tx.converted ++ convert block := by
  simp [converted, stage, Event.input]

theorem stage_queued (tx : RFNMTransmitter) (block : List (ComplexT F)) :
    (tx.stage block).queued = tx.queued := by
  simp [queued, stage]

theorem Sound.stage (h : Sound tx) (block : List (ComplexT F)) : Sound (tx.stage block) where
  staged := by
    rw [stage_converted, RFNMTransmitter.stage, h.staged]
    exact (List.drop_append_of_le_length h.erased_le).symm
  erased_le := by
    rw [stage_converted, List.length_append]
    exact Nat.le_trans h.erased_le (Nat.le_add_right _ _)
  sent := by
    refine ⟨fun c hc => ?_, by rw [stage_queued]; exact h.sent.increasing⟩
    rw [stage_queued] at hc
    have hcontent := h.sent.content c hc
    have hinside := h.cleared c hc
    have hle := h.erased_le
    have hroom : c.2.length ≤ (tx.converted.drop c.1).length := by
      rw [List.length_drop]
      omega
    rw [stage_converted, List.drop_append_of_le_length (by omega),
      List.take_append_of_le_length hroom]
    exact hcontent
  cleared := by
    intro c hc
    rw [stage_queued] at hc
    exact h.cleared c hc

theorem drain_returned_iff (hlib : lib.Granular) (tx : RFNMTransmitter)
    (block : List (ComplexT F)) :
    ((tx.stage block).drain lib).returned = true ↔
      ∃ j, j < buffers lib tx.dqbufs (turns lib (tx.txStage ++ convert block).length) ∧
        lib.tx_qbuf (tx.qbufs + j) = false :=
  Drain.run_returned_iff (d := ⟨tx.stage block, 0, false⟩) hlib rfl

/-- The chunks `new` were queued and the first `off` staged values erased. -/
theorem Sound.extend {t tx' : RFNMTransmitter} (h : Sound t) (new : List (Nat × List Int16))
    (off : Nat) (hconverted : tx'.converted = t.converted)
    (hqueued : tx'.queued = t.queued ++ new) (hstage : tx'.txStage = t.txStage.drop off)
    (herased : tx'.erased = t.erased + off) (hoff : off ≤ t.txStage.length)
    (hplaces : ∀ c ∈ new, t.erased ≤ c.1 ∧ c.1 + c.2.length ≤ t.erased + off)
    (hcontent : ∀ c ∈ new, c.2 = (t.converted.drop c.1).take c.2.length)
    (hincreasing : new.Pairwise fun c c' => c.1 + c.2.length ≤ c'.1) : Sound tx' where
  staged := by rw [hstage, h.staged, hconverted, herased, List.drop_drop]
  erased_le := by
    have hle := h.erased_le
    rw [h.staged, List.length_drop] at hoff
    rw [hconverted, herased]
    omega
  sent := by
    refine ⟨fun c hc => ?_, ?_⟩
    · rw [hconverted]
      rw [hqueued] at hc
      exact (List.mem_append.mp hc).elim (h.sent.content c) (hcontent c)
    · rw [hqueued, List.pairwise_append]
      refine ⟨h.sent.increasing, hincreasing, fun c hc c' hc' => ?_⟩
      exact Nat.le_trans (h.cleared c hc) (hplaces c' hc').1
  cleared := by
    intro c hc
    rw [hqueued] at hc
    rw [herased]
    rcases List.mem_append.mp hc with hc | hc
    · exact Nat.le_add_right_of_le (h.cleared c hc)
    · exact (hplaces c hc).2

/-- A block on whose buffers `tx_qbuf` fails at the first one or not at all. -/
theorem Sound.process (hlib : lib.Granular) (h : Sound tx) (hcond : FirstOrNone lib tx block) :
    Sound (tx.process lib block) := by
  have ht := h.stage block
  obtain ⟨new, hnew, hcall⟩ := Drain.run_queuing hlib ht.staged
  obtain ⟨hstage, herased, hconverted⟩ := hnew.frame
  cases hreturned : ((tx.stage block).drain lib).returned with
  | true =>
    have hnil : new = [] := by
      by_contra hne
      obtain ⟨j, hj, hfail⟩ := (drain_returned_iff hlib tx block).mp hreturned
      rcases hcond with hfirst | hnone
      · have hok : lib.tx_qbuf tx.qbufs = true := hcall.queued hne
        rw [hfirst] at hok
        cases hok
      · rw [hnone j hj] at hfail
        cases hfail
    rw [RFNMTransmitter.process, hreturned, if_pos rfl]
    exact ht.extend [] 0 hconverted (hnil ▸ hnew.queued) hstage herased
      (Nat.zero_le _) (by simp) (by simp) List.Pairwise.nil
  | false =>
    rw [RFNMTransmitter.process, hreturned, if_neg Bool.false_ne_true]
    exact ht.extend new _ hconverted hnew.queued (congrArg (List.drop _) hstage)
      (congrArg (· + _) herased) hnew.inside
      (fun c hc => ⟨(hnew.places c hc).1, (hnew.places c hc).2.2⟩) hnew.content hnew.increasing

/-- Otherwise a chunk that was queued stays staged. -/
theorem Sound.not_cleared (hlib : lib.Granular) (h : Sound tx)
    (hcond : ¬ FirstOrNone lib tx block) : ¬ Cleared (tx.process lib block) := by
  have ht := h.stage block
  obtain ⟨new, hnew, hcall⟩ := Drain.run_queuing hlib ht.staged
  rw [FirstOrNone, not_or, Bool.not_eq_false] at hcond
  obtain ⟨hfirst, hsome⟩ := hcond
  simp only [not_forall, Bool.not_eq_true] at hsome
  obtain ⟨j, hj, hfail⟩ := hsome
  have hreturned := (drain_returned_iff hlib tx block).mpr ⟨j, hj, hfail⟩
  have hne : new ≠ [] := fun hnil => by
    have hfailed : lib.tx_qbuf tx.qbufs = false := hcall.failed hnil hreturned
    rw [hfirst] at hfailed
    cases hfailed
  obtain ⟨c, hc⟩ := List.exists_mem_of_ne_nil new hne
  obtain ⟨hlow, hlength, -⟩ := hnew.places c hc
  intro hcleared
  rw [RFNMTransmitter.process, hreturned, if_pos rfl] at hcleared
  have hqueued : c ∈ ((tx.stage block).drain lib).tx.queued := by
    rw [hnew.queued]
    exact List.mem_append_right _ hc
  have hend : c.1 + c.2.length ≤ ((tx.stage block).drain lib).tx.erased := hcleared c hqueued
  rw [hnew.frame.2.1] at hend
  omega

/-- An operation is harmless when it is no read of the worker, or one as `FirstOrNone` says. -/
def Harmless (lib : Librfnm) (tx : RFNMTransmitter) : Op F → Prop
  | .read block => tx.working = true → block.length ≠ 0 → FirstOrNone lib tx block
  | _ => True

theorem Sound.step (hlib : lib.Granular) (h : Sound tx) (op : Op F) :
    (Harmless lib tx op → Sound (tx.step lib op)) ∧
      (¬ Harmless lib tx op → ¬ Cleared (tx.step lib op)) := by
  have hsame : ∀ tx', tx'.txStage = tx.txStage → tx'.erased = tx.erased → tx'.events = tx.events →
      Sound tx' := fun tx' hstage herased hevents => by
    have hconverted : tx'.converted = tx.converted := by rw [converted, converted, hevents]
    have hqueued : tx'.queued = tx.queued := by rw [queued, queued, hevents]
    exact h.extend [] 0 hconverted (by rw [hqueued, List.append_nil]) hstage
      herased (Nat.zero_le _) (by simp) (by simp) List.Pairwise.nil
  cases op with
  | start applied workStarted =>
    refine ⟨fun _ => ?_, fun hharm => absurd trivial hharm⟩
    apply hsame <;> simp only [RFNMTransmitter.step, start] <;> split_ifs <;> rfl
  | stop =>
    refine ⟨fun _ => ?_, fun hharm => absurd trivial hharm⟩
    apply hsame <;> simp only [RFNMTransmitter.step, stop] <;> split_ifs <;> rfl
  | read block =>
    simp only [RFNMTransmitter.step, Harmless]
    by_cases hidle : tx.working = false
    · rw [if_pos hidle]
      refine ⟨fun _ => h, fun hharm => ?_⟩
      simp [hidle] at hharm
    · rw [if_neg hidle]
      by_cases hempty : block.length = 0
      · rw [if_pos hempty]
        refine ⟨fun _ => hsame _ rfl rfl rfl, fun hharm => ?_⟩
        simp [hempty] at hharm
      · rw [if_neg hempty]
        refine ⟨fun hharm => h.process hlib (hharm (by simpa using hidle) hempty), fun hharm => ?_⟩
        simp only [Classical.not_imp] at hharm
        exact h.not_cleared hlib hharm.2.2

theorem run_snoc (lib : Librfnm) (tx : RFNMTransmitter) (ops : List (Op F)) (op : Op F) :
    tx.run lib (ops ++ [op]) = (tx.run lib ops).step lib op := by
  rw [run, List.foldl_append]
  rfl

theorem sound_init : Sound init :=
  ⟨rfl, Nat.le_refl _, ⟨fun _ hc => absurd hc List.not_mem_nil, List.Pairwise.nil⟩,
    fun _ hc => absurd hc List.not_mem_nil⟩

/-- Every converted value is queued at most once and in order, and none stays staged, in all
    states of a run iff on the buffers of every block `tx_qbuf` fails at the first one or not
    at all. -/
theorem sends_once_iff (lib : Librfnm) (hlib : lib.Granular) (ops : List (Op F)) :
    (∀ done, done <+: ops → SentOnce (init.run lib done) ∧ Cleared (init.run lib done)) ↔
      ∀ done block, done ++ [.read block] <+: ops → (init.run lib done).working = true →
        block.length ≠ 0 → FirstOrNone lib (init.run lib done) block := by
  have hstart : ∀ {done : List (Op F)} {op : Op F}, done ++ [op] <+: ops → done <+: ops :=
    fun {done op} hdone => (List.prefix_append done [op]).trans hdone
  constructor
  · intro hsent
    have hharmless : ∀ {done op}, done ++ [op] <+: ops → Sound (init.run lib done) →
        Harmless lib (init.run lib done) op := fun {done op} hdone h => by
      by_contra hharm
      have hstaged := (h.step hlib op).2 hharm
      rw [← run_snoc] at hstaged
      exact hstaged (hsent _ hdone).2
    have hsound : ∀ done, done <+: ops → Sound (init.run lib done) := by
      intro done hdone
      induction done using List.reverseRecOn with
      | nil => exact sound_init
      | append_singleton done op ih =>
        rw [run_snoc]
        have h := ih (hstart hdone)
        exact (h.step hlib op).1 (hharmless hdone h)
    exact fun done block hdone => hharmless hdone (hsound done (hstart hdone))
  · intro hcond done hdone
    have hsound : Sound (init.run lib done) := by
      induction done using List.reverseRecOn with
      | nil => exact sound_init
      | append_singleton done op ih =>
        rw [run_snoc]
        refine ((ih (hstart hdone)).step hlib op).1 ?_
        cases op with
        | read block => exact hcond done block hdone
        | start applied workStarted => trivial
        | stop => trivial
    exact ⟨hsound.sent, hsound.cleared⟩

/-- `tx_qbuf` always succeeds. -/
theorem sends_once_saturated :
    SentOnce (init.run saturated
        [.start true true, .read (List.replicate 1500 (⟨1, 0⟩ : ComplexT Rat)), .stop]) ∧
      Cleared (init.run saturated
        [.start true true, .read (List.replicate 1500 (⟨1, 0⟩ : ComplexT Rat)), .stop]) :=
  (sends_once_iff saturated ⟨by decide, by decide⟩ _).mpr
    (fun _ _ _ _ _ => Or.inr fun _ _ => rfl) _ List.prefix_rfl

/-- Packets of 256 samples; the second `tx_qbuf` fails. -/
def failing : Librfnm where
  RFNM_USB_TX_PACKET_ELEM_CNT := 256
  tx_dqbuf _ := (true, true)
  tx_qbuf i := i != 1

/-- The first chunk of a block is queued again after a restart. -/
theorem sends_twice :
    ¬ SentOnce (init.run failing
      [.start true true, .read (List.replicate 512 (⟨1, 0⟩ : ComplexT Rat)), .stop,
        .start true true, .read (List.replicate 256 (⟨1, 0⟩ : ComplexT Rat))]) := by
  intro h
  exact absurd h.increasing (by decide +kernel)

end

end RFNMTransmitter

end RyFi.Device
