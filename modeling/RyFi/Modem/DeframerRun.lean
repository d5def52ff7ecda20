import RyFi.Modem.Stages

/-! # The deframer on blocks

`Deframer::run` stops at each block it completes and goes on behind it once the block is handed
over, with whatever is in the buffer it got in exchange.  `scan_eq_none` and `scan_eq_some` say
what one stretch of the loop does; over a whole run of the machine the blocks are those of the
plain deframer on the samples in a row, however they were cut (`machine_run`).
-/

namespace RyFi.Modem

open CLoop ShiftRegister BlockMachine

/-- The samples of a buffer from `next` up to `stop`. -/
def segment {T : Type} (buf : Nat → T) (next stop : Nat) : List T :=
  (List.range' next (stop - next)).map buf

section

variable {T : Type} {buf : Nat → T} {next mid stop : Nat}

theorem segment_zero (buf : Nat → T) (count : Nat) : segment buf 0 count = block buf count := by
  rw [segment, block, List.range_eq_range', Nat.sub_zero]

theorem segment_self (buf : Nat → T) (next : Nat) : segment buf next next = [] := by
  rw [segment, Nat.sub_self]
  rfl

theorem segment_append (h : next ≤ mid) (h' : mid ≤ stop) :
    segment buf next mid ++ segment buf mid stop = segment buf next stop := by
  have hmid : next + (mid - next) = mid := by omega
  have hrange := @List.range'_append_1 next (mid - next) (stop - mid)
  rw [hmid, show mid - next + (stop - mid) = stop - next by omega] at hrange
  rw [segment, segment, segment, ← List.map_append, hrange]

theorem segment_cons (h : next < stop) :
    segment buf next stop = buf next :: segment buf (next + 1) stop := by
  rw [segment, segment, show stop - next = (stop - (next + 1)) + 1 by omega, List.range'_succ,
    List.map_cons]

end

namespace Deframer

variable {F : Type} [SampleType F] {d d' : Deframer F} {input : Nat → ComplexT F}

theorem run_cons (d : Deframer F) (sym : ComplexT F) (rest : List (ComplexT F)) :
    d.run (sym :: rest) =
      (((d.step sym).1.run rest).1, (d.step sym).2.toList ++ ((d.step sym).1.run rest).2) := by
  rw [← List.singleton_append, run_append, ← List.nil_append [sym], run_snoc]
  rfl

/-- A step that completes a block leaves it in the read buffer, and the deframer hunting. -/
theorem step_completes {sym : ComplexT F} {symbols : List (ComplexT F)}
    (h : (d.step sym).2 = some symbols) :
    (d.step sym).1.recv = 0 ∧ symbols = block (d.step sym).1.readBuf symbols.length := by
  by_cases hrecv : d.recv = 0
  · simp only [step, ne_eq, hrecv, not_true_eq_false, if_false] at h
    cases h
  · by_cases hdone : d.recv - 1 = 0
    · simp only [step, ne_eq, hrecv, not_false_eq_true, if_true, hdone] at h ⊢
      cases h
      refine ⟨trivial, ?_⟩
      rw [List.length_map, List.length_range, block]
    · simp only [step, ne_eq, hrecv, not_false_eq_true, if_true, hdone, if_false] at h
      cases h

/-- A stretch of the loop that completes no block. -/
theorem scan_eq_none {fuel next : Nat} (h : d.scan input fuel next = (d', none)) :
    d.run (segment input next (next + fuel)) = (d', []) := by
  induction fuel generalizing d next with
  | zero =>
    obtain ⟨rfl, -⟩ := Prod.mk.inj h
    rw [Nat.add_zero, segment_self, run_nil]
  | succ fuel ih =>
    unfold scan at h
    split at h
    · cases h
    next d₁ hstep =>
      rw [show next + (fuel + 1) = next + 1 + fuel by omega, segment_cons (by omega), run_cons,
        hstep, ih h]
      rfl

/-- A stretch of the loop that ends with a block. -/
theorem scan_eq_some {fuel next size next' : Nat}
    (h : d.scan input fuel next = (d', some (size, next'))) :
    next < next' ∧ next' ≤ next + fuel ∧ d'.recv = 0 ∧
      d.run (segment input next next') = (d', [block d'.readBuf size]) := by
  induction fuel generalizing d next with
  | zero => cases h
  | succ fuel ih =>
    unfold scan at h
    split at h
    next d₁ symbols hstep =>
      cases h
      obtain ⟨hrecv, hblock⟩ := step_completes (congrArg Prod.snd hstep)
      rw [hstep] at hrecv hblock
      refine ⟨Nat.lt_succ_self next, by omega, hrecv, ?_⟩
      rw [segment_cons (Nat.lt_succ_self next), segment_self, run_cons, hstep, run_nil]
      exact congrArg (Prod.mk d' [·]) hblock
    next d₁ hstep =>
      obtain ⟨hlt, hle, hrecv, hrun⟩ := ih h
      refine ⟨by omega, by omega, hrecv, ?_⟩
      rw [segment_cons (by omega), run_cons, hstep, hrun]
      rfl

/-! ## Runs of the machine -/

variable {register : BitVec 64} {count next : Nat} {buf buf' output output' : Nat → ComplexT F}

theorem machine_emit {size next' : Nat}
    (h : (machine F register).process count next ⟨d, buf, output⟩ ⟨d', buf', output'⟩
      (.emit size next')) :
    next < next' ∧ next' ≤ count ∧ buf' = buf ∧ d'.recv = 0 ∧
      { d with writeBuf := output }.run (segment buf next next') = (d', [block output' size]) := by
  simp only [machine] at h
  split at h
  next size' stop hscan =>
    obtain ⟨hwork, houtcome⟩ := h
    cases houtcome
    obtain ⟨rfl, rfl, rfl⟩ := Work.mk.inj hwork
    obtain ⟨hlt, hle, hrecv, hrun⟩ := scan_eq_some (Prod.ext rfl hscan)
    exact ⟨hlt, by omega, rfl, hrecv, hrun⟩
  next => cases h.2

theorem machine_done {last : Option Nat} (hle : next ≤ count)
    (h : (machine F register).process count next ⟨d, buf, output⟩ ⟨d', buf', output'⟩
      (.done last)) :
    last = none ∧ buf' = buf ∧ output' = d'.writeBuf ∧
      { d with writeBuf := output }.run (segment buf next count) = (d', []) := by
  simp only [machine] at h
  split at h
  next => cases h.2
  next hscan =>
    obtain ⟨hwork, houtcome⟩ := h
    cases houtcome
    obtain ⟨rfl, rfl, rfl⟩ := Work.mk.inj hwork
    have hrun := scan_eq_none (Prod.ext rfl hscan)
    rw [show next + (count - next) = count by omega] at hrun
    exact ⟨rfl, rfl, rfl, hrun⟩

theorem machine_returns (count next : Nat)
    (w : Work (machine F register).State (ComplexT F) (ComplexT F)) :
    ∃ w' outcome, (machine F register).process count next w w' outcome := by
  simp only [machine]
  split
  · exact ⟨_, _, rfl, rfl⟩
  · exact ⟨_, _, rfl, rfl⟩

/-- A deframer that started as `start` is now `d`: of what was taken it has gone over `consumed`
    and still has `unread`, and has sent its blocks but for the lost ones. -/
structure Deframed (start : Deframer F) (taken sent : List (List (ComplexT F))) (lost : Nat)
    (d : Deframer F) (unread consumed : List (ComplexT F)) : Prop where
  consumed_le : (consumed ++ unread).Sublist taken.flatten
  consumed_eq : lost = 0 → consumed ++ unread = taken.flatten
  agree : Agree d (start.run consumed).1
  sent_le : sent.Sublist (start.run consumed).2
  sent_length : sent.length + lost = (start.run consumed).2.length

theorem Agree.run_state (h : Agree d d') (input : List (ComplexT F)) :
    Agree (d.run input).1 (d'.run input).1 := by
  induction input using List.reverseRecOn with
  | nil => exact h
  | append_singleton input sym ih =>
    rw [run_snoc, run_snoc]
    exact (ih.step sym).2

omit [SampleType F] in
/-- A deframer that hunts does not read its write buffer. -/
theorem Agree.of_hunting (h : Agree d d') (hrecv : d.recv = 0) (writeBuf : Nat → ComplexT F) :
    Agree { d with writeBuf := writeBuf } d' where
  recv := h.recv
  knownRot := h.knownRot
  shift := h.shift
  outCount hne := absurd hrecv hne
  symRot hne := absurd hrecv hne
  written hne := absurd hrecv hne

namespace Deframed

variable {start : Deframer F} {taken sent : List (List (ComplexT F))} {lost : Nat}
  {unread consumed seg : List (ComplexT F)} {symbols : List (ComplexT F)}

theorem take (h : Deframed start taken sent lost d [] consumed) (symbols : List (ComplexT F)) :
    Deframed start (taken ++ [symbols]) sent lost d symbols consumed where
  consumed_le := by
    rw [List.flatten_append, List.flatten_singleton]
    exact (List.append_nil consumed ▸ h.consumed_le).append_right symbols
  consumed_eq hlost := by
    rw [List.flatten_append, List.flatten_singleton, ← h.consumed_eq hlost, List.append_nil]
  agree := h.agree
  sent_le := h.sent_le
  sent_length := h.sent_length

theorem advance (h : Deframed start taken sent lost d unread consumed)
    {blocks : List (List (ComplexT F))} (hrun : d.run seg = (d', blocks)) :
    Agree d' (start.run (consumed ++ seg)).1 ∧
      (start.run (consumed ++ seg)).2 = (start.run consumed).2 ++ blocks := by
  have hstate := h.agree.run_state seg
  have hblocks := h.agree.run seg
  rw [hrun] at hstate hblocks
  rw [run_append]
  exact ⟨hstate, congrArg _ hblocks.symm⟩

theorem emit (h : Deframed start taken sent lost d (seg ++ unread) consumed)
    (hrun : d.run seg = (d', [symbols])) :
    Deframed start taken (sent ++ [symbols]) lost d' unread (consumed ++ seg) := by
  obtain ⟨hagree, hblocks⟩ := h.advance hrun
  refine ⟨?_, fun hlost => ?_, hagree, ?_, ?_⟩
  · rw [List.append_assoc]
    exact h.consumed_le
  · rw [List.append_assoc]
    exact h.consumed_eq hlost
  · rw [hblocks]
    exact h.sent_le.append_right [symbols]
  · rw [hblocks, List.length_append, List.length_append, ← h.sent_length]
    exact Nat.add_right_comm _ _ _

theorem emitLost (h : Deframed start taken sent lost d (seg ++ unread) consumed)
    (hrun : d.run seg = (d', [symbols])) :
    Deframed start taken sent (lost + 1) d' [] (consumed ++ seg) := by
  obtain ⟨hagree, hblocks⟩ := h.advance hrun
  refine ⟨?_, fun hlost => absurd hlost (Nat.succ_ne_zero lost), hagree, ?_, ?_⟩
  · rw [List.append_nil]
    refine List.Sublist.trans ?_ h.consumed_le
    rw [← List.append_assoc]
    exact List.sublist_append_left _ _
  · rw [hblocks]
    exact h.sent_le.trans (List.sublist_append_left _ _)
  · rw [hblocks, List.length_append, ← h.sent_length]
    exact (Nat.add_assoc _ _ _).symm

theorem done (h : Deframed start taken sent lost d seg consumed) (hrun : d.run seg = (d', [])) :
    Deframed start taken sent lost d' [] (consumed ++ seg) := by
  obtain ⟨hagree, hblocks⟩ := h.advance hrun
  rw [List.append_nil] at hblocks
  exact ⟨(List.append_nil _).symm ▸ h.consumed_le, fun hlost =>
    (List.append_nil _).trans (h.consumed_eq hlost), hagree, hblocks ▸ h.sent_le,
    hblocks ▸ h.sent_length⟩

theorem exchange (h : Deframed start taken sent lost d unread consumed) (hrecv : d.recv = 0)
    (writeBuf : Nat → ComplexT F) :
    Deframed start taken sent lost { d with writeBuf := writeBuf } unread consumed :=
  { h with agree := h.agree.of_hunting hrecv writeBuf }

end Deframed

/-- What follows the read position in the block that is held. -/
def unread {M : Machine (ComplexT F) (ComplexT F)} (c : M.Config) : List (ComplexT F) :=
  match c.held with
  | none => []
  | some h => segment h.buf h.next h.count

/-- The blocks a deframer thread sends are those of the deframer on the samples in a row,
    without what it was stopped at. -/
theorem machine_run {taken sent : List (List (ComplexT F))} {lost : Nat}
    {config : (machine F register).Config}
    (hrun : (machine F register).Run taken sent lost config) :
    (∀ h, config.held = some h → h.next ≤ h.count) ∧ ∃ symRot writeBuf readBuf consumed,
      Deframed (init symRot register writeBuf readBuf) taken sent lost
        { config.state with writeBuf := config.output } (unread config) consumed := by
  induction hrun with
  | start starts output =>
    obtain ⟨symRot, writeBuf, readBuf, rfl⟩ := starts
    refine ⟨nofun, symRot, output, readBuf, [], .slnil, fun _ => rfl, ?_, .slnil, rfl⟩
    exact ⟨rfl, rfl, rfl, fun _ => rfl, fun _ => rfl, fun _ _ _ => rfl⟩
  | take run buf count ih =>
    obtain ⟨-, symRot, writeBuf, readBuf, consumed, h⟩ := ih
    refine ⟨?_, symRot, writeBuf, readBuf, consumed, ?_⟩
    · rintro _ ⟨⟩
      exact Nat.zero_le count
    · have hunread := h.take (block buf count)
      rw [← segment_zero] at hunread ⊢
      exact hunread
  | @emit _ _ _ state output buf count next state' buf' output' size next' run call output'' ih =>
    obtain ⟨-, symRot, writeBuf, readBuf, consumed, h⟩ := ih
    obtain ⟨hlt, hle, rfl, hrecv, hblock⟩ := machine_emit call
    simp only [unread] at h
    rw [← segment_append hlt.le hle] at h
    refine ⟨?_, symRot, writeBuf, readBuf, _, (h.emit hblock).exchange hrecv output''⟩
    rintro _ ⟨⟩
    exact hle
  | @emitLost _ _ _ state output buf count next state' buf' output' size next' run call ih =>
    obtain ⟨-, symRot, writeBuf, readBuf, consumed, h⟩ := ih
    obtain ⟨hlt, hle, rfl, hrecv, hblock⟩ := machine_emit call
    simp only [unread] at h
    rw [← segment_append hlt.le hle] at h
    exact ⟨nofun, symRot, writeBuf, readBuf, _, (h.emitLost hblock).exchange hrecv output'⟩
  | done run call ih =>
    obtain ⟨hposition, symRot, writeBuf, readBuf, consumed, h⟩ := ih
    obtain ⟨-, rfl, rfl, hquiet⟩ := machine_done (hposition _ rfl) call
    exact ⟨nofun, symRot, writeBuf, readBuf, _, h.done hquiet⟩
  | last run call output ih =>
    obtain ⟨hlast, -⟩ := machine_done (ih.1 _ rfl) call
    cases hlast
  | lastLost run call ih =>
    obtain ⟨hlast, -⟩ := machine_done (ih.1 _ rfl) call
    cases hlast

/-! ## Frames of an ideal channel -/

section

variable (hexact : ExactSamples F) {rot : Nat} (hrot : rot < 4)
  (hregister : ¬ Premature register ((Framer.syncSyms : List (ComplexT F)).map (rotateBy rot)))
  {taken sent : List (List (ComplexT F))} {config : (machine F register).Config}
  {bits : List (List UInt8)}

include hexact hrot hregister

/-- What a deframer makes of the frames of the channel, if its register does not lock early. -/
theorem run_frames (symRot : ComplexT F) (writeBuf readBuf : Nat → ComplexT F)
    (bits : List (List UInt8)) :
    ((init symRot register writeBuf readBuf).run
      ((bits.flatMap fun b => Framer.syncSyms ++ bitSyms b).map (rotateBy rot))).2 =
      bits.map bitSyms := by
  have hrun := run_ideal hexact hrot (d := init symRot register writeBuf readBuf) rfl hregister
    (bits.map fun b j => b.getD j 0)
  rw [List.flatMap_map, List.map_map] at hrun
  have hsymbols : ∀ b ∈ bits, (idealFrame hexact hrot fun j => b.getD j 0).symbols =
      (Framer.syncSyms ++ bitSyms b : List (ComplexT F)).map (rotateBy rot) := fun b _ => by
    rw [idealFrame_symbols, Framer.encode, Nat.mul_div_cancel_left FRAME_SYMS (show 0 < 2 by omega),
      bitSyms, dataSyms]
  rw [List.map_flatMap, ← List.flatMap_congr hsymbols, hrun]
  refine List.map_congr_left fun b _ => ?_
  rw [Function.comp_apply, idealFrame_block, bitSyms, dataSyms]

/-- A thread that is not stopped sends the blocks of the frames. -/
theorem segments_initial (hrun : (machine F register).Run taken sent 0 config)
    (hcarried : taken.flatten <+: (bits.flatMap fun b => Framer.syncSyms ++ bitSyms b).map
      (rotateBy rot)) :
    sent <+: bits.map bitSyms := by
  obtain ⟨-, symRot, writeBuf, readBuf, consumed, h⟩ := machine_run hrun
  rw [h.sent_le.eq_of_length h.sent_length,
    ← run_frames hexact hrot hregister symRot writeBuf readBuf bits]
  have hconsumed := h.consumed_eq rfl
  rw [← hconsumed] at hcarried
  obtain ⟨rest, hrest⟩ := (List.prefix_append consumed _).trans hcarried
  rw [← hrest, run_append]
  exact List.prefix_append _ _

theorem segments_all (hrun : (machine F register).Run taken sent 0 config)
    (hheld : config.held = none)
    (hcarried : taken.flatten = (bits.flatMap fun b => Framer.syncSyms ++ bitSyms b).map
      (rotateBy rot)) :
    sent = bits.map bitSyms := by
  obtain ⟨-, symRot, writeBuf, readBuf, consumed, h⟩ := machine_run hrun
  have hconsumed := h.consumed_eq rfl
  rw [unread, hheld, List.append_nil, hcarried] at hconsumed
  rw [h.sent_le.eq_of_length h.sent_length, hconsumed, run_frames hexact hrot hregister]

end

end Deframer

end RyFi.Modem
