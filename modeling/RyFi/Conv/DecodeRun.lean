import RyFi.Conv.Refinement

/-! # A whole decode

From `Fills` to the run: processing a filled slice keeps `Tracks` and `Remembers`, the
warmup establishes them, and after the flush the writer holds `decodedBits`.
-/

namespace RyFi.Conv

open CLoop ShiftTrellis

/-! ## The history buffer -/

namespace HistoryBuffer

variable {soft msg : Nat → UInt8} {sets n off : Nat} {buf : HistoryBuffer} {output : BitWriter}

/-- The ring and the output after `n` slices of the inner and the tail phase. -/
structure Remembers (soft : Nat → UInt8) (sets : Nat) (msg : Nat → UInt8) (n : Nat)
    (buf : HistoryBuffer) (output : BitWriter) : Prop where
  at_n : At buf n
  cap_eq : buf.cap = 140
  minTracebackLength_eq : buf.minTracebackLength = 35
  numStates_eq : buf.numStates = 64
  highbit_eq : buf.highbit = 64
  len_lt : buf.len < 140
  burst : (n - buf.len) % 105 = 0
  slices : ∀ u s, n - buf.len ≤ u → u < n → liveAt sets (u + 7) s →
    buf.ring u s = historyOf soft sets u s
  holds : BitWriter.Holds msg (decodedBits soft sets (n - buf.len)) output

theorem pathBits_ideal (soft : Nat → UInt8) {p first len : Nat} (hlast : first + len ≤ n)
    (hring : ∀ u s, first ≤ u → u < n → liveAt sets (u + 7) s →
      buf.ring u s = historyOf soft sets u s)
    (hp : liveAt sets (n + 6) p) :
    pathBits buf.ring 64 n p first len =
      (List.range len).map fun j =>
        ((trellis soft sets).best (n + 6) p).testBit (n + 6 - 1 - (first + j)) := by
  rw [pathBits_congr (fun t s => liveAt sets (t + 6) s) hlast hp ?_ hring]
  · refine List.map_congr_left fun j hj => ?_
    exact pathBit_historyOf hp.2.1 (by have := List.mem_range.mp hj; omega)
  · intro u s hs
    rw [back_eq hs.2.1]
    obtain ⟨hlow, hhigh⟩ := Convolutional.liveAt_pred (by omega) hs
    simp only [Trellis.reg]
    split
    · exact hhigh
    · exact hlow

theorem decodedBits_add (a b : Nat) :
    decodedBits soft sets (a + b) =
      decodedBits soft sets a ++ (List.range b).map fun j => decodedBit soft sets (a + j) := by
  rw [decodedBits, decodedBits, List.range_add, List.map_append, List.map_map]
  rfl

/-- The slots once slice `n` is stored: it is right, and the others are what they were. -/
theorem Remembers.ring_setSlice (h : Remembers soft sets msg n buf output) {slice : Nat → UInt8}
    (hslice : ∀ s, liveAt sets (n + 7) s → slice s = historyOf soft sets n s) (u s : Nat)
    (hu : n - buf.len ≤ u) (hlt : u < n + 1) (hlive : liveAt sets (u + 7) s) :
    (buf.setSlice slice).ring u s = historyOf soft sets u s := by
  have hcap := h.cap_eq
  have hlen := h.len_lt
  have hle := h.at_n.len_le
  rw [HistoryBuffer.ring_setSlice h.at_n slice (by omega) (by omega)]
  by_cases hnew : u = n
  · rw [if_pos hnew]
    exact hnew ▸ hslice s (hnew ▸ hlive)
  · rw [if_neg hnew]
    exact h.slices u s hu (by omega) hlive

/-- A burst writes the bits between the old and the new end of the output. -/
theorem Remembers.burstBits_eq (h : Remembers soft sets msg n buf output) (hsets : n + 7 ≤ sets)
    (neon : Bool) {slice : Nat → UInt8} {distances : Nat → UInt16}
    (hslice : ∀ s, liveAt sets (n + 7) s → slice s = historyOf soft sets n s)
    (hwinner : (buf.setSlice slice).search neon distances (skipAt sets (n + 7)) =
      winner ((trellis soft sets).metric (n + 7)) (skipAt sets (n + 7)))
    (hfull : buf.len + 1 = buf.cap) :
    (buf.setSlice slice).burstBits neon n distances (skipAt sets (n + 7)) =
      (List.range 105).map fun j => decodedBit soft sets (n - buf.len + j) := by
  have hcap := h.cap_eq
  have hburst := h.burst
  have hle := h.at_n.len_le
  have hwin := winner_isLeast ((trellis soft sets).metric (n + 7)) (skipAt sets (n + 7))
  have hpath := pathBits_ideal soft (show n - buf.len + 105 ≤ n + 1 by omega)
    (h.ring_setSlice hslice) ((Convolutional.liveAt_iff (by omega)).mpr ⟨hsets, hwin.1, hwin.2.1⟩)
  have hbits : (buf.setSlice slice).burstBits neon n distances (skipAt sets (n + 7)) =
      pathBits (buf.setSlice slice).ring buf.highbit (n + 1)
        ((buf.setSlice slice).search neon distances (skipAt sets (n + 7))) (n + 1 - buf.cap)
        (buf.cap - buf.minTracebackLength) := if_pos hfull
  have hfirst : n + 1 - buf.cap = n - buf.len := by omega
  have hcount : buf.cap - buf.minTracebackLength = 105 := by
    rw [hcap, h.minTracebackLength_eq]
  rw [hbits, hwinner, hfirst, hcount, h.highbit_eq, hpath]
  refine List.map_congr_left fun j hj => ?_
  have hj := List.mem_range.mp hj
  have htime : burstTime (n - buf.len + j) = n + 7 := by
    simp only [burstTime]
    omega
  simp only [decodedBit, htime]
  rw [if_pos hsets]

/-- Processing a slice whose entries are right. -/
theorem remembers_processSkip (h : Remembers soft sets msg n buf output) (hsets : n + 7 ≤ sets)
    (neon : Bool) {slice : Nat → UInt8} {distances : Nat → UInt16}
    (hslice : ∀ s, liveAt sets (n + 7) s → slice s = historyOf soft sets n s)
    (hwinner : (buf.setSlice slice).search neon distances (skipAt sets (n + 7)) =
      winner ((trellis soft sets).metric (n + 7)) (skipAt sets (n + 7))) :
    let r := (buf.setSlice slice).processSkip neon distances output (skipAt sets (n + 7))
    Remembers soft sets msg (n + 1) r.buf r.output := by
  intro r
  have hcap := h.cap_eq
  have hlen := h.len_lt
  have hburst := h.burst
  have hle := h.at_n.len_le
  have hat := at_setSlice h.at_n slice
  have hmin : buf.minTracebackLength ≤ buf.cap := by
    rw [h.minTracebackLength_eq, hcap]
    omega
  have hstep : Processes neon (buf.setSlice slice) n distances (skipAt sets (n + 7)) msg
      (decodedBits soft sets (n - buf.len)) r := processes_processSkip neon hat hmin h.holds _ _
  have hsizes := hstep.sameSizes
  have hout := hstep.output_holds
  have hlenNext : r.buf.len = if buf.len + 1 = 140 then 35 else buf.len + 1 := by
    rw [hstep.len_setSlice, hcap, h.minTracebackLength_eq]
  -- a full ring emits 105 bits and keeps the youngest 35 slices
  have hbits : BitWriter.Holds msg (decodedBits soft sets (n + 1 - r.buf.len)) r.output := by
    by_cases hfull : buf.len + 1 = 140
    · rw [hlenNext, if_pos hfull, show n + 1 - 35 = n - buf.len + 105 by omega, decodedBits_add,
        ← h.burstBits_eq hsets neon hslice hwinner (by omega)]
      exact hout
    · have hnone : (buf.setSlice slice).burstBits neon n distances (skipAt sets (n + 7)) = [] :=
        if_neg (show ¬ buf.len + 1 = buf.cap by omega)
      rw [hnone, List.append_nil] at hout
      rw [hlenNext, if_neg hfull, show n + 1 - (buf.len + 1) = n - buf.len by omega]
      exact hout
  refine ⟨hstep.at_succ hat hmin, ?_, ?_, ?_, ?_, ?_, ?_, ?_, hbits⟩
  · exact hsizes.cap_eq.trans hcap
  · exact hsizes.minTracebackLength_eq.trans h.minTracebackLength_eq
  · exact hsizes.numStates_eq.trans h.numStates_eq
  · exact hsizes.highbit_eq.trans h.highbit_eq
  · rw [hlenNext]
    split <;> omega
  · rw [hlenNext]
    split <;> omega
  · intro u s hu hlt hlive
    rw [hstep.ring_eq]
    rw [hlenNext] at hu
    refine h.ring_setSlice hslice u s ?_ hlt hlive
    split at hu <;> omega

/-- The flush writes the rest of the path into state 0. -/
theorem holds_flush (h : Remembers soft sets msg n buf output) (hsets : n + 6 = sets)
    (hlarge : 12 ≤ sets) :
    BitWriter.Holds msg (decodedBits soft sets (sets - 6)) (buf.flush output).2 := by
  have hlen := h.len_lt
  have hburst := h.burst
  have hle := h.at_n.len_le
  have hflush := (holds_traceback (p := 0) h.at_n (Nat.zero_le _) h.holds).2
  have hlive : liveAt sets (n + 6) 0 :=
    (Convolutional.liveAt_iff (by omega)).mpr ⟨by omega, by omega, Nat.dvd_zero _⟩
  rw [h.highbit_eq, pathBits_ideal soft (by omega) h.slices hlive] at hflush
  have hsplit : sets - 6 = n - buf.len + (buf.len - 0) := by omega
  rw [hsplit, decodedBits_add]
  have hbits : ((List.range (buf.len - 0)).map fun j => decodedBit soft sets (n - buf.len + j)) =
      (List.range (buf.len - 0)).map fun j =>
        ((trellis soft sets).best (n + 6) 0).testBit (n + 6 - 1 - (n - buf.len + j)) := by
    refine List.map_congr_left fun j hj => ?_
    have hj := List.mem_range.mp hj
    simp only [decodedBit]
    rw [if_neg (by simp only [burstTime]; omega), hsets]
  rw [hbits]
  exact hflush

end HistoryBuffer

/-! ## The slices of the inner and the tail phase -/

namespace Convolutional

variable {soft msg : Nat → UInt8} {sets n off : Nat} {conv : Convolutional}

/-- The decoder has processed `n` slices of the inner and the tail phase. -/
structure Decoding (soft : Nat → UInt8) (sets : Nat) (msg : Nat → UInt8) (n : Nat)
    (conv : Convolutional) : Prop where
  tracks : ∃ off, Tracks soft sets n off conv
  remembers : HistoryBuffer.Remembers soft sets msg n conv.historyBuffer conv.bitWriter

theorem liveAt_next {s : Nat} (hsets : n + 7 ≤ sets) (hs : s < 64)
    (hskip : skipAt sets (n + 7) ∣ s) : liveAt sets (n + 7) s :=
  (liveAt_iff (by omega)).mpr ⟨hsets, hs, hskip⟩

/-- The anchor before the slice is processed. -/
theorem anchor_filled (h : Tracks soft sets n off conv) :
    ∃ s < 64, (trellis soft sets).metric (n + 7) s ≤
      off + 1530 + 255 * (conv.historyBuffer.renormalizeCounter + 1) := by
  obtain ⟨s, hlive, hle⟩ := anchor_next h.anchor
  exact ⟨s, hlive.1, Nat.le_trans hle (by omega)⟩

theorem decoding_finishSlice (h : Tracks soft sets n off conv)
    (hr : HistoryBuffer.Remembers soft sets msg n conv.historyBuffer conv.bitWriter) {s : Slice}
    (hfills : Fills soft sets n off s) (hsets : n + 7 ≤ sets) (neon : Bool) :
    Decoding soft sets msg (n + 1) (conv.finishSlice neon s (skipAt sets (n + 7))) := by
  have hfollows := h.follows (show n + 6 ≤ sets by omega)
  have hclose : Close ((trellis soft sets).metric (n + 7)) := close_metric (by omega)
  have hmetric : ∀ state, state < 64 → skipAt sets (n + 7) ∣ state →
      (s.errors state).toNat + off = (trellis soft sets).metric (n + 7) state :=
    fun state hs hdvd => (hfills state (liveAt_next hsets hs hdvd)).1
  have hwinner : (conv.historyBuffer.setSlice s.history).search neon s.errors
      (skipAt sets (n + 7)) =
      winner ((trellis soft sets).metric (n + 7)) (skipAt sets (n + 7)) := by
    refine HistoryBuffer.search_eq_winner off ?_ neon (Nat.two_pow_pos _) ?_
    · exact h.ofCode.numStates_eq
    · intro state hs hdvd
      have heq := hmetric state hs hdvd
      exact ⟨heq, hfollows.filled_lt (by omega) hclose (anchor_filled h) hs heq⟩
  exact ⟨⟨_, tracks_of_follows (hfollows.finish (by omega) hclose (anchor_filled h) neon
      (Nat.two_pow_pos _) hmetric)⟩,
    HistoryBuffer.remembers_processSkip hr hsets neon
      (fun state hlive => (hfills state hlive).2) hwinner⟩

theorem tracks_fillDistances (h : Tracks soft sets n off conv) (t : Nat) :
    Tracks soft sets n off (conv.fillDistances (some soft) t) :=
  ⟨(config_fillDistances (some soft) t conv).trans h.ofCode, h.settled, h.counter_lt, h.anchor,
    h.metrics⟩

theorem decoding_innerSlice (h : Decoding soft sets msg n conv) (hinner : n + 6 < sets - 6)
    (neon : Bool) : Decoding soft sets msg (n + 1) (conv.innerSlice neon (some soft) (n + 6)) := by
  obtain ⟨off, htracks⟩ := h.tracks
  have hfilled := tracks_fillDistances htracks (n + 6)
  have hdist := fun x hx => fillDistances_toNat (x := x) htracks.ofCode soft (n + 6) hx
  have hone : skipAt sets (n + 7) = 1 := by
    rw [skipAt, show n + 7 - (sets - 6) = 0 by omega, Nat.pow_zero]
  have hremembers : HistoryBuffer.Remembers soft sets msg n
      (conv.fillDistances (some soft) (n + 6)).historyBuffer
      (conv.fillDistances (some soft) (n + 6)).bitWriter := h.remembers
  simp only [innerSlice, htracks.ofCode.order_eq]
  generalize conv.fillDistances (some soft) (n + 6) = c at hfilled hdist hremembers ⊢
  have hpaired : Tracks soft sets n off
      { c with pairLookup := c.pairLookup.fillDistance c.distances } :=
    ⟨hfilled.ofCode, hfilled.settled, hfilled.counter_lt, hfilled.anchor, hfilled.metrics⟩
  have hfills := acs_fills hpaired hinner neon hfilled.ofCode.pairs_for hdist c.currentSlice
  have hfinish := decoding_finishSlice hpaired hremembers hfills (by omega) neon
  rw [hone] at hfinish
  exact hfinish

theorem decoding_tailSlice (h : Decoding soft sets msg n conv) (htail : sets - 6 ≤ n + 6)
    (hlast : n + 6 < sets) (neon : Bool) :
    Decoding soft sets msg (n + 1) (conv.tailSlice neon sets (some soft) (n + 6)) := by
  obtain ⟨off, htracks⟩ := h.tracks
  have hfilled := tracks_fillDistances htracks (n + 6)
  have hdist := fun x hx => fillDistances_toNat (x := x) htracks.ofCode soft (n + 6) hx
  have hskip : 1 <<< (7 - (sets - (n + 6))) = skipAt sets (n + 7) := by
    rw [skipAt, Nat.one_shiftLeft]
    congr 1
    omega
  have hremembers : HistoryBuffer.Remembers soft sets msg n
      (conv.fillDistances (some soft) (n + 6)).historyBuffer
      (conv.fillDistances (some soft) (n + 6)).bitWriter := h.remembers
  simp only [tailSlice, htracks.ofCode.order_eq]
  generalize conv.fillDistances (some soft) (n + 6) = c at hfilled hdist hremembers ⊢
  have hfills := tailAcs_fills hfilled htail hdist c.currentSlice
  rw [hfilled.ofCode.table_eq, hfilled.ofCode.order_eq, hskip]
  exact decoding_finishSlice hfilled hremembers hfills (by omega) neon

/-- The phases after the warmup write the message the ideal decoder finds. -/
theorem decodePhases_holds (h : Decoding soft sets msg 0 conv) (hlarge : 12 ≤ sets)
    (hsets : sets < 2 ^ 32) (neon : Bool) :
    BitWriter.Holds msg (decodedBits soft sets (sets - 6))
      (conv.decodePhases neon sets (some soft)).bitWriter := by
  obtain ⟨off, htracks⟩ := h.tracks
  have horder := htracks.ofCode.order_eq
  have hend : innerEnd sets 7 = sets - 6 := (innerEnd_eq (by omega) (by omega) hsets).trans rfl
  have hinner := @forLoop_induct _ 6 (sets - 6) (innerSlice neon (some soft)) conv
    (fun i c => Decoding soft sets msg (i - 6) c) (by omega) h (by
      intro i c hlo hhi hc
      have hnext := decoding_innerSlice hc (by omega) neon
      rw [show i - 6 + 6 = i by omega, show i - 6 + 1 = i + 1 - 6 by omega] at hnext
      exact hnext)
  unfold decodePhases
  simp only [horder, hend]
  generalize forLoop (7 - 1) (sets - 6) (innerSlice neon (some soft)) conv = c at hinner ⊢
  obtain ⟨off', htracks'⟩ := hinner.tracks
  have htail := @forLoop_induct _ (sets - 6) sets (tailSlice neon sets (some soft)) c
    (fun i c => Decoding soft sets msg (i - 6) c) (by omega) hinner (by
      intro i c hlo hhi hc
      have hnext := decoding_tailSlice hc (by omega) (by omega) neon
      rw [show i - 6 + 6 = i by omega, show i - 6 + 1 = i + 1 - 6 by omega] at hnext
      exact hnext)
  simp only [htracks'.ofCode.order_eq, hend, Nat.mod_eq_of_lt (show sets - 6 < 2 ^ 32 by omega)]
  exact HistoryBuffer.holds_flush htail.remembers (by omega) hlarge

/-! ## The warmup -/

/-- The decoder after `i` slices of the warmup.  What the first of them wrote is not read. -/
structure Warming (soft : Nat → UInt8) (sets i : Nat) (start conv : Convolutional) : Prop where
  ofCode : OfCode conv
  historyBuffer_eq : conv.historyBuffer = start.historyBuffer
  bitWriter_eq : conv.bitWriter = start.bitWriter
  untouched : i = 0 → conv.errors = start.errors
  settled : 0 < i → conv.errors.write = conv.errors.index
  metrics : 0 < i → ∀ s, s < 2 ^ i →
    (conv.errors.readErrors s).toNat = (trellis soft sets).metric i s

/-- The metrics that `error_buffer_reset` leaves. -/
structure Cleared (errors : ErrorBuffer) : Prop where
  index_eq : errors.index = 0
  write_eq : errors.write = 1
  zero : ∀ s, s < 2 → errors.errors 0 s = 0

theorem metric_early_le (soft : Nat → UInt8) (sets : Nat) {t s : Nat} (ht : t ≤ 6)
    (hs : s < 2 ^ t) :
    (trellis soft sets).metric t s ≤ 3060 := by
  have hpow : 2 ^ t ≤ 2 ^ 6 := Nat.pow_le_pow_right (by omega) ht
  have hle := Trellis.metric_le (T := trellis soft sets) hs
  have hpath := Trellis.pathCost_le_begin (T := trellis soft sets) cost_le 0 t s
  rw [trellis_memory, Nat.mod_eq_of_lt (by omega)] at hle
  rw [Nat.zero_add, Trellis.pathCost] at hpath
  omega

theorem metric_early {t s : Nat} (ht : t < 6) :
    (trellis soft sets).metric (t + 1) s = (trellis soft sets).arrive t s := by
  rw [Trellis.metric_succ_eq, Trellis.high_early (T := trellis soft sets) ht]
  rfl

theorem warming_warmupSlice {i : Nat} {start : Convolutional} (hi : i < 6)
    (hclear : Cleared start.errors) (h : Warming soft sets i start conv) :
    Warming soft sets (i + 1) start (conv.warmupSlice (some soft) i) := by
  have hof : OfCode (conv.warmupSlice (some soft) i) :=
    (config_warmupSlice (some soft) i conv).trans h.ofCode
  by_cases hfirst : i = 0
  · -- the pointers still name different arrays: the zeros of the reset are read
    have herrors := h.untouched hfirst
    subst hfirst
    refine ⟨hof, h.historyBuffer_eq, h.bitWriter_eq, fun hzero => absurd hzero (by omega),
      fun _ => rfl, fun _ s hs => ?_⟩
    rw [metric_early (by omega)]
    have hread :
        (conv.warmupSlice (some soft) 0).errors.readErrors s = start.errors.errors 0 s := by
      simp only [warmupSlice, ErrorBuffer.swap, ErrorBuffer.setWriteErrors, ErrorBuffer.readErrors,
        herrors, hclear.index_eq, hclear.write_eq]
      rw [Function.update_of_ne (by omega)]
    rw [hread, hclear.zero s (by simpa using hs)]
    rfl
  · have hsettled := h.settled (by omega)
    have hmetrics := h.metrics (by omega)
    refine ⟨hof, h.historyBuffer_eq, h.bitWriter_eq, fun hzero => absurd hzero (by omega),
      fun _ => rfl, fun _ s hs => ?_⟩
    have hhalf : s / 2 < 2 ^ i := by
      rw [Nat.pow_succ] at hs
      omega
    simp only [warmupSlice]
    rw [(ErrorBuffer.swap_settled hsettled _).1, forLoop_update, Nat.one_shiftLeft,
      if_pos ⟨Nat.zero_le _, hs⟩, Nat.shiftRight_eq_div_pow, Nat.pow_one, UInt16.toNat_add,
      hmetrics _ hhalf, softDistance_toNat h.ofCode, h.ofCode.table_eq, metric_early hi]
    have hle := metric_early_le soft sets (show i ≤ 6 by omega) hhalf
    have hcost := sliceCost_le soft i (codeTable s)
    rw [Nat.mod_eq_of_lt (by omega)]
    simp only [Trellis.arrive, trellis, if_neg hfirst]

theorem anchor_early (soft : Nat → UInt8) (sets t : Nat) :
    ∃ s, (trellis soft sets).Live t s ∧ (trellis soft sets).metric t s ≤ 0 + t * 255 := by
  induction t with
  | zero => exact ⟨0, ⟨by simp, by simp⟩, by simp [Trellis.metric]⟩
  | succ t ih =>
    rw [Nat.succ_mul]
    exact anchor_next ih

/-- After the warmup the inner phase can begin. -/
theorem decoding_warmup (soft : Nat → UInt8) (hof : OfCode conv) (hclear : Cleared conv.errors)
    (hcounter : conv.historyBuffer.renormalizeCounter < 128)
    (hindex : conv.historyBuffer.index = 0) (hlen : conv.historyBuffer.len = 0)
    (hholds : BitWriter.Holds msg [] conv.bitWriter) (hlarge : 12 ≤ sets) :
    Decoding soft sets msg 0 (conv.warmup sets (some soft)) := by
  have hwarm : Warming soft sets 6 conv (conv.warmup sets (some soft)) := by
    rw [warmup, hof.order_eq, show min (7 - 1) sets = 6 by omega]
    refine forLoop_induct (fun i c => Warming soft sets i conv c) (Nat.zero_le _) ?_ ?_
    · exact ⟨hof, rfl, rfl, fun _ => rfl, fun h => absurd h (by omega),
        fun h => absurd h (by omega)⟩
    · exact fun i c _ hi hc => warming_warmupSlice hi hclear hc
  obtain ⟨hof', hhistory, hwriter, -, hsettled, hmetrics⟩ := hwarm
  generalize conv.warmup sets (some soft) = c at *
  refine ⟨⟨0, hof', hsettled (by omega), ?_, ?_, ?_⟩, ?_⟩
  · rw [hhistory]
    exact hcounter
  · obtain ⟨s, hlive, hle⟩ := anchor_early soft sets 6
    exact ⟨s, hlive, Nat.le_trans hle (by omega)⟩
  · intro s hs
    exact hmetrics (by omega) s hs.2.2.1
  · rw [hhistory, hwriter]
    refine ⟨⟨?_, ?_, ?_⟩, hof.cap_eq, hof.minTracebackLength_eq, hof.numStates_eq, hof.highbit_eq,
      ?_, ?_, ?_, ?_⟩
    · rw [hof.cap_eq]
      omega
    · rw [hindex, Nat.zero_mod]
    · omega
    · omega
    · omega
    · exact fun u s _ hu => absurd hu (Nat.not_lt_zero u)
    · rw [hlen]
      exact hholds

end Convolutional

end RyFi.Conv
