import RyFi.Conv.UsedInstance

/-! # The slices of a decode, one by one

The phases of `_convolutional_decode` cut open: the instance after every slice, what was
subtracted up to it, and the integers its metrics stand for.  `sets` is the count the phases
see.  With fewer than six the inner loop does not end and its counter wraps; with fewer than
twelve there is no inner slice and the tail goes back to slices the warmup has used.
-/

namespace RyFi.Conv

open CLoop ShiftTrellis

/-! ## Integers -/

/-- The slice that is used after the warmup and `n` more. -/
def sliceIndex (sets n : Nat) : Nat :=
  if sets < 6 then (6 + n) % 2 ^ 32 else min 6 (sets - 6) + n

/-- The metrics after `i` slices of the warmup, as integers.  What the first slice writes is
    not read: the next one finds the zeros of the reset. -/
def warmMetric (soft : Nat → UInt8) : Nat → Nat → Nat
  | 0, _ => 0
  | 1, _ => 0
  | i + 2, s =>
    if s < 2 ^ (i + 2) then sliceCost soft (i + 1) (codeTable s) + warmMetric soft (i + 1) (s / 2)
    else 0

/-- The cost of a register in the slice that is used next. -/
def nextCost (soft : Nat → UInt8) (sets n reg : Nat) : Nat :=
  sliceCost soft (sliceIndex sets n) (codeTable reg)

/-- What of it is read later: with no set at all the first slice is one of the inner phase. -/
def readCost (soft : Nat → UInt8) (sets n reg : Nat) : Nat :=
  if sets = 0 ∧ n = 0 then 0 else nextCost soft sets n reg

/-- The metrics after the warmup and `n` more slices, as integers that are never reduced. -/
def trueMetric (soft : Nat → UInt8) (sets : Nat) : Nat → Nat → Nat :=
  relaxed 6 (readCost soft sets) (warmMetric soft (min 6 sets))

/-- The sum a register contributes to the metrics that are written next. -/
def trueArrive (soft : Nat → UInt8) (sets n reg : Nat) : Nat :=
  nextCost soft sets n reg + trueMetric soft sets n (reg / 2)

/-- The metrics that are written next. -/
def trueNext (soft : Nat → UInt8) (sets n s : Nat) : Nat :=
  min (trueArrive soft sets n s) (trueArrive soft sets n (s + 64))

variable {soft : Nat → UInt8} {sets n : Nat}

theorem trueNext_eq : trueNext soft sets n =
    relax 6 (nextCost soft sets n) (trueMetric soft sets n) := rfl

theorem readCost_of (h : ¬ (sets = 0 ∧ n = 0)) : readCost soft sets n = nextCost soft sets n :=
  funext fun _ => if_neg h

theorem trueMetric_succ (h : ¬ (sets = 0 ∧ n = 0)) :
    trueMetric soft sets (n + 1) = trueNext soft sets n := by
  rw [trueNext_eq, ← readCost_of h]
  rfl

theorem nextCost_le (soft : Nat → UInt8) (sets n reg : Nat) : nextCost soft sets n reg ≤ 510 :=
  sliceCost_le _ _ _

theorem readCost_le (n reg : Nat) : readCost soft sets n reg ≤ 510 := by
  simp only [readCost]
  split
  · omega
  · exact nextCost_le soft sets n reg

theorem bitCost_pair (y : UInt8) {a b : Bool} (h : a = !b) : bitCost y a + bitCost y b = 255 := by
  rw [h, Nat.add_comm]
  exact bitCost_not y b

/-- The two successors of a state have opposite outputs. -/
theorem sliceCost_pair (soft : Nat → UInt8) (t : Nat) {p : Nat} (hp : p < 64) :
    sliceCost soft t (codeTable (2 * p)) + sliceCost soft t (codeTable (2 * p + 1)) = 510 := by
  have h0 := bitCost_pair (soft (2 * t)) (codeTable_newest hp 0 (by omega))
  have h1 := bitCost_pair (soft (2 * t + 1)) (codeTable_newest hp 1 (by omega))
  simp only [sliceCost]
  omega

theorem nextCost_pair (soft : Nat → UInt8) (sets n : Nat) {p : Nat} (hp : p < 64) :
    nextCost soft sets n (2 * p) + nextCost soft sets n (2 * p + 1) = 510 :=
  sliceCost_pair soft _ hp

theorem nextCost_cheap (n : Nat) {p : Nat} (hp : p < 64) :
    ∃ b < 2, nextCost soft sets n (2 * p + b) ≤ 255 := by
  have hpair := nextCost_pair soft sets n hp
  by_cases hle : nextCost soft sets n (2 * p) ≤ 255
  · exact ⟨0, by omega, hle⟩
  · exact ⟨1, by omega, by omega⟩

/-- The warmup of the ideal decoder. -/
theorem warmMetric_eq (sets : Nat) {i s : Nat} (hi : i ≤ 6) (hs : s < 2 ^ i) :
    warmMetric soft i s = (trellis soft sets).metric i s := by
  induction i generalizing s with
  | zero => rfl
  | succ i ih =>
    rw [Convolutional.metric_early (by omega)]
    cases i with
    | zero => rfl
    | succ i =>
      have hhalf : s / 2 < 2 ^ (i + 1) := by
        rw [Nat.pow_succ] at hs
        omega
      rw [warmMetric, if_pos hs, ih (by omega) hhalf]
      rfl

theorem warmMetric_above {i s : Nat} (hs : 2 ^ i ≤ s) : warmMetric soft i s = 0 := by
  match i with
  | 0 => rfl
  | 1 => rfl
  | i + 2 => rw [warmMetric, if_neg (by omega)]

theorem warmMetric_le {i : Nat} (hi : i ≤ 6) (s : Nat) : warmMetric soft i s ≤ 3060 := by
  by_cases hs : s < 2 ^ i
  · rw [warmMetric_eq 0 hi hs]
    exact Convolutional.metric_early_le soft 0 hi hs
  · rw [warmMetric_above (by omega)]
    exact Nat.zero_le _

theorem warmMetric_close (i : Nat) (hi : i ≤ 6) (s s' : Nat) :
    warmMetric soft i s ≤ warmMetric soft i s' + 3060 :=
  Nat.le_add_left_of_le (warmMetric_le hi s)

theorem close_trueMetric (n : Nat) : Convolutional.Close (trueMetric soft sets n) :=
  fun s _ hs hs' => @relaxed_spread 6 510 n s (readCost soft sets)
    (warmMetric soft (min 6 sets)) readCost_le 3060
    (fun a b _ _ => warmMetric_close _ (Nat.min_le_left 6 sets) a b) _ hs hs'

/-- With no set the metrics begin at zero. -/
theorem trueMetric_empty (s : Nat) : trueMetric soft 0 0 s = 0 := rfl

theorem trueMetric_unread (s : Nat) : trueMetric soft 0 1 s = 0 := by
  change min (readCost soft 0 0 s + 0) (readCost soft 0 0 (s + 2 ^ 6) + 0) = 0
  rw [show readCost soft 0 0 s = 0 from if_pos ⟨rfl, rfl⟩]
  exact Nat.zero_min _

theorem close_trueNext (n : Nat) : Convolutional.Close (trueNext soft sets n) := by
  by_cases hunread : sets = 0 ∧ n = 0
  · obtain ⟨rfl, rfl⟩ := hunread
    intro s s' _ _
    have hcost := nextCost_le soft 0 0 s
    have hle := Nat.min_le_left (trueArrive soft 0 0 s) (trueArrive soft 0 0 (s + 64))
    simp only [trueArrive, trueMetric_empty] at hle
    simp only [trueNext, trueArrive, trueMetric_empty]
    omega
  · rw [← trueMetric_succ hunread]
    exact close_trueMetric (n + 1)

namespace Convolutional

variable {conv : Convolutional}

/-! ## The run -/

/-- The instance when the warmup is done. -/
def warmed (conv : Convolutional) (numEncodedBytes : Nat) (msg soft : Nat → UInt8) (sets : Nat) :
    Convolutional :=
  (conv.decodeStart numEncodedBytes msg).warmup sets (some soft)

/-- The instance after `n` slices of the inner phase; the counter has 32 bits. -/
def innerRun (neon : Bool) (soft : Nat → UInt8) (conv : Convolutional) (n : Nat) : Convolutional :=
  forLoop 0 n (fun j => innerSlice neon (some soft) ((6 + j) % 2 ^ 32)) conv

/-- The instance after `k` slices of the tail. -/
def tailRun (neon : Bool) (soft : Nat → UInt8) (sets : Nat) (conv : Convolutional) (k : Nat) :
    Convolutional :=
  forLoop 0 k (fun j => tailSlice neon sets (some soft) (sets - 6 + j)) conv

/-- The instance when the tail is done, too. -/
def tailed (neon : Bool) (conv : Convolutional) (numEncodedBytes : Nat) (msg soft : Nat → UInt8)
    (sets : Nat) : Convolutional :=
  tailRun neon soft sets
    (innerRun neon soft (conv.warmed numEncodedBytes msg soft sets) (sets - 12)) 6

/-- What is left to do after the last slice. -/
def flushed (conv : Convolutional) : Convolutional :=
  { conv with
    historyBuffer := (conv.historyBuffer.flush conv.bitWriter).1
    bitWriter := (conv.historyBuffer.flush conv.bitWriter).2 }

theorem innerRun_config (neon : Bool) (soft : Nat → UInt8) (conv : Convolutional) (n : Nat) :
    (innerRun neon soft conv n).config = conv.config :=
  forLoop_induct (fun _ c => c.config = conv.config) (Nat.zero_le n) rfl
    fun _ c _ _ hc => (config_innerSlice neon (some soft) _ c).trans hc

/-- The phases are such a run, and the flush. -/
theorem decodePhases_runs (hof : OfCode conv) (neon : Bool) (soft : Nat → UInt8)
    (hlarge : 6 ≤ sets) (hsets : sets < 2 ^ 32) :
    conv.decodePhases neon sets (some soft) =
      (tailRun neon soft sets (innerRun neon soft conv (sets - 12)) 6).flushed := by
  have hend : innerEnd sets 7 = sets - 6 := (innerEnd_eq (by omega) (by omega) hsets).trans rfl
  have hinner : forLoop 6 (sets - 6) (innerSlice neon (some soft)) conv =
      innerRun neon soft conv (sets - 12) := by
    by_cases hshort : sets < 12
    · rw [forLoop_of_le (by omega), show sets - 12 = 0 by omega]
      rfl
    · rw [show sets - 6 = 6 + (sets - 12) by omega, forLoop_shift]
      refine forLoop_congr fun i c _ hi => ?_
      rw [Nat.mod_eq_of_lt (show 6 + i < 2 ^ 32 by omega)]
  have horder : (innerRun neon soft conv (sets - 12)).order = 7 :=
    (congrArg Config.order (innerRun_config neon soft conv (sets - 12))).trans hof.order_eq
  have htail : forLoop (sets - 6) sets (tailSlice neon sets (some soft))
        (innerRun neon soft conv (sets - 12)) =
      tailRun neon soft sets (innerRun neon soft conv (sets - 12)) 6 := by
    have hshift := forLoop_shift (sets - 6) 6 (tailSlice neon sets (some soft))
      (innerRun neon soft conv (sets - 12))
    rw [show sets - 6 + 6 = sets by omega] at hshift
    exact hshift
  unfold decodePhases
  simp only [hof.order_eq, hend, Nat.reduceSub, hinner, horder,
    Nat.mod_eq_of_lt (show sets - 6 < 2 ^ 32 by omega), htail]
  rfl

/-- A decode that ends, of `s` pairs of soft values. -/
theorem decodeSets_runs (h : Ready conv) (neon : Bool) (numEncodedBytes : Nat)
    (msg soft : Nat → UInt8) (s : Nat) (hlarge : 6 ≤ s % 2 ^ 32) :
    let last := conv.tailed neon numEncodedBytes msg soft (s % 2 ^ 32)
    conv.decodeSets neon (2 * s) numEncodedBytes msg (some soft) =
      some (last.flushed, last.flushed.bitWriter.length) := by
  have hsets : s % 2 ^ 32 < 2 ^ 32 := Nat.mod_lt _ (Nat.two_pow_pos 32)
  have hbits : 2 * s / 2 % 2 ^ 32 = s % 2 ^ 32 := by
    rw [Nat.mul_div_cancel_left s (by omega)]
  generalize s % 2 ^ 32 = sets at hlarge hsets hbits
  intro last
  have hof : OfCode (conv.warmed numEncodedBytes msg soft sets) :=
    (config_warmup _ sets (some soft)).trans (config_decodeStart h.configured numEncodedBytes msg)
  have hend : innerEnd sets 7 = sets - 6 := (innerEnd_eq (by omega) (by omega) hsets).trans rfl
  have hphases := decodePhases_runs hof neon soft hlarge hsets
  simp only [decodeSets, h.configured.rate_eq, hbits]
  simp only [warmed] at hof hphases
  rw [hof.order_eq, hend, if_pos (by omega), hphases]
  rfl

/-! ## The warmup -/

/-- Both metric arrays are zero from `bound` on. -/
structure ZeroFrom (bound : Nat) (errors : ErrorBuffer) : Prop where
  index_lt : errors.index < 2
  read_lt : errors.read < 2
  write_lt : errors.write < 2
  zero : ∀ a s, a < 2 → bound ≤ s → s < 64 → errors.errors a s = 0

theorem zeroFrom_warmupSlice {i : Nat} (h : ZeroFrom (2 ^ i) conv.errors) :
    ZeroFrom (2 ^ (i + 1)) (conv.warmupSlice (some soft) i).errors := by
  have hpow := Nat.pow_succ 2 i
  refine ⟨Nat.mod_lt _ (by omega), h.index_lt, Nat.mod_lt _ (by omega), fun a s ha hs hlt => ?_⟩
  change Function.update conv.errors.errors conv.errors.write _ a s = 0
  rw [Function.update_apply]
  split
  next hwrite =>
    rw [forLoop_update, Nat.one_shiftLeft, if_neg (by omega)]
    exact h.zero _ s h.write_lt (by omega) hlt
  next => exact h.zero a s ha (by omega) hlt

theorem zeroFrom_decodeStart (h : Ready conv) (numEncodedBytes : Nat) (msg : Nat → UInt8) :
    ZeroFrom 0 (conv.decodeStart numEncodedBytes msg).errors := by
  refine ⟨Nat.succ_pos 1, Nat.succ_pos 1, Nat.lt_succ_self 1, fun a s ha _ hs => ?_⟩
  have hstates : (conv.decodeStart numEncodedBytes msg).errors.numStates = 1 <<< 7 :=
    congrArg Config.errorStates (config_decodeStart h.configured numEncodedBytes msg)
  have hreset : ∀ b : ErrorBuffer, b.reset.numStates = 1 <<< 7 → b.reset.errors a s = 0 := by
    intro b hb
    have hb : b.numStates = 1 <<< 7 := hb
    simp only [ErrorBuffer.reset, hb]
    rw [if_pos ⟨Nat.lt_of_lt_of_le hs (by decide), ha⟩]
  exact hreset _ hstates

theorem zeroFrom_mono {bound bound' : Nat} {errors : ErrorBuffer} (hle : bound ≤ bound')
    (h : ZeroFrom bound errors) : ZeroFrom bound' errors :=
  ⟨h.index_lt, h.read_lt, h.write_lt, fun a s ha hs => h.zero a s ha (Nat.le_trans hle hs)⟩

/-- The warmup, however short. -/
theorem warmed_warming (h : Ready conv) (numEncodedBytes : Nat) (msg soft : Nat → UInt8)
    {i : Nat} (hi : i ≤ 6) :
    Warming soft sets i (conv.decodeStart numEncodedBytes msg)
        (forLoop 0 i (warmupSlice (some soft)) (conv.decodeStart numEncodedBytes msg)) ∧
      ZeroFrom (2 ^ i)
        (forLoop 0 i (warmupSlice (some soft)) (conv.decodeStart numEncodedBytes msg)).errors := by
  have hof := (counting_decodeStart h numEncodedBytes msg).1
  have hclear := cleared_decodeStart h numEncodedBytes msg
  refine forLoop_induct (fun i c => Warming soft sets i (conv.decodeStart numEncodedBytes msg) c ∧
    ZeroFrom (2 ^ i) c.errors) (Nat.zero_le i) ⟨?_, ?_⟩ ?_
  · exact ⟨hof, rfl, rfl, fun _ => rfl, fun h => absurd h (by omega),
      fun h => absurd h (by omega)⟩
  · exact zeroFrom_mono (Nat.zero_le _) (zeroFrom_decodeStart h numEncodedBytes msg)
  · exact fun j c _ hj hc => ⟨warming_warmupSlice (by omega) hclear hc.1,
      zeroFrom_warmupSlice hc.2⟩

theorem reads_warmup (h : Ready conv) (numEncodedBytes : Nat) (msg soft : Nat → UInt8)
    {i : Nat} (hi : i ≤ 6) :
    Reads 3060 (warmMetric soft i) 1 0
      (forLoop 0 i (warmupSlice (some soft)) (conv.decodeStart numEncodedBytes msg)) := by
  have hcounting := counting_decodeStart h numEncodedBytes msg
  have hstart := zeroFrom_decodeStart h numEncodedBytes msg
  obtain ⟨hwarm, hzero⟩ := @warmed_warming 0 conv h numEncodedBytes msg soft i hi
  generalize forLoop 0 i (warmupSlice (some soft)) (conv.decodeStart numEncodedBytes msg) = c
    at hwarm hzero
  refine ⟨hwarm.ofCode, ?_, ?_, ?_, ?_⟩
  · rw [hwarm.historyBuffer_eq]
    exact hcounting.2
  · intro s s' _ _
    exact Nat.le_trans (warmMetric_close i hi s s') (by omega)
  · exact ⟨0, by omega, Nat.le_trans (warmMetric_le hi 0) (by omega)⟩
  · intro s hs _
    rw [Nat.add_zero]
    by_cases hlive : s < 2 ^ i
    · rw [warmMetric_eq 0 hi hlive]
      by_cases hfirst : i = 0
      · subst hfirst
        rw [ErrorBuffer.readErrors, hwarm.untouched rfl, hstart.zero _ s hstart.read_lt
          (Nat.zero_le s) hs]
        rfl
      · exact hwarm.metrics (by omega) s hlive
    · rw [warmMetric_above (by omega), ErrorBuffer.readErrors,
        hzero.zero _ s hzero.read_lt (by omega) hs]
      rfl

theorem reads_warmed (h : Ready conv) (numEncodedBytes : Nat) (msg soft : Nat → UInt8)
    (sets : Nat) :
    Reads 3060 (trueMetric soft sets 0) 1 0 (conv.warmed numEncodedBytes msg soft sets) := by
  have horder := (counting_decodeStart h numEncodedBytes msg).1.order_eq
  have hreads := reads_warmup h numEncodedBytes msg soft (Nat.min_le_left 6 sets)
  rw [warmed, warmup, horder]
  exact hreads

theorem follows_warmed (h : Ready conv) (numEncodedBytes : Nat) (msg soft : Nat → UInt8)
    (hsets : 0 < sets) :
    Follows 3060 (trueMetric soft sets 0) 1 0 (conv.warmed numEncodedBytes msg soft sets) := by
  have horder := (counting_decodeStart h numEncodedBytes msg).1.order_eq
  have hwarm := (@warmed_warming 0 conv h numEncodedBytes msg soft _ (Nat.min_le_left 6 sets)).1
  refine ⟨reads_warmed h numEncodedBytes msg soft sets, ?_⟩
  rw [warmed, warmup, horder]
  exact hwarm.settled (by omega)

/-! ## Slices after the warmup -/

/-- The inner phase before add-compare-select. -/
def innerReady (soft : Nat → UInt8) (i : Nat) (conv : Convolutional) : Convolutional :=
  let conv := conv.fillDistances (some soft) i
  { conv with pairLookup := conv.pairLookup.fillDistance conv.distances }

/-- The slice it fills. -/
def innerFilled (neon : Bool) (soft : Nat → UInt8) (i : Nat) (conv : Convolutional) : Slice :=
  let highbit := 1 <<< (conv.order - 1)
  let conv := conv.innerReady soft i
  acs neon conv.pairLookup (highbit >>> 1) conv.errors.readErrors conv.currentSlice

/-- The distance between the states the tail fills in slice `i`. -/
def tailSkip (sets i : Nat) (conv : Convolutional) : Nat := 1 <<< (conv.order - (sets - i))

def tailFilled (sets : Nat) (soft : Nat → UInt8) (i : Nat) (conv : Convolutional) : Slice :=
  let highbit := 1 <<< (conv.order - 1)
  let skip := conv.tailSkip sets i
  let conv := conv.fillDistances (some soft) i
  tailAcs conv.table conv.distances conv.errors.readErrors highbit skip conv.currentSlice

theorem innerSlice_eq (neon : Bool) (soft : Nat → UInt8) (i : Nat) (conv : Convolutional) :
    conv.innerSlice neon (some soft) i =
      (conv.innerReady soft i).finishSlice neon (conv.innerFilled neon soft i) 1 := rfl

theorem tailSlice_eq (neon : Bool) (sets : Nat) (soft : Nat → UInt8) (i : Nat)
    (conv : Convolutional) :
    conv.tailSlice neon sets (some soft) i =
      (conv.fillDistances (some soft) i).finishSlice neon (conv.tailFilled sets soft i)
        (conv.tailSkip sets i) := rfl

variable {off skip k : Nat} {m : Nat → Nat}

theorem reads_ready {base : Nat} (soft : Nat → UInt8) (h : Reads base m skip off conv) (i : Nat) :
    Reads base m skip off (conv.innerReady soft i) :=
  ⟨(config_fillDistances (some soft) i conv).trans h.ofCode, h.counter_lt, h.close, h.anchor,
    h.metrics⟩

theorem reads_fillDistances {base : Nat} (soft : Nat → UInt8) (h : Reads base m skip off conv)
    (i : Nat) :
    Reads base m skip off (conv.fillDistances (some soft) i) :=
  ⟨(config_fillDistances (some soft) i conv).trans h.ofCode, h.counter_lt, h.close, h.anchor,
    h.metrics⟩

theorem distances_le (hof : OfCode conv) (soft : Nat → UInt8) (i x : Nat) (hx : x < 4) :
    ((conv.fillDistances (some soft) i).distances x).toNat ≤ 510 := by
  rw [fillDistances_toNat hof soft i hx]
  exact sliceCost_le soft i x

theorem branchCost_eq (hof : OfCode conv) (soft : Nat → UInt8) (sets n : Nat) :
    branchCost (conv.fillDistances (some soft) (sliceIndex sets n)).distances =
      nextCost soft sets n :=
  funext fun reg => fillDistances_toNat hof soft _ (codeTable_lt reg)

theorem inner_fills (h : Reads 3060 (trueMetric soft sets n) 1 off conv) (neon : Bool) {state : Nat}
    (hstate : state < 64) :
    ((conv.innerFilled neon soft (sliceIndex sets n)).errors state).toNat + off =
      trueNext soft sets n state := by
  have hready := reads_ready soft h (sliceIndex sets n)
  have hexact := hready.acs_exact (by omega) neon
    (reads_fillDistances soft h (sliceIndex sets n)).ofCode.pairs_for
    (distances_le h.ofCode soft (sliceIndex sets n))
    (conv.innerReady soft (sliceIndex sets n)).currentSlice hstate
  rw [branchCost_eq h.ofCode] at hexact
  rw [innerFilled, h.ofCode.order_eq, trueNext_eq]
  exact hexact

theorem anchor_inner (h : Reads 3060 (trueMetric soft sets n) skip off conv) :
    ∃ s < 64, trueNext soft sets n s ≤
      off + 3060 + 255 * (conv.historyBuffer.renormalizeCounter + 1) :=
  h.anchor_relax fun _ hp => nextCost_cheap n hp

/-- One slice of the inner phase. -/
theorem follows_innerSlice (h : Follows 3060 (trueMetric soft sets n) 1 off conv)
    (hread : ¬ (sets = 0 ∧ n = 0)) (neon : Bool) :
    Follows 3060 (trueMetric soft sets (n + 1)) 1
      (off + subtracted neon (conv.innerReady soft (sliceIndex sets n))
        (conv.innerFilled neon soft (sliceIndex sets n)) 1)
      (conv.innerSlice neon (some soft) (sliceIndex sets n)) := by
  have hready : Follows 3060 (trueMetric soft sets n) 1 off
      (conv.innerReady soft (sliceIndex sets n)) :=
    ⟨reads_ready soft h.toReads (sliceIndex sets n), h.settled⟩
  rw [innerSlice_eq, trueMetric_succ hread]
  exact hready.finish (by omega) (close_trueNext n) (anchor_inner hready.toReads) neon (by omega)
    fun state hs _ => inner_fills h.toReads neon hs

/-- The tail goes on where the inner phase ended. -/
theorem sliceIndex_tail (hlarge : 6 ≤ sets) (k : Nat) :
    sliceIndex sets (sets - 12 + k) = sets - 6 + k := by
  rw [sliceIndex, if_neg (by omega)]
  omega

theorem tailSkip_eq (hof : OfCode conv) (hlarge : 6 ≤ sets) (hk : k < 6) :
    conv.tailSkip sets (sets - 6 + k) = 2 * 2 ^ k := by
  rw [tailSkip, hof.order_eq, Nat.one_shiftLeft,
    show 7 - (sets - (sets - 6 + k)) = k + 1 by omega, Nat.pow_succ, Nat.mul_comm]

theorem tail_fills (h : Reads 3060 (trueMetric soft sets (sets - 12 + k)) (2 ^ k) off conv)
    (hlarge : 6 ≤ sets) (hk : k < 6) {state : Nat} (hstate : state < 64)
    (hskip : 2 * 2 ^ k ∣ state) :
    ((conv.tailFilled sets soft (sets - 6 + k)).errors state).toNat + off =
      trueNext soft sets (sets - 12 + k) state := by
  have hready := reads_fillDistances soft h (sets - 6 + k)
  have hdvd : 2 ^ k ∣ 32 := by
    rw [show (32 : Nat) = 2 ^ 5 from rfl]
    exact Nat.pow_dvd_pow 2 (by omega)
  have hexact := hready.tailAcs_exact (by omega) (Nat.two_pow_pos k) hdvd
    (distances_le h.ofCode soft (sets - 6 + k))
    (conv.fillDistances (some soft) (sets - 6 + k)).currentSlice hstate hskip
  rw [← sliceIndex_tail hlarge, branchCost_eq h.ofCode, ← trueNext_eq] at hexact
  rw [← sliceIndex_tail hlarge, tailFilled, h.ofCode.order_eq, sliceIndex_tail hlarge,
    tailSkip_eq h.ofCode hlarge hk, ← sliceIndex_tail hlarge]
  have htable : (conv.fillDistances (some soft) (sliceIndex sets (sets - 12 + k))).table =
    codeTable := h.ofCode.table_eq
  rw [htable]
  exact hexact

/-- One slice of the tail. -/
theorem follows_tailSlice
    (h : Follows 3060 (trueMetric soft sets (sets - 12 + k)) (2 ^ k) off conv)
    (hlarge : 6 ≤ sets) (hk : k < 6) (neon : Bool) :
    ∃ off', Follows 3060 (trueMetric soft sets (sets - 12 + (k + 1))) (2 ^ (k + 1)) off'
      (conv.tailSlice neon sets (some soft) (sets - 6 + k)) := by
  have hready : Follows 3060 (trueMetric soft sets (sets - 12 + k)) (2 ^ k) off
      (conv.fillDistances (some soft) (sets - 6 + k)) :=
    ⟨reads_fillDistances soft h.toReads (sets - 6 + k), h.settled⟩
  rw [tailSlice_eq, tailSkip_eq h.ofCode hlarge hk, Nat.pow_succ', ← Nat.add_assoc,
    trueMetric_succ (by omega)]
  exact ⟨_, hready.finish (by omega) (close_trueNext _) (anchor_inner hready.toReads) neon
    (Nat.mul_pos (by omega) (Nat.two_pow_pos k))
    fun state hs hskip => tail_fills h.toReads hlarge hk hs hskip⟩

/-! ## Runs of slices -/

/-- What the inner phase has subtracted in its first `n` slices. -/
def innerSubtracted (neon : Bool) (soft : Nat → UInt8) (conv : Convolutional) (n : Nat) : Nat :=
  ∑ j ∈ Finset.range n,
    let conv := innerRun neon soft conv j
    subtracted neon (conv.innerReady soft ((6 + j) % 2 ^ 32))
      (conv.innerFilled neon soft ((6 + j) % 2 ^ 32)) 1

theorem innerRun_succ (neon : Bool) (soft : Nat → UInt8) (conv : Convolutional) (n : Nat) :
    innerRun neon soft conv (n + 1) =
      (innerRun neon soft conv n).innerSlice neon (some soft) ((6 + n) % 2 ^ 32) :=
  forLoop_succ (Nat.zero_le n) _ conv

theorem tailRun_succ (neon : Bool) (soft : Nat → UInt8) (sets : Nat) (conv : Convolutional)
    (k : Nat) :
    tailRun neon soft sets conv (k + 1) =
      (tailRun neon soft sets conv k).tailSlice neon sets (some soft) (sets - 6 + k) :=
  forLoop_succ (Nat.zero_le k) _ conv

/-- The inner phase has a slice `n` to do. -/
def InnerSlice (sets n : Nat) : Prop := sets < 6 ∨ n < sets - 12

theorem sliceIndex_inner (hsets : sets < 2 ^ 32) (h : InnerSlice sets n) :
    sliceIndex sets n = (6 + n) % 2 ^ 32 := by
  simp only [InnerSlice] at h
  simp only [sliceIndex]
  split
  · rfl
  · rw [Nat.mod_eq_of_lt (by omega), Nat.min_eq_left (by omega)]

/-- What the one slice that is not read subtracts: its metrics are not read either. -/
def unreadSubtracted (neon : Bool) (soft : Nat → UInt8) (sets : Nat) (conv : Convolutional) : Nat :=
  if sets = 0 then innerSubtracted neon soft conv 1 else 0

theorem innerSubtracted_succ (neon : Bool) (soft : Nat → UInt8) (conv : Convolutional) (n : Nat) :
    innerSubtracted neon soft conv (n + 1) = innerSubtracted neon soft conv n +
      subtracted neon ((innerRun neon soft conv n).innerReady soft ((6 + n) % 2 ^ 32))
        ((innerRun neon soft conv n).innerFilled neon soft ((6 + n) % 2 ^ 32)) 1 :=
  Finset.sum_range_succ _ n

/-- Without a warmup the first slice of the inner phase swaps in the zeros of the reset. -/
theorem follows_unread (h : Ready conv) (numEncodedBytes : Nat) (msg soft : Nat → UInt8)
    (neon : Bool) (i : Nat) :
    Follows 3060 (trueMetric soft 0 1) 1 0
      ((conv.warmed numEncodedBytes msg soft 0).innerSlice neon (some soft) i) := by
  have hcounting := counting_decodeStart h numEncodedBytes msg
  have hclear := zeroFrom_decodeStart h numEncodedBytes msg
  have hnext := counting_innerSlice neon (some soft) i hcounting
  have hwarmed : conv.warmed numEncodedBytes msg soft 0 = conv.decodeStart numEncodedBytes msg := by
    rw [warmed, warmup, Nat.min_zero, forLoop_self]
  have hindex : (conv.decodeStart numEncodedBytes msg).errors.index = 0 := rfl
  have hwrite : (conv.decodeStart numEncodedBytes msg).errors.write = 1 := rfl
  rw [hwarmed]
  generalize conv.decodeStart numEncodedBytes msg = c at hclear hnext hindex hwrite ⊢
  refine ⟨⟨hnext.1, hnext.2, close_trueMetric 1, ⟨0, by omega, ?_⟩, ?_⟩, rfl⟩
  · rw [trueMetric_unread]
    exact Nat.zero_le _
  · intro s hs _
    rw [trueMetric_unread, Nat.add_zero]
    change (Function.update c.errors.errors c.errors.write _ c.errors.index s).toNat = 0
    rw [hindex, hwrite, Function.update_of_ne (by omega), hclear.zero 0 s (by omega)
      (Nat.zero_le s) hs]
    rfl

/-- The inner phase keeps the metrics the integers less what it has subtracted. -/
theorem follows_innerRun (h : Ready conv) (numEncodedBytes : Nat) (msg soft : Nat → UInt8)
    (neon : Bool) (hsets : sets < 2 ^ 32) (hread : ¬ (sets = 0 ∧ n = 0))
    (hslices : ∀ j, j < n → InnerSlice sets j) :
    let start := conv.warmed numEncodedBytes msg soft sets
    ∃ off, innerSubtracted neon soft start n = off + unreadSubtracted neon soft sets start ∧
      Follows 3060 (trueMetric soft sets n) 1 off (innerRun neon soft start n) := by
  intro start
  induction n with
  | zero =>
    have hpos : 0 < sets := Nat.pos_of_ne_zero fun hzero => hread ⟨hzero, rfl⟩
    refine ⟨0, ?_, follows_warmed h numEncodedBytes msg soft hpos⟩
    rw [unreadSubtracted, if_neg (by omega)]
    rfl
  | succ n ih =>
    have hindex := sliceIndex_inner hsets (hslices n (by omega))
    by_cases hfirst : sets = 0 ∧ n = 0
    · obtain ⟨rfl, rfl⟩ := hfirst
      refine ⟨0, ?_, ?_⟩
      · rw [unreadSubtracted, if_pos rfl]
        exact (Nat.zero_add _).symm
      · rw [innerRun_succ]
        exact follows_unread h numEncodedBytes msg soft neon _
    · obtain ⟨off, htotal, hfollows⟩ := ih hfirst fun j hj => hslices j (by omega)
      have hnext := follows_innerSlice hfollows hfirst neon
      rw [hindex, ← innerRun_succ] at hnext
      refine ⟨_, ?_, hnext⟩
      rw [innerSubtracted_succ, htotal]
      omega

/-- So does the tail, on the states it still reads. -/
theorem follows_tailRun (h : Ready conv) (numEncodedBytes : Nat) (msg soft : Nat → UInt8)
    (neon : Bool) (hlarge : 6 ≤ sets) (hsets : sets < 2 ^ 32) (hk : k ≤ 6) :
    ∃ off, Follows 3060 (trueMetric soft sets (sets - 12 + k)) (2 ^ k) off
      (tailRun neon soft sets
        (innerRun neon soft (conv.warmed numEncodedBytes msg soft sets) (sets - 12)) k) := by
  induction k with
  | zero =>
    obtain ⟨off, -, hfollows⟩ := follows_innerRun (n := sets - 12) h numEncodedBytes msg soft neon
      hsets (by omega) fun j hj => Or.inr hj
    exact ⟨off, hfollows⟩
  | succ k ih =>
    obtain ⟨off, hfollows⟩ := ih (by omega)
    rw [tailRun_succ]
    exact follows_tailSlice hfollows hlarge (by omega) neon

end Convolutional

end RyFi.Conv
