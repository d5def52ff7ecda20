import RyFi.Lib.Relaxation
import RyFi.Conv.Viterbi
import RyFi.Conv.Instance

/-! # Sixteen-bit metrics and the integers they stand for

`Reads` says that the metrics of an instance are given integers, less what was subtracted
so far, on the states that are still read.  It bounds every sum a slice forms, so none wraps
(`Reads.sum_exact`); the slice then holds the next integers (`Reads.acs_exact`,
`Reads.tailAcs_exact`), and after processing they are read (`Follows.finish`).
-/

namespace RyFi.Conv

open CLoop ShiftTrellis

/-! ## Processing a slice -/

theorem ErrorBuffer.swap_settled {b : ErrorBuffer} (h : b.write = b.index) (e : Nat → UInt16) :
    (b.setWriteErrors e).swap.readErrors = e ∧
      (b.setWriteErrors e).swap.write = (b.setWriteErrors e).swap.index := by
  refine ⟨?_, rfl⟩
  simp only [swap, setWriteErrors, readErrors, h]
  exact Function.update_self _ _ _

namespace HistoryBuffer

variable {buf : HistoryBuffer}

theorem renormalize_apply (buf : HistoryBuffer) (distances : Nat → UInt16) (p s : Nat) :
    buf.renormalize distances p s =
      if s < buf.numStates then distances s - distances p else distances s := by
  have hloop := @forLoop_induct _ 0 buf.numStates
    (fun i (d : Nat → UInt16) => Function.update d i (d i - distances p)) distances
    (fun k d => ∀ s, d s = if s < k then distances s - distances p else distances s)
    (Nat.zero_le _) (fun s => by simp) ?_
  · exact hloop s
  · intro k d _ _ hd s
    rw [Function.update_apply]
    by_cases hs : s = k
    · rw [if_pos hs, hd, if_neg (Nat.lt_irrefl k), if_pos (by omega), hs]
    · rw [if_neg hs, hd]
      by_cases hlt : s < k
      · rw [if_pos hlt, if_pos (by omega)]
      · rw [if_neg hlt, if_neg (by omega)]

theorem searched_iff {numStates skip s : Nat} (hskip : 0 < skip) :
    searched numStates skip s ↔ s < numStates ∧ skip ∣ s := by
  constructor
  · rintro ⟨k, hk, rfl⟩
    rw [Nat.lt_iff_add_one_le, Nat.le_div_iff_mul_le hskip, Nat.add_mul, Nat.one_mul] at hk
    exact ⟨by omega, Nat.dvd_mul_left _ _⟩
  · rintro ⟨hs, k, rfl⟩
    refine ⟨k, ?_, Nat.mul_comm _ _⟩
    rw [Nat.lt_iff_add_one_le, Nat.le_div_iff_mul_le hskip, Nat.add_mul, Nat.one_mul,
      Nat.mul_comm k]
    omega

/-- The search finds the state the ideal decoder starts from. -/
theorem search_eq_winner (off : Nat) (hstates : buf.numStates = 64) (neon : Bool) {f : Nat → Nat}
    {distances : Nat → UInt16} {skip : Nat} (hskip : 0 < skip)
    (hf : ∀ s, s < 64 → skip ∣ s →
      (distances s).toNat + off = f s ∧ (distances s).toNat < 65535) :
    buf.search neon distances skip = winner f skip := by
  have hscalar : buf.search neon distances skip = (searchScalar 64 distances skip).1 := by
    cases neon with
    | true =>
      rw [search_neon_eq buf (by omega)]
      simp [search, hstates]
    | false => simp [search, hstates]
  have hmin := searchScalar_firstMin 64 distances hskip
  have hzero := hf 0 (by omega) (Nat.dvd_zero _)
  rw [hscalar]
  obtain ⟨-, -, hall⟩ | ⟨hp, -, -, hall⟩ := hmin
  · have := hall 0 ((searched_iff hskip).mpr ⟨by omega, Nat.dvd_zero _⟩)
    omega
  · obtain ⟨hlt, hdvd⟩ := (searched_iff hskip).mp hp
    refine (winner_eq hlt hdvd fun s hs hs' => ?_).symm
    have hbest := hall s ((searched_iff hskip).mpr ⟨hs, hs'⟩)
    have h1 := (hf _ hlt hdvd).1
    have h2 := (hf s hs hs').1
    omega

theorem processSkip_distances (neon : Bool) (buf : HistoryBuffer) (distances : Nat → UInt16)
    (output : BitWriter) (skip : Nat) :
    (buf.processSkip neon distances output skip).distances =
      buf.processedDistances neon distances skip := by
  rw [processSkip_eq]
  split <;> rfl

theorem processSkip_counter (neon : Bool) (buf : HistoryBuffer) (distances : Nat → UInt16)
    (output : BitWriter) (skip : Nat) :
    (buf.processSkip neon distances output skip).buf.renormalizeCounter =
      buf.advance.renormalizeCounter := by
  rw [processSkip_eq]
  split <;> rfl

end HistoryBuffer

namespace Convolutional

variable {conv : Convolutional}

/-! ## Instances of the code -/

theorem pairs_for_of_config {rate order : Nat} {poly : Nat → Nat}
    (h : conv.config = initConfig rate order poly) :
    PairLookup.For rate order (fillTable rate poly) conv.pairLookup := by
  obtain ⟨hkeyed, -, -⟩ := PairLookup.for_create rate order (fillTable rate poly)
  have hkeys : conv.pairLookup.keys = (PairLookup.create rate order (fillTable rate poly)).keys :=
    congrArg Config.keys h
  have houtputs : conv.pairLookup.outputs =
      (PairLookup.create rate order (fillTable rate poly)).outputs := congrArg Config.outputs h
  have hlen : conv.pairLookup.outputsLen =
      (PairLookup.create rate order (fillTable rate poly)).outputsLen :=
    congrArg Config.outputsLen h
  have hmask : conv.pairLookup.outputMask = 1 <<< rate - 1 := congrArg Config.outputMask h
  refine ⟨?_, ?_, congrArg Config.outputWidth h⟩
  · rw [hkeys, houtputs, hlen]
    exact hkeyed
  · rw [hmask, Nat.one_shiftLeft]

/-- An instance of the rate 1/2, K = 7 code whose decoder is set up. -/
def OfCode (conv : Convolutional) : Prop := conv.config = initConfig 2 7 r12_7_polynomial

namespace OfCode

theorem table_eq (h : OfCode conv) : conv.table = codeTable := congrArg Config.table h

theorem rate_eq (h : OfCode conv) : conv.rate = 2 := congrArg Config.rate h

theorem order_eq (h : OfCode conv) : conv.order = 7 := congrArg Config.order h

theorem softMeasurement_eq (h : OfCode conv) : conv.softMeasurement = .linear :=
  congrArg Config.softMeasurement h

theorem cap_eq (h : OfCode conv) : conv.historyBuffer.cap = 140 := congrArg Config.cap h

theorem minTracebackLength_eq (h : OfCode conv) : conv.historyBuffer.minTracebackLength = 35 :=
  congrArg Config.minTracebackLength h

theorem numStates_eq (h : OfCode conv) : conv.historyBuffer.numStates = 64 :=
  congrArg Config.historyStates h

theorem highbit_eq (h : OfCode conv) : conv.historyBuffer.highbit = 64 :=
  congrArg Config.highbit h

theorem renormalizeInterval_eq (h : OfCode conv) :
    conv.historyBuffer.renormalizeInterval = 128 := by
  have hinterval := congrArg Config.renormalizeInterval h
  simp only [config, initConfig, Nat.reduceMul, Nat.reduceDiv] at hinterval
  exact hinterval

theorem pairs_for (h : OfCode conv) : PairLookup.For 2 7 codeTable conv.pairLookup :=
  pairs_for_of_config h

end OfCode

theorem codeTable_lt (i : Nat) : codeTable i < 2 ^ 2 := fillTable_lt 2 r12_7_polynomial i

/-! ## Distances -/

theorem softDistance_aux (y : UInt8) (x : Nat) :
    (UInt16.ofNat ((y.toNat : Int) - softX x).natAbs).toNat = bitCost y (x.testBit 0) := by
  have hy := y.toNat_lt
  rw [UInt16.toNat_ofNat', Nat.testBit_zero]
  by_cases hodd : x % 2 = 1
  · simp only [softX, bitCost, hodd, decide_true, if_true]
    omega
  · simp only [softX, bitCost, hodd, decide_false, if_false, Bool.false_eq_true]
    omega

theorem metricSoftDistanceLinear_toNat (softY : Nat → UInt8) (x : Nat) :
    (metricSoftDistanceLinear x softY 2).toNat =
      bitCost (softY 0) (x.testBit 0) + bitCost (softY 1) (x.testBit 1) := by
  have h0 := bitCost_le (softY 0) (x.testBit 0)
  have h1 := bitCost_le (softY 1) (x.testBit 1)
  have hshift : (x >>> 1).testBit 0 = x.testBit 1 := by rw [Nat.testBit_shiftRight]
  have hfirst := softDistance_aux (softY 0) x
  have hsecond := softDistance_aux (softY 1) (x >>> 1)
  rw [hshift] at hsecond
  change ((0 : UInt16) + UInt16.ofNat (((softY 0).toNat : Int) - softX x).natAbs +
    UInt16.ofNat (((softY 1).toNat : Int) - softX (x >>> 1)).natAbs).toNat = _
  rw [UInt16.zero_add, UInt16.toNat_add, hfirst, hsecond]
  omega

theorem softDistance_toNat (h : OfCode conv) (soft : Nat → UInt8) (t x : Nat) :
    (conv.softDistance x (conv.sliceOf soft t)).toNat = sliceCost soft t x := by
  simp only [softDistance, h.softMeasurement_eq, h.rate_eq, metricSoftDistanceLinear_toNat,
    sliceCost, sliceOf, Nat.add_zero, Nat.mul_comm t 2]

theorem fillDistances_toNat (h : OfCode conv) (soft : Nat → UInt8) (t : Nat) {x : Nat}
    (hx : x < 4) :
    ((conv.fillDistances (some soft) t).distances x).toNat = sliceCost soft t x := by
  simp only [fillDistances, forLoop_update, h.rate_eq]
  rw [if_pos ⟨Nat.zero_le _, hx⟩]
  exact softDistance_toNat h soft t x

/-! ## The tail's stores -/

/-- The loop of the tail stores one entry per state that matters. -/
theorem tailAcs_at (table : Nat → Nat) (d readErrors : Nat → UInt16) {skip : Nat}
    (hskip : 0 < skip) (s : Slice) {k : Nat} (hk : k < (64 + skip - 1) / skip) :
    let low := d (table (k * skip)) + readErrors (k * (skip >>> 1))
    let high := d (table (64 + k * skip)) + readErrors (64 >>> 1 + k * (skip >>> 1))
    let entry := if low < high then (low, (0 : UInt8)) else (high, 1)
    (tailAcs table d readErrors 64 skip s).errors (k * skip) = entry.1 ∧
      (tailAcs table d readErrors 64 skip s).history (k * skip) = entry.2 := by
  intro low high entry
  refine forLoop_induct (fun n (s : Slice) => k < n →
    s.errors (k * skip) = entry.1 ∧ s.history (k * skip) = entry.2) (Nat.zero_le _) ?_ ?_ hk
  · exact fun hlt => absurd hlt (Nat.not_lt_zero k)
  · intro i s _ _ ih hlt
    by_cases heq : k = i
    · subst heq
      simp only [Slice.store, Function.update_self]
      exact ⟨rfl, rfl⟩
    · have hne : k * skip ≠ i * skip := fun hmul => heq (Nat.eq_of_mul_eq_mul_right hskip hmul)
      simp only [Slice.store, Function.update_of_ne hne]
      exact ih (by omega)

/-! ## Metrics that follow integers -/

/-- No metric is far above another. -/
def Close (m : Nat → Nat) : Prop := ∀ s s', s < 64 → s' < 64 → m s ≤ m s' + 6120

/-- On every `skip`-th state the metrics that are read are the integers `m` less `off`. -/
structure Reads (base : Nat) (m : Nat → Nat) (skip off : Nat) (conv : Convolutional) : Prop where
  ofCode : OfCode conv
  counter_lt : conv.historyBuffer.renormalizeCounter < 128
  close : Close m
  anchor : ∃ s < 64, m s ≤ off + base + 255 * conv.historyBuffer.renormalizeCounter
  metrics : ∀ s, s < 64 → skip ∣ s → (conv.errors.readErrors s).toNat + off = m s

/-- And the metrics written next will be read. -/
structure Follows (base : Nat) (m : Nat → Nat) (skip off : Nat) (conv : Convolutional) : Prop
    extends Reads base m skip off conv where
  settled : conv.errors.write = conv.errors.index

/-- What processing a filled slice subtracts from every metric. -/
def subtracted (neon : Bool) (conv : Convolutional) (s : Slice) (skip : Nat) : Nat :=
  if conv.historyBuffer.renormalizeCounter + 1 = conv.historyBuffer.renormalizeInterval then
    (s.errors ((conv.historyBuffer.setSlice s.history).search neon s.errors skip)).toNat
  else 0

/-- The branch metrics of the registers. -/
def branchCost (d : Nat → UInt16) (reg : Nat) : Nat := (d (codeTable reg)).toNat

theorem select_toNat (low high : UInt16) :
    (select low high).1.toNat = min low.toNat high.toNat := by
  simp only [select]
  by_cases hle : low ≤ high
  · rw [if_pos hle]
    exact (Nat.min_eq_left (UInt16.le_iff_toNat_le.mp hle)).symm
  · rw [if_neg hle]
    rw [UInt16.le_iff_toNat_le] at hle
    exact (Nat.min_eq_right (Nat.le_of_not_le hle)).symm

theorem select_late_toNat (low high : UInt16) :
    (if low < high then (low, (0 : UInt8)) else (high, 1)).1.toNat =
      min low.toNat high.toNat := by
  by_cases hlt : low < high
  · rw [if_pos hlt]
    exact (Nat.min_eq_left (Nat.le_of_lt (UInt16.lt_iff_toNat_lt.mp hlt))).symm
  · rw [if_neg hlt]
    rw [UInt16.lt_iff_toNat_lt] at hlt
    exact (Nat.min_eq_right (Nat.le_of_not_lt hlt)).symm

namespace Reads

variable {base skip off : Nat} {m m' : Nat → Nat} {d : Nat → UInt16}

/-- The metrics that are read are far from the top of their range. -/
theorem read_le (h : Reads base m skip off conv) (hbase : base ≤ 3060) {s : Nat} (hs : s < 64)
    (hskip : skip ∣ s) : (conv.errors.readErrors s).toNat ≤ 41565 := by
  obtain ⟨a, ha, hle⟩ := h.anchor
  have hclose := h.close s a hs ha
  have hmetric := h.metrics s hs hskip
  have hcounter := h.counter_lt
  omega

/-- No sum wraps. -/
theorem sum_exact (h : Reads base m skip off conv) (hbase : base ≤ 3060)
    (hd : ∀ x, x < 4 → (d x).toNat ≤ 510) (reg : Nat) {s : Nat} (hs : s < 64)
    (hskip : skip ∣ s) :
    branchCost d reg + (conv.errors.readErrors s).toNat ≤ 42075 ∧
      (d (codeTable reg) + conv.errors.readErrors s).toNat + off = branchCost d reg + m s := by
  have hread := h.read_le hbase hs hskip
  have hcost := hd (codeTable reg) (codeTable_lt reg)
  have hmetric := h.metrics s hs hskip
  simp only [branchCost]
  rw [UInt16.toNat_add, Nat.mod_eq_of_lt (by omega)]
  omega

/-- Add-compare-select stores the next integers. -/
theorem acs_exact (h : Reads base m 1 off conv) (hbase : base ≤ 3060) (neon : Bool)
    {pairs : PairLookup} (hpairs : PairLookup.For 2 7 codeTable pairs)
    (hd : ∀ x, x < 4 → (d x).toNat ≤ 510) (s : Slice) {state : Nat} (hstate : state < 64) :
    ((acs neon (pairs.fillDistance d) 32 conv.errors.readErrors s).errors state).toNat + off =
      relax 6 (branchCost d) m state := by
  have hentry := acsEntry_fillDistance 5 hpairs codeTable_lt d
    conv.errors.readErrors (j := state) hstate
  have hlow := (h.sum_exact hbase hd state (show state / 2 < 64 by omega) (Nat.one_dvd _)).2
  have hhigh := (h.sum_exact hbase hd (state + 64) (show (state + 64) / 2 < 64 by omega)
    (Nat.one_dvd _)).2
  rw [acs_eq]
  simp only [filled, if_pos (show state < 2 * 32 from hstate)]
  rw [show (32 : Nat) = 2 ^ 5 from rfl, hentry, select_toNat,
    show 2 ^ (5 + 1) = 64 from rfl, show 2 ^ 5 + state / 2 = (state + 64) / 2 by omega]
  simp only [relax, show 2 ^ 6 = 64 from rfl]
  omega

/-- So does the loop of the tail, on every other of the states that are read. -/
theorem tailAcs_exact {half : Nat} (h : Reads base m half off conv) (hbase : base ≤ 3060)
    (hhalf : 0 < half) (hdvd : half ∣ 32) (hd : ∀ x, x < 4 → (d x).toNat ≤ 510) (s : Slice)
    {state : Nat} (hstate : state < 64) (hskip : 2 * half ∣ state) :
    ((tailAcs codeTable d conv.errors.readErrors 64 (2 * half) s).errors state).toNat + off =
      relax 6 (branchCost d) m state := by
  obtain ⟨k, rfl⟩ := hskip
  have hbound : k < (64 + 2 * half - 1) / (2 * half) := by
    rw [Nat.lt_iff_add_one_le, Nat.le_div_iff_mul_le (by omega), Nat.add_mul, Nat.one_mul,
      Nat.mul_comm k]
    omega
  have hentry := (tailAcs_at codeTable d conv.errors.readErrors
    (show 0 < 2 * half by omega) s hbound).1
  have hbase' : (2 * half) >>> 1 = half := by
    rw [Nat.shiftRight_eq_div_pow, Nat.pow_one, Nat.mul_div_cancel_left _ (by omega)]
  rw [Nat.mul_assoc] at hstate
  have hlow := (h.sum_exact hbase hd (2 * (half * k)) (show half * k < 64 by omega)
    (Nat.dvd_mul_right _ _)).2
  have hhigh := (h.sum_exact hbase hd (2 * (half * k) + 64) (show 32 + half * k < 64 by omega)
    ((Nat.dvd_add_right hdvd).mpr (Nat.dvd_mul_right _ _))).2
  simp only [hbase', Nat.mul_comm k (2 * half), Nat.mul_assoc, Nat.mul_comm k half,
    Nat.add_comm 64 (2 * (half * k)), show 64 >>> 1 = 32 from rfl] at hentry
  rw [Nat.mul_assoc, hentry, select_late_toNat]
  simp only [relax, show 2 ^ 6 = 64 from rfl, show 2 * (half * k) / 2 = half * k by omega,
    show (2 * (half * k) + 64) / 2 = 32 + half * k by omega]
  omega

/-- The anchor after one more slice. -/
theorem anchor_relax (h : Reads base m skip off conv) {cost : Nat → Nat}
    (hcheap : ∀ p, p < 64 → ∃ b < 2, cost (2 * p + b) ≤ 255) :
    ∃ s < 64, relax 6 cost m s ≤
      off + base + 255 * (conv.historyBuffer.renormalizeCounter + 1) := by
  obtain ⟨a, ha, hle⟩ := h.anchor
  obtain ⟨s, hs, hgrow⟩ := @relax_growth 6 a cost m 255 ha (hcheap a ha)
  refine ⟨s, hs, Nat.le_trans hgrow ?_⟩
  rw [Nat.mul_succ, ← Nat.add_assoc]
  exact Nat.add_le_add_right hle 255

/-- The metrics of a filled slice do not reach the sentinel of the search. -/
theorem filled_lt (h : Reads base m skip off conv) (hbase : base ≤ 3060) (hclose : Close m')
    (hanchor : ∃ s < 64, m' s ≤ off + base + 255 * (conv.historyBuffer.renormalizeCounter + 1))
    {e : Nat → UInt16} {state : Nat} (hstate : state < 64)
    (hfill : (e state).toNat + off = m' state) : (e state).toNat < 65535 := by
  obtain ⟨a, ha, hle⟩ := hanchor
  have hnear := hclose state a hstate ha
  have hcounter := h.counter_lt
  omega

/-- The search finds the least of the metrics that are still read. -/
theorem search_least (h : Reads base m skip off conv) (neon : Bool) (s : Slice) {skip' : Nat}
    (hpos : 0 < skip')
    (hlt : ∀ state, state < 64 → skip' ∣ state → (s.errors state).toNat < 65535) :
    ∃ p, (conv.historyBuffer.setSlice s.history).search neon s.errors skip' = p ∧ p < 64 ∧
      skip' ∣ p ∧ ∀ state, state < 64 → skip' ∣ state → s.errors p ≤ s.errors state := by
  have hstates : (conv.historyBuffer.setSlice s.history).numStates = 64 := h.ofCode.numStates_eq
  have hwinner := HistoryBuffer.search_eq_winner 0 hstates neon hpos
    (f := fun state => (s.errors state).toNat) (fun state hs hdvd => ⟨rfl, hlt state hs hdvd⟩)
  obtain ⟨hp, hdvd, hleast⟩ := winner_isLeast (fun state => (s.errors state).toNat) skip'
  exact ⟨_, hwinner, hp, hdvd, fun state hs hs' =>
    UInt16.le_iff_toNat_le.mpr (hleast state hs hs')⟩

end Reads

theorem counter_finishSlice (hof : OfCode conv) (neon : Bool) (s : Slice) (skip : Nat) :
    (conv.finishSlice neon s skip).historyBuffer.renormalizeCounter =
      if conv.historyBuffer.renormalizeCounter + 1 = 128 then 0
      else conv.historyBuffer.renormalizeCounter + 1 := by
  rw [← hof.renormalizeInterval_eq]
  exact HistoryBuffer.processSkip_counter neon _ s.errors conv.bitWriter skip

/-- Processing a filled slice. -/
theorem Follows.finish {base skip off : Nat} {m m' : Nat → Nat}
    (h : Follows base m skip off conv) (hbase : base ≤ 3060) (hclose : Close m')
    (hanchor : ∃ s < 64, m' s ≤ off + base + 255 * (conv.historyBuffer.renormalizeCounter + 1))
    (neon : Bool) {s : Slice} {skip' : Nat} (hpos : 0 < skip')
    (hfill : ∀ state, state < 64 → skip' ∣ state → (s.errors state).toNat + off = m' state) :
    Follows base m' skip' (off + subtracted neon conv s skip') (conv.finishSlice neon s skip') := by
  obtain ⟨hread, hsettled⟩ := ErrorBuffer.swap_settled h.settled
    ((conv.historyBuffer.setSlice s.history).processSkip neon s.errors conv.bitWriter
      skip').distances
  obtain ⟨p, hsearch, hp, hpSkip, hleast⟩ := h.search_least neon s hpos
    fun state hs hdvd => h.filled_lt hbase hclose hanchor hs (hfill state hs hdvd)
  have hcounter := h.counter_lt
  have hinterval : conv.historyBuffer.renormalizeInterval = 128 := h.ofCode.renormalizeInterval_eq
  have hnext := counter_finishSlice h.ofCode neon s skip'
  have hafter : ∀ state, (conv.finishSlice neon s skip').errors.readErrors state =
      (conv.historyBuffer.setSlice s.history).processedDistances neon s.errors skip' state := by
    intro state
    rw [← HistoryBuffer.processSkip_distances neon _ s.errors conv.bitWriter skip', ← hread]
    rfl
  -- the distances change only in a slice that renormalizes
  have hprocessed : (conv.historyBuffer.setSlice s.history).processedDistances neon s.errors skip' =
      if conv.historyBuffer.renormalizeCounter + 1 = 128 then
        (conv.historyBuffer.setSlice s.history).renormalize s.errors p
      else s.errors := by
    rw [← hinterval, ← hsearch]
    rfl
  refine ⟨⟨(config_finishSlice neon s _ conv).trans h.ofCode, ?_, hclose, ?_, ?_⟩, hsettled⟩
  · rw [hnext]
    split <;> omega
  · rw [hnext, subtracted, hinterval, hsearch]
    by_cases hrenorm : conv.historyBuffer.renormalizeCounter + 1 = 128
    · -- the least metric becomes zero
      have hmetric := hfill p hp hpSkip
      rw [if_pos hrenorm, if_pos hrenorm]
      exact ⟨p, hp, by omega⟩
    · rw [if_neg hrenorm, if_neg hrenorm]
      exact hanchor
  · intro state hs hdvd
    have hmetric := hfill state hs hdvd
    rw [hafter, hprocessed, subtracted, hinterval, hsearch]
    by_cases hrenorm : conv.historyBuffer.renormalizeCounter + 1 = 128
    · have hle := hleast state hs hdvd
      rw [if_pos hrenorm, if_pos hrenorm, HistoryBuffer.renormalize_apply, if_pos (by
        change state < conv.historyBuffer.numStates
        rw [h.ofCode.numStates_eq]
        exact hs), UInt16.toNat_sub_of_le _ _ hle]
      rw [UInt16.le_iff_toNat_le] at hle
      omega
    · rw [if_neg hrenorm, if_neg hrenorm]
      exact hmetric

end Convolutional

end RyFi.Conv
