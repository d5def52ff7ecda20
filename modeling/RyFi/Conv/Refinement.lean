import RyFi.Conv.Metrics
import RyFi.Conv.Counts

/-! # The decoder refines the ideal one

`Tracks` relates the 16-bit metrics to the metrics of the trellis: they differ by what was
subtracted so far, on every state that still matters.  `Remembers` does the same for the
ring of slices and the bits written.  Every slice of the inner and of the tail phase keeps
both, so a decode of at least twelve and fewer than 2^32 slices writes `decodedBits`.
-/

namespace RyFi.Conv

open CLoop ShiftTrellis

namespace Convolutional

variable {soft msg : Nat → UInt8} {sets n off : Nat} {conv : Convolutional}

/-! ## Metrics -/

/-- The metrics after `n` slices of the inner and the tail phase, less `off`. -/
structure Tracks (soft : Nat → UInt8) (sets n off : Nat) (conv : Convolutional) : Prop where
  ofCode : OfCode conv
  settled : conv.errors.write = conv.errors.index
  counter_lt : conv.historyBuffer.renormalizeCounter < 128
  anchor : ∃ s, (trellis soft sets).Live (n + 6) s ∧ (trellis soft sets).metric (n + 6) s ≤
    off + 255 * (6 + conv.historyBuffer.renormalizeCounter)
  metrics : ∀ s, liveAt sets (n + 6) s →
    (conv.errors.readErrors s).toNat + off = (trellis soft sets).metric (n + 6) s

/-- The anchor after one more slice. -/
theorem anchor_next {bound t : Nat}
    (hanchor : ∃ s, (trellis soft sets).Live t s ∧ (trellis soft sets).metric t s ≤ off + bound) :
    ∃ s, (trellis soft sets).Live (t + 1) s ∧
      (trellis soft sets).metric (t + 1) s ≤ off + (bound + 255) := by
  obtain ⟨a, hlive, hle⟩ := hanchor
  obtain ⟨s, hs, hgrow⟩ := Trellis.metric_growth (T := trellis soft sets) (by simp) hlive
    (cost_cheap t hlive.1)
  refine ⟨s, hs, Nat.le_trans hgrow ?_⟩
  rw [← Nat.add_assoc]
  exact Nat.add_le_add_right hle 255

theorem liveAt_iff {t s : Nat} (ht : 6 ≤ t) :
    liveAt sets t s ↔ t ≤ sets ∧ s < 64 ∧ skipAt sets t ∣ s := by
  have hpow : 2 ^ 6 ≤ 2 ^ t := Nat.pow_le_pow_right (by omega) ht
  constructor
  · rintro ⟨hle, hs, -, hskip⟩
    exact ⟨hle, hs, hskip⟩
  · rintro ⟨hle, hs, hskip⟩
    exact ⟨hle, hs, by omega, hskip⟩

/-- The predecessors of a state that matters matter. -/
theorem liveAt_pred {t s : Nat} (ht : 6 ≤ t) (h : liveAt sets (t + 1) s) :
    liveAt sets t (s / 2) ∧ liveAt sets t ((s + 64) / 2) := by
  rw [liveAt_iff (by omega)] at h
  obtain ⟨hle, hs, hskip⟩ := h
  rw [liveAt_iff ht, liveAt_iff ht]
  by_cases hinner : t + 1 ≤ sets - 6
  · have hone : skipAt sets t = 1 := by
      rw [skipAt, show t - (sets - 6) = 0 by omega, Nat.pow_zero]
    rw [hone]
    exact ⟨⟨by omega, by omega, Nat.one_dvd _⟩, by omega, by omega, Nat.one_dvd _⟩
  · have hdouble : skipAt sets (t + 1) = 2 * skipAt sets t := by
      rw [skipAt, skipAt, ← Nat.pow_succ', show t + 1 - (sets - 6) = t - (sets - 6) + 1 by omega]
    have hdvd : skipAt sets t ∣ 32 := by
      rw [skipAt, show (32 : Nat) = 2 ^ 5 from rfl]
      exact Nat.pow_dvd_pow 2 (by omega)
    rw [hdouble] at hskip
    obtain ⟨c, rfl⟩ := hskip
    rw [Nat.mul_assoc, Nat.mul_div_cancel_left _ (by omega),
      show (2 * (skipAt sets t * c) + 64) / 2 = skipAt sets t * c + 32 by omega]
    rw [Nat.mul_assoc] at hs
    exact ⟨⟨by omega, by omega, Nat.dvd_mul_right _ _⟩, by omega, by omega,
      (Nat.dvd_add_right (Nat.dvd_mul_right _ _)).mpr hdvd⟩

/-! ## Filled slices -/

/-- The slice filled as time slice `n + 6`: metrics and history of the states that matter. -/
def Fills (soft : Nat → UInt8) (sets n off : Nat) (s : Slice) : Prop :=
  ∀ state, liveAt sets (n + 7) state →
    (s.errors state).toNat + off = (trellis soft sets).metric (n + 7) state ∧
      s.history state = historyOf soft sets n state

theorem close_metric {t : Nat} (ht : 6 ≤ t) : Close ((trellis soft sets).metric t) := by
  intro s s' hs hs'
  have hpow : 2 ^ 6 ≤ 2 ^ t := Nat.pow_le_pow_right (by omega) ht
  have hspread : (trellis soft sets).metric t s ≤ (trellis soft sets).metric t s' + 6 * 510 :=
    Trellis.metric_spread (by simp) cost_le ⟨hs, by omega⟩ ⟨hs', by omega⟩
  omega

theorem Tracks.follows (h : Tracks soft sets n off conv) (hsets : n + 6 ≤ sets) :
    Follows 1530 ((trellis soft sets).metric (n + 6)) (skipAt sets (n + 6)) off conv := by
  refine ⟨⟨h.ofCode, h.counter_lt, close_metric (by omega), ?_, ?_⟩, h.settled⟩
  · obtain ⟨s, hlive, hle⟩ := h.anchor
    exact ⟨s, hlive.1, Nat.le_trans hle (by omega)⟩
  · intro s hs hdvd
    exact h.metrics s ((liveAt_iff (by omega)).mpr ⟨hsets, hs, hdvd⟩)

theorem tracks_of_follows
    (h : Follows 1530 ((trellis soft sets).metric (n + 6)) (skipAt sets (n + 6)) off conv) :
    Tracks soft sets n off conv := by
  have hpow : 2 ^ 6 ≤ 2 ^ (n + 6) := Nat.pow_le_pow_right (by omega) (by omega)
  refine ⟨h.ofCode, h.settled, h.counter_lt, ?_, ?_⟩
  · obtain ⟨s, hs, hle⟩ := h.anchor
    exact ⟨s, ⟨hs, by omega⟩, Nat.le_trans hle (by omega)⟩
  · intro s hlive
    obtain ⟨-, hs, hdvd⟩ := (liveAt_iff (by omega)).mp hlive
    exact h.metrics s hs hdvd

/-- The sum a register contributes is its arrival cost: it does not wrap. -/
theorem sum_tracks (h : Tracks soft sets n off conv) {d : Nat → UInt16}
    (hd : ∀ x, x < 4 → (d x).toNat = sliceCost soft (n + 6) x) {reg : Nat}
    (hlive : liveAt sets (n + 6) (reg / 2)) :
    (d (codeTable reg) + conv.errors.readErrors (reg / 2)).toNat + off =
      (trellis soft sets).arrive (n + 6) reg := by
  obtain ⟨hsets, hs, hdvd⟩ := (liveAt_iff (by omega)).mp hlive
  have hle : ∀ x, x < 4 → (d x).toNat ≤ 510 := fun x hx => by
    rw [hd x hx]
    exact sliceCost_le soft (n + 6) x
  rw [((h.follows hsets).sum_exact (by omega) hle reg hs hdvd).2, branchCost,
    hd _ (codeTable_lt reg)]
  simp only [Trellis.arrive, trellis]
  rw [if_neg (by omega)]

/-- Before the tail, ties select the low predecessor. -/
theorem select_fills {low high : UInt16} {s : Nat} (hinner : n + 6 < sets - 6)
    (hlow : low.toNat + off = (trellis soft sets).arrive (n + 6) s)
    (hhigh : high.toNat + off = (trellis soft sets).arrive (n + 6) (s + 64)) :
    (select low high).1.toNat + off = (trellis soft sets).metric (n + 7) s ∧
      (select low high).2 = historyOf soft sets n s := by
  have hchoice : (trellis soft sets).high (n + 6) s = decide (high < low) := by
    rw [Trellis.high_inner (T := trellis soft sets) (Nat.le_add_left 6 n) hinner, trellis_memory,
      show s + 2 ^ 6 = s + 64 from rfl, ← hlow, ← hhigh]
    exact decide_eq_decide.mpr (by rw [UInt16.lt_iff_toNat_lt]; omega)
  have hmetric := Trellis.metric_succ_eq (trellis soft sets) (n + 6) s
  rw [hchoice, trellis_memory, show s + 2 ^ 6 = s + 64 from rfl] at hmetric
  simp only [historyOf, hchoice, hmetric, select]
  by_cases hle : low ≤ high
  · have hnot : ¬ high < low := UInt16.not_lt.mpr hle
    simp only [hle, hnot, decide_false, if_true, Bool.false_eq_true, if_false]
    exact ⟨hlow, trivial⟩
  · have hlt : high < low := UInt16.not_le.mp hle
    simp only [hle, hlt, decide_true, if_true, if_false]
    exact ⟨hhigh, trivial⟩

/-- In the tail, ties select the high predecessor. -/
theorem select_fills_late {low high : UInt16} {s : Nat} (htail : sets - 6 ≤ n + 6)
    (hlow : low.toNat + off = (trellis soft sets).arrive (n + 6) s)
    (hhigh : high.toNat + off = (trellis soft sets).arrive (n + 6) (s + 64)) :
    (if low < high then (low, (0 : UInt8)) else (high, 1)).1.toNat + off =
        (trellis soft sets).metric (n + 7) s ∧
      (if low < high then (low, (0 : UInt8)) else (high, 1)).2 = historyOf soft sets n s := by
  have hchoice : (trellis soft sets).high (n + 6) s = decide (¬ low < high) := by
    rw [Trellis.high_late (T := trellis soft sets) (Nat.le_add_left 6 n) htail, trellis_memory,
      show s + 2 ^ 6 = s + 64 from rfl, ← hlow, ← hhigh]
    exact decide_eq_decide.mpr (by rw [UInt16.lt_iff_toNat_lt]; omega)
  have hmetric := Trellis.metric_succ_eq (trellis soft sets) (n + 6) s
  rw [hchoice, trellis_memory, show s + 2 ^ 6 = s + 64 from rfl] at hmetric
  simp only [historyOf, hchoice, hmetric]
  by_cases hlt : low < high
  · simp only [hlt, not_true_eq_false, decide_false, if_true, Bool.false_eq_true, if_false]
    exact ⟨hlow, trivial⟩
  · simp only [hlt, not_false_eq_true, decide_true, if_true, if_false]
    exact ⟨hhigh, trivial⟩

/-- Add-compare-select fills the slice of the inner phase. -/
theorem acs_fills (h : Tracks soft sets n off conv) (hinner : n + 6 < sets - 6) (neon : Bool)
    {pairs : PairLookup} (hpairs : PairLookup.For 2 7 codeTable pairs) {d : Nat → UInt16}
    (hd : ∀ x, x < 4 → (d x).toNat = sliceCost soft (n + 6) x) (s : Slice) :
    Fills soft sets n off
      (acs neon (pairs.fillDistance d) 32 conv.errors.readErrors s) := by
  intro state hlive
  obtain ⟨hpredLow, hpredHigh⟩ := liveAt_pred (by omega) hlive
  have hlt : state < 64 := hlive.2.1
  have hentry := acsEntry_fillDistance 5 hpairs codeTable_lt d
    conv.errors.readErrors (j := state) hlt
  have hlow := sum_tracks h hd hpredLow
  have hhigh := sum_tracks h hd hpredHigh
  rw [show (state + 64) / 2 = 2 ^ 5 + state / 2 by omega] at hhigh
  rw [acs_eq]
  simp only [filled, if_pos (show state < 2 * 32 from hlt)]
  rw [show (32 : Nat) = 2 ^ 5 from rfl, hentry, show 2 ^ (5 + 1) = 64 from rfl]
  exact select_fills hinner hlow hhigh

theorem tailAcs_fills (h : Tracks soft sets n off conv) (htail : sets - 6 ≤ n + 6)
    {d : Nat → UInt16} (hd : ∀ x, x < 4 → (d x).toNat = sliceCost soft (n + 6) x) (s : Slice) :
    Fills soft sets n off
      (tailAcs codeTable d conv.errors.readErrors 64 (skipAt sets (n + 7)) s) := by
  intro state hlive
  obtain ⟨hpredLow, hpredHigh⟩ := liveAt_pred (by omega) hlive
  have hlow := sum_tracks h hd hpredLow
  have hhigh := sum_tracks h hd hpredHigh
  have hlt : state < 64 := hlive.2.1
  have hdouble : skipAt sets (n + 7) = 2 * skipAt sets (n + 6) := by
    rw [skipAt, skipAt, ← Nat.pow_succ', show n + 7 - (sets - 6) = n + 6 - (sets - 6) + 1 by omega]
  have hpos : 0 < skipAt sets (n + 6) := Nat.two_pow_pos _
  obtain ⟨k, rfl⟩ := hlive.2.2.2
  rw [hdouble] at hlow hhigh hlt ⊢
  generalize skipAt sets (n + 6) = half at hpos hlow hhigh hlt
  have hbound : k < (64 + 2 * half - 1) / (2 * half) := by
    rw [Nat.lt_iff_add_one_le, Nat.le_div_iff_mul_le (by omega), Nat.add_mul, Nat.one_mul,
      Nat.mul_comm k]
    omega
  have hentry := tailAcs_at codeTable d conv.errors.readErrors (by omega) s hbound
  have hbase : (2 * half) >>> 1 = half := by
    rw [Nat.shiftRight_eq_div_pow, Nat.pow_one, Nat.mul_div_cancel_left _ (by omega)]
  rw [Nat.mul_assoc, Nat.mul_div_cancel_left _ (by omega)] at hlow
  rw [Nat.mul_assoc, show (2 * (half * k) + 64) / 2 = 32 + half * k by omega] at hhigh
  simp only [hbase] at hentry
  rw [Nat.mul_comm k (2 * half), Nat.mul_assoc, Nat.mul_comm k half,
    Nat.add_comm 64 (2 * (half * k)), show 64 >>> 1 = 32 from rfl] at hentry
  rw [Nat.mul_assoc, hentry.1, hentry.2]
  exact select_fills_late htail hlow hhigh

end Convolutional

end RyFi.Conv
