import RyFi.Conv.Slices
import Mathlib.Algebra.BigOperators.Ring.Finset
import Mathlib.Tactic.Ring

/-! # Path metrics and the distances they measure

A path of `t` bits is the number they spell, the newest bit lowest: it drives the register
from zero into state `w % 64`.  What the decoder holds for a state, with what it has
subtracted, is the least distance of the paths into it from all slices but the first: the
first swap of the metrics lets go of the first slice.  Counting the first slice as well, as
the comments of the warmup do, gives another law, and it holds in no call.
-/

namespace RyFi.Conv

open CLoop ShiftTrellis

/-! ## Distances -/

/-- The distance of a path from the slices received from `first` on. -/
def pathDistance (soft : Nat → UInt8) (first : Nat) : Nat → Nat → Nat
  | 0, _ => 0
  | t + 1, w => pathDistance soft first t (w / 2) +
      if first ≤ t then sliceCost soft t (codeTable (w % 128)) else 0

/-- `least` is the least distance of the paths into `state`. -/
def Cheapest (distance : Nat → Nat) (t state least : Nat) : Prop :=
  (∃ w < 2 ^ t, w % 64 = state ∧ distance w = least) ∧
    ∀ w < 2 ^ t, w % 64 = state → least ≤ distance w

variable {soft : Nat → UInt8} {sets n t : Nat}

theorem pathDistance_succ (first t w : Nat) :
    pathDistance soft first (t + 1) w = pathDistance soft first t (w / 2) +
      if first ≤ t then sliceCost soft t (codeTable (w % 128)) else 0 := rfl

theorem pathDistance_later (sets t w : Nat) :
    pathDistance soft 1 t w = (trellis soft sets).pathCost t w := by
  induction t generalizing w with
  | zero => rfl
  | succ t ih =>
    simp only [pathDistance, Trellis.pathCost, trellis, ih]
    by_cases hfirst : t = 0
    · rw [if_neg (by omega), if_pos hfirst]
    · rw [if_pos (by omega), if_neg hfirst]
      rfl

/-- The first slice sees the oldest bit. -/
theorem pathDistance_all (t : Nat) {w : Nat} (hw : w < 2 ^ (t + 1)) :
    pathDistance soft 0 (t + 1) w =
      sliceCost soft 0 (codeTable (w / 2 ^ t)) + pathDistance soft 1 (t + 1) w := by
  induction t generalizing w with
  | zero =>
    have hw : w < 2 := by simpa using hw
    simp only [pathDistance]
    rw [Nat.pow_zero, Nat.div_one, Nat.mod_eq_of_lt (by omega), if_pos (by omega),
      if_neg (by omega)]
    omega
  | succ t ih =>
    rw [Nat.pow_succ] at hw
    have hpast := ih (w := w / 2) (by omega)
    rw [Nat.div_div_eq_div_mul, ← Nat.pow_succ'] at hpast
    rw [pathDistance_succ 0 (t + 1), pathDistance_succ 1 (t + 1), hpast,
      if_pos (Nat.zero_le _), if_pos (show 1 ≤ t + 1 by omega), Nat.add_assoc]

/-- On average a path is half the largest distance away. -/
theorem sum_pathDistance (t : Nat) :
    ∑ w ∈ Finset.range (2 ^ t), pathDistance soft 0 t w = 2 ^ t * (t * 255) := by
  induction t with
  | zero => rfl
  | succ t ih =>
    calc ∑ w ∈ Finset.range (2 ^ (t + 1)), pathDistance soft 0 (t + 1) w
        = ∑ p ∈ Finset.range (2 ^ t), (pathDistance soft 0 (t + 1) (2 * p) +
            pathDistance soft 0 (t + 1) (2 * p + 1)) := by rw [Nat.pow_succ', sum_pairs]
      _ = ∑ p ∈ Finset.range (2 ^ t), (2 * pathDistance soft 0 t p + 510) := by
          refine Finset.sum_congr rfl fun p _ => ?_
          have hpair := sliceCost_pair soft t (Nat.mod_lt p (show 0 < 64 by omega))
          simp only [pathDistance, if_pos (Nat.zero_le t)]
          rw [show 2 * p / 2 = p by omega, show (2 * p + 1) / 2 = p by omega,
            show 2 * p % 128 = 2 * (p % 64) by omega,
            show (2 * p + 1) % 128 = 2 * (p % 64) + 1 by omega]
          omega
      _ = 2 ^ (t + 1) * ((t + 1) * 255) := by
          rw [Finset.sum_add_distrib, ← Finset.mul_sum, ih, Finset.sum_const, Finset.card_range]
          change 2 * (2 ^ t * (t * 255)) + 2 ^ t * 510 = 2 ^ (t + 1) * ((t + 1) * 255)
          ring

/-- The metrics of a state are what a cheapest path costs. -/
theorem cheapest_metric {state : Nat} (hstate : state < 64) (hpow : state < 2 ^ t) :
    Cheapest (pathDistance soft 1 t) t state ((trellis soft sets).metric t state) := by
  have hlive : (trellis soft sets).Live t state := ⟨hstate, hpow⟩
  refine ⟨⟨(trellis soft sets).best t state, Trellis.best_lt t state,
    Trellis.best_state (by simp) hlive, ?_⟩, ?_⟩
  · rw [pathDistance_later sets]
    exact Trellis.pathCost_best (by simp) hlive
  · intro w hw hend
    rw [pathDistance_later sets, ← hend]
    exact Trellis.metric_le hw

/-- Counting the first slice changes nothing where a cheapest path costs nothing there. -/
theorem cheapest_all_iff {state least : Nat}
    (h : Cheapest (pathDistance soft 1 (t + 1)) (t + 1) state least) :
    Cheapest (pathDistance soft 0 (t + 1)) (t + 1) state least ↔
      ∃ w < 2 ^ (t + 1), w % 64 = state ∧ pathDistance soft 1 (t + 1) w = least ∧
        sliceCost soft 0 (codeTable (w / 2 ^ t)) = 0 := by
  constructor
  · rintro ⟨⟨w, hw, hend, hleast⟩, -⟩
    have hle := h.2 w hw hend
    rw [pathDistance_all t hw] at hleast
    exact ⟨w, hw, hend, by omega, by omega⟩
  · rintro ⟨w, hw, hend, hleast, hfree⟩
    refine ⟨⟨w, hw, hend, ?_⟩, fun v hv hend' => ?_⟩
    · rw [pathDistance_all t hw, hfree, hleast, Nat.zero_add]
    · rw [pathDistance_all t hv]
      exact Nat.le_add_left_of_le (h.2 v hv hend')

namespace Convolutional

variable {conv : Convolutional}

/-! ## What the decoder holds -/

/-- The metric of a state after `n` slices of the inner phase, and what was subtracted. -/
def heldMetric (neon : Bool) (soft : Nat → UInt8) (start : Convolutional) (n state : Nat) : Nat :=
  ((innerRun neon soft start n).errors.readErrors state).toNat +
    innerSubtracted neon soft start n

/-- The metrics held after `n` slices of the inner phase measure the paths from slice `first`
    on. -/
def MetricLaw (neon : Bool) (soft : Nat → UInt8) (sets first n : Nat) (start : Convolutional) :
    Prop :=
  ∀ state < 64, Cheapest (pathDistance soft first (min 6 sets + n)) (min 6 sets + n) state
    (heldMetric neon soft start n state)

theorem heldMetric_eq (h : Ready conv) (numEncodedBytes : Nat) (msg soft : Nat → UInt8)
    (neon : Bool) (hsets : sets < 2 ^ 32) (hread : ¬ (sets = 0 ∧ n = 0))
    (hslices : ∀ j, j < n → InnerSlice sets j) {state : Nat} (hstate : state < 64) :
    heldMetric neon soft (conv.warmed numEncodedBytes msg soft sets) n state =
      trueMetric soft sets n state +
        unreadSubtracted neon soft sets (conv.warmed numEncodedBytes msg soft sets) := by
  obtain ⟨off, htotal, hfollows⟩ := follows_innerRun h numEncodedBytes msg soft neon hsets hread
    hslices
  have hmetric := hfollows.metrics state hstate (Nat.one_dvd _)
  rw [heldMetric, htotal, ← hmetric]
  omega

/-- With a whole warmup the integers are the metrics of the trellis. -/
theorem trueMetric_trellis (hlarge : 6 ≤ sets) (hslices : ∀ j, j < n → InnerSlice sets j)
    {state : Nat} (hstate : state < 64) :
    trueMetric soft sets n state = (trellis soft sets).metric (6 + n) state := by
  induction n generalizing state with
  | zero =>
    change warmMetric soft (min 6 sets) state = _
    rw [Nat.min_eq_left hlarge]
    exact warmMetric_eq sets (by omega) hstate
  | succ n ih =>
    have hinner := hslices n (by omega)
    have hpast := fun p (hp : p < 64) => ih (fun j hj => hslices j (by omega)) hp
    have hindex : sliceIndex sets n = 6 + n := by
      simp only [InnerSlice] at hinner
      rw [sliceIndex, if_neg (by omega), Nat.min_eq_left (by omega)]
    have hcost : ∀ reg, (trellis soft sets).cost (6 + n) reg = nextCost soft sets n reg := by
      intro reg
      rw [nextCost, hindex]
      exact if_neg (by omega)
    rw [trueMetric_succ (by omega), trueNext_eq, ← Nat.add_assoc,
      Trellis.metric_relax _ (show (trellis soft sets).memory ≤ 6 + n from Nat.le_add_right 6 n)]
    simp only [relax, hcost, trellis_memory]
    rw [hpast _ (by omega), hpast _ (by omega)]

/-- The law the code obeys. -/
theorem metricLaw_later (h : Ready conv) (numEncodedBytes : Nat) (msg soft : Nat → UInt8)
    (neon : Bool) (hsets : sets < 2 ^ 32) (hlarge : 6 ≤ sets)
    (hslices : ∀ j, j < n → InnerSlice sets j) :
    MetricLaw neon soft sets 1 n (conv.warmed numEncodedBytes msg soft sets) := by
  intro state hstate
  have hpow : 2 ^ 6 ≤ 2 ^ (6 + n) := Nat.pow_le_pow_right (by omega) (by omega)
  rw [heldMetric_eq h numEncodedBytes msg soft neon hsets (by omega) hslices hstate,
    trueMetric_trellis hlarge hslices hstate, unreadSubtracted, if_neg (by omega), Nat.add_zero,
    Nat.min_eq_left hlarge]
  exact cheapest_metric hstate (by omega)

/-! ## The law with the first slice -/

theorem sum_warmMetric {i : Nat} (hi : i < 6) :
    ∑ s ∈ Finset.range (2 ^ (i + 1)), warmMetric soft (i + 1) s = 2 ^ (i + 1) * (i * 255) := by
  induction i with
  | zero => rfl
  | succ i ih =>
    have hpow : 2 ^ (i + 1) ≤ 2 ^ 6 := Nat.pow_le_pow_right (by omega) (by omega)
    calc ∑ s ∈ Finset.range (2 ^ (i + 2)), warmMetric soft (i + 2) s
        = ∑ p ∈ Finset.range (2 ^ (i + 1)), (warmMetric soft (i + 2) (2 * p) +
            warmMetric soft (i + 2) (2 * p + 1)) := by rw [Nat.pow_succ', sum_pairs]
      _ = ∑ p ∈ Finset.range (2 ^ (i + 1)), (2 * warmMetric soft (i + 1) p + 510) := by
          refine Finset.sum_congr rfl fun p hp => ?_
          have hp := Finset.mem_range.mp hp
          have hpair := sliceCost_pair soft (i + 1) (show p < 64 by omega)
          have hsucc : 2 ^ (i + 2) = 2 ^ (i + 1) * 2 := Nat.pow_succ 2 (i + 1)
          simp only [warmMetric]
          rw [if_pos (by omega), if_pos (by omega), show 2 * p / 2 = p by omega,
            show (2 * p + 1) / 2 = p by omega]
          omega
      _ = 2 ^ (i + 1 + 1) * ((i + 1) * 255) := by
          rw [Finset.sum_add_distrib, ← Finset.mul_sum, ih (by omega), Finset.sum_const,
            Finset.card_range]
          change 2 * (2 ^ (i + 1) * (i * 255)) + 2 ^ (i + 1) * 510 =
            2 ^ (i + 1 + 1) * ((i + 1) * 255)
          ring

/-- A short warmup leaves zeros: on average the metrics are no larger for it. -/
theorem sum_warmMetric_le {i : Nat} (hi : i < 6) :
    ∑ s ∈ Finset.range 64, warmMetric soft (i + 1) s ≤ 64 * (i * 255) := by
  have hpow : 2 ^ (i + 1) ≤ 2 ^ 6 := Nat.pow_le_pow_right (by omega) (by omega)
  have hsub : Finset.range (2 ^ (i + 1)) ⊆ Finset.range 64 := Finset.range_mono hpow
  rw [← Finset.sum_subset hsub fun s _ hs => warmMetric_above (by
    rw [Finset.mem_range] at hs
    omega), sum_warmMetric hi]
  exact Nat.mul_le_mul_right _ hpow

/-- Every later slice adds 255 on average, if not less. -/
theorem sum_trueMetric_le (soft : Nat → UInt8) (sets n k : Nat) (hread : ¬ (sets = 0 ∧ n = 0)) :
    ∑ s ∈ Finset.range 64, trueMetric soft sets (n + k) s ≤
      64 * (k * 255) + ∑ s ∈ Finset.range 64, trueMetric soft sets n s := by
  induction k with
  | zero => simp
  | succ k ih =>
    have hstep := @sum_relax_le 5 (nextCost soft sets (n + k)) (trueMetric soft sets (n + k)) 510
      fun q hq => nextCost_pair soft sets (n + k) hq
    rw [← trueNext_eq, ← trueMetric_succ (by omega)] at hstep
    change ∑ s ∈ Finset.range 64, trueMetric soft sets (n + k + 1) s ≤
      32 * 510 + ∑ s ∈ Finset.range 64, trueMetric soft sets (n + k) s at hstep
    rw [← Nat.add_assoc]
    omega

/-- The costs of four registers cannot all be 255. -/
theorem exists_cheap (soft : Nat → UInt8) (t : Nat) :
    ∃ reg < 64, sliceCost soft t (codeTable reg) < 255 := by
  have hrows : codeTable 0 = 0 ∧ codeTable 1 = 3 ∧ codeTable 32 = 1 ∧ codeTable 33 = 2 := by
    decide +kernel
  obtain ⟨h0, h1, h32, h33⟩ := hrows
  have hfirst := (soft (2 * t)).toNat_lt
  have hsecond := (soft (2 * t + 1)).toNat_lt
  by_contra hnone
  have hall : ∀ reg, reg < 64 → 255 ≤ sliceCost soft t (codeTable reg) := fun reg hreg =>
    Nat.le_of_not_lt fun hlt => hnone ⟨reg, hreg, hlt⟩
  have hcost0 := hall 0 (by omega)
  have hcost1 := hall 1 (by omega)
  have hcost32 := hall 32 (by omega)
  have hcost33 := hall 33 (by omega)
  rw [h0] at hcost0
  rw [h1] at hcost1
  rw [h32] at hcost32
  rw [h33] at hcost33
  simp only [sliceCost, bitCost, Nat.testBit_zero, Nat.testBit_succ]
    at hcost0 hcost1 hcost32 hcost33
  simp only [Nat.reduceMod, Nat.reduceDiv, decide_true, decide_false, if_true, if_false,
    Nat.zero_mod, Nat.zero_div, Bool.false_eq_true, zero_ne_one] at hcost0 hcost1 hcost32 hcost33
  omega

/-- The one slice that is not read subtracts less than that. -/
theorem unreadSubtracted_lt (h : Ready conv) (numEncodedBytes : Nat) (msg soft : Nat → UInt8)
    (neon : Bool) :
    unreadSubtracted neon soft 0 (conv.warmed numEncodedBytes msg soft 0) < 255 := by
  have hreads := reads_warmed h numEncodedBytes msg soft 0
  have hready := reads_ready soft hreads 6
  have hfill := fun state (hs : state < 64) => inner_fills (n := 0) hreads neon hs
  have hlt := fun state hs (_ : 1 ∣ state) =>
    hready.filled_lt (by omega) (close_trueNext 0) (anchor_inner hready) hs (hfill state hs)
  obtain ⟨p, hsearch, -, -, hleast⟩ := hready.search_least neon
    ((conv.warmed numEncodedBytes msg soft 0).innerFilled neon soft 6) (Nat.succ_pos 0) hlt
  have htotal : unreadSubtracted neon soft 0 (conv.warmed numEncodedBytes msg soft 0) =
      subtracted neon ((conv.warmed numEncodedBytes msg soft 0).innerReady soft 6)
        ((conv.warmed numEncodedBytes msg soft 0).innerFilled neon soft 6) 1 := by
    rw [unreadSubtracted, if_pos rfl, innerSubtracted_succ]
    exact Nat.zero_add _
  rw [htotal, subtracted, hsearch]
  split
  · obtain ⟨reg, hreg, hcost⟩ := exists_cheap soft 6
    have hmin := hleast reg hreg (Nat.one_dvd _)
    have hnext : (((conv.warmed numEncodedBytes msg soft 0).innerFilled neon soft 6).errors
        reg).toNat ≤ sliceCost soft 6 (codeTable reg) := by
      have hle := Nat.min_le_left (trueArrive soft 0 0 reg) (trueArrive soft 0 0 (reg + 64))
      have heq := hfill reg hreg
      exact Nat.le_trans (Nat.le_of_eq heq) hle
    rw [UInt16.le_iff_toNat_le] at hmin
    omega
  · omega

theorem sum_heldMetric_lt (h : Ready conv) (numEncodedBytes : Nat) (msg soft : Nat → UInt8)
    (neon : Bool) (hsets : sets < 2 ^ 32) :
    ∑ state ∈ Finset.range 64, heldMetric neon soft
      (conv.warmed numEncodedBytes msg soft sets) (6 - min 6 sets) state < 64 * (6 * 255) := by
  have hslices : ∀ j, j < 6 - min 6 sets → InnerSlice sets j := fun j hj => Or.inl (by omega)
  have hheld : ∑ state ∈ Finset.range 64, heldMetric neon soft
        (conv.warmed numEncodedBytes msg soft sets) (6 - min 6 sets) state =
      ∑ state ∈ Finset.range 64, (trueMetric soft sets (6 - min 6 sets) state +
        unreadSubtracted neon soft sets (conv.warmed numEncodedBytes msg soft sets)) :=
    Finset.sum_congr rfl fun state hs => heldMetric_eq h numEncodedBytes msg soft neon hsets
      (by omega) hslices (Finset.mem_range.mp hs)
  rw [hheld, Finset.sum_add_distrib, Finset.sum_const, Finset.card_range]
  change _ + 64 * unreadSubtracted neon soft sets _ < _
  by_cases hempty : sets = 0
  · subst hempty
    have hunread := unreadSubtracted_lt h numEncodedBytes msg soft neon
    have hsum := sum_trueMetric_le soft 0 1 5 (by omega)
    have hzero : ∑ s ∈ Finset.range 64, trueMetric soft 0 1 s = 0 :=
      Finset.sum_eq_zero fun s _ => trueMetric_unread s
    rw [hzero] at hsum
    change ∑ s ∈ Finset.range 64, trueMetric soft 0 6 s ≤ _ at hsum
    change ∑ s ∈ Finset.range 64, trueMetric soft 0 6 s + _ < _
    omega
  · obtain ⟨i, hi⟩ : ∃ i, min 6 sets = i + 1 := ⟨min 6 sets - 1, by omega⟩
    have hstart : ∑ s ∈ Finset.range 64, trueMetric soft sets 0 s ≤ 64 * (i * 255) := by
      change ∑ s ∈ Finset.range 64, warmMetric soft (min 6 sets) s ≤ _
      rw [hi]
      exact sum_warmMetric_le (by omega)
    have hsum := sum_trueMetric_le soft sets 0 (6 - min 6 sets) (by omega)
    rw [Nat.zero_add] at hsum
    rw [unreadSubtracted, if_neg hempty]
    omega

/-- Counted with the first slice, the metrics are wrong after six slices in every call. -/
theorem not_metricLaw (h : Ready conv) (numEncodedBytes : Nat) (msg soft : Nat → UInt8)
    (neon : Bool) (hsets : sets < 2 ^ 32) :
    ¬ MetricLaw neon soft sets 0 (6 - min 6 sets) (conv.warmed numEncodedBytes msg soft sets) := by
  intro hlaw
  have hlt := sum_heldMetric_lt h numEncodedBytes msg soft neon hsets
  have heq : ∑ state ∈ Finset.range 64, heldMetric neon soft
        (conv.warmed numEncodedBytes msg soft sets) (6 - min 6 sets) state =
      ∑ state ∈ Finset.range 64, pathDistance soft 0 6 state := by
    refine Finset.sum_congr rfl fun state hs => ?_
    have hs := Finset.mem_range.mp hs
    obtain ⟨⟨w, hw, hend, hleast⟩, -⟩ := hlaw state hs
    rw [show min 6 sets + (6 - min 6 sets) = 6 by omega] at hw hleast
    have hpow : (2 : Nat) ^ 6 = 64 := rfl
    rw [← hleast, show w = state by omega]
  have hsum : ∑ state ∈ Finset.range 64, pathDistance soft 0 6 state = 64 * (6 * 255) :=
    sum_pathDistance 6
  omega

/-- What the metrics measure.  With the first slice the law holds of a state and a time just
    where some cheapest path costs nothing in it; in no call does it always hold.  A call that
    ends has done just these slices, the tail and the flush. -/
theorem metric_law (h : Ready conv) (neon : Bool) (numEncodedBytes : Nat)
    (msg soft : Nat → UInt8) {s : Nat} (hs : 12 ≤ s) :
    let sets := s % 2 ^ 32
    let start := conv.warmed numEncodedBytes msg soft sets
    let last := conv.tailed neon numEncodedBytes msg soft sets
    (6 ≤ sets → ∀ n, (∀ j < n, InnerSlice sets j) →
      MetricLaw neon soft sets 1 n start ∧
      ∀ state < 64,
        (Cheapest (pathDistance soft 0 (6 + n)) (6 + n) state (heldMetric neon soft start n state) ↔
          ∃ w < 2 ^ (6 + n), w % 64 = state ∧
            pathDistance soft 1 (6 + n) w = heldMetric neon soft start n state ∧
            sliceCost soft 0 (codeTable (w / 2 ^ (5 + n))) = 0)) ∧
    (¬ ∀ n, (∀ j < n, InnerSlice sets j) → 6 ≤ min 6 sets + n → min 6 sets + n ≤ s - 6 →
        MetricLaw neon soft sets 0 n start) ∧
    (6 ≤ sets → conv.decodeSets neon (2 * s) numEncodedBytes msg (some soft) =
      some (last.flushed, last.flushed.bitWriter.length)) := by
  intro sets start last
  have hsets : sets < 2 ^ 32 := Nat.mod_lt _ (Nat.two_pow_pos 32)
  refine ⟨fun hlarge n hslices => ?_, fun hlaw => ?_,
    decodeSets_runs h neon numEncodedBytes msg soft s⟩
  · have hlater := metricLaw_later h numEncodedBytes msg soft neon hsets hlarge hslices
    refine ⟨hlater, fun state hstate => ?_⟩
    have hcheapest := hlater state hstate
    rw [Nat.min_eq_left hlarge, show 6 + n = 5 + n + 1 by omega] at hcheapest
    rw [show 6 + n = 5 + n + 1 by omega]
    exact cheapest_all_iff hcheapest
  · exact not_metricLaw h numEncodedBytes msg soft neon hsets
      (hlaw _ (fun j hj => Or.inl (by omega)) (by omega) (by omega))

/-- A block of 200 slices on a fresh instance, at the end of its inner phase. -/
theorem metric_law_fresh :
    MetricLaw false (fun _ => 0xFF) 200 1 188 (fresh.warmed 50 (fun _ => 0) (fun _ => 0xFF) 200) ∧
      (¬ ∀ n, (∀ j < n, InnerSlice 200 j) → 6 ≤ min 6 200 + n → min 6 200 + n ≤ 200 - 6 →
        MetricLaw false (fun _ => 0xFF) 200 0 n
          (fresh.warmed 50 (fun _ => 0) (fun _ => 0xFF) 200)) ∧
      (fresh.decodeSets false 400 50 (fun _ => 0) (some fun _ => 0xFF)).isSome := by
  obtain ⟨hlater, hnever, hruns⟩ := metric_law ready_fresh false 50 (fun _ => 0) (fun _ => 0xFF)
    (show 12 ≤ 200 by omega)
  refine ⟨(hlater (by omega) 188 fun j hj => Or.inr (by omega)).1, hnever, ?_⟩
  rw [hruns (by omega)]
  rfl

/-- Zeros received: state 32 is held as if its path, which begins with a one, cost nothing in
    the first slice. -/
theorem metric_law_misses_first :
    ¬ ∀ n, (∀ j < n, InnerSlice 12 j) → 6 ≤ min 6 12 + n → min 6 12 + n ≤ 12 - 6 →
      MetricLaw false (fun _ => 0) 12 0 n (fresh.warmed 3 (fun _ => 0) (fun _ => 0) 12) :=
  fun hlaw => not_metricLaw ready_fresh 3 (fun _ => 0) (fun _ => 0) false (by omega)
    (hlaw (6 - min 6 12) (fun j hj => Or.inl (by omega)) (by omega) (by omega))

end Convolutional

end RyFi.Conv
