import Mathlib.Data.Nat.Bitwise
import Mathlib.Algebra.Order.Ring.Nat

/-! # Cheapest paths of a shift register

A register of `memory` bits is fed one bit at a time from zero.  A path of `t` bits is the
number they spell, the newest bit lowest: `w < 2 ^ t`.  Its state is `w % 2 ^ memory`, and
the register of its last slice has one bit more.  Every slice `t` and register has a cost.

`metric` is the dynamic program over the states, `best` the path it selects, and `high` the
one bit a decoder has to remember of the selection: the oldest bit of the register.  The two
facts everything rests on are `pathCost_best` (the selected path attains the metric) and
`metric_le` (no path of that state is cheaper).
-/

namespace ShiftTrellis

structure Trellis where
  memory : Nat
  cost : Nat → Nat → Nat
  /-- From this slice on ties go to the high predecessor. -/
  late : Nat

namespace Trellis

variable (T : Trellis)

/-- The cost of a path of `t` bits. -/
def pathCost : Nat → Nat → Nat
  | 0, _ => 0
  | t + 1, w => pathCost t (w / 2) + T.cost t (w % 2 ^ (T.memory + 1))

/-- Of two ways to arrive, the high one is taken. -/
def takesHigh (t lowSum highSum : Nat) : Bool :=
  if T.memory ≤ t then
    if t < T.late then decide (highSum < lowSum) else decide (¬ lowSum < highSum)
  else false

/-- The metric of a state after `t` slices. -/
def metric : Nat → Nat → Nat
  | 0, _ => 0
  | t + 1, s =>
    let lowSum := T.cost t s + metric t (s / 2)
    let highSum := T.cost t (s + 2 ^ T.memory) + metric t ((s + 2 ^ T.memory) / 2)
    if T.takesHigh t lowSum highSum then highSum else lowSum

/-- The cost of arriving through a register in slice `t`. -/
def arrive (t reg : Nat) : Nat := T.cost t reg + T.metric t (reg / 2)

/-- The bit a decoder records for state `s` in slice `t`. -/
def high (t s : Nat) : Bool := T.takesHigh t (T.arrive t s) (T.arrive t (s + 2 ^ T.memory))

/-- The register of slice `t` on the path selected for `s`. -/
def reg (t s : Nat) : Nat := s + if T.high t s then 2 ^ T.memory else 0

/-- The path selected for state `s` after `t` slices. -/
def best : Nat → Nat → Nat
  | 0, _ => 0
  | t + 1, s => 2 * best t (T.reg t s / 2) + s % 2

/-- The states that some path of `t` bits ends in. -/
def Live (t s : Nat) : Prop := s < 2 ^ T.memory ∧ s < 2 ^ t

/-! ## The selected path -/

theorem metric_succ_eq (t s : Nat) :
    T.metric (t + 1) s =
      if T.high t s then T.arrive t (s + 2 ^ T.memory) else T.arrive t s := rfl

theorem metric_succ (t s : Nat) : T.metric (t + 1) s = T.arrive t (T.reg t s) := by
  rw [metric_succ_eq, reg]
  cases T.high t s <;> rfl

variable {T} {t s : Nat}

theorem high_early (h : t < T.memory) : T.high t s = false := by
  simp only [high, takesHigh]
  rw [if_neg (by omega)]

theorem high_inner (hm : T.memory ≤ t) (hl : t < T.late) :
    T.high t s = decide (T.arrive t (s + 2 ^ T.memory) < T.arrive t s) := by
  simp only [high, takesHigh]
  rw [if_pos hm, if_pos hl]

theorem high_late (hm : T.memory ≤ t) (hl : T.late ≤ t) :
    T.high t s = decide (¬ T.arrive t s < T.arrive t (s + 2 ^ T.memory)) := by
  simp only [high, takesHigh]
  rw [if_pos hm, if_neg (by omega)]

/-- No way to arrive beats the one taken. -/
theorem metric_succ_le_low : T.metric (t + 1) s ≤ T.arrive t s := by
  rw [metric_succ]
  cases hhigh : T.high t s with
  | false => simp [reg, hhigh]
  | true =>
    simp only [reg, hhigh, if_true]
    simp only [high, takesHigh] at hhigh
    split at hhigh
    · split at hhigh
      · have := of_decide_eq_true hhigh
        omega
      · have := of_decide_eq_true hhigh
        omega
    · cases hhigh

theorem metric_succ_le_high (h : T.memory ≤ t) :
    T.metric (t + 1) s ≤ T.arrive t (s + 2 ^ T.memory) := by
  rw [metric_succ]
  cases hhigh : T.high t s with
  | true => simp [reg, hhigh]
  | false =>
    simp only [reg, hhigh, Bool.false_eq_true, if_false, Nat.add_zero]
    simp only [high, takesHigh] at hhigh
    rw [if_pos h] at hhigh
    split at hhigh
    · have := of_decide_eq_false hhigh
      omega
    · have := of_decide_eq_false hhigh
      omega

theorem reg_lt (h : s < 2 ^ T.memory) : T.reg t s < 2 ^ (T.memory + 1) := by
  rw [Nat.pow_succ]
  simp only [reg]
  split <;> omega

theorem reg_mod_two (h : 0 < T.memory) : T.reg t s % 2 = s % 2 := by
  obtain ⟨k, hk⟩ : ∃ k, T.memory = k + 1 := ⟨T.memory - 1, by omega⟩
  have := Nat.pow_succ 2 k
  simp only [reg, hk]
  split <;> omega

theorem reg_mod (h : s < 2 ^ T.memory) : T.reg t s % 2 ^ T.memory = s := by
  simp only [reg]
  split
  · rw [Nat.add_mod_right, Nat.mod_eq_of_lt h]
  · rw [Nat.add_zero, Nat.mod_eq_of_lt h]

/-- The predecessor of a live state is live. -/
theorem live_pred (h : T.Live (t + 1) s) : T.Live t (T.reg t s / 2) := by
  obtain ⟨hs, hst⟩ := h
  have hreg := reg_lt (T := T) (t := t) hs
  rw [Nat.pow_succ] at hreg hst
  refine ⟨by omega, ?_⟩
  by_cases hearly : t < T.memory
  · simp only [reg, high_early hearly, Bool.false_eq_true, if_false, Nat.add_zero]
    omega
  · have hpow : 2 ^ T.memory ≤ 2 ^ t := Nat.pow_le_pow_right (by omega) (by omega)
    omega

theorem mod_pow_succ (w m : Nat) : w % 2 ^ (m + 1) = 2 * (w / 2 % 2 ^ m) + w % 2 := by
  have h := Nat.mod_mul (x := w) (a := 2) (b := 2 ^ m)
  rw [Nat.pow_succ, Nat.mul_comm]
  omega

theorem best_lt (t s : Nat) : T.best t s < 2 ^ t := by
  induction t generalizing s with
  | zero => simp [best]
  | succ t ih =>
    have := ih (T.reg t s / 2)
    rw [Nat.pow_succ]
    simp only [best]
    omega

theorem best_state (hm : 0 < T.memory) (h : T.Live t s) : T.best t s % 2 ^ T.memory = s := by
  induction t generalizing s with
  | zero =>
    have := h.2
    simp only [best, Nat.zero_mod]
    omega
  | succ t ih =>
    have hpred := ih (live_pred h)
    have hparity := reg_mod_two (T := T) (t := t) (s := s) hm
    have hmod := mod_pow_succ (T.best (t + 1) s) T.memory
    have hreg : T.best (t + 1) s % 2 ^ (T.memory + 1) = T.reg t s := by
      rw [hmod, best, show (2 * T.best t (T.reg t s / 2) + s % 2) / 2 =
        T.best t (T.reg t s / 2) by omega, hpred]
      omega
    rw [← Nat.mod_mod_of_dvd (T.best (t + 1) s) (Nat.pow_dvd_pow 2 (Nat.le_succ T.memory)), hreg,
      reg_mod h.1]

/-- The register of the last slice of the selected path. -/
theorem best_reg (hm : 0 < T.memory) (h : T.Live (t + 1) s) :
    T.best (t + 1) s % 2 ^ (T.memory + 1) = T.reg t s := by
  have hpred := best_state hm (live_pred h)
  have hparity := reg_mod_two (T := T) (t := t) (s := s) hm
  rw [mod_pow_succ, best, show (2 * T.best t (T.reg t s / 2) + s % 2) / 2 =
    T.best t (T.reg t s / 2) by omega, hpred]
  omega

theorem best_half (t s : Nat) : T.best (t + 1) s / 2 = T.best t (T.reg t s / 2) := by
  simp only [best]
  omega

/-- The selected path attains the metric. -/
theorem pathCost_best (hm : 0 < T.memory) (h : T.Live t s) :
    T.pathCost t (T.best t s) = T.metric t s := by
  induction t generalizing s with
  | zero => rfl
  | succ t ih =>
    rw [pathCost, best_half, best_reg hm h, ih (live_pred h), metric_succ, arrive, Nat.add_comm]

/-- No path is cheaper than the metric of its state. -/
theorem metric_le {w : Nat} (h : w < 2 ^ t) :
    T.metric t (w % 2 ^ T.memory) ≤ T.pathCost t w := by
  induction t generalizing w with
  | zero => simp [metric]
  | succ t ih =>
    have hhalf := ih (w := w / 2) (by rw [Nat.pow_succ] at h; omega)
    have harrive : T.arrive t (w % 2 ^ (T.memory + 1)) ≤ T.pathCost (t + 1) w := by
      have hpast : w % 2 ^ (T.memory + 1) / 2 = w / 2 % 2 ^ T.memory := by
        rw [mod_pow_succ]
        omega
      simp only [arrive, pathCost, hpast]
      omega
    refine Nat.le_trans ?_ harrive
    have hsplit := Nat.mod_pow_succ (x := w) (b := 2) (k := T.memory)
    by_cases hzero : w / 2 ^ T.memory % 2 = 0
    · rw [hsplit, hzero, Nat.mul_zero, Nat.add_zero]
      exact metric_succ_le_low
    · have hone : w / 2 ^ T.memory % 2 = 1 := by omega
      rw [hsplit, hone, Nat.mul_one]
      refine metric_succ_le_high ?_
      -- a path shorter than the register leaves its oldest bit clear
      by_contra hearly
      have hpow : 2 ^ (t + 1) ≤ 2 ^ T.memory := Nat.pow_le_pow_right (by omega) (by omega)
      rw [Nat.div_eq_of_lt (by omega)] at hone
      omega

/-- A path that beats all others is selected for its state. -/
theorem best_of_unique (hm : 0 < T.memory) {w : Nat} (hw : w < 2 ^ t)
    (hunique : ∀ v, v < 2 ^ t → v ≠ w → v % 2 ^ T.memory = w % 2 ^ T.memory →
      T.pathCost t w < T.pathCost t v) :
    T.best t (w % 2 ^ T.memory) = w := by
  by_contra hne
  have hlive : T.Live t (w % 2 ^ T.memory) :=
    ⟨Nat.mod_lt _ (Nat.two_pow_pos _), Nat.lt_of_le_of_lt (Nat.mod_le _ _) hw⟩
  have hbest := pathCost_best hm hlive
  have hlt := hunique _ (best_lt _ _) hne (best_state hm hlive)
  have hle := metric_le (T := T) hw
  omega

/-! ## Bits of the selected path -/

/-- The path selected at the end runs, `k` slices earlier, along the one selected there. -/
theorem best_shift (hm : 0 < T.memory) (k : Nat) (h : T.Live (t + k) s) :
    T.best (t + k) s / 2 ^ k = T.best t (T.best (t + k) s / 2 ^ k % 2 ^ T.memory) := by
  induction k generalizing s with
  | zero =>
    rw [Nat.pow_zero, Nat.div_one]
    exact congrArg (T.best t) (best_state hm h).symm
  | succ k ih =>
    have hhalf : T.best (t + (k + 1)) s / 2 ^ (k + 1) =
        T.best (t + k) (T.reg (t + k) s / 2) / 2 ^ k := by
      rw [Nat.pow_succ', ← Nat.div_div_eq_div_mul]
      exact congrArg (· / 2 ^ k) (best_half (t + k) s)
    rw [hhalf]
    exact ih (live_pred h)

theorem live_of_path (hw : s < 2 ^ t) : T.Live t (s % 2 ^ T.memory) :=
  ⟨Nat.mod_lt _ (Nat.two_pow_pos _), Nat.lt_of_le_of_lt (Nat.mod_le _ _) hw⟩

/-- The recorded bit is the oldest one of the register. -/
theorem high_eq_testBit (hm : 0 < T.memory) (h : T.Live (t + 1) s) :
    T.high t s = (T.best (t + 1) s).testBit T.memory := by
  have hreg := best_reg hm h
  have hbit : (T.best (t + 1) s).testBit T.memory = (T.reg t s).testBit T.memory := by
    rw [← hreg, Nat.testBit_mod_two_pow]
    simp
  rw [hbit, reg]
  cases T.high t s with
  | false =>
    rw [if_neg (by decide), Nat.add_zero, Nat.testBit_lt_two_pow h.1]
  | true =>
    rw [if_pos rfl, Nat.add_comm, Nat.testBit_two_pow_add_eq, Nat.testBit_lt_two_pow h.1]
    rfl

theorem best_shift_lt (k : Nat) : T.best (t + k) s / 2 ^ k < 2 ^ t := by
  rw [Nat.div_lt_iff_lt_mul (Nat.two_pow_pos _), ← Nat.pow_add]
  exact best_lt _ _

/-- One more slice back the path is in the predecessor of the state it is in now. -/
theorem best_state_back (hm : 0 < T.memory) (k : Nat) (h : T.Live (t + 1 + k) s) :
    T.best (t + 1 + k) s / 2 ^ (k + 1) % 2 ^ T.memory =
      T.reg t (T.best (t + 1 + k) s / 2 ^ k % 2 ^ T.memory) / 2 := by
  have hlive := live_of_path (T := T) (best_shift_lt (T := T) (t := t + 1) (s := s) k)
  have hshift := best_shift hm k h
  generalize T.best (t + 1 + k) s / 2 ^ k % 2 ^ T.memory = s' at hlive hshift
  rw [Nat.pow_succ, ← Nat.div_div_eq_div_mul, hshift, best_half]
  exact best_state hm (live_pred hlive)

/-- The bits recorded along the path are the bits of the path. -/
theorem high_back (hm : 0 < T.memory) (k : Nat) (h : T.Live (t + 1 + k) s) :
    T.high t (T.best (t + 1 + k) s / 2 ^ k % 2 ^ T.memory) =
      (T.best (t + 1 + k) s).testBit (T.memory + k) := by
  have hlive := live_of_path (T := T) (best_shift_lt (T := T) (t := t + 1) (s := s) k)
  rw [high_eq_testBit hm hlive, ← best_shift hm k h, Nat.testBit_div_two_pow]

/-! ## Bounds -/

/-- A path costs at least what its beginning does. -/
theorem pathCost_begin_le (t k w : Nat) : T.pathCost t (w / 2 ^ k) ≤ T.pathCost (t + k) w := by
  induction k generalizing w with
  | zero => simp
  | succ k ih =>
    have := ih (w / 2)
    rw [Nat.div_div_eq_div_mul, ← Nat.pow_succ'] at this
    exact Nat.le_trans this (Nat.le_add_right _ _)

/-- The slices after the beginning cost at most `bound` each. -/
theorem pathCost_le_begin {bound : Nat} (hbound : ∀ t r, T.cost t r ≤ bound) (t k w : Nat) :
    T.pathCost (t + k) w ≤ T.pathCost t (w / 2 ^ k) + k * bound := by
  induction k generalizing w with
  | zero => simp
  | succ k ih =>
    have hbegin := ih (w / 2)
    have hcost := hbound (t + k) (w % 2 ^ (T.memory + 1))
    rw [Nat.div_div_eq_div_mul, ← Nat.pow_succ'] at hbegin
    calc T.pathCost (t + (k + 1)) w
        = T.pathCost (t + k) (w / 2) + T.cost (t + k) (w % 2 ^ (T.memory + 1)) := rfl
      _ ≤ T.pathCost t (w / 2 ^ (k + 1)) + k * bound + bound := Nat.add_le_add hbegin hcost
      _ = T.pathCost t (w / 2 ^ (k + 1)) + (k + 1) * bound := by rw [Nat.succ_mul, Nat.add_assoc]

/-- All metrics lie close together: any state is `memory` slices away from any other. -/
theorem metric_spread (hm : 0 < T.memory) {bound : Nat} (hbound : ∀ t r, T.cost t r ≤ bound)
    {s' : Nat} (h : T.Live t s) (h' : T.Live t s') :
    T.metric t s ≤ T.metric t s' + T.memory * bound := by
  by_cases hearly : t < T.memory
  · have hle := metric_le (T := T) h.2
    have hpath := pathCost_le_begin hbound 0 t s
    rw [Nat.mod_eq_of_lt h.1] at hle
    rw [Nat.zero_add, pathCost] at hpath
    have : t * bound ≤ T.memory * bound := Nat.mul_le_mul_right _ (by omega)
    omega
  · obtain ⟨k, rfl⟩ : ∃ k, t = k + T.memory := ⟨t - T.memory, by omega⟩
    generalize hpast : T.best (k + T.memory) s' / 2 ^ T.memory = past
    have hpastLt : past < 2 ^ k := by
      rw [← hpast, Nat.div_lt_iff_lt_mul (Nat.two_pow_pos _), ← Nat.pow_add]
      exact best_lt _ _
    have hdiv : (2 ^ T.memory * past + s) / 2 ^ T.memory = past := by
      rw [Nat.mul_add_div (Nat.two_pow_pos _), Nat.div_eq_of_lt h.1, Nat.add_zero]
    have hpath : 2 ^ T.memory * past + s < 2 ^ (k + T.memory) := by
      have hmul := Nat.mul_le_mul_left (2 ^ T.memory) (Nat.succ_le_of_lt hpastLt)
      have hs := h.1
      rw [Nat.mul_succ, ← Nat.pow_add, Nat.add_comm T.memory] at hmul
      omega
    have hle := metric_le (T := T) hpath
    have hextend := pathCost_le_begin hbound k T.memory (2 ^ T.memory * past + s)
    have hbegin := pathCost_begin_le (T := T) k T.memory (T.best (k + T.memory) s')
    rw [Nat.mul_add_mod, Nat.mod_eq_of_lt h.1] at hle
    rw [hdiv] at hextend
    rw [hpast, pathCost_best hm h'] at hbegin
    omega

/-- Where every state has a cheap successor the least metric grows slowly. -/
theorem metric_growth (hm : 0 < T.memory) {step : Nat} (h : T.Live t s)
    (hcheap : ∃ b < 2, T.cost t (2 * s + b) ≤ step) :
    ∃ s', T.Live (t + 1) s' ∧ T.metric (t + 1) s' ≤ T.metric t s + step := by
  obtain ⟨b, hb, hcost⟩ := hcheap
  have hlt := best_lt (T := T) t s
  have hpath : 2 * T.best t s + b < 2 ^ (t + 1) := by
    rw [Nat.pow_succ]
    omega
  refine ⟨(2 * T.best t s + b) % 2 ^ T.memory, live_of_path hpath, ?_⟩
  have hle := metric_le (T := T) hpath
  rw [pathCost, mod_pow_succ, show (2 * T.best t s + b) / 2 = T.best t s by omega,
    show (2 * T.best t s + b) % 2 = b by omega, best_state hm h, pathCost_best hm h] at hle
  omega

/-! ## Two trellises -/

theorem takesHigh_congr {T' : Trellis} (hmemory : T'.memory = T.memory)
    (hlate : T'.late = T.late) : T'.takesHigh = T.takesHigh := by
  funext t lowSum highSum
  rw [takesHigh, takesHigh, hmemory, hlate]

section Congr

variable {T' : Trellis} {n : Nat} (hmemory : T'.memory = T.memory) (hlate : T'.late = T.late)
  (hcost : ∀ t, t < n → ∀ reg, T'.cost t reg = T.cost t reg)

include hmemory hlate hcost

/-- Metrics look at the costs of the slices before them. -/
theorem metric_congr (ht : t ≤ n) : T'.metric t s = T.metric t s := by
  induction t generalizing s with
  | zero => rfl
  | succ t ih =>
    have hpast : ∀ s, T'.metric t s = T.metric t s := fun s => ih (by omega)
    simp only [metric, takesHigh_congr hmemory hlate, hmemory, hcost t (by omega), hpast]

theorem high_congr (ht : t < n) : T'.high t s = T.high t s := by
  have hpast : ∀ s, T'.metric t s = T.metric t s :=
    fun s => metric_congr hmemory hlate hcost (Nat.le_of_lt ht)
  simp only [high, takesHigh_congr hmemory hlate, arrive, hmemory, hcost t ht, hpast]

theorem best_congr (ht : t ≤ n) : T'.best t s = T.best t s := by
  induction t generalizing s with
  | zero => rfl
  | succ t ih =>
    simp only [best, reg, high_congr hmemory hlate hcost (show t < n by omega), hmemory]
    rw [ih (by omega)]

end Congr

end Trellis

end ShiftTrellis
