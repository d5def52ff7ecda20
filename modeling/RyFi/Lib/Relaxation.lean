import RyFi.Lib.ShiftTrellis
import Mathlib.Algebra.BigOperators.Intervals
import Mathlib.Algebra.Order.BigOperators.Group.Finset
import Mathlib.Algebra.Order.Ring.Nat

/-! # The dynamic program from any metrics

One step of the dynamic program on a register of `memory` bits is `relax`: of the two ways
into a state the cheaper one.  It runs here from arbitrary metrics instead of from the zero
register, which is what a decoder does whose warmup was cut short.

Four facts: the least metric grows slowly (`relax_growth`), no metric is far above another
(`relaxed_spread`), the metrics are on average no dearer than paths taken at random
(`sum_relax_le`), and the metrics of a trellis are such a run (`metric_relax`).
-/

namespace ShiftTrellis

variable {memory bound n k s : Nat}

/-! ## One step -/

/-- The cheaper of the two ways into `s`. -/
def relax (memory : Nat) (cost m : Nat → Nat) (s : Nat) : Nat :=
  min (cost s + m (s / 2)) (cost (s + 2 ^ memory) + m ((s + 2 ^ memory) / 2))

section

variable {cost m : Nat → Nat}

theorem relax_le_reg {reg : Nat} (h : reg < 2 ^ (memory + 1)) :
    relax memory cost m (reg % 2 ^ memory) ≤ cost reg + m (reg / 2) := by
  rw [Nat.pow_succ] at h
  by_cases hlow : reg < 2 ^ memory
  · rw [Nat.mod_eq_of_lt hlow]
    exact Nat.min_le_left _ _
  · have hmod : reg % 2 ^ memory = reg - 2 ^ memory := by
      rw [Nat.mod_eq_sub_mod (by omega), Nat.mod_eq_of_lt (by omega)]
    rw [hmod]
    have hle := Nat.min_le_right (cost (reg - 2 ^ memory) + m ((reg - 2 ^ memory) / 2))
      (cost (reg - 2 ^ memory + 2 ^ memory) + m ((reg - 2 ^ memory + 2 ^ memory) / 2))
    rw [Nat.sub_add_cancel (by omega)] at hle
    simp only [relax]
    rwa [Nat.sub_add_cancel (by omega)]

/-- A cheap successor keeps the least metric low. -/
theorem relax_growth {step : Nat} (hs : s < 2 ^ memory)
    (hcheap : ∃ b < 2, cost (2 * s + b) ≤ step) :
    ∃ s' < 2 ^ memory, relax memory cost m s' ≤ m s + step := by
  obtain ⟨b, hb, hcost⟩ := hcheap
  refine ⟨(2 * s + b) % 2 ^ memory, Nat.mod_lt _ (Nat.two_pow_pos _), ?_⟩
  have hle := @relax_le_reg memory cost m (2 * s + b) (by rw [Nat.pow_succ]; omega)
  rw [show (2 * s + b) / 2 = s by omega] at hle
  omega

/-- A metric is at least that of a state it comes from. -/
theorem relax_origin (hs : s < 2 ^ memory) :
    ∃ p < 2 ^ memory, m p ≤ relax memory cost m s := by
  simp only [relax]
  rcases Nat.le_total (cost s + m (s / 2)) (cost (s + 2 ^ memory) + m ((s + 2 ^ memory) / 2))
    with hle | hle
  · rw [Nat.min_eq_left hle]
    exact ⟨s / 2, by omega, Nat.le_add_left _ _⟩
  · rw [Nat.min_eq_right hle]
    exact ⟨(s + 2 ^ memory) / 2, by omega, Nat.le_add_left _ _⟩

/-- Two successors of one state whose costs add up. -/
theorem relax_pair {total q : Nat} (hpair : cost (2 * q) + cost (2 * q + 1) = total) :
    relax memory cost m (2 * q) + relax memory cost m (2 * q + 1) ≤ total + 2 * m q := by
  have heven := Nat.min_le_left (cost (2 * q) + m (2 * q / 2))
    (cost (2 * q + 2 ^ memory) + m ((2 * q + 2 ^ memory) / 2))
  have hodd := Nat.min_le_left (cost (2 * q + 1) + m ((2 * q + 1) / 2))
    (cost (2 * q + 1 + 2 ^ memory) + m ((2 * q + 1 + 2 ^ memory) / 2))
  rw [show 2 * q / 2 = q by omega] at heven
  rw [show (2 * q + 1) / 2 = q by omega] at hodd
  simp only [relax, show 2 * q / 2 = q by omega, show (2 * q + 1) / 2 = q by omega]
  omega

theorem relax_pair_high {total q : Nat}
    (hpair : cost (2 * (q + 2 ^ k)) + cost (2 * (q + 2 ^ k) + 1) = total) :
    relax (k + 1) cost m (2 * q) + relax (k + 1) cost m (2 * q + 1) ≤
      total + 2 * m (q + 2 ^ k) := by
  have hpow := Nat.pow_succ 2 k
  have heven : relax (k + 1) cost m (2 * q) ≤ cost (2 * (q + 2 ^ k)) + m (q + 2 ^ k) := by
    refine Nat.le_trans (Nat.min_le_right _ _) (Nat.le_of_eq ?_)
    rw [show 2 * q + 2 ^ (k + 1) = 2 * (q + 2 ^ k) by omega,
      show 2 * (q + 2 ^ k) / 2 = q + 2 ^ k by omega]
  have hodd : relax (k + 1) cost m (2 * q + 1) ≤ cost (2 * (q + 2 ^ k) + 1) + m (q + 2 ^ k) := by
    refine Nat.le_trans (Nat.min_le_right _ _) (Nat.le_of_eq ?_)
    rw [show 2 * q + 1 + 2 ^ (k + 1) = 2 * (q + 2 ^ k) + 1 by omega,
      show (2 * (q + 2 ^ k) + 1) / 2 = q + 2 ^ k by omega]
  omega

end

/-! ## Sums over the states -/

theorem sum_pairs (f : Nat → Nat) (n : Nat) :
    ∑ s ∈ Finset.range (2 * n), f s = ∑ q ∈ Finset.range n, (f (2 * q) + f (2 * q + 1)) := by
  induction n with
  | zero => rfl
  | succ n ih =>
    rw [Nat.mul_succ, Finset.sum_range_succ, Finset.sum_range_succ, ih, Finset.sum_range_succ,
      Nat.add_assoc]

/-- On average a step adds half of what the two successors of a state cost. -/
theorem sum_relax_le {cost m : Nat → Nat} {total : Nat}
    (hpair : ∀ q, q < 2 ^ (k + 1) → cost (2 * q) + cost (2 * q + 1) = total) :
    ∑ s ∈ Finset.range (2 ^ (k + 1)), relax (k + 1) cost m s ≤
      2 ^ k * total + ∑ p ∈ Finset.range (2 ^ (k + 1)), m p := by
  have hpow := Nat.pow_succ 2 k
  calc ∑ s ∈ Finset.range (2 ^ (k + 1)), relax (k + 1) cost m s
      = ∑ q ∈ Finset.range (2 ^ k),
          (relax (k + 1) cost m (2 * q) + relax (k + 1) cost m (2 * q + 1)) := by
        rw [Nat.pow_succ, Nat.mul_comm, sum_pairs]
    _ ≤ ∑ q ∈ Finset.range (2 ^ k), (total + (m q + m (2 ^ k + q))) := by
        refine Finset.sum_le_sum fun q hq => ?_
        have hq := Finset.mem_range.mp hq
        have hlow := @relax_pair (k + 1) cost m total q (hpair q (by omega))
        have hhigh := @relax_pair_high k cost m total q (hpair (q + 2 ^ k) (by omega))
        rw [Nat.add_comm (2 ^ k) q]
        omega
    _ = 2 ^ k * total + ∑ p ∈ Finset.range (2 ^ (k + 1)), m p := by
        rw [Finset.sum_add_distrib, Finset.sum_add_distrib, Finset.sum_const, Finset.card_range,
          hpow, Nat.mul_two, Finset.sum_range_add]
        rfl

/-! ## Runs -/

/-- The metrics after `n` steps from `m`. -/
def relaxed (memory : Nat) (cost : Nat → Nat → Nat) (m : Nat → Nat) : Nat → Nat → Nat
  | 0 => m
  | n + 1 => relax memory (cost n) (relaxed memory cost m n)

variable {cost : Nat → Nat → Nat} {m : Nat → Nat}

/-- A state reached in `k` steps costs at most `k` slices more. -/
theorem relaxed_reach (hbound : ∀ n r, cost n r ≤ bound) (hs : s < 2 ^ memory) {w : Nat}
    (hw : w < 2 ^ k) :
    relaxed memory cost m (n + k) ((s * 2 ^ k + w) % 2 ^ memory) ≤
      relaxed memory cost m n s + k * bound := by
  induction k generalizing w with
  | zero =>
    rw [show w = 0 by simpa using hw, Nat.pow_zero, Nat.mul_one, Nat.zero_mul]
    exact Nat.le_of_eq (by rw [Nat.add_zero, Nat.add_zero, Nat.add_zero, Nat.mod_eq_of_lt hs])
  | succ k ih =>
    rw [Nat.pow_succ] at hw
    have hpast := ih (w := w / 2) (by omega)
    generalize hx : s * 2 ^ k + w / 2 = x at hpast
    have hword : s * 2 ^ (k + 1) + w = 2 * x + w % 2 := by
      rw [Nat.pow_succ, ← Nat.mul_assoc, ← hx]
      omega
    have hmod := Nat.mod_lt x (Nat.two_pow_pos memory)
    have hstep := @relax_le_reg memory (cost (n + k)) (relaxed memory cost m (n + k))
      (2 * (x % 2 ^ memory) + w % 2) (by rw [Nat.pow_succ]; omega)
    have hstate : (2 * (x % 2 ^ memory) + w % 2) % 2 ^ memory = (2 * x + w % 2) % 2 ^ memory := by
      rw [Nat.add_mod, Nat.mul_mod_mod, ← Nat.add_mod]
    rw [hstate, show (2 * (x % 2 ^ memory) + w % 2) / 2 = x % 2 ^ memory by omega] at hstep
    have hcost := hbound (n + k) (2 * (x % 2 ^ memory) + w % 2)
    have hmul : (k + 1) * bound = k * bound + bound := Nat.succ_mul k bound
    rw [hword]
    calc relaxed memory cost m (n + (k + 1)) ((2 * x + w % 2) % 2 ^ memory)
        ≤ cost (n + k) (2 * (x % 2 ^ memory) + w % 2) +
            relaxed memory cost m (n + k) (x % 2 ^ memory) := hstep
      _ ≤ relaxed memory cost m n s + (k + 1) * bound := by omega

/-- No metric is below all of those some steps before. -/
theorem relaxed_origin (hs : s < 2 ^ memory) :
    ∃ p < 2 ^ memory, relaxed memory cost m n p ≤ relaxed memory cost m (n + k) s := by
  induction k generalizing s with
  | zero => exact ⟨s, hs, Nat.le_refl _⟩
  | succ k ih =>
    obtain ⟨q, hq, hle⟩ := @relax_origin memory s (cost (n + k)) (relaxed memory cost m (n + k))
      hs
    obtain ⟨p, hp, hle'⟩ := ih hq
    exact ⟨p, hp, Nat.le_trans hle' hle⟩

/-- The metrics stay as close together as they began, up to the cost of `memory` slices. -/
theorem relaxed_spread (hbound : ∀ n r, cost n r ≤ bound) {spread : Nat}
    (hstart : ∀ s s', s < 2 ^ memory → s' < 2 ^ memory → m s ≤ m s' + spread) {s' : Nat}
    (hs : s < 2 ^ memory) (hs' : s' < 2 ^ memory) :
    relaxed memory cost m n s ≤ relaxed memory cost m n s' + (spread + memory * bound) := by
  by_cases hearly : n < memory
  · have hsplit : s / 2 ^ n * 2 ^ n + s % 2 ^ n = s := by
      rw [Nat.mul_comm]
      exact Nat.div_add_mod s (2 ^ n)
    have hdiv : s / 2 ^ n < 2 ^ memory := Nat.lt_of_le_of_lt (Nat.div_le_self _ _) hs
    have hreach := @relaxed_reach memory bound 0 n (s / 2 ^ n) cost m hbound hdiv (s % 2 ^ n)
      (Nat.mod_lt _ (Nat.two_pow_pos n))
    obtain ⟨p, hp, horigin⟩ := @relaxed_origin memory 0 n s' cost m hs'
    have hclose := hstart _ p hdiv hp
    have hmul : n * bound ≤ memory * bound := Nat.mul_le_mul_right _ (by omega)
    rw [hsplit, Nat.mod_eq_of_lt hs, Nat.zero_add] at hreach
    rw [Nat.zero_add] at horigin
    simp only [relaxed] at hreach horigin
    omega
  · obtain ⟨k, rfl⟩ : ∃ k, n = k + memory := ⟨n - memory, by omega⟩
    obtain ⟨p, hp, horigin⟩ := @relaxed_origin memory k memory s' cost m hs'
    have hreach := @relaxed_reach memory bound k memory p cost m hbound hp s hs
    rw [Nat.mul_comm, Nat.mul_add_mod, Nat.mod_eq_of_lt hs] at hreach
    omega

/-- Past the warmup the metrics of a trellis are such a run. -/
theorem Trellis.metric_relax (T : Trellis) {t : Nat} (h : T.memory ≤ t) :
    T.metric (t + 1) s = relax T.memory (T.cost t) (T.metric t) s := by
  have hlow := Trellis.metric_succ_le_low (T := T) (t := t) (s := s)
  have hhigh := Trellis.metric_succ_le_high (T := T) (s := s) h
  have heq := Trellis.metric_succ_eq T t s
  simp only [relax]
  simp only [Trellis.arrive] at hlow hhigh heq
  cases hbit : T.high t s with
  | true =>
    rw [hbit, if_pos rfl] at heq
    omega
  | false =>
    rw [hbit, if_neg (by decide)] at heq
    omega

end ShiftTrellis
