import RyFi.Lib.KeyEquation

/-! # Power sums with known points

When some of the points of power sums are known, a polynomial that vanishes at their
reciprocals takes them out: behind as many terms as its degree, the product with the power
sums has power sums of the other points only (`coeff_mul_power_sum`).  The locator of all
points is the product of the two locators.
-/

namespace KeyEquation

open Polynomial

variable {K : Type*} [Field K] {ι : Type*} {s t : Finset ι} {x y : ι → K} {S G : K[X]}
  {d N k : ℕ}

/-- What a short polynomial makes of power sums. -/
theorem coeff_mul_power_sum (hG : G.natDegree ≤ d) (hx : ∀ j ∈ s, x j ≠ 0)
    (hS : ∀ k, k < N → S.coeff k = ∑ j ∈ s, y j * x j ^ k) (hk : k + d < N) :
    (G * S).coeff (k + d) = ∑ j ∈ s, y j * x j ^ d * G.eval (x j)⁻¹ * x j ^ k := by
  have hterm : ∀ p ∈ Finset.HasAntidiagonal.antidiagonal (k + d),
      G.coeff p.1 * S.coeff p.2 = ∑ j ∈ s, y j * x j ^ (k + d) * (G.coeff p.1 * (x j)⁻¹ ^ p.1) := by
    intro p hp
    have hsum := Finset.HasAntidiagonal.mem_antidiagonal.mp hp
    rw [hS p.2 (by omega), Finset.mul_sum]
    refine Finset.sum_congr rfl fun j hj => ?_
    have hpow : x j ^ (k + d) * (x j)⁻¹ ^ p.1 = x j ^ p.2 := by
      rw [← hsum, pow_add, mul_right_comm, ← mul_pow, mul_inv_cancel₀ (hx j hj), one_pow, one_mul]
    rw [← hpow]
    ring
  rw [coeff_mul, Finset.sum_congr rfl hterm, Finset.sum_comm]
  refine Finset.sum_congr rfl fun j _ => ?_
  rw [← Finset.mul_sum, Finset.Nat.sum_antidiagonal_eq_sum_range_succ_mk,
    ← eval_eq_sum_range' (Nat.lt_succ_of_le (hG.trans (Nat.le_add_left d k))) (x j)⁻¹]
  ring

variable [DecidableEq ι]

/-- The known points are taken out. -/
theorem power_sum_unknown (hG : G.natDegree ≤ d) (hx : ∀ j ∈ s ∪ t, x j ≠ 0)
    (hknown : ∀ j ∈ t, G.eval (x j)⁻¹ = 0) (hdisjoint : Disjoint s t)
    (hS : ∀ k, k < N → S.coeff k = ∑ j ∈ s ∪ t, y j * x j ^ k) (hk : k + d < N) :
    (G * S).coeff (k + d) = ∑ j ∈ s, y j * x j ^ d * G.eval (x j)⁻¹ * x j ^ k := by
  rw [coeff_mul_power_sum hG hx hS hk, Finset.sum_union hdisjoint, add_eq_left]
  refine Finset.sum_eq_zero fun j hj => ?_
  rw [hknown j hj, mul_zero, zero_mul]

theorem locator_union (hdisjoint : Disjoint s t) :
    locator (s ∪ t) x = locator s x * locator t x :=
  Finset.prod_union hdisjoint

omit [DecidableEq ι] in
theorem evaluator_C_mul (c : K) (S R : K[X]) (N : ℕ) :
    evaluator S (C c * R) N = C c * evaluator S R N := by
  ext k
  rw [coeff_evaluator, coeff_C_mul, coeff_evaluator, mul_assoc, coeff_C_mul, mul_ite, mul_zero]

/-- The evaluator and the derivative give a weight back, however the locator is scaled. -/
theorem forney_scaled {c : K} (hc : c ≠ 0) (hinj : Set.InjOn x s)
    (hS : ∀ k, k < N → S.coeff k = ∑ j ∈ s, y j * x j ^ k) (hN : s.card ≤ N) {j : ι} (hj : j ∈ s)
    (hx : x j ≠ 0) :
    (evaluator S (C c * locator s x) N).eval (x j)⁻¹ /
      (derivative (C c * locator s x)).eval (x j)⁻¹ = -(y j / x j) := by
  rw [evaluator_C_mul, derivative_C_mul, eval_C_mul, eval_C_mul, mul_div_mul_left _ _ hc,
    evaluator_locator hS hN, forney hinj hj hx]

end KeyEquation
