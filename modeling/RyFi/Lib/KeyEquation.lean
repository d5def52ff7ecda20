import Mathlib.Algebra.Polynomial.Roots
import Mathlib.Algebra.Polynomial.Derivative
import Mathlib.Algebra.Polynomial.BigOperators
import Mathlib.Algebra.Ring.GeomSum
import Mathlib.Tactic.LinearCombination
import Mathlib.Tactic.FieldSimp
import Mathlib.LinearAlgebra.Lagrange

/-! # Finding error locators

Over a field: the shortest register that generates the first terms of a sequence, found one
term at a time (`Search`), and what it is when the terms are power sums of few points
(`register_eq_locator`): the polynomial whose roots are their reciprocals.  The evaluator of
the key equation gives the coefficients of the power sums back (`forney`).
-/

namespace KeyEquation

open Polynomial

variable {K : Type*} [Field K]

/-! ## Registers -/

/-- `R`, as a register of length `L`, generates the coefficients of `S` from `L` up to `n`. -/
structure Register (S R : K[X]) (L n : ℕ) : Prop where
  coeff_zero : R.coeff 0 = 1
  natDegree_le : R.natDegree ≤ L
  silent : ∀ k, L ≤ k → k < n → (R * S).coeff k = 0

/-- Only the constant term of a factor meets a coefficient after a long gap. -/
theorem coeff_mul_of_gap {P Q : K[X]} {v L n : ℕ} (hP : P.natDegree ≤ v)
    (hQ : ∀ k, L ≤ k → k < n → Q.coeff k = 0) (h : L + v ≤ n) :
    (P * Q).coeff n = P.coeff 0 * Q.coeff n := by
  rw [coeff_mul]
  refine Finset.sum_eq_single_of_mem (0, n) (by simp) ?_
  rintro ⟨i, j⟩ hmem hne
  have hij : i + j = n := Finset.HasAntidiagonal.mem_antidiagonal.mp hmem
  have hi : 0 < i := by
    by_contra hzero
    exact hne (by rw [Prod.mk.injEq]; omega)
  by_cases hv : i ≤ v
  · rw [hQ j (by omega) (by omega), mul_zero]
  · rw [coeff_eq_zero_of_natDegree_lt (by omega), zero_mul]

variable {S R B : K[X]} {L Lb m n N v : ℕ} {b d : K}

/-- A register that fails at a term is too short for one that does not, unless the two
    lengths together exceed the term. -/
theorem Register.length_le {D : K[X]} (h : Register S R L n) (hD : Register S D v N)
    (hn : n < N) (hd : (R * S).coeff n ≠ 0) : n + 1 ≤ L + v := by
  by_contra hlt
  have hleft := coeff_mul_of_gap hD.natDegree_le h.silent (by omega)
  have hright : (R * (D * S)).coeff n = R.coeff 0 * (D * S).coeff n :=
    coeff_mul_of_gap h.natDegree_le (fun k hk hkn => hD.silent k hk (by omega))
      (show v + L ≤ n by omega)
  rw [hD.silent n (by omega) hn, mul_zero, mul_left_comm, hleft, hD.coeff_zero, one_mul]
    at hright
  exact hd hright

/-! ## The search -/

/-- The state of the search after `n` terms: the register `R` of length `L`, and the register
    `B` before the last change of length, `m` terms ago, with its discrepancy `b`. -/
structure Search (S R B : K[X]) (L Lb m n : ℕ) (b : K) : Prop where
  register : Register S R L n
  last_natDegree_le : B.natDegree ≤ Lb
  lengths : m + Lb + L = n + 1
  delay_pos : 0 < m
  last_ne : b ≠ 0
  past : ∀ k, m + Lb ≤ k → k < n → (X ^ m * B * S).coeff k = 0
  next : 0 < L → (X ^ m * B * S).coeff n = b

theorem Search.start (S : K[X]) : Search S 1 1 0 0 1 0 1 where
  register := ⟨coeff_one_zero, by simp, fun k _ hk => absurd hk (Nat.not_lt_zero k)⟩
  last_natDegree_le := by simp
  lengths := rfl
  delay_pos := Nat.one_pos
  last_ne := one_ne_zero
  past := fun k _ hk => absurd hk (Nat.not_lt_zero k)
  next := fun h => absurd h (Nat.lt_irrefl 0)

theorem coeff_shift (B S : K[X]) (m k : ℕ) :
    (X ^ (m + 1) * B * S).coeff (k + 1) = (X ^ m * B * S).coeff k := by
  rw [pow_succ', mul_assoc, mul_assoc, ← mul_assoc (X ^ m), coeff_X_mul]

theorem Search.past_succ (h : Search S R B L Lb m n b) (k : ℕ) (hk : m + 1 + Lb ≤ k)
    (hkn : k < n + 1) : (X ^ (m + 1) * B * S).coeff k = 0 := by
  obtain ⟨k, rfl⟩ : ∃ k', k = k' + 1 := ⟨k - 1, by omega⟩
  rw [coeff_shift]
  exact h.past k (by omega) (by omega)

/-- No discrepancy. -/
theorem Search.keep (h : Search S R B L Lb m n b) (hd : (R * S).coeff n = 0) :
    Search S R B L Lb (m + 1) (n + 1) b where
  register := ⟨h.register.coeff_zero, h.register.natDegree_le, fun k hk hkn => by
    rcases Nat.lt_succ_iff_lt_or_eq.mp hkn with hlt | rfl
    · exact h.register.silent k hk hlt
    · exact hd⟩
  last_natDegree_le := h.last_natDegree_le
  lengths := by have := h.lengths; omega
  delay_pos := Nat.succ_pos m
  last_ne := h.last_ne
  past := h.past_succ
  next := fun hL => by rw [coeff_shift]; exact h.next hL

/-- The register with its discrepancy eliminated. -/
noncomputable def eliminate (R B : K[X]) (m : ℕ) (q : K) : K[X] :=
  R - C q * (X ^ m * B)

theorem coeff_eliminate_mul (q : K) (k : ℕ) :
    (eliminate R B m q * S).coeff k = (R * S).coeff k - q * (X ^ m * B * S).coeff k := by
  rw [eliminate, sub_mul, coeff_sub, mul_assoc (C q), coeff_C_mul]

theorem Search.eliminate_register (h : Search S R B L Lb m n b)
    (hL : 0 < L ∨ n + 1 ≤ max L (m + Lb)) :
    Register S (eliminate R B m ((R * S).coeff n / b)) (max L (m + Lb)) (n + 1) where
  coeff_zero := by
    obtain ⟨m, rfl⟩ : ∃ m', m = m' + 1 := ⟨m - 1, by have := h.delay_pos; omega⟩
    rw [eliminate, coeff_sub, coeff_C_mul, pow_succ', mul_assoc, mul_coeff_zero, coeff_X_zero,
      zero_mul, mul_zero, sub_zero, h.register.coeff_zero]
  natDegree_le := by
    refine (natDegree_sub_le _ _).trans (max_le_max h.register.natDegree_le ?_)
    refine (natDegree_C_mul_le _ _).trans (natDegree_mul_le.trans ?_)
    rw [natDegree_X_pow]
    exact Nat.add_le_add_left h.last_natDegree_le m
  silent := fun k hk hkn => by
    rw [coeff_eliminate_mul]
    rcases Nat.lt_succ_iff_lt_or_eq.mp hkn with hlt | rfl
    · rw [h.register.silent k (le_trans (le_max_left _ _) hk) hlt,
        h.past k (le_trans (le_max_right _ _) hk) hlt, mul_zero, sub_zero]
    · rw [h.next (by omega), div_mul_cancel₀ _ h.last_ne, sub_self]

/-- A discrepancy while the register is long. -/
theorem Search.adjust (h : Search S R B L Lb m n b) (hL : n < 2 * L) :
    Search S (eliminate R B m ((R * S).coeff n / b)) B L Lb (m + 1) (n + 1) b where
  register := by
    have hmax : max L (m + Lb) = L := by have := h.lengths; omega
    exact hmax ▸ h.eliminate_register (Or.inl (by omega))
  last_natDegree_le := h.last_natDegree_le
  lengths := by have := h.lengths; omega
  delay_pos := Nat.succ_pos m
  last_ne := h.last_ne
  past := h.past_succ
  next := fun hL => by rw [coeff_shift]; exact h.next hL

/-- A discrepancy while the register is short: it gets longer. -/
theorem Search.lengthen (h : Search S R B L Lb m n b) (hL : 2 * L ≤ n)
    (hd : (R * S).coeff n ≠ 0) :
    Search S (eliminate R B m ((R * S).coeff n / b)) R (m + Lb) L 1 (n + 1)
      ((R * S).coeff n) where
  register := by
    have hmax : max L (m + Lb) = m + Lb := by have := h.lengths; omega
    exact hmax ▸ h.eliminate_register (by have := h.lengths; omega)
  last_natDegree_le := h.register.natDegree_le
  lengths := by have := h.lengths; omega
  delay_pos := Nat.one_pos
  last_ne := hd
  past := fun k hk hkn => by
    obtain ⟨k, rfl⟩ : ∃ k', k = k' + 1 := ⟨k - 1, by omega⟩
    rw [← Nat.zero_add 1, coeff_shift, pow_zero, one_mul]
    exact h.register.silent k (by omega) (by omega)
  next := fun _ => by rw [← Nat.zero_add 1, coeff_shift, pow_zero, one_mul]

/-- A search never gets longer than a register that generates all the terms. -/
theorem Search.lengthen_le (h : Search S R B L Lb m n b) {D : K[X]} (hD : Register S D v N)
    (hn : n < N) (hd : (R * S).coeff n ≠ 0) : m + Lb ≤ v := by
  have := h.register.length_le hD hn hd
  have := h.lengths
  omega

/-! ## The key equation -/

/-- The part of `R * S` below `X ^ N`. -/
noncomputable def evaluator (S R : K[X]) (N : ℕ) : K[X] :=
  ∑ k ∈ Finset.range N, monomial k ((R * S).coeff k)

theorem coeff_evaluator (S R : K[X]) (N k : ℕ) :
    (evaluator S R N).coeff k = if k < N then (R * S).coeff k else 0 := by
  rw [evaluator, finsetSum_coeff]
  simp only [coeff_monomial, Finset.sum_ite_eq', Finset.mem_range]

theorem Register.evaluator_coeff (h : Register S R L N) {k : ℕ} (hk : L ≤ k) :
    (evaluator S R N).coeff k = 0 := by
  rw [coeff_evaluator]
  split
  next hlt => exact h.silent k hk hlt
  next => rfl

/-- Products with polynomials that agree below `X ^ N` agree there. -/
theorem coeff_mul_congr {P Q : K[X]} (R : K[X]) (h : ∀ k, k < N → P.coeff k = Q.coeff k)
    {k : ℕ} (hk : k < N) : (R * P).coeff k = (R * Q).coeff k := by
  rw [coeff_mul, coeff_mul]
  refine Finset.sum_congr rfl fun p hp => ?_
  rw [h p.2 (lt_of_le_of_lt (by have := Finset.HasAntidiagonal.mem_antidiagonal.mp hp; omega) hk)]

theorem coeff_mul_eq_zero {P Q : K[X]} {a c k : ℕ} (hP : P.natDegree ≤ a)
    (hQ : ∀ j, c ≤ j → Q.coeff j = 0) (hk : a + c ≤ k) : (P * Q).coeff k = 0 := by
  rw [coeff_mul]
  refine Finset.sum_eq_zero fun p hp => ?_
  have hsum := Finset.HasAntidiagonal.mem_antidiagonal.mp hp
  by_cases ha : p.1 ≤ a
  · rw [hQ p.2 (by omega), mul_zero]
  · rw [coeff_eq_zero_of_natDegree_lt (by omega), zero_mul]

/-- Two registers for many terms solve one equation. -/
theorem cross_eq {D : K[X]} (h : Register S R L N) (hD : Register S D v N) (hN : L + v ≤ N) :
    R * evaluator S D N = D * evaluator S R N := by
  have hagree : ∀ E : K[X], ∀ k, k < N → (evaluator S E N).coeff k = (E * S).coeff k :=
    fun E k hk => by rw [coeff_evaluator, if_pos hk]
  ext k
  by_cases hk : k < N
  · rw [coeff_mul_congr R (hagree D) hk, coeff_mul_congr D (hagree R) hk, mul_left_comm]
  · rw [coeff_mul_eq_zero h.natDegree_le (fun j => hD.evaluator_coeff) (by omega),
      coeff_mul_eq_zero hD.natDegree_le (fun j => h.evaluator_coeff) (by omega)]

/-! ## Power sums of few points -/

section Points

variable {ι : Type*} (s : Finset ι) (x : ι → K)

/-- The locator of the points: its roots are their reciprocals. -/
noncomputable def locator : K[X] := ∏ j ∈ s, (1 - C (x j) * X)

variable {s x}

theorem natDegree_locator_le : (locator s x).natDegree ≤ s.card := by
  refine (natDegree_prod_le _ _).trans ?_
  rw [Finset.card_eq_sum_ones]
  refine Finset.sum_le_sum fun j _ => ?_
  refine (natDegree_sub_le _ _).trans (max_le (by simp) ?_)
  exact (natDegree_C_mul_le _ _).trans natDegree_X_le

theorem coeff_zero_locator : (locator s x).coeff 0 = 1 := by
  rw [coeff_zero_eq_eval_zero, locator, eval_prod]
  simp

/-- A polynomial that starts with 1 has no more roots than its degree allows. -/
theorem card_le_of_roots {R : K[X]} (hinj : Set.InjOn x s) (hzero : R.coeff 0 = 1)
    (hroot : ∀ j ∈ s, R.eval (x j)⁻¹ = 0) : s.card ≤ R.natDegree := by
  classical
  by_contra hlt
  have hR : R = 0 := by
    refine eq_zero_of_natDegree_lt_card_of_eval_eq_zero' R (s.image fun j => (x j)⁻¹) ?_ ?_
    · intro r hr
      obtain ⟨j, hj, rfl⟩ := Finset.mem_image.mp hr
      exact hroot j hj
    · rw [Finset.card_image_of_injOn fun i hi j hj hij => hinj hi hj (inv_injective hij)]
      omega
  rw [hR, coeff_zero] at hzero
  exact zero_ne_one hzero

variable [DecidableEq ι]

variable (s x) in
/-- The evaluator of the points. -/
noncomputable def weights (y : ι → K) : K[X] := ∑ j ∈ s, C (y j) * locator (s.erase j) x

variable {y : ι → K}

theorem locator_erase {j : ι} (hj : j ∈ s) :
    locator s x = (1 - C (x j) * X) * locator (s.erase j) x :=
  (Finset.mul_prod_erase s _ hj).symm

theorem eval_locator_eq_zero {j : ι} (hj : j ∈ s) (hx : x j ≠ 0) :
    (locator s x).eval (x j)⁻¹ = 0 := by
  rw [locator_erase hj, eval_mul]
  simp [hx]

theorem eval_locator_erase_ne {j : ι} (hinj : Set.InjOn x s) (hj : j ∈ s) (hx : x j ≠ 0) :
    (locator (s.erase j) x).eval (x j)⁻¹ ≠ 0 := by
  rw [locator, eval_prod]
  refine Finset.prod_ne_zero_iff.mpr fun l hl => ?_
  have hne : x l ≠ x j := fun h =>
    (Finset.mem_erase.mp hl).1 (hinj (Finset.mem_erase.mp hl).2 hj h)
  rw [eval_sub, eval_one, eval_mul, eval_C, eval_X, sub_ne_zero, Ne, eq_comm,
    mul_inv_eq_one₀ hx]
  exact hne

theorem eval_weights {j : ι} (hj : j ∈ s) (hx : x j ≠ 0) :
    (weights s x y).eval (x j)⁻¹ = y j * (locator (s.erase j) x).eval (x j)⁻¹ := by
  rw [weights, eval_finsetSum, Finset.sum_eq_single_of_mem j hj]
  · rw [eval_mul, eval_C]
  · intro l _ hl
    rw [eval_mul, eval_locator_eq_zero (Finset.mem_erase.mpr ⟨Ne.symm hl, hj⟩) hx, mul_zero]

theorem coeff_weights_eq_zero {k : ℕ} (hk : s.card ≤ k) : (weights s x y).coeff k = 0 := by
  rw [weights, finsetSum_coeff]
  refine Finset.sum_eq_zero fun j hj => ?_
  have hcard := Finset.card_erase_add_one hj
  rw [coeff_C_mul, coeff_eq_zero_of_natDegree_lt, mul_zero]
  exact lt_of_le_of_lt natDegree_locator_le (by omega)

/-- The locator times the power sums of the points is their evaluator, below `X ^ N`. -/
theorem coeff_locator_mul (hS : ∀ k, k < N → S.coeff k = ∑ j ∈ s, y j * x j ^ k) {k : ℕ}
    (hk : k < N) : (locator s x * S).coeff k = (weights s x y).coeff k := by
  have hsum : ∀ k, k < N → S.coeff k =
      (∑ j ∈ s, C (y j) * ∑ i ∈ Finset.range N, (C (x j) * X) ^ i).coeff k := by
    intro k hk
    rw [hS k hk, finsetSum_coeff]
    refine Finset.sum_congr rfl fun j _ => ?_
    rw [coeff_C_mul, finsetSum_coeff, Finset.sum_eq_single_of_mem k (Finset.mem_range.mpr hk)]
    · rw [mul_pow, ← C_pow, coeff_C_mul, coeff_X_pow, if_pos rfl, mul_one]
    · intro i _ hi
      rw [mul_pow, ← C_pow, coeff_C_mul, coeff_X_pow, if_neg (Ne.symm hi), mul_zero]
  rw [coeff_mul_congr _ hsum hk, Finset.mul_sum, finsetSum_coeff, weights, finsetSum_coeff]
  refine Finset.sum_congr rfl fun j hj => ?_
  -- the geometric sum telescopes against the factor of its point
  have hgeom : locator s x * (C (y j) * ∑ i ∈ Finset.range N, (C (x j) * X) ^ i) =
      C (y j) * locator (s.erase j) x -
        C (y j) * locator (s.erase j) x * C (x j ^ N) * X ^ N := by
    rw [locator_erase hj]
    have htele := geom_sum_mul_neg (C (x j) * X) N
    rw [mul_pow, ← C_pow] at htele
    linear_combination (C (y j) * locator (s.erase j) x) * htele
  rw [hgeom, coeff_sub, coeff_mul_X_pow', if_neg (by omega), sub_zero]

theorem register_locator (hS : ∀ k, k < N → S.coeff k = ∑ j ∈ s, y j * x j ^ k) :
    Register S (locator s x) s.card N where
  coeff_zero := coeff_zero_locator
  natDegree_le := natDegree_locator_le
  silent := fun k hk hkN => by rw [coeff_locator_mul hS hkN, coeff_weights_eq_zero hk]

theorem evaluator_locator (hS : ∀ k, k < N → S.coeff k = ∑ j ∈ s, y j * x j ^ k)
    (hN : s.card ≤ N) : evaluator S (locator s x) N = weights s x y := by
  ext k
  rw [coeff_evaluator]
  split
  next hk => exact coeff_locator_mul hS hk
  next hk => rw [coeff_weights_eq_zero (by omega)]

/-- A polynomial that starts with 1 and vanishes at the reciprocals of as many points as its
    degree allows is their locator. -/
theorem eq_locator_of_roots {R : K[X]} (hinj : Set.InjOn x s) (hx : ∀ j ∈ s, x j ≠ 0)
    (hzero : R.coeff 0 = 1) (hdegree : R.natDegree ≤ s.card)
    (hroot : ∀ j ∈ s, R.eval (x j)⁻¹ = 0) : R = locator s x := by
  classical
  have hcard : (insert 0 (s.image fun j => (x j)⁻¹)).card = s.card + 1 := by
    rw [Finset.card_insert_of_notMem, Finset.card_image_of_injOn]
    · intro i hi j hj hij
      exact hinj hi hj (inv_injective hij)
    · intro hmem
      obtain ⟨j, hj, hzero⟩ := Finset.mem_image.mp hmem
      exact hx j hj (inv_eq_zero.mp hzero)
  refine eq_of_natDegree_lt_card_of_eval_eq' R (locator s x)
    (insert 0 (s.image fun j => (x j)⁻¹)) ?_ ?_
  · intro r hr
    rcases Finset.mem_insert.mp hr with rfl | hr
    · rw [← coeff_zero_eq_eval_zero, ← coeff_zero_eq_eval_zero, hzero, coeff_zero_locator]
    · obtain ⟨j, hj, rfl⟩ := Finset.mem_image.mp hr
      rw [hroot j hj, eval_locator_eq_zero hj (hx j hj)]
  · have := @natDegree_locator_le K _ ι s x
    rw [hcard]
    omega

/-- A short register for the power sums of few points is their locator. -/
theorem register_eq_locator (hinj : Set.InjOn x s) (hx : ∀ j ∈ s, x j ≠ 0)
    (hy : ∀ j ∈ s, y j ≠ 0) (hS : ∀ k, k < N → S.coeff k = ∑ j ∈ s, y j * x j ^ k)
    (h : Register S R L N) (hL : L ≤ s.card) (hN : 2 * s.card ≤ N) :
    R = locator s x ∧ L = s.card := by
  have hcross := cross_eq h (register_locator hS) (by omega)
  rw [evaluator_locator hS (by omega)] at hcross
  have hroot : ∀ j ∈ s, R.eval (x j)⁻¹ = 0 := by
    intro j hj
    have heval := congrArg (eval (x j)⁻¹) hcross
    rw [eval_mul, eval_mul, eval_locator_eq_zero hj (hx j hj), zero_mul, mul_eq_zero,
      eval_weights hj (hx j hj), mul_eq_zero] at heval
    rcases heval with hR | hzero | hzero
    · exact hR
    · exact absurd hzero (hy j hj)
    · exact absurd hzero (eval_locator_erase_ne hinj hj (hx j hj))
  have hdegree := h.natDegree_le
  have hcard := card_le_of_roots hinj h.coeff_zero hroot
  exact ⟨eq_locator_of_roots hinj hx h.coeff_zero (by omega) hroot, by omega⟩

/-- No weights have power sums that vanish for as many exponents as there are points. -/
theorem eq_zero_of_power_sums (hinj : Set.InjOn x s) (hx : ∀ j ∈ s, x j ≠ 0)
    (hsums : ∀ k, k < N → ∑ j ∈ s, y j * x j ^ k = 0) (hN : s.card ≤ N) :
    ∀ j ∈ s, y j = 0 := by
  have hS : ∀ k, k < N → (0 : K[X]).coeff k = ∑ j ∈ s, y j * x j ^ k := fun k hk => by
    rw [hsums k hk, coeff_zero]
  have hweights : weights s x y = 0 := by
    ext k
    by_cases hk : k < N
    · rw [← coeff_locator_mul hS hk, mul_zero]
    · rw [coeff_weights_eq_zero (by omega), coeff_zero]
  intro j hj
  have heval := eval_weights (y := y) hj (hx j hj)
  rw [hweights, eval_zero] at heval
  exact (mul_eq_zero.mp heval.symm).resolve_right (eval_locator_erase_ne hinj hj (hx j hj))

theorem eval_derivative_locator {j : ι} (hj : j ∈ s) (hx : x j ≠ 0) :
    (derivative (locator s x)).eval (x j)⁻¹ =
      -(x j * (locator (s.erase j) x).eval (x j)⁻¹) := by
  rw [locator_erase hj, derivative_mul, eval_add, eval_mul, eval_mul]
  simp [hx]

/-- The evaluator and the derivative of the locator give the weight of a point back. -/
theorem forney (hinj : Set.InjOn x s) {j : ι} (hj : j ∈ s) (hx : x j ≠ 0) :
    (weights s x y).eval (x j)⁻¹ / (derivative (locator s x)).eval (x j)⁻¹ =
      -(y j / x j) := by
  rw [eval_weights hj hx, eval_derivative_locator hj hx, div_neg,
    mul_div_mul_right _ _ (eval_locator_erase_ne hinj hj hx)]

/-- Division by a polynomial that starts with 1 is determined below `X ^ N`. -/
theorem coeff_eq_of_coeff_mul_eq {R P Q : K[X]} (hR : R.coeff 0 = 1)
    (h : ∀ k, k < N → (R * P).coeff k = (R * Q).coeff k) {k : ℕ} (hk : k < N) :
    P.coeff k = Q.coeff k := by
  induction k using Nat.strong_induction_on with
  | h k ih =>
    have hsub : ∀ i, i < k → (P - Q).coeff i = 0 := fun i hi => by
      rw [coeff_sub, ih i hi (by omega), sub_self]
    have hdiff : (R * (P - Q)).coeff k = 0 := by
      rw [mul_sub, coeff_sub, h k hk, sub_self]
    rw [coeff_mul, Finset.sum_eq_single_of_mem (0, k) (by simp)] at hdiff
    · rw [hR, one_mul, coeff_sub, sub_eq_zero] at hdiff
      exact hdiff
    · rintro ⟨i, j⟩ hmem hne
      have hij : i + j = k := Finset.HasAntidiagonal.mem_antidiagonal.mp hmem
      by_cases hj : j < k
      · rw [hsub j hj, mul_zero]
      · exact absurd (by rw [Prod.mk.injEq]; omega) hne

/-- Whatever the terms are: a register with as many roots as its length says that they are
    power sums, with the weights that its evaluator gives. -/
theorem coeff_eq_power_sum (hinj : Set.InjOn x s) (hx : ∀ j ∈ s, x j ≠ 0)
    (h : Register S R s.card N) (hroot : ∀ j ∈ s, R.eval (x j)⁻¹ = 0) {k : ℕ} (hk : k < N) :
    S.coeff k = ∑ j ∈ s,
      -(x j * ((evaluator S R N).eval (x j)⁻¹ / (derivative R).eval (x j)⁻¹)) * x j ^ k := by
  classical
  have hR := eq_locator_of_roots hinj hx h.coeff_zero h.natDegree_le hroot
  set y : ι → K := fun j =>
    -(x j * ((evaluator S R N).eval (x j)⁻¹ / (derivative R).eval (x j)⁻¹)) with hy
  -- the weights are the evaluator: both are short and agree at the reciprocals
  have hweights : weights s x y = evaluator S R N := by
    refine eq_of_degrees_lt_of_eval_finset_eq (s.image fun j => (x j)⁻¹) ?_ ?_ ?_
    · rw [Finset.card_image_of_injOn fun i hi j hj hij => hinj hi hj (inv_injective hij)]
      exact (degree_lt_iff_coeff_zero _ _).mpr fun k hk => coeff_weights_eq_zero hk
    · rw [Finset.card_image_of_injOn fun i hi j hj hij => hinj hi hj (inv_injective hij)]
      exact (degree_lt_iff_coeff_zero _ _).mpr fun k hk => h.evaluator_coeff hk
    · intro r hr
      obtain ⟨j, hj, rfl⟩ := Finset.mem_image.mp hr
      have hxj := hx j hj
      have hder : (derivative R).eval (x j)⁻¹ ≠ 0 := by
        rw [hR, eval_derivative_locator hj hxj]
        exact neg_ne_zero.mpr (mul_ne_zero hxj (eval_locator_erase_ne hinj hj hxj))
      have hforney := forney (y := y) hinj hj hxj
      rw [← hR] at hforney
      simp only [hy, neg_div, neg_neg, mul_div_cancel_left₀ _ hxj] at hforney
      exact (div_left_inj' hder).mp hforney
  have hsums : ∀ k, k < N → (∑ k ∈ Finset.range N, monomial k (∑ j ∈ s, y j * x j ^ k)).coeff k
      = ∑ j ∈ s, y j * x j ^ k := by
    intro k hk
    rw [finsetSum_coeff]
    simp only [coeff_monomial, Finset.sum_ite_eq', Finset.mem_range, if_pos hk]
  rw [← hsums k hk]
  refine coeff_eq_of_coeff_mul_eq h.coeff_zero (fun k hk => ?_) hk
  have hlocator := coeff_locator_mul hsums hk
  rw [← hR, hweights, coeff_evaluator, if_pos hk] at hlocator
  exact hlocator.symm

end Points

end KeyEquation
