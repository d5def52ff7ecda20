import RyFi.Rs.Gf
import RyFi.Rs.Polynomial
import Mathlib.Algebra.Polynomial.Derivative
import Mathlib.Algebra.Polynomial.Eval.Degree
import Mathlib.Tactic.Ring
import Mathlib.Algebra.CharP.Two
import Mathlib.Algebra.Polynomial.BigOperators

/-! # What the polynomial functions compute

`poly n c` is the polynomial with the first `n` bytes of `c` as coefficients.  The loops of
polynomial.c are products, remainders, derivatives and values of these.
-/

namespace RyFi.Rs

open CLoop Polynomial

/-- The polynomial of the first `n` bytes. -/
noncomputable def poly (n : Nat) (c : Nat → UInt8) : Gf[X] :=
  ∑ i ∈ Finset.range n, monomial i (el (c i))

@[simp] theorem coeff_poly (n : Nat) (c : Nat → UInt8) (i : Nat) :
    (poly n c).coeff i = if i < n then el (c i) else 0 := by
  rw [poly, finsetSum_coeff]
  simp only [coeff_monomial, Finset.sum_ite_eq', Finset.mem_range]

@[simp] theorem poly_zero (c : Nat → UInt8) : poly 0 c = 0 := by
  simp [poly]

theorem poly_succ (n : Nat) (c : Nat → UInt8) :
    poly (n + 1) c = poly n c + monomial n (el (c n)) := Finset.sum_range_succ _ n

theorem poly_congr {n : Nat} {c c' : Nat → UInt8} (h : ∀ i, i < n → c i = c' i) :
    poly n c = poly n c' := by
  refine Finset.sum_congr rfl fun i hi => ?_
  rw [h i (Finset.mem_range.mp hi)]

theorem poly_inj {n : Nat} {c c' : Nat → UInt8} (h : poly n c = poly n c') {i : Nat}
    (hi : i < n) : c i = c' i := by
  have hcoeff := congrArg (fun q => q.coeff i) h
  simp only [coeff_poly, if_pos hi] at hcoeff
  exact el_injective hcoeff

theorem natDegree_poly_lt {n : Nat} (hn : 0 < n) (c : Nat → UInt8) : (poly n c).natDegree < n := by
  refine lt_of_le_of_lt (natDegree_le_iff_coeff_eq_zero.mpr fun i hi => ?_)
    (Nat.sub_lt hn Nat.one_pos)
  rw [coeff_poly, if_neg (by omega)]

/-- Every polynomial of low degree has bytes for coefficients. -/
theorem poly_of_coeff {n : Nat} {c : Nat → UInt8} {q : Gf[X]} (hq : ∀ i, n ≤ i → q.coeff i = 0)
    (h : ∀ i, i < n → el (c i) = q.coeff i) : poly n c = q := by
  ext i
  rw [coeff_poly]
  split
  next hi => exact h i hi
  next hi => exact (hq i (by omega)).symm

/-- Coefficients beyond `m` that are zero do not matter. -/
theorem poly_extend {m n : Nat} {c : Nat → UInt8} (hle : m ≤ n)
    (h : ∀ i, m ≤ i → i < n → c i = 0) : poly n c = poly m c := by
  refine poly_of_coeff (fun i hi => ?_) fun i hi => ?_
  · rw [coeff_poly, if_neg (by omega)]
  · rw [coeff_poly]
    split
    next => rfl
    next hm => rw [h i (by omega) hi, el_zero]

theorem eval_poly (n : Nat) (c : Nat → UInt8) (x : Gf) :
    (poly n c).eval x = ∑ i ∈ Finset.range n, el (c i) * x ^ i := by
  simp [poly, eval_finsetSum]

namespace PolynomialT

/-- The polynomial of a `polynomial_t`. -/
noncomputable def toPoly (p : PolynomialT) : Gf[X] := poly (p.order + 1) p.coeff

/-! ## Values -/

/-- A row of logarithms of the powers of `x`. -/
structure PowersOf (n : Nat) (x : Gf) (row : Nat → UInt8) : Prop where
  pos : ∀ i, i < n → row i ≠ 0
  pow_eq : ∀ i, i < n → α ^ (row i).toNat = x ^ i

theorem toNat_pos {b : UInt8} (h : b ≠ 0) : 1 ≤ b.toNat := by
  rcases Nat.eq_zero_or_pos b.toNat with hz | hp
  · exact absurd (UInt8.toNat_inj.mp hz) h
  · exact hp

theorem el_evalLut {p : PolynomialT} {x : Gf} {row : Nat → UInt8}
    (h : PowersOf (p.order + 1) x row) : el (evalLut ccsdsField p row) = p.toPoly.eval x := by
  rw [evalLut, if_neg (h.pos 0 (by omega)), toPoly]
  refine forLoop_induct (fun i res => el res = (poly i p.coeff).eval x) (Nat.zero_le _)
    (by simp) fun i res _ hi hres => ?_
  rw [poly_succ, eval_add, eval_monomial, ← hres]
  by_cases hc : p.coeff i = 0
  · simp [hc]
  · rw [if_pos hc, el_add, FieldT.mulLogElement,
      el_exp_log hc (Nat.lt_succ_iff.mp (UInt8.toNat_lt _)), h.pow_eq i hi]

/-- The same from the logarithms of the coefficients. -/
theorem el_evalLogLut {p pLog : PolynomialT} {x : Gf} {row : Nat → UInt8}
    (horder : pLog.order = p.order)
    (hlog : ∀ i, i ≤ p.order → pLog.coeff i = ccsdsField.log (p.coeff i).toNat)
    (h : PowersOf (p.order + 1) x row) :
    el (evalLogLut ccsdsField pLog row) = p.toPoly.eval x := by
  rw [evalLogLut, if_neg (h.pos 0 (by omega)), toPoly, horder]
  refine forLoop_induct (fun i res => el res = (poly i p.coeff).eval x) (Nat.zero_le _)
    (by simp) fun i res _ hi hres => ?_
  rw [poly_succ, eval_add, eval_monomial, ← hres, hlog i (by omega)]
  by_cases hc : p.coeff i = 0
  · simp [hc]
  · rw [if_pos (mt log_eq_zero_iff.mp hc), el_add, FieldT.mulLogElement,
      el_exp_log hc (Nat.lt_succ_iff.mp (UInt8.toNat_lt _)), h.pow_eq i hi]

/-- The row of an element that is not zero. -/
theorem powersOf_buildExpLut {val : UInt8} (hval : val ≠ 0) (order : Nat)
    (row : Nat → UInt8) : PowersOf (order + 1) (el val) (buildExpLut ccsdsField val order row) := by
  have hone : α ^ (ccsdsField.log 1).toNat = 1 :=
    (pow_log (show (1 : UInt8) ≠ 0 by decide)).trans el_one
  have hstart : ccsdsField.log 1 ≠ 0 := by
    have := log_pos (show (1 : UInt8) ≠ 0 by decide)
    intro h
    rw [show (1 : UInt8).toNat = 1 from rfl, h] at this
    exact absurd this (by decide)
  have hloop := @forLoop_induct _ 0 (order + 1) (expLutStep ccsdsField val) (row, ccsdsField.log 1)
    (fun i s => PowersOf i (el val) s.1 ∧ s.2 ≠ 0 ∧ α ^ s.2.toNat = el val ^ i) (Nat.zero_le _)
    ⟨⟨fun i hi => absurd hi (Nat.not_lt_zero i), fun i hi => absurd hi (Nat.not_lt_zero i)⟩,
      hstart, by rw [pow_zero]; exact hone⟩ ?_
  · exact hloop.1
  · rintro i ⟨row, val'⟩ - - ⟨hrow, hpos, hpow⟩
    have hspec := @mulLog_spec val' (ccsdsField.log val.toNat) (toNat_pos hpos)
    simp only [expLutStep, if_neg hval]
    refine ⟨⟨fun j hj => ?_, fun j hj => ?_⟩, ?_, ?_⟩
    · rw [Function.update_apply]
      split
      next => exact hpos
      next hne => exact hrow.pos j (by omega)
    · rw [Function.update_apply]
      split
      next heq => rw [heq]; exact hpow
      next hne => exact hrow.pow_eq j (by omega)
    · intro hzero
      rw [hzero] at hspec
      exact absurd hspec.1 (by decide)
    · rw [hspec.2, hpow, pow_log hval, pow_succ]

/-- The row of the zero element holds zeros. -/
theorem buildExpLut_zero (order : Nat) (row : Nat → UInt8) :
    buildExpLut ccsdsField 0 order row 0 = 0 := by
  have hloop := @forLoop_induct _ 0 (order + 1) (expLutStep ccsdsField 0) (row, ccsdsField.log 1)
    (fun i s => 0 < i → s.1 0 = 0) (Nat.zero_le _) (fun h => absurd h (by decide)) ?_
  · exact hloop (Nat.succ_pos _)
  · intro i s _ _ hs _
    simp only [expLutStep, if_pos]
    rw [Function.update_apply]
    split
    next => rfl
    next hne => exact hs (by omega)

/-! ## Products -/

theorem mulRow_apply (l r : PolynomialT) (n i : Nat) (res : Nat → UInt8) (k : Nat) :
    mulRow ccsdsField l r n i res k =
      if i ≤ k ∧ k ≤ n ∧ k - i ≤ r.order then
        FieldT.add (res k) (ccsdsField.mul (l.coeff i) (r.coeff (k - i)))
      else res k := by
  rw [mulRow]
  split
  next hi => rw [if_neg (by omega)]
  next hi =>
    have hloop := @forLoop_induct _ 0 ((if r.order > n - i then n - i else r.order) + 1)
      (fun j res => Function.update res (i + j)
        (FieldT.add (res (i + j)) (ccsdsField.mul (l.coeff i) (r.coeff j)))) res
      (fun j c => ∀ k, c k = if i ≤ k ∧ k - i < j then
        FieldT.add (res k) (ccsdsField.mul (l.coeff i) (r.coeff (k - i))) else res k)
      (Nat.zero_le _) (fun k => by rw [if_neg (by omega)]) ?_
    · refine (hloop k).trans ?_
      congr 1
      apply propext
      split <;> omega
    · intro j c _ _ hc k
      rw [Function.update_apply]
      split
      next heq =>
        subst heq
        rw [hc, if_neg (by omega), if_pos (by omega), Nat.add_sub_cancel_left]
      next hne =>
        rw [hc]
        congr 1
        apply propext
        omega

theorem coeff_poly_succ_mul (n : Nat) (c : Nat → UInt8) (q : Gf[X]) (k : Nat) :
    (poly (n + 1) c * q).coeff k =
      (poly n c * q).coeff k + if n ≤ k then el (c n) * q.coeff (k - n) else 0 := by
  rw [poly_succ, add_mul, coeff_add, ← C_mul_X_pow_eq_monomial, mul_assoc, coeff_C_mul,
    coeff_X_pow_mul', mul_ite, mul_zero]

/-- Up to the order of the result, the product. -/
theorem el_mul_coeff (l r res : PolynomialT) {k : Nat} (hk : k ≤ res.order) :
    el ((mul ccsdsField l r res).coeff k) = (l.toPoly * r.toPoly).coeff k := by
  have hloop := @forLoop_induct _ 0 (l.order + 1) (mulRow ccsdsField l r res.order)
    (setRange res.coeff 0 0 (res.order + 1))
    (fun i c => el (c k) = (poly i l.coeff * r.toPoly).coeff k) (Nat.zero_le _) ?_ ?_
  · exact hloop
  · rw [setRange_inside (Nat.zero_le k) (by omega)]
    simp
  · intro i c _ _ hc
    rw [mulRow_apply, coeff_poly_succ_mul, ← hc, toPoly, coeff_poly]
    by_cases hik : i ≤ k
    · rw [if_pos hik]
      by_cases hr : k - i ≤ r.order
      · rw [if_pos ⟨hik, hk, hr⟩, if_pos (by omega), el_add, el_mul]
      · rw [if_neg (by omega), if_neg (by omega), mul_zero, add_zero]
    · rw [if_neg (by omega), if_neg hik, add_zero]

theorem toPoly_mul {l r res : PolynomialT} (horder : l.order + r.order ≤ res.order) :
    (mul ccsdsField l r res).toPoly = l.toPoly * r.toPoly := by
  refine poly_of_coeff (fun i hi => ?_) fun i hi => el_mul_coeff l r res (by
    have : (mul ccsdsField l r res).order = res.order := rfl
    omega)
  refine coeff_eq_zero_of_natDegree_lt (lt_of_le_of_lt natDegree_mul_le ?_)
  have hl := natDegree_poly_lt (Nat.succ_pos l.order) l.coeff
  have hr := natDegree_poly_lt (Nat.succ_pos r.order) r.coeff
  have : (mul ccsdsField l r res).order = res.order := rfl
  simp only [toPoly, Nat.succ_eq_add_one] at hl hr ⊢
  omega

/-! ## Derivatives -/

theorem toPoly_formalDerivative {p der : PolynomialT} (horder : p.order = der.order + 1) :
    (formalDerivative p der).toPoly = derivative p.toPoly := by
  refine poly_of_coeff (fun i hi => ?_) fun i hi => ?_
  · have : (formalDerivative p der).order = der.order := rfl
    rw [coeff_derivative, toPoly, coeff_poly, if_neg (by omega), zero_mul]
  · have hi' : i < der.order + 1 := hi
    simp only [formalDerivative]
    rw [forLoop_update, if_pos ⟨Nat.zero_le i, hi'⟩, el_sum, coeff_derivative,
      toPoly, coeff_poly, if_pos (by omega), Nat.cast_succ, mul_comm]

/-! ## Remainders -/

/-- One step of the division subtracts a multiple of the divisor. -/
theorem modStep_apply {divisor : PolynomialT} {i : Nat} {c : Nat → UInt8}
    (hi : divisor.order ≤ i) (hc : c i ≠ 0) (hlead : divisor.coeff divisor.order ≠ 0) (k : Nat) :
    el (modStep ccsdsField divisor i c k) = el (c k) +
      (C (el (c i) / el (divisor.coeff divisor.order)) *
        (X ^ (i - divisor.order) * divisor.toPoly)).coeff k := by
  rw [modStep, if_neg (by omega), if_neg hc, coeff_C_mul, coeff_X_pow_mul', toPoly, coeff_poly]
  have hq := @divLog_spec (ccsdsField.log (c i).toNat)
    (ccsdsField.log (divisor.coeff divisor.order).toNat) (log_pos hc)
  rw [pow_log hc, pow_log hlead] at hq
  generalize FieldT.divLog (ccsdsField.log (c i).toNat)
    (ccsdsField.log (divisor.coeff divisor.order).toNat) = q at hq
  -- the code skips zero coefficients of the divisor, whose logarithm would be wrong
  have hentry : ∀ (j : Nat) (m : Nat → UInt8) (k : Nat),
      el (modEntry ccsdsField divisor (i - divisor.order) q j m k) =
        el (m k) + if k = j + (i - divisor.order) then
          el (divisor.coeff j) * (el (c i) / el (divisor.coeff divisor.order)) else 0 := by
    intro j m k
    rw [modEntry]
    split
    next hzero => simp [hzero]
    next hne =>
      rw [Function.update_apply]
      split
      next heq => rw [heq, el_add, FieldT.mulLogElement,
        el_exp_log hne (Nat.lt_succ_iff.mp (UInt8.toNat_lt _)), hq.2]
      next => rw [add_zero]
  have hloop := @forLoop_induct _ 0 (divisor.order + 1)
    (modEntry ccsdsField divisor (i - divisor.order) q) c
    (fun j m => el (m k) = el (c k) + if i - divisor.order ≤ k ∧ k - (i - divisor.order) < j then
      el (divisor.coeff (k - (i - divisor.order))) *
        (el (c i) / el (divisor.coeff divisor.order)) else 0) (Nat.zero_le _)
    (by rw [if_neg (by omega), add_zero]) ?_
  · refine hloop.trans ?_
    congr 1
    by_cases hle : i - divisor.order ≤ k
    · by_cases hlt : k - (i - divisor.order) < divisor.order + 1
      · rw [if_pos ⟨hle, hlt⟩, if_pos hle, if_pos hlt, mul_comm]
      · rw [if_neg (fun h => hlt h.2), if_pos hle, if_neg hlt, mul_zero]
    · rw [if_neg (fun h => hle h.1), if_neg hle, mul_zero]
  · intro j m _ _ hm
    rw [hentry, hm, add_assoc]
    congr 1
    by_cases heq : k = j + (i - divisor.order)
    · rw [if_neg (by omega), if_pos heq, if_pos (by omega), zero_add,
        show k - (i - divisor.order) = j by omega]
    · rw [if_neg heq, add_zero]
      congr 1
      apply propext
      omega

/-- The remainder: the coefficients below the order of the divisor. -/
theorem mod_spec {dividend divisor res : PolynomialT} (hres : dividend.order ≤ res.order)
    (hpos : 0 < divisor.order) (hlead : divisor.coeff divisor.order ≠ 0)
    (hle : divisor.order ≤ dividend.order) :
    ∃ q, dividend.toPoly =
      q * divisor.toPoly + poly divisor.order (mod ccsdsField dividend divisor res).coeff := by
  rw [mod, if_neg (by omega)]
  -- what is left of the dividend is congruent to it, and its top coefficients are gone
  have hloop := @forDown_induct _ dividend.order (fun i => modStep ccsdsField divisor (i + 1))
    (copyRange res.coeff 0 dividend.coeff 0 (dividend.order + 1))
    (fun i c => (∃ q, dividend.toPoly = q * divisor.toPoly + poly (dividend.order + 1) c) ∧
      ∀ j, i < j → j ≤ dividend.order → divisor.order ≤ j → c j = 0) ?_ ?_
  · obtain ⟨⟨q, hq⟩, hzero⟩ := hloop
    refine ⟨q, hq.trans ?_⟩
    rw [poly_extend (Nat.le_succ_of_le hle) fun i hi hi' => hzero i (by omega) (by omega) hi]
  · refine ⟨⟨0, ?_⟩, fun j hj hj' => absurd hj (by omega)⟩
    rw [zero_mul, zero_add, toPoly]
    refine poly_congr fun i hi => ?_
    have hcopy := @copyRange_inside _ res.coeff dividend.coeff 0 0 (dividend.order + 1) i hi
    rw [Nat.zero_add] at hcopy
    exact hcopy.symm
  · rintro i c hi ⟨⟨q, hq⟩, hzero⟩
    -- below the order of the divisor the loop does nothing
    by_cases hlow : i + 1 < divisor.order
    · rw [modStep, if_pos hlow]
      exact ⟨⟨q, hq⟩, fun j hj hj' hd => hzero j (by omega) hj' hd⟩
    by_cases hc : c (i + 1) = 0
    · rw [modStep, if_neg hlow, if_pos hc]
      refine ⟨⟨q, hq⟩, fun j hj hj' hd => ?_⟩
      by_cases heq : j = i + 1
      · exact heq ▸ hc
      · exact hzero j (by omega) hj' hd
    -- one row of the division: a multiple of the divisor is taken away
    have happly := modStep_apply (Nat.not_lt.mp hlow) hc hlead
    generalize ha : el (c (i + 1)) / el (divisor.coeff divisor.order) = a at happly
    have hcoeff : ∀ k, i + 1 < k →
        (C a * (X ^ (i + 1 - divisor.order) * divisor.toPoly)).coeff k = 0 := by
      intro k hk
      rw [coeff_C_mul, coeff_X_pow_mul', toPoly, coeff_poly]
      split
      · rw [if_neg (by omega), mul_zero]
      · exact mul_zero a
    refine ⟨⟨q - C a * X ^ (i + 1 - divisor.order), ?_⟩, fun j hj hj' hd => ?_⟩
    · have hpoly : poly (dividend.order + 1) (modStep ccsdsField divisor (i + 1) c) =
          poly (dividend.order + 1) c +
            C a * (X ^ (i + 1 - divisor.order) * divisor.toPoly) := by
        refine poly_of_coeff (fun k hk => ?_) fun k hk => ?_
        · rw [coeff_add, coeff_poly, if_neg (by omega), hcoeff k (by omega), add_zero]
        · rw [happly, coeff_add, coeff_poly, if_pos hk]
      rw [hpoly, hq]
      ring
    · refine el_eq_zero_iff.mp ?_
      rw [happly]
      by_cases heq : j = i + 1
      · subst heq
        rw [coeff_C_mul, coeff_X_pow_mul', if_pos (by omega), toPoly, coeff_poly,
          if_pos (by omega), show i + 1 - (i + 1 - divisor.order) = divisor.order by omega, ← ha,
          div_mul_cancel₀ _ (mt el_eq_zero_iff.mp hlead), CharTwo.add_self_eq_zero]
      · rw [hcoeff j (by omega), add_zero, hzero j (by omega) hj' hd, el_zero]

/-! ## Products of linear factors -/

/-- The product of the factors of the first `n` roots. -/
noncomputable def rootsPoly (n : Nat) (roots : Nat → UInt8) : Gf[X] :=
  ∏ i ∈ Finset.range n, (X + C (el (roots i)))

theorem rootsPoly_monic (n : Nat) (roots : Nat → UInt8) : (rootsPoly n roots).Monic :=
  monic_prod_of_monic _ _ fun i _ => monic_X_add_C (el (roots i))

theorem natDegree_rootsPoly (n : Nat) (roots : Nat → UInt8) :
    (rootsPoly n roots).natDegree = n := by
  rw [rootsPoly, natDegree_prod_of_monic _ _ fun i _ => monic_X_add_C (el (roots i))]
  simp

theorem eval_rootsPoly_eq_zero_iff {n : Nat} {roots : Nat → UInt8} {x : Gf} :
    (rootsPoly n roots).eval x = 0 ↔ ∃ i, i < n ∧ x = el (roots i) := by
  rw [rootsPoly, eval_prod, Finset.prod_eq_zero_iff]
  simp only [Finset.mem_range, eval_add, eval_X, eval_C, CharTwo.add_eq_zero]

theorem createFromRoots_order (n : Nat) (roots : Nat → UInt8) (raw : PolynomialT) :
    (createFromRoots ccsdsField n roots raw).order = n := rfl

theorem toPoly_createFromRoots {n : Nat} (hn : 1 ≤ n) (roots : Nat → UInt8)
    (raw : PolynomialT) :
    (createFromRoots ccsdsField n roots raw).toPoly = rootsPoly n roots := by
  have hloop := @forLoop_induct _ 1 n (rootsStep ccsdsField roots)
    (⟨Function.update (Function.update (fun _ => 0) 0 (roots 0)) 1 1, 1⟩, ⟨fun _ => 0, 0⟩)
    (fun i r => r.1.order = i ∧ r.1.toPoly = rootsPoly i roots) hn ⟨rfl, ?_⟩ ?_
  · simp only [createFromRoots]
    generalize forLoop 1 n (rootsStep ccsdsField roots) _ = r at hloop
    rw [← hloop.2, toPoly, toPoly, hloop.1]
    refine poly_congr fun i hi => ?_
    have hcopy := @copyRange_inside _ raw.coeff r.1.coeff 0 0 (n + 1) i hi
    rw [Nat.zero_add] at hcopy
    exact hcopy
  · rw [toPoly, rootsPoly, poly_succ, poly_succ]
    simp [← X_pow_eq_monomial, add_comm]
  · rintro i ⟨cur, other⟩ - - ⟨horder, hpoly⟩
    simp only at horder hpoly
    refine ⟨rfl, ?_⟩
    simp only [rootsStep]
    rw [toPoly_mul (by simp only; omega), hpoly, rootsPoly, rootsPoly, Finset.prod_range_succ,
      mul_comm]
    congr 1
    rw [toPoly, poly_succ, poly_succ]
    simp [← X_pow_eq_monomial, add_comm]

theorem createFromRoots_leading {n : Nat} (hn : 1 ≤ n) (roots : Nat → UInt8)
    (raw : PolynomialT) : (createFromRoots ccsdsField n roots raw).coeff n = 1 := by
  have hcoeff := (rootsPoly_monic n roots).coeff_natDegree
  rw [natDegree_rootsPoly, ← toPoly_createFromRoots hn roots raw, toPoly, coeff_poly,
    createFromRoots_order, if_pos (Nat.lt_succ_self n)] at hcoeff
  exact el_injective (hcoeff.trans el_one.symm)

end PolynomialT

end RyFi.Rs
