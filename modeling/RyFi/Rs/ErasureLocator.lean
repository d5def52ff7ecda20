import RyFi.Lib.KnownPoints
import RyFi.Rs.Erasures
import RyFi.Rs.Shortened

/-! # Locators of errors and erasures

What the steps of the erasure method find when the erasures and the errors together are few:
the locator of the erasures, the syndromes without them, and from those the locator of the
errors, whose roots are listed behind those of the erasures.
-/

namespace RyFi.Rs

open CLoop Polynomial PolynomialT KeyEquation

/-- The point of byte `j`. -/
noncomputable abbrev point (j : Nat) : Gf := α ^ (254 - j)

/-! ## The locator of the erasures -/

theorem toPoly_initFromRoots {n : Nat} (hn : 1 ≤ n) (roots : Nat → UInt8) (poly : PolynomialT)
    (scratch : PolynomialT × PolynomialT) :
    (initFromRoots ccsdsField n roots poly scratch).1.toPoly = rootsPoly n roots := by
  have hfirst : (⟨Function.update (Function.update scratch.1.coeff 1 1) 0 (roots 0), 1⟩ :
      PolynomialT).toPoly = rootsPoly 1 roots := by
    rw [toPoly, rootsPoly, poly_succ, poly_succ]
    simp [← X_pow_eq_monomial, add_comm]
  have hloop := @forLoop_induct _ 1 n (rootsStep ccsdsField roots)
    (⟨Function.update (Function.update scratch.1.coeff 1 1) 0 (roots 0), 1⟩, scratch.2)
    (fun i r => r.1.order = i ∧ r.1.toPoly = rootsPoly i roots) hn ⟨rfl, hfirst⟩ ?_
  · simp only [initFromRoots]
    generalize forLoop 1 n (rootsStep ccsdsField roots) _ = r at hloop
    rw [← hloop.2, toPoly, toPoly, hloop.1]
    refine poly_congr fun i hi => ?_
    have hcopy := @copyRange_inside _ poly.coeff r.1.coeff 0 0 (n + 1) i hi
    rw [Nat.zero_add] at hcopy
    exact hcopy
  · rintro i ⟨cur, other⟩ - - ⟨horder, hpoly⟩
    simp only at horder hpoly
    have hfactor : (⟨fun k => if k = 0 then roots i else 1, 1⟩ : PolynomialT).toPoly =
        X + C (el (roots i)) := by
      rw [toPoly, poly_succ, poly_succ]
      simp [← X_pow_eq_monomial, add_comm]
    refine ⟨rfl, ?_⟩
    simp only [rootsStep]
    rw [toPoly_mul (by simp only; omega), hpoly, hfactor, rootsPoly, rootsPoly,
      Finset.prod_range_succ, mul_comm]

/-- The product of the roots' factors is the locator of their reciprocals, but for a factor. -/
theorem rootsPoly_eq_locator {n : Nat} {roots : Nat → UInt8} {p : Nat → Nat}
    (hroots : ∀ i, i < n → el (roots i) = (point (p i))⁻¹)
    (hinj : ∀ i k, i < n → k < n → p i = p k → i = k) :
    ∃ c, c ≠ 0 ∧ rootsPoly n roots = C c * locator ((Finset.range n).image p) point := by
  refine ⟨∏ i ∈ Finset.range n, (point (p i))⁻¹, ?_, ?_⟩
  · exact Finset.prod_ne_zero_iff.mpr fun i _ => inv_ne_zero (α_pow_ne _)
  · rw [locator, Finset.prod_image fun i hi k hk =>
      hinj i k (Finset.mem_range.mp hi) (Finset.mem_range.mp hk), rootsPoly, map_prod,
      ← Finset.prod_mul_distrib]
    refine Finset.prod_congr rfl fun i hi => ?_
    rw [hroots i (Finset.mem_range.mp hi), mul_sub, mul_one, ← mul_assoc, ← C_mul,
      inv_mul_cancel₀ (α_pow_ne _), C_1, one_mul, CharTwo.sub_eq_add, add_comm]

/-! ## The search -/

/-- A search over fewer syndromes is as short as a register for these can be. -/
theorem numerrors_search_le_of_register {syndromes : Nat → UInt8} {rs : ReedSolomon} {n v : Nat}
    {D : Gf[X]} (hmin : rs.minDistance = 32) (hD : Register (poly 32 syndromes) D v n)
    (hn : n ≤ 32) :
    (forLoop 0 n (ReedSolomon.LocatorSearch.step ccsdsField syndromes) rs.locatorStart).numerrors ≤
      v := by
  have hloop := @forLoop_induct _ 0 n (ReedSolomon.LocatorSearch.step ccsdsField syndromes)
    rs.locatorStart
    (fun i s => ReedSolomon.LocatorSearch.Tracks syndromes i s ∧ s.numerrors ≤ v) (Nat.zero_le n)
    ⟨ReedSolomon.LocatorSearch.tracks_start hmin, Nat.zero_le v⟩
    fun i s _ hi hs => ⟨ReedSolomon.LocatorSearch.tracks_step hs.1 (by omega),
      ReedSolomon.LocatorSearch.numerrors_step_le hs.1 (by omega) hD hi hs.2⟩
  exact hloop.2

/-- On the power sums of few points the search finds their locator. -/
theorem search_eq_locator {syndromes : Nat → UInt8} {rs : ReedSolomon} {n : Nat} {s : Finset Nat}
    {y : Nat → Gf} (hmin : rs.minDistance = 32) (hn : n ≤ 32) (hs : ∀ j ∈ s, j < 255)
    (hy : ∀ j ∈ s, y j ≠ 0) (hfew : 2 * s.card ≤ n)
    (hsums : ∀ k, k < n → (poly 32 syndromes).coeff k = ∑ j ∈ s, y j * point j ^ k) :
    ∃ t : ReedSolomon.LocatorSearch, t.errorLocator =
        (forLoop 0 n (ReedSolomon.LocatorSearch.step ccsdsField syndromes)
          rs.locatorStart).errorLocator ∧
      t.errorLocator.coeff 0 = 1 ∧ t.errorLocator.order = s.card ∧
      t.errorLocator.toPoly = locator s point := by
  have htracks := @ReedSolomon.LocatorSearch.tracks_search syndromes n rs hmin hn
  have hshort := numerrors_search_le_of_register hmin (register_locator hsums) hn
  obtain ⟨hlocator, hlength⟩ := register_eq_locator (injOn_powers hs)
    (fun j _ => α_pow_ne (254 - j)) hy hsums htracks.search.register hshort hfew
  exact ⟨_, rfl, htracks.locator_zero, htracks.order_eq.trans hlength, hlocator⟩

/-! ## The roots -/

/-- The first `n` cells list the roots of the locator of `s`. -/
structure RootsOf (s : Finset Nat) (n : Nat) (roots : Nat → UInt8) : Prop where
  root : ∀ k, k < n → ∃ j ∈ s, el (roots k) = (point j)⁻¹
  complete : ∀ j ∈ s, ∃ k, k < n ∧ el (roots k) = (point j)⁻¹
  injective : ∀ k l, k < n → l < n → roots k = roots l → k = l

theorem RootsOf.ne_zero {s : Finset Nat} {n : Nat} {roots : Nat → UInt8} (h : RootsOf s n roots)
    {k : Nat} (hk : k < n) : roots k ≠ 0 := by
  obtain ⟨j, -, hroot⟩ := h.root k hk
  intro hzero
  rw [hzero, el_zero] at hroot
  exact inv_ne_zero (α_pow_ne _) hroot.symm

theorem point_inj {i j : Nat} (hi : i < 255) (hj : j < 255) (h : point i = point j) : i = j := by
  have hmod := α_pow_inj.mp h
  omega

/-- The roots of the erasures in front, and those of the errors behind. -/
theorem RootsOf.append {s t : Finset Nat} {m n : Nat} {roots : Nat → UInt8}
    (hs : RootsOf s m roots) (ht : RootsOf t n fun k => roots (m + k))
    (hlt : ∀ j ∈ s ∪ t, j < 255) (hdisjoint : Disjoint s t) : RootsOf (s ∪ t) (m + n) roots := by
  have hapart : ∀ k l, k < m → l < n → roots k ≠ roots (m + l) := by
    intro k l hk hl heq
    obtain ⟨i, hi, hroot⟩ := hs.root k hk
    obtain ⟨j, hj, hroot'⟩ := ht.root l hl
    rw [← heq, hroot] at hroot'
    have hij := point_inj (hlt i (Finset.mem_union_left t hi))
      (hlt j (Finset.mem_union_right s hj)) (inv_injective hroot')
    exact Finset.disjoint_left.mp hdisjoint hi (hij ▸ hj)
  constructor
  · intro k hk
    by_cases hlow : k < m
    · obtain ⟨j, hj, hroot⟩ := hs.root k hlow
      exact ⟨j, Finset.mem_union_left t hj, hroot⟩
    · obtain ⟨l, rfl⟩ := Nat.exists_eq_add_of_le (Nat.not_lt.mp hlow)
      obtain ⟨j, hj, hroot⟩ := ht.root l (by omega)
      exact ⟨j, Finset.mem_union_right s hj, hroot⟩
  · intro j hj
    rcases Finset.mem_union.mp hj with hj | hj
    · obtain ⟨k, hk, hroot⟩ := hs.complete j hj
      exact ⟨k, by omega, hroot⟩
    · obtain ⟨k, hk, hroot⟩ := ht.complete j hj
      exact ⟨m + k, by omega, hroot⟩
  · intro k l hk hl heq
    rcases Nat.lt_or_ge k m with hk' | hk' <;> rcases Nat.lt_or_ge l m with hl' | hl'
    · exact hs.injective k l hk' hl' heq
    · obtain ⟨l, rfl⟩ := Nat.exists_eq_add_of_le hl'
      exact absurd heq (hapart k l hk' (by omega))
    · obtain ⟨k, rfl⟩ := Nat.exists_eq_add_of_le hk'
      exact absurd heq.symm (hapart l k hl' (by omega))
    · obtain ⟨k, rfl⟩ := Nat.exists_eq_add_of_le hk'
      obtain ⟨l, rfl⟩ := Nat.exists_eq_add_of_le hl'
      rw [ht.injective k l (by omega) (by omega) heq]

/-- The zeros of a locator, listed, are the roots of its points. -/
theorem rootsOf_lists {s : Finset Nat} {count : Nat} {roots : Nat → UInt8}
    (hs : ∀ j ∈ s, j < 255)
    (h : ReedSolomon.Lists (fun i => (locator s point).eval (el (UInt8.ofNat i)) = 0) 256 count
      roots) : count = s.card ∧ RootsOf s count roots := by
  have hroot : ∀ k, k < count → ∃ j ∈ s, el (roots k) = (point j)⁻¹ := by
    intro k hk
    have hzero := h.sound k hk
    rw [UInt8.ofNat_toNat, locator, eval_prod, Finset.prod_eq_zero_iff] at hzero
    obtain ⟨j, hj, hfactor⟩ := hzero
    rw [eval_sub, eval_one, eval_C_mul, eval_X, sub_eq_zero] at hfactor
    exact ⟨j, hj, eq_inv_of_mul_eq_one_right hfactor.symm⟩
  have hcomplete : ∀ j ∈ s, ∃ k, k < count ∧ el (roots k) = (point j)⁻¹ := by
    intro j hj
    obtain ⟨b, hb⟩ := exists_el (point j)⁻¹
    have hzero : (locator s point).eval (el b) = 0 := by
      rw [hb]
      exact eval_locator_eq_zero (x := point) hj (α_pow_ne (254 - j))
    obtain ⟨k, hk, heq⟩ := h.complete b.toNat (UInt8.toNat_lt b)
      (by rw [UInt8.ofNat_toNat]; exact hzero)
    exact ⟨k, hk, by rw [UInt8.toNat_inj.mp heq, hb]⟩
  have hinjective : ∀ k l, k < count → l < count → roots k = roots l → k = l :=
    fun k l hk hl heq => h.injective hk hl heq
  refine ⟨Nat.le_antisymm ?_ ?_, hroot, hcomplete, hinjective⟩
  · choose! p hp hval using hroot
    rw [← Finset.card_range count]
    refine Finset.card_le_card_of_injOn p (fun k hk => hp k (Finset.mem_range.mp hk)) ?_
    intro k hk l hl hkl
    have hk := Finset.mem_range.mp hk
    have hl := Finset.mem_range.mp hl
    refine hinjective k l hk hl (el_injective ?_)
    rw [hval k hk, hval l hl]
    exact congrArg (fun j => (point j)⁻¹) hkl
  · choose! cell hlt hcell using hcomplete
    rw [← Finset.card_range count]
    refine Finset.card_le_card_of_injOn cell (fun j hj => Finset.mem_range.mpr (hlt j hj)) ?_
    intro i hi j hj hij
    refine point_inj (hs i hi) (hs j hj) (inv_injective ?_)
    rw [← hcell i hi, ← hcell j hj, hij]

/-- The search for the roots behind `skip` cells is the search from the start, moved. -/
theorem factorize_skip (f : FieldT) (p : PolynomialT) (roots : Nat → UInt8)
    (exps : Nat → Nat → UInt8) (skip : Nat) :
    ∃ count, ReedSolomon.Lists (fun j => evalLogLut f p (exps j) = 0) 256 count
        (fun k => (ReedSolomon.factorizeErrorLocator f skip p roots exps).2 (skip + k)) ∧
      ((ReedSolomon.factorizeErrorLocator f skip p roots exps).1 = true ↔ count = p.order) ∧
      ∀ k, k < skip → (ReedSolomon.factorizeErrorLocator f skip p roots exps).2 k = roots k := by
  have hrel := @forLoop_rel _ _ 0 256 (ReedSolomon.rootStep f p exps)
    (ReedSolomon.rootStep f p exps) (0, fun k => setRange roots skip 0 p.order (skip + k))
    (skip, setRange roots skip 0 p.order)
    (fun _ (s t : Nat × (Nat → UInt8)) => t.1 = skip + s.1 ∧ (∀ k, t.2 (skip + k) = s.2 k) ∧
      ∀ k, k < skip → t.2 k = roots k) (Nat.zero_le 256) ?_ ?_
  · obtain ⟨hcount, hcells, hfront⟩ := hrel
    have hlists := ReedSolomon.lists_below f p
      (fun k => setRange roots skip 0 p.order (skip + k)) exps (Nat.le_refl 256)
    have hcells' : (fun k => (ReedSolomon.factorizeErrorLocator f skip p roots exps).2 (skip + k)) =
        _ := funext hcells
    rw [← hcells'] at hlists
    refine ⟨_, hlists, ?_, hfront⟩
    rw [ReedSolomon.factorizeErrorLocator, beq_iff_eq, Nat.add_comm p.order]
    exact hcount.congr_left.trans Nat.add_left_cancel_iff
  · refine ⟨rfl, fun _ => rfl, fun k hk => ?_⟩
    exact if_neg fun h => Nat.not_le.mpr hk h.1
  · rintro i ⟨count, cells⟩ ⟨count', cells'⟩ - - ⟨hcount, hcells, hfront⟩
    simp only at hcount hcells hfront
    subst hcount
    simp only [ReedSolomon.rootStep]
    split
    next hzero =>
      refine ⟨rfl, fun k => ?_, fun k hk => ?_⟩
      · simp only [Function.update_apply]
        split
        next heq => rw [if_pos (Nat.add_left_cancel heq)]
        next hne => rw [if_neg fun heq => hne (by rw [heq]), hcells]
      · simp only
        rw [Function.update_of_ne (by omega)]
        exact hfront k hk
    next => exact ⟨rfl, hcells, hfront⟩

end RyFi.Rs
