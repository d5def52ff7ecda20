import RyFi.Rs.Accesses
import RyFi.Rs.Codewords

/-! # The tables of a decode call

All accesses are within their buffers as long as the order of the locator is at most 31,
and the search keeps it there unless the last syndrome is the only one that is not zero:
then the order is 32, and the search for the roots reads past the rows of powers
(`decode_inBounds_iff`).
-/

namespace RyFi.Rs

open CLoop Polynomial PolynomialT KeyEquation

/-! ## Lists of accesses -/

section Within

variable {size : Buffer → Nat} {l l' : List Access}

@[simp] theorem within_nil : Within size [] := fun _ h => absurd h List.not_mem_nil

@[simp] theorem within_cons {a : Access} :
    Within size (a :: l) ↔ a.2 < size a.1 ∧ Within size l := List.forall_mem_cons

@[simp] theorem within_append : Within size (l ++ l') ↔ Within size l ∧ Within size l' :=
  List.forall_mem_append

theorem within_eachOf {n : Nat} {body : Nat → List Access} :
    Within size (eachOf n body) ↔ ∀ i, i < n → Within size (body i) := by
  constructor
  · intro h i hi a ha
    exact h a (List.mem_flatMap.mpr ⟨i, List.mem_range.mpr hi, ha⟩)
  · intro h a ha
    obtain ⟨i, hi, ha⟩ := List.mem_flatMap.mp ha
    exact h i (List.mem_range.mp hi) a ha

theorem within_front {b : Buffer} {n : Nat} (h : n ≤ size b) : Within size (front b n) := by
  intro a ha
  obtain ⟨i, hi, rfl⟩ := List.mem_map.mp ha
  exact Nat.lt_of_lt_of_le (List.mem_range.mp hi) h

theorem within_eval {coeff row : Buffer} {poly : PolynomialT} {valExp : Nat → UInt8}
    (hcoeff : poly.order < size coeff) (hrow : poly.order < size row) :
    Within size (evalAccesses coeff poly row valExp) := by
  rw [evalAccesses, within_cons]
  refine ⟨Nat.zero_lt_of_lt hrow, ?_⟩
  split
  next => exact within_cons.mpr ⟨Nat.zero_lt_of_lt hcoeff, within_nil⟩
  next =>
    refine within_eachOf.mpr fun i hi => ?_
    rw [within_cons]
    refine ⟨Nat.lt_of_le_of_lt (Nat.lt_succ_iff.mp hi) hcoeff, ?_⟩
    split
    next =>
      exact within_cons.mpr ⟨Nat.lt_of_le_of_lt (Nat.lt_succ_iff.mp hi) hrow, within_nil⟩
    next => exact within_nil

theorem within_mul {l r res : PolynomialT} {lCoeff rCoeff resCoeff : Buffer}
    (hl : l.order < size lCoeff) (hr : r.order < size rCoeff) (hres : res.order < size resCoeff) :
    Within size (mulAccesses l r res lCoeff rCoeff resCoeff) := by
  rw [mulAccesses, within_append]
  refine ⟨within_front hres, within_eachOf.mpr fun i hi => ?_⟩
  split
  next => exact within_nil
  next hle =>
    refine within_eachOf.mpr fun j hj => ?_
    have hj' : j ≤ res.order - i ∧ j ≤ r.order := by
      split at hj <;> omega
    simp only [within_cons, within_nil, and_true]
    omega

theorem within_derivative {der : PolynomialT} {derCoeff polyCoeff : Buffer}
    (hder : der.order < size derCoeff) (hpoly : der.order + 1 < size polyCoeff) :
    Within size (derivativeAccesses der derCoeff polyCoeff) := by
  rw [derivativeAccesses, within_append]
  refine ⟨within_front hder, within_eachOf.mpr fun i hi => ?_⟩
  simp only [within_cons, within_nil, and_true]
  omega

end Within

namespace ReedSolomon

variable {rs : ReedSolomon} {block : Nat → UInt8}

/-- The sizes for a block of the modem. -/
def sizes : Buffer → Nat
  | .encoded => 255
  | .msg => 223
  | .generatorRoots => 32
  | .syndromes => 32
  | .receivedPolynomial => 255
  | .errorLocator => 33
  | .lastErrorLocator => 33
  | .errorLocatorLog => 33
  | .errorRoots => 64
  | .errorVals => 32
  | .errorLocations => 32
  | .errorEvaluator => 32
  | .errorLocatorDerivative => 32
  | .generatorRootExp row => if row < 32 then 255 else 0
  | .elementExp row => if row < 256 then 32 else 0

theorem allocated_eq (h : Usable rs) : rs.allocated 255 = sizes := by
  have hmin : rs.minDistance = 32 := h.1.minDistance_eq
  have hblock : rs.blockLength = 255 := h.1.blockLength_eq
  funext b
  cases b <;> simp only [allocated, sizes, hmin, hblock]

theorem size_rootRow {i : Nat} (hi : i < 32) : sizes (.generatorRootExp i) = 255 := if_pos hi

theorem size_elementRow {i : Nat} (hi : i < 256) : sizes (.elementExp i) = 32 := if_pos hi

/-! ## Before the search -/

theorem within_decoderCreate (h : Usable rs) : Within sizes rs.decoderCreateAccesses := by
  have hmin : rs.minDistance = 32 := h.1.minDistance_eq
  have hblock : rs.blockLength = 255 := h.1.blockLength_eq
  rw [decoderCreateAccesses, within_append, hmin, hblock]
  refine ⟨within_eachOf.mpr fun i hi => ?_, within_eachOf.mpr fun i hi => ?_⟩
  · exact within_cons.mpr ⟨hi, within_front (Nat.le_of_eq (size_rootRow hi).symm)⟩
  · exact within_front (Nat.le_of_eq (size_elementRow hi).symm)

theorem within_receive (hblock : rs.blockLength = 255) :
    Within sizes (rs.receiveAccesses 255) := by
  rw [receiveAccesses, within_append, hblock]
  refine ⟨within_eachOf.mpr fun i hi => ?_, within_eachOf.mpr fun i hi => absurd hi (by omega)⟩
  simp only [within_cons, within_nil, and_true, sizes]
  omega

theorem within_syndromes (h : Built rs.config) : Within sizes rs.syndromeAccesses := by
  rw [syndromeAccesses, within_append, h.minDistance]
  refine ⟨within_front (Nat.le_refl 32), within_eachOf.mpr fun i hi => ?_⟩
  rw [within_append, within_cons]
  have hreceived := h.receivedOrder
  refine ⟨within_eval ?_ ?_, hi, within_nil⟩
  · rw [hreceived]
    decide
  · rw [hreceived, size_rootRow hi]
    decide

theorem within_message : Within sizes (messageAccesses 255 223) := by
  refine within_eachOf.mpr fun i hi => ?_
  simp only [within_cons, within_nil, and_true, sizes]
  omega

/-! ## The search -/

theorem within_step {n : Nat} {syndromes : Nat → UInt8} {s : LocatorSearch}
    (h : LocatorSearch.Tracks syndromes n s) (hn : n < 32) (f : FieldT) :
    Within sizes (LocatorSearch.stepAccesses f syndromes n s) := by
  have hle := h.numerrors_le
  -- the shifted locator ends where the search says it has to
  have hlengths := h.search.lengths
  rw [LocatorSearch.stepAccesses, within_append, LocatorSearch.discrepancyAccesses, within_cons]
  refine ⟨⟨hn, within_eachOf.mpr fun j hj => ?_⟩, ?_⟩
  · simp only [within_cons, within_nil, and_true, sizes]
    omega
  · split
    next => exact within_nil
    next =>
      split
      next =>
        rw [LocatorSearch.lengthenAccesses, within_append, within_append]
        refine ⟨⟨within_eachOf.mpr fun j hj => ?_, within_front ?_⟩,
          within_eachOf.mpr fun j hj => ?_⟩
        · simp only [within_cons, within_nil, and_true, sizes]
          omega
        · simp only [sizes]
          omega
        · simp only [within_cons, within_nil, and_true, sizes]
          omega
      next =>
        refine within_eachOf.mpr fun j hj => ?_
        simp only [within_cons, within_nil, and_true, sizes]
        omega

/-- The search stays in its buffers, whatever the syndromes are. -/
theorem within_locator (h : Built rs.config) : Within sizes rs.locatorAccesses := by
  have hmin := h.minDistance
  rw [locatorAccesses, within_append, within_append, within_append, hmin, h.field]
  refine ⟨⟨⟨within_front (Nat.le_refl 33), within_cons.mpr ⟨by decide, within_nil⟩⟩,
    within_front (Nat.le_refl 33)⟩, within_eachOf.mpr fun i hi => ?_⟩
  exact within_step (LocatorSearch.tracks_search hmin (Nat.le_of_lt hi)) hi ccsdsField

/-! ## The order of the locator -/

/-- Only the last syndrome is not zero. -/
def LastOnly (block : Nat → UInt8) : Prop :=
  (∀ i, i < 31 → syndrome block i = 0) ∧ syndrome block 31 ≠ 0

/-- An earlier syndrome that is not zero can be used to generate the last one. -/
theorem order_le_of_earlier (h : Usable rs) {k : Nat} (hk : k < 31)
    (hne : syndrome block k ≠ 0) : (rs.located block 255).errorLocator.order ≤ 31 := by
  refine located_order_le_of_register h block
    (D := 1 - C (syndrome block 31 / syndrome block k) * X ^ (31 - k)) ⟨?_, ?_, fun j hj hj' => ?_⟩
  · rw [coeff_sub, coeff_C_mul, coeff_X_pow, if_neg (by omega), mul_zero, sub_zero,
      coeff_one_zero]
  · refine (natDegree_sub_le _ _).trans (max_le (by simp) ?_)
    exact (natDegree_C_mul_X_pow_le _ _).trans (Nat.sub_le 31 k)
  · obtain rfl : j = 31 := by omega
    rw [sub_mul, coeff_sub, one_mul, mul_assoc, coeff_C_mul, coeff_X_pow_mul', if_pos (by omega),
      show 31 - (31 - k) = k by omega, coeff_syndromePoly block (by omega),
      coeff_syndromePoly block (by omega), div_mul_cancel₀ _ hne, sub_self]

theorem order_le_of_not_lastOnly (h : Usable rs) (hlast : ¬ LastOnly block)
    (hsearch : rs.allZero block 255 = false) :
    (rs.located block 255).errorLocator.order ≤ 31 := by
  by_cases hearlier : ∃ k, k < 31 ∧ syndrome block k ≠ 0
  · obtain ⟨k, hk, hne⟩ := hearlier
    exact order_le_of_earlier h hk hne
  · have hzero : ∀ i, i < 31 → syndrome block i = 0 := fun i hi => by
      by_contra hne
      exact hearlier ⟨i, hi, hne⟩
    have hall : rs.allZero block 255 = true := by
      refine (allZero_iff h block).mpr fun i hi => ?_
      by_contra hne
      obtain rfl : i = 31 := by
        by_contra hi'
        exact hne (hzero i (by omega))
      exact hlast ⟨hzero, hne⟩
    rw [hsearch] at hall
    exact absurd hall Bool.false_ne_true

/-- The search after discrepancies that were all zero. -/
def quiet (rs : ReedSolomon) (n : Nat) : LocatorSearch :=
  { rs.locatorStart with delayLength := n + 1 }

theorem discrepancy_quiet (f : FieldT) (rs : ReedSolomon) (syndromes : Nat → UInt8) (n : Nat) :
    (rs.quiet n).discrepancy f syndromes n = syndromes n := forLoop_self 1 _ _

theorem search_quiet {syndromes : Nat → UInt8} {n : Nat} (hzero : ∀ i, i < n → syndromes i = 0)
    (f : FieldT) (rs : ReedSolomon) :
    forLoop 0 n (LocatorSearch.step f syndromes) rs.locatorStart = rs.quiet n := by
  refine forLoop_induct (fun i s => s = rs.quiet i) (Nat.zero_le n) rfl ?_
  rintro i s - hi rfl
  rw [LocatorSearch.step, if_pos ((discrepancy_quiet f rs syndromes i).trans (hzero i hi))]
  rfl

/-- The last syndrome alone makes the locator as long as there are syndromes. -/
theorem order_of_lastOnly (h : Usable rs) (hlast : LastOnly block) :
    (rs.located block 255).errorLocator.order = 32 ∧
      (rs.located block 255).errorLocator.coeff 32 ≠ 0 := by
  have hmin : (rs.afterSyndromes block 255).minDistance = 32 :=
    (built_afterSyndromes h block 255).minDistance
  have hzero : ∀ i, i < 31 → (rs.afterSyndromes block 255).syndromes i = 0 := fun i hi => by
    rw [← el_eq_zero_iff, el_syndromes h block (Nat.lt_succ_of_lt hi)]
    exact hlast.1 i hi
  have hne : (rs.afterSyndromes block 255).syndromes 31 ≠ 0 := fun hsyndrome => by
    refine hlast.2 ?_
    rw [← el_syndromes h block (Nat.lt_succ_self 31), hsyndrome, el_zero]
  rw [located_eq h]
  generalize rs.afterSyndromes block 255 = rs' at hmin hzero hne
  have hroom : 2 * (rs'.quiet 31).numerrors ≤ 31 := Nat.zero_le 31
  rw [forLoop_succ (Nat.zero_le 31), search_quiet hzero, LocatorSearch.step, discrepancy_quiet,
    if_neg hne, if_pos hroom]
  refine ⟨rfl, ?_⟩
  have hhigh : (rs'.quiet 31).errorLocator.coeff 32 = 0 := by
    simp only [quiet, locatorStart, hmin]
    rw [Function.update_of_ne (by decide), setRange_inside (Nat.zero_le _) (by decide)]
  have hlow : (rs'.quiet 31).lastErrorLocator.coeff 0 = 1 := by
    have hcopy := @copyRange_inside _ rs'.lastErrorLocator.coeff
      rs'.locatorStart.errorLocator.coeff 0 0 33 0 (by decide)
    simp only [Nat.zero_add] at hcopy
    simp only [quiet, locatorStart, hmin] at hcopy ⊢
    rw [hcopy, Function.update_self]
  have htop := LocatorSearch.lengthen_top (rs'.quiet 31) (Nat.succ_pos 31) (rs'.syndromes 31) 31
  rw [show (rs'.quiet 31).lastErrorLocator.order + (rs'.quiet 31).delayLength = 32 from rfl,
    show (rs'.quiet 31).lastErrorLocator.order = 0 from rfl, hhigh, LocatorSearch.scaledLast,
    hlow, show (rs'.quiet 31).lastDiscrepancy = 1 from rfl] at htop
  rw [htop]
  intro hcoeff
  have hel := congrArg el hcoeff
  rw [el_add, el_div, el_mul, el_zero, el_one, zero_add, one_mul, div_one] at hel
  exact hne (el_eq_zero_iff.mp hel)

/-! ## After the search -/

variable {S : Gf[X]}

theorem within_logs (h : Searched rs S) : Within sizes rs.takeLogs.logAccesses := by
  have hle : rs.takeLogs.errorLocator.order ≤ 31 := h.order_le
  refine within_eachOf.mpr fun i hi => ?_
  simp only [within_cons, within_nil, and_true, sizes]
  omega

/-- The cell the next root goes to is the number of roots so far. -/
theorem rootsBefore_eq (f : FieldT) (p : PolynomialT) (roots : Nat → UInt8)
    (exps : Nat → Nat → UInt8) (n : Nat) :
    rootsBefore f p exps n = (forLoop 0 n (rootStep f p exps) (0, roots)).1 := by
  refine forLoop_rel (fun _ root (s : Nat × (Nat → UInt8)) => root = s.1) (Nat.zero_le n) rfl ?_
  intro i root s _ _ hroot
  rw [rootStep, hroot]
  split <;> rfl

theorem rootsBefore_le (h : Searched rs S) {n : Nat} (hn : n ≤ 256) :
    rootsBefore rs.field rs.takeLogs.errorLocatorLog rs.elementExp n ≤ 31 := by
  rw [rootsBefore_eq _ _ rs.errorRoots]
  exact (lists_zeros h hn (lists_below _ _ _ _ hn)).count_le h |>.trans h.order_le

theorem within_factorize (h : Searched rs S) : Within sizes rs.takeLogs.factorizeAccesses := by
  have hle : rs.takeLogs.errorLocatorLog.order ≤ 31 := h.order_le
  rw [factorizeAccesses, within_append]
  refine ⟨within_front (hle.trans (by decide)), within_eachOf.mpr fun i hi => ?_⟩
  rw [within_append]
  refine ⟨within_eval ?_ ?_, ?_⟩
  · exact Nat.lt_of_le_of_lt hle (by decide)
  · rw [size_elementRow hi]
    omega
  · split
    next =>
      refine within_cons.mpr ⟨?_, within_nil⟩
      exact Nat.lt_of_le_of_lt (rootsBefore_le h (Nat.le_of_lt hi)) (show 31 < 64 by decide)
    next => exact within_nil

theorem within_locations (h : Searched rs S) : Within sizes rs.withRoots.locationAccesses := by
  have hle : rs.withRoots.errorLocator.order ≤ 31 := h.order_le
  refine within_eachOf.mpr fun i hi => ?_
  rw [within_cons]
  refine ⟨?_, ?_⟩
  · simp only [sizes]
    omega
  · split
    next => exact within_nil
    next =>
      split
      next =>
        refine within_cons.mpr ⟨?_, within_nil⟩
        simp only [sizes]
        omega
      next => exact within_nil

theorem within_values (h : Searched rs S) : Within sizes rs.withLocations.valueAccesses := by
  have hle : rs.withLocations.errorLocator.order ≤ 31 := h.order_le
  have hpos : 0 < rs.errorLocator.order := h.order_pos
  have hmin : rs.withLocations.minDistance = 32 := h.built.minDistance
  have hevaluator : rs.withLocations.errorEvaluator.order = 31 := h.built.evaluatorOrder
  have hevaluators : rs.withLocations.evaluators.errorEvaluator.order = 31 :=
    h.built.evaluatorOrder
  have hderivative :
      rs.withLocations.evaluators.errorLocatorDerivative.order = rs.errorLocator.order - 1 := by
    change (rs.errorLocator.order + (2 ^ 32 - 1)) % 2 ^ 32 = rs.errorLocator.order - 1
    have := h.order_le
    omega
  rw [valueAccesses, within_append, within_append, within_append, hevaluator, hmin]
  -- the product, the derivative, and the values of both at every root
  refine ⟨⟨⟨within_front (Nat.le_refl 32), within_mul ?_ (show 31 < 32 by decide) ?_⟩,
    within_derivative ?_ ?_⟩, within_eachOf.mpr fun i hi => ?_⟩
  · exact Nat.lt_of_le_of_lt hle (by decide)
  · rw [hevaluator]
    decide
  · rw [hderivative]
    simp only [sizes]
    exact Nat.lt_of_le_of_lt (Nat.sub_le _ _) (Nat.lt_succ_of_le h.order_le)
  · rw [hderivative, Nat.sub_add_cancel hpos]
    exact Nat.lt_of_le_of_lt h.order_le (by decide)
  · have hi' : i < 32 := Nat.lt_of_lt_of_le hi (Nat.le_succ_of_le hle)
    rw [within_cons]
    refine ⟨?_, ?_⟩
    · simp only [sizes]
      omega
    · split
      next => exact within_nil
      next =>
        have hrow : sizes (.elementExp (rs.withLocations.errorRoots i).toNat) = 32 :=
          size_elementRow (UInt8.toNat_lt _)
        rw [within_append, within_append]
        refine ⟨⟨within_eval ?_ ?_, within_eval ?_ ?_⟩, within_cons.mpr ⟨hi', within_nil⟩⟩
        · rw [hevaluators]
          decide
        · rw [hevaluators, hrow]
          decide
        · rw [hderivative]
          simp only [sizes]
          exact Nat.lt_of_le_of_lt (Nat.sub_le _ _) (Nat.lt_succ_of_le h.order_le)
        · rw [hderivative, hrow]
          exact Nat.lt_of_le_of_lt (Nat.sub_le _ _) (Nat.lt_succ_of_le h.order_le)

/-- Every corrected location is at most 254. -/
theorem within_correct (h : Searched rs S) (hf : Factored rs) :
    Within sizes rs.withLocations.findErrorValues.correctAccesses := by
  refine within_eachOf.mpr fun i hi => ?_
  have hi' : i < rs.errorLocator.order := hi
  have hlt := (location_spec h hf hi').1
  have hle := h.order_le
  have hloc : (rs.withLocations.findErrorValues.errorLocations i).toNat = rs.location i := rfl
  simp only [within_cons, within_nil, and_true, sizes, hloc]
  omega

theorem errorAccesses_eq (rs : ReedSolomon) (encodedLength msgLength : Nat) :
    rs.errorAccesses encodedLength msgLength =
      rs.takeLogs.logAccesses ++ rs.takeLogs.factorizeAccesses ++
        if rs.ownRoots.1 then
          rs.withRoots.locationAccesses ++ rs.withLocations.valueAccesses ++
            rs.withLocations.findErrorValues.correctAccesses ++
            messageAccesses encodedLength msgLength
        else [] := by
  have hroots : factorizeErrorLocator rs.takeLogs.field 0 rs.takeLogs.errorLocatorLog
      rs.takeLogs.errorRoots rs.takeLogs.elementExp = rs.ownRoots := rfl
  simp only [errorAccesses, hroots]
  cases hfound : rs.ownRoots.1
  · rfl
  · rfl

theorem within_errors (h : Searched rs S) : Within sizes (rs.errorAccesses 255 223) := by
  rw [errorAccesses_eq, within_append, within_append]
  refine ⟨⟨within_logs h, within_factorize h⟩, ?_⟩
  split
  next hfound =>
    rw [within_append, within_append, within_append]
    exact ⟨⟨⟨within_locations h, within_values h⟩,
      within_correct h (factored_of_found h hfound)⟩, within_message⟩
  next => exact within_nil

/-! ## Every block -/

theorem decodeAccesses_eq (h : Usable rs) (block : Nat → UInt8) :
    rs.decodeAccesses block 255 =
      (if rs.hasInitDecode then [] else rs.decoderCreateAccesses) ++
        ((rs.prepared.receive block 255).receiveAccesses 255 ++
          (rs.prepared.receive block 255).syndromeAccesses ++
          if rs.allZero block 255 then messageAccesses 255 223
          else (rs.afterSyndromes block 255).locatorAccesses ++
            (rs.located block 255).errorAccesses 255 223) := by
  have hmin : rs.minDistance = 32 := h.1.minDistance_eq
  have hblock : rs.blockLength = 255 := h.1.blockLength_eq
  rw [decodeAccesses, hblock, hmin, if_neg (by omega)]
  rfl

/-- The row of an element that is not zero is read as far as the locator goes. -/
theorem mem_factorizeAccesses (h : Built rs.config) {b : UInt8} (hb : b ≠ 0)
    (hcoeff : rs.errorLocator.coeff rs.errorLocator.order ≠ 0) :
    ((.elementExp b.toNat, rs.errorLocator.order) : Access) ∈ rs.takeLogs.factorizeAccesses := by
  have hrow : rs.takeLogs.elementExp b.toNat 0 ≠ 0 := (h.elementRow hb).pos 0 (by decide)
  have hlog : rs.takeLogs.errorLocatorLog.coeff rs.errorLocator.order ≠ 0 := by
    rw [takeLogs_coeff rs (Nat.le_refl _), h.field]
    exact mt log_eq_zero_iff.mp hcoeff
  refine List.mem_append.mpr (Or.inr (List.mem_flatMap.mpr ⟨b.toNat,
    List.mem_range.mpr (UInt8.toNat_lt b), List.mem_append.mpr (Or.inl ?_)⟩))
  rw [evalAccesses, if_neg hrow]
  refine List.mem_cons_of_mem _ (List.mem_flatMap.mpr ⟨rs.errorLocator.order,
    List.mem_range.mpr (Nat.lt_succ_self _), List.mem_cons_of_mem _ ?_⟩)
  rw [if_pos hlog]
  exact List.mem_singleton_self _

theorem inBounds_of_not_lastOnly (h : Usable rs) (hlast : ¬ LastOnly block) :
    rs.InBounds block 255 := by
  rw [InBounds, allocated_eq h, decodeAccesses_eq h, within_append, within_append, within_append]
  have hbuilt := built_receive h block 255
  refine ⟨?_, ⟨?_, within_syndromes hbuilt⟩, ?_⟩
  · split
    next => exact within_nil
    next => exact within_decoderCreate h
  · exact within_receive hbuilt.blockLength
  · cases hzero : rs.allZero block 255 with
    | true =>
      rw [if_pos rfl]
      exact within_message
    | false =>
      rw [if_neg Bool.false_ne_true, within_append]
      exact ⟨within_locator (built_afterSyndromes h block 255),
        within_errors (searched_located h hzero (order_le_of_not_lastOnly h hlast hzero))⟩

theorem not_inBounds_of_lastOnly (h : Usable rs) (hlast : LastOnly block) :
    ¬ rs.InBounds block 255 := by
  intro hwithin
  obtain ⟨horder, hcoeff⟩ := order_of_lastOnly h hlast
  have hsearch : rs.allZero block 255 = false := by
    by_contra hzero
    exact hlast.2 ((allZero_iff h block).mp (Bool.eq_true_of_not_eq_false hzero) 31 (by decide))
  have hread := mem_factorizeAccesses (built_located h block 255)
    (show (1 : UInt8) ≠ 0 by decide) (by rw [horder]; exact hcoeff)
  rw [InBounds, allocated_eq h, decodeAccesses_eq h, hsearch, if_neg Bool.false_ne_true,
    within_append, within_append, within_append, errorAccesses_eq, within_append,
    within_append] at hwithin
  have hlt := (within_append.mp hwithin.2.2.2.1).2 _ hread
  rw [horder] at hlt
  simp only at hlt
  rw [size_elementRow (UInt8.toNat_lt 1)] at hlt
  exact Nat.lt_irrefl 32 hlt

/-- All indices are within their allocations, unless the last syndrome is the only one that is
    not zero. -/
theorem decode_inBounds_iff (h : Reachable rs) (block : Nat → UInt8) :
    rs.InBounds block 255 ↔ ¬ LastOnly block :=
  ⟨fun hwithin hlast => not_inBounds_of_lastOnly h.usable hlast hwithin,
    inBounds_of_not_lastOnly h.usable⟩

/-- Zeros with an error in the last byte. -/
def oneError (j : Nat) : UInt8 := if j = 254 then 1 else 0

theorem syndrome_oneError (i : Nat) : syndrome oneError i = 1 := by
  rw [syndrome_eq_sum, Finset.sum_eq_single_of_mem 254 (Finset.mem_range.mpr (by omega))]
  · simp [oneError]
  · intro j _ hj
    rw [oneError, if_neg hj, el_zero, zero_mul]

/-- A block that is searched for its error. -/
theorem decode_inBounds_oneError :
    (create rs_primitive_polynomial_ccsds 1 1 32 default).allZero oneError 255 = false ∧
      (create rs_primitive_polynomial_ccsds 1 1 32 default).InBounds oneError 255 := by
  refine ⟨?_, (decode_inBounds_iff (.create default) oneError).mpr fun hlast => ?_⟩
  · by_contra hzero
    have hsyndrome := (allZero_iff (usable_create default) oneError).mp
      (Bool.eq_true_of_not_eq_false hzero) 0 (by omega)
    rw [syndrome_oneError] at hsyndrome
    exact one_ne_zero hsyndrome
  · have hsyndrome := hlast.1 0 (by omega)
    rw [syndrome_oneError] at hsyndrome
    exact one_ne_zero hsyndrome

/-- The generator of the code with one root less, as a block. -/
def overread (j : Nat) : UInt8 :=
  (createFromRoots ccsdsField 31 (fun i => ccsdsField.exp (i + 1)) ⟨fun _ => 0, 0⟩).coeff (254 - j)

theorem lastOnly_overread : LastOnly overread := by
  have hreceived : received overread =
      rootsPoly 31 fun i => ccsdsField.exp (i + 1) := by
    rw [← toPoly_createFromRoots (by decide) _ ⟨fun _ => 0, 0⟩, toPoly, createFromRoots_order]
    refine (received_reverse _).trans (poly_extend (by decide) fun i hi _ => ?_)
    exact copyRange_above (by omega)
  have hroot : ∀ i, i < 31 → el (ccsdsField.exp (i + 1)) = α ^ (i + 1) := fun i hi =>
    el_exp (by omega)
  refine ⟨fun i hi => ?_, fun hzero => ?_⟩
  · rw [syndrome, hreceived, eval_rootsPoly_eq_zero_iff]
    exact ⟨i, hi, (hroot i hi).symm⟩
  · rw [syndrome, hreceived, eval_rootsPoly_eq_zero_iff] at hzero
    obtain ⟨i, hi, heq⟩ := hzero
    rw [hroot i hi, α_pow_inj] at heq
    omega

theorem overread_not_inBounds :
    ¬ (create rs_primitive_polynomial_ccsds 1 1 32 default).InBounds overread 255 :=
  not_inBounds_of_lastOnly (usable_create default) lastOnly_overread

end ReedSolomon

end RyFi.Rs
