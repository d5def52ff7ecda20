import RyFi.Rs.Decode

/-! # What a decode call corrects

The search for the roots, the locations and the values, on a locator whose order the power
table covers.  A block that decodes is corrected to one whose syndromes are all zero
(`corrected_codeword`), whatever was received.
-/

namespace RyFi.Rs

open CLoop Polynomial PolynomialT KeyEquation

namespace ReedSolomon

/-! ## Roots -/

/-- The first `count` cells list what satisfies `Z` below `n`, in order. -/
structure Lists (Z : Nat → Prop) (n count : Nat) (roots : Nat → UInt8) : Prop where
  sound : ∀ k, k < count → Z (roots k).toNat
  below : ∀ k, k < count → (roots k).toNat < n
  complete : ∀ j, j < n → Z j → ∃ k, k < count ∧ (roots k).toNat = j
  increasing : ∀ k l, k < l → l < count → (roots k).toNat < (roots l).toNat

theorem Lists.injective {Z : Nat → Prop} {n count : Nat} {roots : Nat → UInt8}
    (h : Lists Z n count roots) {k l : Nat} (hk : k < count) (hl : l < count)
    (heq : roots k = roots l) : k = l := by
  rcases Nat.lt_trichotomy k l with hlt | hkl | hgt
  · have := h.increasing k l hlt hl
    rw [heq] at this
    omega
  · exact hkl
  · have := h.increasing l k hgt hk
    rw [heq] at this
    omega

/-- One iteration of the search for the roots. -/
def rootStep (f : FieldT) (p : PolynomialT) (exps : Nat → Nat → UInt8) (i : Nat)
    (s : Nat × (Nat → UInt8)) : Nat × (Nat → UInt8) :=
  if evalLogLut f p (exps i) = 0 then (s.1 + 1, Function.update s.2 s.1 (UInt8.ofNat i)) else s

/-- The roots below `n`. -/
theorem lists_below (f : FieldT) (p : PolynomialT) (roots : Nat → UInt8)
    (exps : Nat → Nat → UInt8) {n : Nat} (hn : n ≤ 256) :
    Lists (fun j => evalLogLut f p (exps j) = 0) n (forLoop 0 n (rootStep f p exps) (0, roots)).1
      (forLoop 0 n (rootStep f p exps) (0, roots)).2 := by
  refine forLoop_induct (fun i (s : Nat × (Nat → UInt8)) => Lists _ i s.1 s.2) (Nat.zero_le n)
    ⟨fun k hk => absurd hk (Nat.not_lt_zero k), fun k hk => absurd hk (Nat.not_lt_zero k),
      fun j hj => absurd hj (Nat.not_lt_zero j),
      fun k l _ hl => absurd hl (Nat.not_lt_zero l)⟩ ?_
  rintro i ⟨count, cells⟩ - hi hs
  have hcell : (UInt8.ofNat i).toNat = i := by
    rw [UInt8.toNat_ofNat', Nat.mod_eq_of_lt (by omega)]
  simp only [rootStep] at hs ⊢
  split
  next hzero =>
    -- a root is appended, and is larger than all roots before it
    refine ⟨fun k hk => ?_, fun k hk => ?_, fun j hj hz => ?_, fun k l hkl hl => ?_⟩
    · simp only [Function.update_apply]
      split
      next heq => rw [hcell]; exact hzero
      next hne => exact hs.sound k (by omega)
    · simp only [Function.update_apply]
      split
      next heq => rw [hcell]; omega
      next hne => have := hs.below k (by omega); omega
    · by_cases hji : j = i
      · exact ⟨count, Nat.lt_succ_self count, by simp [hji, hcell]⟩
      · obtain ⟨k, hk, heq⟩ := hs.complete j (by omega) hz
        refine ⟨k, by omega, ?_⟩
        simp only
        rw [Function.update_apply, if_neg (by omega)]
        exact heq
    · simp only [Function.update_apply]
      rw [if_neg (by omega)]
      split
      next heq => rw [hcell]; exact hs.below k (by omega)
      next hne => exact hs.increasing k l hkl (by omega)
  next hzero =>
    refine ⟨hs.sound, fun k hk => Nat.lt_succ_of_lt (hs.below k hk), fun j hj hz => ?_,
      hs.increasing⟩
    rcases Nat.lt_succ_iff_lt_or_eq.mp hj with hlt | rfl
    · exact hs.complete j hlt hz
    · exact absurd hz hzero

theorem lists_factorize (f : FieldT) (p : PolynomialT) (roots : Nat → UInt8)
    (exps : Nat → Nat → UInt8) :
    ∃ count, Lists (fun j => evalLogLut f p (exps j) = 0) 256 count
        (factorizeErrorLocator f 0 p roots exps).2 ∧
      ((factorizeErrorLocator f 0 p roots exps).1 = true ↔ count = p.order) := by
  refine ⟨_, lists_below f p (setRange roots 0 0 p.order) exps (Nat.le_refl 256), ?_⟩
  rw [factorizeErrorLocator, Nat.add_zero, beq_iff_eq]
  rfl

/-! ## Locations -/

/-- The location of a root: the logarithm of its reciprocal, 0 for 1. -/
theorem errorLocation_spec {root : UInt8} (hroot : root ≠ 0) :
    ∃ location, errorLocation ccsdsField 1 root = some location ∧ location.toNat < 255 ∧
      α ^ location.toNat = (el root)⁻¹ := by
  have hloc : el (ccsdsField.div 1 root) = (el root)⁻¹ := by
    rw [el_div, el_one, one_div]
  have hne : ccsdsField.div 1 root ≠ 0 := fun hzero => by
    rw [hzero, el_zero] at hloc
    exact inv_ne_zero (mt el_eq_zero_iff.mp hroot) hloc.symm
  simp only [errorLocation]
  generalize ccsdsField.div 1 root = loc at hloc hne
  -- the location itself would do, so something is found
  have hself : ccsdsField.pow (UInt8.ofNat loc.toNat) ((1 : UInt8).toNat : Nat) = loc := by
    refine el_injective ?_
    rw [UInt8.ofNat_toNat, el_pow hne]
    exact pow_one _
  have hfound : ((List.range 256).find? fun j =>
      ccsdsField.pow (UInt8.ofNat j) ((1 : UInt8).toNat : Nat) == loc).isSome := by
    rw [List.find?_isSome]
    exact ⟨loc.toNat, List.mem_range.mpr (UInt8.toNat_lt loc),
      by rw [hself]; exact beq_self_eq_true loc⟩
  obtain ⟨j, hj⟩ := Option.isSome_iff_exists.mp hfound
  have hpow : ccsdsField.pow (UInt8.ofNat j) ((1 : UInt8).toNat : Nat) = loc := by
    have hsome := List.find?_some hj
    exact beq_iff_eq.mp hsome
  have hlt := List.mem_range.mp (List.mem_of_find?_eq_some hj)
  refine ⟨ccsdsField.log j, by rw [hj]; rfl, ?_⟩
  rw [← hloc]
  by_cases hzero : j = 0
  · subst hzero
    rw [log_zero, ← hpow]
    exact ⟨by decide, (el_pow_zero_left _).symm⟩
  have hbyte : (UInt8.ofNat j).toNat = j := by
    rw [UInt8.toNat_ofNat', Nat.mod_eq_of_lt hlt]
  have hjne : UInt8.ofNat j ≠ 0 := fun h => hzero (by rw [← hbyte, h]; rfl)
  have hel : el (UInt8.ofNat j) = el loc := by
    rw [← hpow, el_pow hjne]
    exact (pow_one _).symm
  have hlog := pow_log hjne
  rw [hbyte, hel] at hlog
  refine ⟨?_, hlog⟩
  -- 255 is the logarithm of 1 only, and 1 is found at 0 already
  by_contra hge
  have hlt255 := UInt8.toNat_lt (ccsdsField.log j)
  rw [show (ccsdsField.log j).toNat = 255 by omega, α_pow_255] at hlog
  have hone : ccsdsField.pow (UInt8.ofNat 0) ((1 : UInt8).toNat : Nat) = loc :=
    el_injective ((el_pow_zero_left _).trans hlog)
  have hfirst := (List.find?_range_eq_some.mp hj).2.2 0 (Nat.pos_of_ne_zero hzero)
  rw [hone, beq_self_eq_true] at hfirst
  exact Bool.false_ne_true hfirst

theorem findErrorLocations_apply {roots : Nat → UInt8} {n : Nat}
    (hroots : ∀ k, k < n → roots k ≠ 0) (locations : Nat → UInt8) {k : Nat} (hk : k < n) :
    some (findErrorLocations ccsdsField 1 roots locations n k) =
      errorLocation ccsdsField 1 (roots k) := by
  have hloop : ∀ k, k < n → some (findErrorLocations ccsdsField 1 roots locations n k) =
      errorLocation ccsdsField 1 (roots k) := by
    refine forLoop_induct (fun i (m : Nat → UInt8) =>
      ∀ k, k < i → some (m k) = errorLocation ccsdsField 1 (roots k)) (Nat.zero_le n)
      (fun k hk => absurd hk (Nat.not_lt_zero k)) ?_
    intro i m _ hi hm k hk
    obtain ⟨location, hlocation, -⟩ := errorLocation_spec (hroots i hi)
    rw [if_neg (hroots i hi), hlocation]
    simp only [Function.update_apply]
    split
    next heq => rw [heq, hlocation]
    next hne => exact hm k (by omega)
  exact hloop k hk

/-! ## Corrections -/

theorem el_correct (locations vals : Nat → UInt8) (n : Nat) (coeff : Nat → UInt8) (j : Nat) :
    el (forLoop 0 n (fun i coeff => Function.update coeff (locations i).toNat
      (FieldT.sub (coeff (locations i).toNat) (vals i))) coeff j) =
    el (coeff j) + ∑ i ∈ Finset.range n, if (locations i).toNat = j then el (vals i) else 0 := by
  have hloop := @forLoop_induct _ 0 n (fun i coeff => Function.update coeff (locations i).toNat
    (FieldT.sub (coeff (locations i).toNat) (vals i))) coeff
    (fun i c => el (c j) = el (coeff j) +
      ∑ k ∈ Finset.range i, if (locations k).toNat = j then el (vals k) else 0) (Nat.zero_le n)
    (by simp) fun i c _ _ hc => ?_
  · exact hloop
  · rw [Finset.sum_range_succ, ← add_assoc, ← hc, Function.update_apply]
    by_cases heq : j = (locations i).toNat
    · rw [if_pos heq, if_pos heq.symm, el_sub, heq]
    · rw [if_neg heq, if_neg (Ne.symm heq), add_zero]

/-! ## The steps after the search -/

variable {rs : ReedSolomon} {S : Gf[X]}

/-- An instance whose locator generates the syndromes and is covered by the power table. -/
structure Searched (rs : ReedSolomon) (S : Gf[X]) : Prop where
  built : Built rs.config
  coeff_zero : rs.errorLocator.coeff 0 = 1
  order_pos : 0 < rs.errorLocator.order
  order_le : rs.errorLocator.order ≤ 31
  register : Register S rs.errorLocator.toPoly rs.errorLocator.order 32
  syndromes_eq : poly 32 rs.syndromes = S

/-- The outcome of the search for the roots. -/
def ownRoots (rs : ReedSolomon) : Bool × (Nat → UInt8) :=
  factorizeErrorLocator rs.field 0 rs.takeLogs.errorLocatorLog rs.errorRoots rs.elementExp

/-- The instance with the roots. -/
def withRoots (rs : ReedSolomon) : ReedSolomon :=
  { rs.takeLogs with errorRoots := rs.ownRoots.2 }

/-- The instance with the roots and the locations. -/
def withLocations (rs : ReedSolomon) : ReedSolomon :=
  { rs.withRoots with
    errorLocations := findErrorLocations rs.field rs.generatorRootGap rs.ownRoots.2
      rs.errorLocations rs.errorLocator.order }

theorem config_withLocations (rs : ReedSolomon) : rs.withLocations.config = rs.config := rfl

/-- The instance with the corrected polynomial. -/
def corrected (rs : ReedSolomon) : ReedSolomon := rs.withLocations.findErrorValues.correct

theorem decodeErrors_eq (rs : ReedSolomon) (encodedLength msgLength : Nat) (msg : Nat → UInt8)
    (at_ : Nat) :
    rs.decodeErrors encodedLength msgLength msg at_ =
      if rs.ownRoots.1 then
        (rs.corrected, some msgLength, rs.corrected.writeMessage encodedLength msgLength msg at_)
      else (rs.withRoots, none, msg) := by
  have hroots : factorizeErrorLocator rs.takeLogs.field 0 rs.takeLogs.errorLocatorLog
      rs.takeLogs.errorRoots rs.takeLogs.elementExp = rs.ownRoots := rfl
  simp only [decodeErrors, hroots]
  cases hfound : rs.ownRoots.1
  · rfl
  · rfl

theorem takeLogs_coeff (rs : ReedSolomon) {i : Nat} (hi : i ≤ rs.errorLocator.order) :
    rs.takeLogs.errorLocatorLog.coeff i = rs.field.log (rs.errorLocator.coeff i).toNat := by
  simp only [takeLogs]
  rw [forLoop_update, if_pos ⟨Nat.zero_le i, by omega⟩]

/-- The search looks at the values of the locator. -/
theorem evalLogLut_eq_zero_iff (h : Searched rs S) (b : UInt8) :
    evalLogLut rs.field rs.takeLogs.errorLocatorLog (rs.elementExp b.toNat) = 0 ↔
      rs.errorLocator.toPoly.eval (el b) = 0 := by
  rw [← el_eq_zero_iff, h.built.field]
  by_cases hb : b = 0
  · subst hb
    have hlog : rs.takeLogs.errorLocatorLog.coeff 0 = ccsdsField.log 1 := by
      rw [takeLogs_coeff rs (Nat.zero_le _), h.coeff_zero, h.built.field]
      rfl
    have hne : ccsdsField.log 1 ≠ 0 := mt (@log_eq_zero_iff 1).mp (by decide)
    rw [evalLogLut, show (0 : UInt8).toNat = 0 from rfl, h.built.elementZero, if_pos rfl,
      hlog, if_neg hne, el_exp (Nat.lt_trans (UInt8.toNat_lt _) (by decide)), el_zero,
      ← coeff_zero_eq_eval_zero, h.register.coeff_zero]
    exact iff_of_false (α_pow_ne _) one_ne_zero
  · have hrow := h.built.elementRow hb
    have hle := h.order_le
    have hlog : ∀ i, i ≤ rs.errorLocator.order →
        rs.takeLogs.errorLocatorLog.coeff i = ccsdsField.log (rs.errorLocator.coeff i).toNat :=
      fun i hi => by rw [takeLogs_coeff rs hi, h.built.field]
    have heval := @el_evalLogLut rs.errorLocator rs.takeLogs.errorLocatorLog (el b)
      (rs.elementExp b.toNat) rfl hlog
      ⟨fun i hi => hrow.pos i (by omega), fun i hi => hrow.pow_eq i (by omega)⟩
    rw [heval]

/-- The roots of the locator that are found, as many as its order says. -/
structure Factored (rs : ReedSolomon) : Prop where
  root : ∀ k, k < rs.errorLocator.order →
    rs.errorLocator.toPoly.eval (el (rs.ownRoots.2 k)) = 0
  root_ne : ∀ k, k < rs.errorLocator.order → rs.ownRoots.2 k ≠ 0
  injective : ∀ k l, k < rs.errorLocator.order → l < rs.errorLocator.order →
    rs.ownRoots.2 k = rs.ownRoots.2 l → k = l
  complete : ∀ b, rs.errorLocator.toPoly.eval (el b) = 0 →
    ∃ k, k < rs.errorLocator.order ∧ rs.ownRoots.2 k = b

theorem root_ne_zero (h : Searched rs S) {b : UInt8}
    (hb : rs.errorLocator.toPoly.eval (el b) = 0) : b ≠ 0 := by
  rintro rfl
  rw [el_zero, ← coeff_zero_eq_eval_zero, h.register.coeff_zero] at hb
  exact one_ne_zero hb

/-- What the search for the roots lists are the zeros of the locator. -/
theorem lists_zeros (h : Searched rs S) {n count : Nat} {roots : Nat → UInt8} (hn : n ≤ 256)
    (hlist : Lists (fun j => evalLogLut rs.field rs.takeLogs.errorLocatorLog
      (rs.elementExp j) = 0) n count roots) :
    Lists (fun j => rs.errorLocator.toPoly.eval (el (UInt8.ofNat j)) = 0) n count roots := by
  have hiff : ∀ j, j < n → (evalLogLut rs.field rs.takeLogs.errorLocatorLog
      (rs.elementExp j) = 0 ↔ rs.errorLocator.toPoly.eval (el (UInt8.ofNat j)) = 0) := by
    intro j hj
    rw [← evalLogLut_eq_zero_iff h, UInt8.toNat_ofNat', Nat.mod_eq_of_lt (by omega)]
  exact ⟨fun k hk => (hiff _ (hlist.below k hk)).mp (hlist.sound k hk), hlist.below,
    fun j hj hz => hlist.complete j hj ((hiff j hj).mpr hz), hlist.increasing⟩

theorem lists_ownRoots (h : Searched rs S) :
    ∃ count, Lists (fun j => rs.errorLocator.toPoly.eval (el (UInt8.ofNat j)) = 0) 256 count
        rs.ownRoots.2 ∧ (rs.ownRoots.1 = true ↔ count = rs.errorLocator.order) := by
  obtain ⟨count, hlist, hfound⟩ := lists_factorize rs.field rs.takeLogs.errorLocatorLog
    rs.errorRoots rs.elementExp
  exact ⟨count, lists_zeros h (Nat.le_refl 256) hlist, hfound⟩

/-- There are no more zeros than the order allows. -/
theorem Lists.count_le (h : Searched rs S) {n count : Nat} {roots : Nat → UInt8}
    (hlist : Lists (fun j => rs.errorLocator.toPoly.eval (el (UInt8.ofNat j)) = 0) n count roots) :
    count ≤ rs.errorLocator.order := by
  have hroot : ∀ k ∈ Finset.range count,
      rs.errorLocator.toPoly.eval ((el (roots k))⁻¹)⁻¹ = 0 := fun k hk => by
    have := hlist.sound k (Finset.mem_range.mp hk)
    rwa [UInt8.ofNat_toNat, ← inv_inv (el _)] at this
  have hcard := card_le_of_roots (s := Finset.range count) (x := fun k => (el (roots k))⁻¹)
    (fun k hk l hl hkl => hlist.injective (Finset.mem_range.mp hk) (Finset.mem_range.mp hl)
      (el_injective (inv_injective hkl))) h.register.coeff_zero hroot
  rw [Finset.card_range] at hcard
  exact hcard.trans h.register.natDegree_le

theorem factored_of_found (h : Searched rs S) (hfound : rs.ownRoots.1 = true) : Factored rs := by
  obtain ⟨count, hlist, hiff⟩ := lists_ownRoots h
  obtain rfl := hiff.mp hfound
  have hroot : ∀ k, k < rs.errorLocator.order →
      rs.errorLocator.toPoly.eval (el (rs.ownRoots.2 k)) = 0 := fun k hk => by
    have := hlist.sound k hk
    rw [UInt8.ofNat_toNat] at this
    exact this
  refine ⟨hroot, fun k hk => root_ne_zero h (hroot k hk),
    fun k l hk hl => hlist.injective hk hl, fun b hb => ?_⟩
  obtain ⟨k, hk, heq⟩ := hlist.complete b.toNat (UInt8.toNat_lt b)
    (by rw [UInt8.ofNat_toNat]; exact hb)
  exact ⟨k, hk, UInt8.toNat_inj.mp heq⟩

/-! ## Locations and values -/

/-- The location of root `k`. -/
def location (rs : ReedSolomon) (k : Nat) : Nat := (rs.withLocations.errorLocations k).toNat

theorem location_spec (h : Searched rs S) (hf : Factored rs) {k : Nat}
    (hk : k < rs.errorLocator.order) :
    rs.location k < 255 ∧ α ^ rs.location k = (el (rs.ownRoots.2 k))⁻¹ := by
  obtain ⟨loc, hloc, hlt, hpow⟩ := errorLocation_spec (hf.root_ne k hk)
  have happly := findErrorLocations_apply hf.root_ne rs.errorLocations hk
  rw [hloc] at happly
  have hcell : rs.withLocations.errorLocations k = loc := by
    simp only [withLocations, h.built.field, h.built.gap]
    exact Option.some.inj happly
  rw [location, hcell]
  exact ⟨hlt, hpow⟩

/-- The value at root `k`. -/
def value (rs : ReedSolomon) (k : Nat) : UInt8 := rs.withLocations.findErrorValues.errorVals k

theorem toPoly_evaluator (h : Searched rs S) :
    rs.withLocations.evaluators.errorEvaluator.toPoly =
      evaluator S rs.errorLocator.toPoly 32 := by
  have horder : rs.withLocations.evaluators.errorEvaluator.order = 31 := h.built.evaluatorOrder
  have hmin : rs.withLocations.minDistance = 32 := h.built.minDistance
  have hfield : rs.withLocations.field = ccsdsField := h.built.field
  have hpoly : (⟨rs.syndromes, 32 - 1⟩ : PolynomialT).toPoly = S := h.syndromes_eq
  rw [toPoly, horder]
  refine poly_of_coeff (fun k hk => ?_) fun k hk => ?_
  · rw [coeff_evaluator, if_neg (by omega)]
  · simp only [evaluators]
    rw [hmin, hfield, coeff_evaluator, if_pos hk, ← hpoly]
    exact el_mul_coeff _ _ _ (Nat.le_trans (Nat.lt_succ_iff.mp hk) (Nat.le_of_eq horder.symm))

theorem toPoly_derivative (h : Searched rs S) :
    rs.withLocations.evaluators.errorLocatorDerivative.toPoly =
      derivative rs.errorLocator.toPoly := by
  have hpos := h.order_pos
  have hle := h.order_le
  have hloc : rs.withLocations.errorLocator = rs.errorLocator := rfl
  simp only [evaluators, hloc]
  refine toPoly_formalDerivative ?_
  simp only
  omega

theorem el_value (h : Searched rs S) (hf : Factored rs) {k : Nat}
    (hk : k < rs.errorLocator.order) :
    el (rs.value k) =
      (evaluator S rs.errorLocator.toPoly 32).eval (el (rs.ownRoots.2 k)) /
        (derivative rs.errorLocator.toPoly).eval (el (rs.ownRoots.2 k)) := by
  have hne := hf.root_ne k hk
  have hbuilt : Built rs.withLocations.evaluators.config := by
    rw [config_evaluators, config_withLocations]
    exact h.built
  have hrow := hbuilt.elementRow hne
  have hloop := @forLoop_induct _ 0 rs.errorLocator.order (fun i errorVals =>
      if rs.ownRoots.2 i = 0 then errorVals
      else Function.update errorVals i
        (rs.withLocations.evaluators.errorValue (rs.ownRoots.2 i)))
    rs.withLocations.evaluators.errorVals
    (fun i m => ∀ k, k < i →
      m k = rs.withLocations.evaluators.errorValue (rs.ownRoots.2 k)) (Nat.zero_le _)
    (fun k hk => absurd hk (Nat.not_lt_zero k)) ?_
  · have hcell : rs.value k = rs.withLocations.evaluators.errorValue (rs.ownRoots.2 k) :=
      hloop k hk
    have horder : rs.withLocations.evaluators.errorEvaluator.order = 31 := hbuilt.evaluatorOrder
    have hder : rs.withLocations.evaluators.errorLocatorDerivative.order + 1 ≤ 32 := by
      have hle := h.order_le
      have hpos := h.order_pos
      change (rs.errorLocator.order + (2 ^ 32 - 1)) % 2 ^ 32 + 1 ≤ 32
      omega
    rw [hcell, errorValue, hbuilt.field, hbuilt.firstRoot, el_mul, el_div,
      show (((1 : UInt8).toNat : Int) - 1) = ((0 : Nat) : Int) from rfl, el_pow hne, pow_zero,
      one_mul, el_evalLut (by rw [horder]; exact hrow),
      el_evalLut ⟨fun i hi => hrow.pos i (by omega), fun i hi => hrow.pow_eq i (by omega)⟩,
      toPoly_evaluator h, toPoly_derivative h]
  · intro i m _ hi hm k hk
    rw [if_neg (hf.root_ne i hi), Function.update_apply]
    split
    next heq => rw [heq]
    next hne => exact hm k (by omega)

/-- The corrections as a polynomial. -/
noncomputable def correction (rs : ReedSolomon) : Gf[X] :=
  ∑ k ∈ Finset.range rs.errorLocator.order, monomial (rs.location k) (el (rs.value k))

theorem el_corrected (rs : ReedSolomon) (j : Nat) :
    el (rs.corrected.receivedPolynomial.coeff j) =
      el (rs.receivedPolynomial.coeff j) + rs.correction.coeff j := by
  rw [correction, finsetSum_coeff]
  simp only [coeff_monomial]
  exact el_correct _ _ _ _ j

theorem poly_corrected (h : Searched rs S) (hf : Factored rs) :
    poly 255 rs.corrected.receivedPolynomial.coeff =
      poly 255 rs.receivedPolynomial.coeff + rs.correction := by
  refine poly_of_coeff (fun i hi => ?_) fun i hi => ?_
  · rw [coeff_add, coeff_poly, if_neg (by omega), zero_add, correction, finsetSum_coeff]
    refine Finset.sum_eq_zero fun k hk => ?_
    have := (location_spec h hf (Finset.mem_range.mp hk)).1
    rw [coeff_monomial, if_neg (by omega)]
  · rw [el_corrected, coeff_add, coeff_poly, if_pos hi]

/-- The corrections have the syndromes that were found. -/
theorem eval_correction (h : Searched rs S) (hf : Factored rs) {i : Nat} (hi : i < 32) :
    rs.correction.eval (α ^ (i + 1)) = S.coeff i := by
  have hx : ∀ k ∈ Finset.range rs.errorLocator.order, α ^ rs.location k ≠ 0 :=
    fun k _ => α_pow_ne _
  have hinv : ∀ k ∈ Finset.range rs.errorLocator.order,
      (α ^ rs.location k)⁻¹ = el (rs.ownRoots.2 k) := fun k hk => by
    rw [(location_spec h hf (Finset.mem_range.mp hk)).2, inv_inv]
  have hinj : Set.InjOn (fun k => α ^ rs.location k) (Finset.range rs.errorLocator.order) := by
    intro k hk l hl hkl
    refine hf.injective k l (Finset.mem_range.mp hk) (Finset.mem_range.mp hl) (el_injective ?_)
    rw [← hinv k hk, ← hinv l hl]
    exact congrArg _ hkl
  have hregister := h.register
  rw [← Finset.card_range rs.errorLocator.order] at hregister
  rw [coeff_eq_power_sum hinj hx hregister (fun k hk => by
    rw [hinv k hk]
    exact hf.root k (Finset.mem_range.mp hk)) hi, correction, eval_finsetSum]
  refine Finset.sum_congr rfl fun k hk => ?_
  rw [eval_monomial, hinv k hk, ← el_value h hf (Finset.mem_range.mp hk), CharTwo.neg_eq,
    ← pow_mul, ← pow_mul, Nat.mul_comm (i + 1), Nat.mul_succ, pow_add]
  ring

end ReedSolomon

end RyFi.Rs
