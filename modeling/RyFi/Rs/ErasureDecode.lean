import RyFi.Rs.ErasureLocator

/-! # Decoding with erasures

A block of any length in which `v` bytes are wrong, besides `e` bytes whose places are known,
decodes to the message as long as `2 v + e` is at most 32 (`decodes_erasures`).
-/

namespace RyFi.Rs

open CLoop Polynomial PolynomialT KeyEquation

namespace ReedSolomon

variable {rs : ReedSolomon}

/-! ## Values and corrections by a locator of up to 32 points -/

/-- The search for the roots looks at the values of the locator. -/
theorem evalLogLut_takeLogs (hbuilt : Built rs.config) (hzero : rs.errorLocator.coeff 0 = 1)
    (hle : rs.errorLocator.order ≤ 31) (b : UInt8) :
    evalLogLut rs.field rs.takeLogs.errorLocatorLog (rs.elementExp b.toNat) = 0 ↔
      rs.errorLocator.toPoly.eval (el b) = 0 := by
  have hlog : ∀ i, i ≤ rs.errorLocator.order →
      rs.takeLogs.errorLocatorLog.coeff i = ccsdsField.log (rs.errorLocator.coeff i).toNat :=
    fun i hi => by rw [takeLogs_coeff rs hi, hbuilt.field]
  rw [← el_eq_zero_iff, hbuilt.field]
  by_cases hb : b = 0
  · subst hb
    have hone : rs.takeLogs.errorLocatorLog.coeff 0 = ccsdsField.log 1 := by
      rw [hlog 0 (Nat.zero_le _), hzero]
      rfl
    have hne : ccsdsField.log 1 ≠ 0 := mt (@log_eq_zero_iff 1).mp (by decide)
    rw [evalLogLut, show (0 : UInt8).toNat = 0 from rfl, hbuilt.elementZero, if_pos rfl, hone,
      if_neg hne, el_exp (Nat.lt_trans (UInt8.toNat_lt _) (by decide)), el_zero,
      ← coeff_zero_eq_eval_zero, toPoly, coeff_poly, if_pos (Nat.succ_pos _), hzero, el_one]
    exact iff_of_false (α_pow_ne _) one_ne_zero
  · have hrow := hbuilt.elementRow hb
    have heval := @el_evalLogLut rs.errorLocator rs.takeLogs.errorLocatorLog (el b)
      (rs.elementExp b.toNat) rfl hlog
      ⟨fun i hi => hrow.pos i (by omega), fun i hi => hrow.pow_eq i (by omega)⟩
    rw [heval]

theorem toPoly_errorEvaluator (hbuilt : Built rs.config) :
    rs.evaluators.errorEvaluator.toPoly =
      evaluator (poly 32 rs.syndromes) rs.errorLocator.toPoly 32 := by
  have horder : rs.evaluators.errorEvaluator.order = 31 := hbuilt.evaluatorOrder
  rw [toPoly, horder]
  refine poly_of_coeff (fun k hk => ?_) fun k hk => ?_
  · rw [coeff_evaluator, if_neg (by omega)]
  · simp only [evaluators]
    rw [hbuilt.minDistance, hbuilt.field, coeff_evaluator, if_pos hk]
    exact el_mul_coeff _ _ _ (Nat.le_trans (Nat.lt_succ_iff.mp hk) (Nat.le_of_eq horder.symm))

theorem toPoly_errorDerivative (hpos : 0 < rs.errorLocator.order)
    (hle : rs.errorLocator.order ≤ 32) :
    rs.evaluators.errorLocatorDerivative.toPoly = derivative rs.errorLocator.toPoly := by
  simp only [evaluators]
  refine toPoly_formalDerivative ?_
  simp only
  omega

theorem el_errorVals (hbuilt : Built rs.config) (hpos : 0 < rs.errorLocator.order)
    (hle : rs.errorLocator.order ≤ 32)
    (hne : ∀ k, k < rs.errorLocator.order → rs.errorRoots k ≠ 0) {k : Nat}
    (hk : k < rs.errorLocator.order) :
    el (rs.findErrorValues.errorVals k) =
      (evaluator (poly 32 rs.syndromes) rs.errorLocator.toPoly 32).eval (el (rs.errorRoots k)) /
        (derivative rs.errorLocator.toPoly).eval (el (rs.errorRoots k)) := by
  have hbuilt' : Built rs.evaluators.config := hbuilt
  have hrow := hbuilt'.elementRow (hne k hk)
  have hcell : rs.findErrorValues.errorVals k = rs.evaluators.errorValue (rs.errorRoots k) := by
    have hloop := @forLoop_induct _ 0 rs.errorLocator.order (fun i errorVals =>
        if rs.errorRoots i = 0 then errorVals
        else Function.update errorVals i (rs.evaluators.errorValue (rs.errorRoots i)))
      rs.evaluators.errorVals
      (fun i m => ∀ k, k < i → m k = rs.evaluators.errorValue (rs.errorRoots k)) (Nat.zero_le _)
      (fun k hk => absurd hk (Nat.not_lt_zero k)) ?_
    · exact hloop k hk
    · intro i m _ hi hm k hk
      rw [if_neg (hne i hi), Function.update_apply]
      split
      next heq => rw [heq]
      next hlt => exact hm k (by omega)
  have horder : rs.evaluators.errorEvaluator.order = 31 := hbuilt'.evaluatorOrder
  have hder : rs.evaluators.errorLocatorDerivative.order + 1 ≤ 32 := by
    change (rs.errorLocator.order + (2 ^ 32 - 1)) % 2 ^ 32 + 1 ≤ 32
    omega
  rw [hcell, errorValue, hbuilt'.field, hbuilt'.firstRoot, el_mul, el_div,
    show (((1 : UInt8).toNat : Int) - 1) = ((0 : Nat) : Int) from rfl, el_pow (hne k hk), pow_zero,
    one_mul, el_evalLut (by rw [horder]; exact hrow),
    el_evalLut ⟨fun i hi => hrow.pos i (by omega), fun i hi => hrow.pow_eq i (by omega)⟩,
    toPoly_errorEvaluator hbuilt, toPoly_errorDerivative hpos hle]

variable {s : Finset Nat} {z : Nat → Gf} {c : Gf}

/-- A locator of all points at which something is wrong takes it away. -/
theorem el_correct_locator (hbuilt : Built rs.config) (hs : ∀ j ∈ s, j < 255) (hc : c ≠ 0)
    (hpos : 0 < rs.errorLocator.order) (horder : rs.errorLocator.order = s.card)
    (hcard : s.card ≤ 32) (hlocator : rs.errorLocator.toPoly = C c * locator s point)
    (hroots : RootsOf s rs.errorLocator.order rs.errorRoots)
    (hsums : ∀ k, k < 32 → (poly 32 rs.syndromes).coeff k = ∑ j ∈ s, z j * point j * point j ^ k)
    (locations : Nat → UInt8) {j : Nat} (hj : j < 255) :
    el (({ rs with
        errorLocations := findErrorLocations rs.field rs.generatorRootGap rs.errorRoots locations
          rs.errorLocator.order } : ReedSolomon).findErrorValues.correct.receivedPolynomial.coeff
        (254 - j)) =
      el (rs.receivedPolynomial.coeff (254 - j)) + if j ∈ s then z j else 0 := by
  set rs' : ReedSolomon := { rs with
    errorLocations := findErrorLocations rs.field rs.generatorRootGap rs.errorRoots locations
      rs.errorLocator.order } with hrs'
  have hplace : ∀ k, k < rs.errorLocator.order → (rs'.errorLocations k).toNat < 255 ∧
      α ^ (rs'.errorLocations k).toNat = (el (rs.errorRoots k))⁻¹ := by
    intro k hk
    obtain ⟨loc, hloc, hlt, hpow⟩ := errorLocation_spec (hroots.ne_zero hk)
    have happly := findErrorLocations_apply (fun _ h => hroots.ne_zero h) locations hk
    rw [hloc] at happly
    have hcell : rs'.errorLocations k = loc := by
      simp only [hrs', hbuilt.field, hbuilt.gap]
      exact Option.some.inj happly
    rw [hcell]
    exact ⟨hlt, hpow⟩
  have hval : ∀ k, k < rs.errorLocator.order → ∀ i ∈ s, el (rs.errorRoots k) = (point i)⁻¹ →
      el (rs'.findErrorValues.errorVals k) = z i := by
    intro k hk i hi hroot
    have hvalue := @el_errorVals rs' hbuilt hpos (horder ▸ hcard) (fun _ h => hroots.ne_zero h) k hk
    have hforney := forney_scaled hc (injOn_powers hs) hsums hcard hi (α_pow_ne (254 - i))
    rw [mul_div_cancel_right₀ _ (α_pow_ne (254 - i)), CharTwo.neg_eq, ← hlocator] at hforney
    have hroot' : el (rs'.errorRoots k) = (α ^ (254 - i))⁻¹ := hroot
    rw [hvalue, hroot']
    exact hforney
  have hsum := el_correct rs'.errorLocations rs'.findErrorValues.errorVals rs.errorLocator.order
    rs.receivedPolynomial.coeff (254 - j)
  refine hsum.trans (congrArg _ ?_)
  split
  next hmem =>
    -- one root belongs to the byte
    obtain ⟨k, hk, hroot⟩ := hroots.complete j hmem
    rw [Finset.sum_eq_single_of_mem k (Finset.mem_range.mpr hk), if_pos, hval k hk j hmem hroot]
    · obtain ⟨hlt, hpow⟩ := hplace k hk
      rw [hroot, inv_inv] at hpow
      have hmod := α_pow_inj.mp hpow
      omega
    · intro i hi hne
      refine if_neg fun hloc => hne ?_
      have hi := Finset.mem_range.mp hi
      have hpow := (hplace i hi).2
      rw [hloc] at hpow
      refine hroots.injective i k hi hk (el_injective ?_)
      rw [hroot, ← inv_eq_iff_eq_inv.mpr hpow]
  next hmem =>
    refine Finset.sum_eq_zero fun k hk => if_neg fun hloc => hmem ?_
    have hk := Finset.mem_range.mp hk
    obtain ⟨i, hi, hroot⟩ := hroots.root k hk
    have hpow := (hplace k hk).2
    rw [hloc, hroot, inv_inv] at hpow
    rw [point_inj hj (hs i hi) hpow]
    exact hi

end ReedSolomon

namespace ErasureDecoder

open ReedSolomon

variable {d : ErasureDecoder} {block word : Nat → UInt8} {erased wrong : Finset Nat}

/-! ## With the erasures known -/

/-- An instance that has received a block and knows the locator of the erased bytes. -/
structure Erased (d : ErasureDecoder) (block : Nat → UInt8) (erased : Finset Nat) : Prop where
  built : Built d.config
  received : ∀ j, j < 255 → d.receivedPolynomial.coeff (254 - j) = block j
  syndromes : ∀ i, i < 32 → el (d.syndromes i) = syndrome block i
  lt : ∀ j ∈ erased, j < 255
  pos : 0 < erased.card
  roots : RootsOf erased erased.card d.errorRoots
  order : d.erasureLocator.order = erased.card
  locator_eq : ∃ c, c ≠ 0 ∧ d.erasureLocator.toPoly = C c * locator erased point

/-- The bytes that are wrong and not erased. -/
structure Wrong (block word : Nat → UInt8) (erased wrong : Finset Nat) : Prop where
  codeword : Codeword word
  differs : ∀ j ∈ wrong, j < 255 ∧ block j ≠ word j
  apart : Disjoint wrong erased
  complete : ∀ j, j < 255 → block j ≠ word j → j ∈ wrong ∪ erased
  few : 2 * wrong.card + erased.card ≤ 32

theorem Wrong.lt (h : Wrong block word erased wrong) (hlt : ∀ j ∈ erased, j < 255) :
    ∀ j ∈ wrong ∪ erased, j < 255 := fun j hj => by
  rcases Finset.mem_union.mp hj with hj | hj
  · exact (h.differs j hj).1
  · exact hlt j hj

/-- The syndromes are power sums of the wrong and the erased bytes. -/
theorem Wrong.syndromes (h : Wrong block word erased wrong) (hlt : ∀ j ∈ erased, j < 255) {k : Nat}
    (hk : k < 32) :
    syndrome block k = ∑ j ∈ wrong ∪ erased,
      (el (block j) + el (word j)) * point j * point j ^ k := by
  rw [← coeff_syndromePoly block hk, syndromes_of_errors h.codeword hk]
  refine Finset.sum_subset (fun j hj => ?_) fun j hj hnot => ?_
  · exact h.complete j (mem_errorSet.mp hj).1 (mem_errorSet.mp hj).2
  · have hsame : block j = word j := by
      by_contra hne
      exact hnot (mem_errorSet.mpr ⟨h.lt hlt j hj, hne⟩)
    rw [hsame, CharTwo.add_self_eq_zero, zero_mul, zero_mul]

/-- No syndromes, nothing wrong. -/
theorem Wrong.eq_of_syndromes_zero (h : Wrong block word erased wrong)
    (hzero : ∀ i, i < 32 → syndrome block i = 0) {j : Nat} (hj : j < 255) : block j = word j := by
  refine eq_of_syndromes_eq (fun i hi => (hzero i hi).trans (h.codeword i hi).symm)
    (t := wrong ∪ erased) ?_ (fun j hj hnot => ?_) hj
  · have := h.few
    exact (Finset.card_union_le _ _).trans (by omega)
  · by_contra hne
    exact hnot (h.complete j hj hne)

theorem Erased.coeff_syndromes (h : Erased d block erased) {k : Nat} (hk : k < 32) :
    (poly 32 d.syndromes).coeff k = syndrome block k := by
  rw [coeff_poly, if_pos hk, h.syndromes k hk]

theorem el_modifySyndromes (hbuilt : Built d.config) {e i : Nat} (hi : i + e < 32) :
    el ((d.modifySyndromes e).syndromes i) =
      (d.erasureLocator.toPoly * poly 32 d.syndromes).coeff (i + e) := by
  have hmin := hbuilt.minDistance
  have hmul := @el_mul_coeff d.erasureLocator ⟨d.syndromes, 32 - 1⟩
    ⟨d.modifiedSyndromes, 32 - 1⟩ (i + e) (by simp only; omega)
  rw [show (⟨d.syndromes, 32 - 1⟩ : PolynomialT).toPoly = poly 32 d.syndromes from rfl] at hmul
  rw [← hmul]
  simp only [modifySyndromes, hmin, hbuilt.field]
  congr 1
  -- the cells below the one that is read are written before, those above after it
  have hloop := @forLoop_induct _ e 32 (fun k syndromes => Function.update syndromes (k - e)
      ((PolynomialT.mul ccsdsField d.erasureLocator ⟨d.syndromes, 32 - 1⟩
        ⟨d.modifiedSyndromes, 32 - 1⟩).coeff k)) d.syndromes
    (fun k syndromes => ∀ i, i + e < k → syndromes i =
      (PolynomialT.mul ccsdsField d.erasureLocator ⟨d.syndromes, 32 - 1⟩
        ⟨d.modifiedSyndromes, 32 - 1⟩).coeff (i + e)) (by omega) (fun i hi => by omega) ?_
  · exact hloop i hi
  · intro k syndromes hlo _ hs i hi
    rw [Function.update_apply]
    split
    next heq => rw [show i + e = k by omega]
    next hne => exact hs i (by omega)

/-- The syndromes without the erasures are power sums of the wrong bytes. -/
theorem Erased.modified_sums (h : Erased d block erased) (hw : Wrong block word erased wrong) :
    ∃ y : Nat → Gf, (∀ j ∈ wrong, y j ≠ 0) ∧ ∀ k, k < 32 - erased.card →
      (poly 32 (d.modifySyndromes erased.card).syndromes).coeff k =
        ∑ j ∈ wrong, y j * point j ^ k := by
  obtain ⟨c, hc, hlocator⟩ := h.locator_eq
  have hdegree : d.erasureLocator.toPoly.natDegree ≤ erased.card := by
    rw [hlocator]
    exact (natDegree_C_mul_le _ _).trans natDegree_locator_le
  have hknown : ∀ j ∈ erased, d.erasureLocator.toPoly.eval (point j)⁻¹ = 0 := by
    intro j hj
    rw [hlocator, eval_C_mul, eval_locator_eq_zero hj (α_pow_ne (254 - j)), mul_zero]
  refine ⟨fun j => (el (block j) + el (word j)) * point j * point j ^ erased.card *
    d.erasureLocator.toPoly.eval (point j)⁻¹, fun j hj => ?_, fun k hk => ?_⟩
  · obtain ⟨hlt, hne⟩ := hw.differs j hj
    have hnot : j ∉ erased := Finset.disjoint_left.mp hw.apart hj
    have hother : (locator erased point).eval (point j)⁻¹ ≠ 0 := by
      have herase := eval_locator_erase_ne (s := insert j erased) (x := point) (injOn_powers ?_)
        (Finset.mem_insert_self j erased) (α_pow_ne (254 - j))
      · rwa [Finset.erase_insert hnot] at herase
      · intro i hi
        rcases Finset.mem_insert.mp hi with rfl | hi
        · exact hlt
        · exact h.lt i hi
    simp only [hlocator, eval_C_mul]
    exact mul_ne_zero (mul_ne_zero (error_ne (mem_errorSet.mpr ⟨hlt, hne⟩))
      (pow_ne_zero _ (α_pow_ne _))) (mul_ne_zero hc hother)
  · have hfew := hw.few
    rw [coeff_poly, if_pos (by omega), el_modifySyndromes h.built (by omega)]
    refine power_sum_unknown hdegree (fun j _ => α_pow_ne (254 - j)) hknown hw.apart
      (fun k hk => ?_) (N := 32) (by omega)
    rw [h.coeff_syndromes hk, hw.syndromes h.lt hk]

/-! ## With the errors known -/

/-- The instance after the search for the locator. -/
def located (d : ErasureDecoder) (e : Nat) : ErasureDecoder :=
  { d.modifySyndromes e with
    toReedSolomon := ((d.modifySyndromes e).toReedSolomon.findErrorLocator e).1 }

theorem config_modifySyndromes (d : ErasureDecoder) (e : Nat) :
    (d.modifySyndromes e).config = d.config := rfl

theorem config_located (d : ErasureDecoder) (e : Nat) : (d.located e).config = d.config := by
  rw [located, config_findErrorLocator, config_modifySyndromes]

theorem Erased.built_located (h : Erased d block erased) (e : Nat) : Built (d.located e).config := by
  rw [config_located]
  exact h.built

theorem Erased.located_locator (h : Erased d block erased) (hw : Wrong block word erased wrong) :
    (d.located erased.card).errorLocator.coeff 0 = 1 ∧
      (d.located erased.card).errorLocator.order = wrong.card ∧
      (d.located erased.card).errorLocator.toPoly = locator wrong point := by
  have hbuilt : Built (d.modifySyndromes erased.card).config := by
    rw [config_modifySyndromes]
    exact h.built
  have hfew := hw.few
  obtain ⟨y, hy, hsums⟩ := h.modified_sums hw
  obtain ⟨t, ht, hzero, horder, hlocator⟩ := search_eq_locator hbuilt.minDistance
    (Nat.sub_le 32 erased.card) (fun j hj => (hw.differs j hj).1) hy (by omega) hsums
  have hlocated : (d.located erased.card).errorLocator = t.errorLocator := by
    rw [ht]
    simp only [located, findErrorLocator]
    rw [hbuilt.minDistance, hbuilt.field]
  rw [hlocated]
  exact ⟨hzero, horder, hlocator⟩

/-- The roots of the errors are found behind those of the erasures. -/
theorem Erased.factorize (h : Erased d block erased) (hw : Wrong block word erased wrong) :
    (factorizeErrorLocator (d.located erased.card).field erased.card
        (d.located erased.card).takeLogs.errorLocatorLog (d.located erased.card).errorRoots
        (d.located erased.card).elementExp).1 = true ∧
      RootsOf (erased ∪ wrong) (erased.card + wrong.card)
        (factorizeErrorLocator (d.located erased.card).field erased.card
          (d.located erased.card).takeLogs.errorLocatorLog (d.located erased.card).errorRoots
          (d.located erased.card).elementExp).2 := by
  have hbuilt := h.built_located erased.card
  have hfew := hw.few
  have hpos := h.pos
  obtain ⟨hzero, horder, hlocator⟩ := h.located_locator hw
  obtain ⟨count, hlist, hfound, hfront⟩ := factorize_skip (d.located erased.card).field
    (d.located erased.card).takeLogs.errorLocatorLog (d.located erased.card).errorRoots
    (d.located erased.card).elementExp erased.card
  have hiff : ∀ i, i < 256 → (evalLogLut (d.located erased.card).field
      (d.located erased.card).takeLogs.errorLocatorLog ((d.located erased.card).elementExp i) = 0 ↔
        (locator wrong point).eval (el (UInt8.ofNat i)) = 0) := by
    intro i hi
    rw [← hlocator, ← evalLogLut_takeLogs hbuilt hzero (by omega), UInt8.toNat_ofNat',
      Nat.mod_eq_of_lt hi]
  obtain ⟨hcount, hroots⟩ := rootsOf_lists (fun j hj => (hw.differs j hj).1)
    ⟨fun k hk => (hiff _ (hlist.below k hk)).mp (hlist.sound k hk), hlist.below,
      fun i hi hz => hlist.complete i hi ((hiff i hi).mpr hz), hlist.increasing⟩
  rw [hcount] at hroots
  refine ⟨hfound.mpr (hcount.trans horder.symm), RootsOf.append ?_ hroots (fun j hj => ?_)
    hw.apart.symm⟩
  · -- the cells of the erasures are left as they were
    refine ⟨fun k hk => ?_, fun j hj => ?_, fun k l hk hl heq => ?_⟩
    · rw [hfront k hk]
      exact h.roots.root k hk
    · obtain ⟨k, hk, hroot⟩ := h.roots.complete j hj
      exact ⟨k, hk, by rw [hfront k hk]; exact hroot⟩
    · rw [hfront k hk, hfront l hl] at heq
      exact h.roots.injective k l hk hl heq
  · exact hw.lt h.lt j (Finset.union_comm erased wrong ▸ hj)

/-- The instance that is corrected: the locator of both, its roots and the syndromes themselves. -/
def joined (d : ErasureDecoder) (syndromeCopy : Nat → UInt8) (e : Nat) : ReedSolomon :=
  { d.takeLogs with
    errorRoots := (factorizeErrorLocator d.field e d.takeLogs.errorLocatorLog d.errorRoots
      d.elementExp).2
    errorLocator := PolynomialT.mul d.field d.erasureLocator d.errorLocator
      ⟨fun _ => 0, d.errorLocator.order + e⟩
    syndromes := copyRange d.syndromes 0 syndromeCopy 0 d.minDistance }

theorem config_joined (d : ErasureDecoder) (syndromeCopy : Nat → UInt8) (e : Nat) :
    (d.joined syndromeCopy e).config = d.config := rfl

/-- The instance with the corrections made. -/
def corrected (d : ErasureDecoder) (syndromeCopy : Nat → UInt8) (e : Nat) : ReedSolomon :=
  ({ d.joined syndromeCopy e with
    errorLocations := findErrorLocations (d.joined syndromeCopy e).field
      (d.joined syndromeCopy e).generatorRootGap (d.joined syndromeCopy e).errorRoots
      d.errorLocations (d.joined syndromeCopy e).errorLocator.order } :
    ReedSolomon).findErrorValues.correct

theorem decodeErrors_found {d : ErasureDecoder} {syndromeCopy : Nat → UInt8} {e : Nat}
    (hfound : (factorizeErrorLocator d.field e d.takeLogs.errorLocatorLog d.errorRoots
      d.elementExp).1 = true) (n count : Nat) (msg : Nat → UInt8) (at_ : Nat) :
    (d.decodeErrors syndromeCopy n e count msg at_).2 =
      (some count, (d.corrected syndromeCopy e).writeMessage n count msg at_) := by
  have hroots : factorizeErrorLocator d.takeLogs.field e d.takeLogs.errorLocatorLog
      d.takeLogs.errorRoots d.takeLogs.elementExp = factorizeErrorLocator d.field e
        d.takeLogs.errorLocatorLog d.errorRoots d.elementExp := rfl
  simp only [decodeErrors, hroots, hfound]
  rfl

/-- The corrected block is the word. -/
theorem Erased.corrected_coeff (h : Erased d block erased) (hw : Wrong block word erased wrong) {j : Nat}
    (hj : j < 255) :
    ((d.located erased.card).corrected d.syndromes erased.card).receivedPolynomial.coeff
      (254 - j) = word j := by
  have hbuilt' := h.built_located erased.card
  have hbuilt : Built ((d.located erased.card).joined d.syndromes erased.card).config := by
    rw [config_joined]
    exact hbuilt'
  have hfew := hw.few
  have hpos := h.pos
  obtain ⟨-, horder, hlocator⟩ := h.located_locator hw
  obtain ⟨-, hroots⟩ := h.factorize hw
  obtain ⟨c, hc, herasures⟩ := h.locator_eq
  have hcard : (erased ∪ wrong).card = erased.card + wrong.card :=
    Finset.card_union_of_disjoint hw.apart.symm
  have hlength : ((d.located erased.card).joined d.syndromes erased.card).errorLocator.order =
      erased.card + wrong.card := by
    change (d.located erased.card).errorLocator.order + erased.card = _
    rw [horder, Nat.add_comm]
  have hproduct : ((d.located erased.card).joined d.syndromes erased.card).errorLocator.toPoly =
      C c * locator (erased ∪ wrong) point := by
    have hle : (d.located erased.card).erasureLocator.order +
        (d.located erased.card).errorLocator.order ≤
          (d.located erased.card).errorLocator.order + erased.card := by
      change d.erasureLocator.order + _ ≤ _
      rw [h.order, Nat.add_comm]
    simp only [joined]
    rw [hbuilt'.field, toPoly_mul hle, hlocator, locator_union hw.apart.symm, ← mul_assoc]
    exact congrArg (· * _) herasures
  have hsums : ∀ k, k < 32 →
      (poly 32 ((d.located erased.card).joined d.syndromes erased.card).syndromes).coeff k =
        ∑ j ∈ erased ∪ wrong, (el (block j) + el (word j)) * point j * point j ^ k := by
    intro k hk
    have hcopy := @copyRange_inside _ (d.located erased.card).syndromes d.syndromes 0 0 32 k hk
    rw [Nat.zero_add] at hcopy
    rw [Finset.union_comm, ← hw.syndromes h.lt hk, ← h.syndromes k hk, coeff_poly, if_pos hk]
    simp only [joined]
    rw [hbuilt'.minDistance, hcopy]
  have hreceived : ((d.located erased.card).joined d.syndromes
      erased.card).receivedPolynomial.coeff (254 - j) = block j := h.received j hj
  refine el_injective ?_
  refine (el_correct_locator hbuilt
    (fun j hj => hw.lt h.lt j (Finset.union_comm erased wrong ▸ hj)) hc (by omega)
    (hlength.trans hcard.symm) (by omega) hproduct (hlength ▸ hroots) hsums _ hj).trans ?_
  rw [hreceived]
  split
  next hmem => rw [← add_assoc, CharTwo.add_self_eq_zero, zero_add]
  next hmem =>
    rw [add_zero]
    by_contra hne
    exact hmem (Finset.union_comm wrong erased ▸
      hw.complete j hj fun heq => hne (congrArg el heq))

/-! ## A whole call -/

/-- The instance a call works on. -/
def prepared (d : ErasureDecoder) : ErasureDecoder :=
  if d.hasInitDecode then d else d.decoderCreate

theorem toReedSolomon_prepared (d : ErasureDecoder) :
    d.prepared.toReedSolomon = d.toReedSolomon.prepared := by
  rw [prepared, ReedSolomon.prepared]
  split
  · rfl
  · rfl

/-- The instance when the locator of the erasures is known. -/
def withErasures (d : ErasureDecoder) (encoded : Nat → UInt8) (n : Nat) (erasures : Nat → UInt8)
    (e : Nat) : ErasureDecoder :=
  ({ d.prepared with
    toReedSolomon := d.prepared.toReedSolomon.receive encoded n } : ErasureDecoder).takeErasures
      erasures e (d.prepared.blockLength - n)

/-- The instance when the syndromes are known, too. -/
def withSyndromes (d : ErasureDecoder) (encoded : Nat → UInt8) (n : Nat) (erasures : Nat → UInt8)
    (e : Nat) : ErasureDecoder :=
  { d.withErasures encoded n erasures e with
    syndromes := (d.withErasures encoded n erasures e).toReedSolomon.ownSyndromes.2 }

variable {n e : Nat} {encoded erasures : Nat → UInt8}

theorem decodeWithErasures_eq (he : e ≠ 0) (hn : n ≤ d.blockLength) (hle : e ≤ d.minDistance)
    (msg : Nat → UInt8) (at_ : Nat) :
    d.decodeWithErasures encoded n erasures e msg at_ =
      if (d.withErasures encoded n erasures e).toReedSolomon.ownSyndromes.1 then
        (d.withSyndromes encoded n erasures e, some (n - d.minDistance),
          (d.withSyndromes encoded n erasures e).toReedSolomon.writeMessage n (n - d.minDistance)
            msg at_)
      else ((d.withSyndromes encoded n erasures e).located e).decodeErrors
        (d.withSyndromes encoded n erasures e).syndromes n e (n - d.minDistance) msg at_ := by
  rw [decodeWithErasures, if_neg he, if_neg (Nat.not_lt.mpr hn), if_neg (Nat.not_lt.mpr hle)]
  rfl

theorem config_withSyndromes (d : ErasureDecoder) (encoded : Nat → UInt8) (n : Nat)
    (erasures : Nat → UInt8) (e : Nat) :
    (d.withSyndromes encoded n erasures e).config = d.toReedSolomon.prepared.config := by
  rw [← toReedSolomon_prepared]
  rfl

theorem config_decodeErrors (d : ErasureDecoder) (syndromeCopy : Nat → UInt8) (n e count : Nat)
    (msg : Nat → UInt8) (at_ : Nat) :
    (d.decodeErrors syndromeCopy n e count msg at_).1.config = d.config := by
  simp only [decodeErrors]
  split
  · rfl
  · exact config_findErrorValues _

theorem usable_decodeWithErasures (h : Usable d.toReedSolomon) (encoded : Nat → UInt8) (n : Nat)
    (erasures : Nat → UInt8) (e : Nat) (msg : Nat → UInt8) (at_ : Nat) :
    Usable (d.decodeWithErasures encoded n erasures e msg at_).1.toReedSolomon := by
  by_cases he : e = 0
  · rw [decodeWithErasures, if_pos he]
    exact usable_decode h encoded n msg at_
  by_cases hn : n ≤ d.blockLength
  · by_cases hle : e ≤ d.minDistance
    · refine usable_of_built ?_
      rw [decodeWithErasures_eq he hn hle]
      split
      · rw [config_withSyndromes]
        exact built_prepared h
      · rw [config_decodeErrors, config_located, config_withSyndromes]
        exact built_prepared h
    · rw [decodeWithErasures, if_neg he, if_neg (Nat.not_lt.mpr hn), if_pos (Nat.lt_of_not_le hle)]
      exact h
  · rw [decodeWithErasures, if_neg he, if_pos (Nat.lt_of_not_le hn)]
    exact h

theorem Reachable.usable (h : Reachable d) : Usable d.toReedSolomon := by
  induction h with
  | create raw => exact usable_create raw.toReedSolomon
  | encode _ msg msgLength encoded ih => exact usable_encode ih msg msgLength encoded
  | decode _ encoded encodedLength msg at_ ih => exact usable_decode ih encoded encodedLength msg at_
  | decodeWithErasures _ encoded encodedLength erasures e msg at_ ih =>
    exact usable_decodeWithErasures ih encoded encodedLength erasures e msg at_

/-! ### The erasures -/

/-- Different bytes of a block of `n`. -/
structure Places (n : Nat) (erasures : Nat → UInt8) (e : Nat) : Prop where
  lt : ∀ i, i < e → (erasures i).toNat < n
  distinct : ∀ i k, i < e → k < e → erasures i = erasures k → i = k

/-- The place of an erasure in the padded block. -/
def place (n : Nat) (erasures : Nat → UInt8) (i : Nat) : Nat := 255 - n + (erasures i).toNat

def places (n : Nat) (erasures : Nat → UInt8) (e : Nat) : Finset Nat :=
  (Finset.range e).image (place n erasures)

section

variable (hplaces : Places n erasures e)

include hplaces

theorem Places.place_inj (i k : Nat) (hi : i < e) (hk : k < e)
    (heq : place n erasures i = place n erasures k) : i = k :=
  hplaces.distinct i k hi hk (UInt8.toNat_inj.mp (Nat.add_left_cancel heq))

theorem Places.card_places : (places n erasures e).card = e := by
  rw [places, Finset.card_image_of_injOn, Finset.card_range]
  exact fun i hi k hk => hplaces.place_inj i k (Finset.mem_range.mp hi) (Finset.mem_range.mp hk)

theorem Places.place_lt (hn : n ≤ 255) {i : Nat} (hi : i < e) : place n erasures i < 255 := by
  have := hplaces.lt i hi
  rw [place]
  omega

theorem Places.el_root (hn : n ≤ 255) (locations roots : Nat → UInt8) {i : Nat} (hi : i < e) :
    el (findErrorRootsFromLocations ccsdsField 1
      (forLoop 0 e (fun i locations =>
        Function.update locations i (remap 255 (255 - n) (erasures i))) locations) roots e i) =
      (point (place n erasures i))⁻¹ := by
  have hlt := hplaces.lt i hi
  have hremap : (remap 255 (255 - n) (erasures i)).toNat = 254 - place n erasures i := by
    rw [remap, place, UInt8.toNat_ofNat']
    omega
  have hpower : el (ccsdsField.exp (254 - place n erasures i)) = point (place n erasures i) :=
    el_exp (by omega)
  have hne : ccsdsField.exp (254 - place n erasures i) ≠ 0 := fun hzero => by
    rw [hzero, el_zero] at hpower
    exact α_pow_ne _ hpower.symm
  rw [findErrorRootsFromLocations, forLoop_update, if_pos ⟨Nat.zero_le i, hi⟩, forLoop_update,
    if_pos ⟨Nat.zero_le i, hi⟩, hremap, el_div, el_one, one_div, el_pow hne, hpower]
  exact congrArg _ (pow_one _)

theorem erased_withSyndromes (h : Usable d.toReedSolomon) (hn : n ≤ 255) (he : 0 < e) :
    Erased (d.withSyndromes encoded n erasures e) (pad (255 - n) encoded) (places n erasures e) := by
  have hbuilt := built_prepared h
  have hreceive : d.prepared.toReedSolomon.receive encoded n =
      d.toReedSolomon.prepared.receive (pad (255 - n) encoded) 255 := by
    rw [toReedSolomon_prepared, receive_pad hbuilt.blockLength hn]
  have hfield : d.prepared.field = ccsdsField := by
    rw [toReedSolomon_prepared]
    exact hbuilt.field
  have hgap : d.prepared.generatorRootGap = 1 := by
    rw [toReedSolomon_prepared]
    exact hbuilt.gap
  have hblock : d.prepared.blockLength = 255 := by
    rw [toReedSolomon_prepared]
    exact hbuilt.blockLength
  have hroot : ∀ i, i < e → el ((d.withSyndromes encoded n erasures e).errorRoots i) =
      (point (place n erasures i))⁻¹ := fun i hi => by
    have hel := hplaces.el_root hn d.prepared.errorLocations d.prepared.errorRoots hi
    rw [← hfield, ← hgap, ← hblock] at hel
    exact hel
  refine ⟨?_, fun j hj => ?_, fun i hi => ?_, fun j hj => ?_, ?_, ?_, ?_, ?_⟩
  · rw [config_withSyndromes]
    exact hbuilt
  · have hcoeff : (d.withSyndromes encoded n erasures e).receivedPolynomial =
        (d.prepared.toReedSolomon.receive encoded n).receivedPolynomial := rfl
    rw [hcoeff, hreceive, receive_coeff _ _ (by omega) hbuilt.blockLength]
    congr 1
    omega
  · have hsyndromes : (d.withSyndromes encoded n erasures e).syndromes =
        (d.prepared.toReedSolomon.receive encoded n).ownSyndromes.2 := rfl
    rw [hsyndromes, hreceive]
    exact el_syndromes h (pad (255 - n) encoded) hi
  · obtain ⟨i, hi, rfl⟩ := Finset.mem_image.mp hj
    exact hplaces.place_lt hn (Finset.mem_range.mp hi)
  · rw [hplaces.card_places]
    exact he
  · rw [hplaces.card_places]
    refine ⟨fun k hk => ?_, fun j hj => ?_, fun k l hk hl heq => ?_⟩
    · exact ⟨_, Finset.mem_image_of_mem _ (Finset.mem_range.mpr hk), hroot k hk⟩
    · obtain ⟨i, hi, rfl⟩ := Finset.mem_image.mp hj
      exact ⟨i, Finset.mem_range.mp hi, hroot i (Finset.mem_range.mp hi)⟩
    · have hpoint := congrArg el heq
      rw [hroot k hk, hroot l hl] at hpoint
      exact hplaces.place_inj k l hk hl
        (point_inj (hplaces.place_lt hn hk) (hplaces.place_lt hn hl) (inv_injective hpoint))
  · rw [hplaces.card_places]
    rfl
  · obtain ⟨c, hc, hlocator⟩ := rootsPoly_eq_locator hroot hplaces.place_inj
    refine ⟨c, hc, Eq.trans ?_ hlocator⟩
    have hinit := toPoly_initFromRoots he (d.withSyndromes encoded n erasures e).errorRoots
      d.prepared.erasureLocator d.prepared.initFromRootsScratch
    rw [← hfield] at hinit
    exact hinit

end

/-! ### The errors -/

/-- The bytes that are wrong and not erased. -/
def unerased (n : Nat) (erasures : Nat → UInt8) (e : Nat) (block word : Nat → UInt8) : Finset Nat :=
  (Finset.range n).filter fun j => block j ≠ word j ∧ ∀ i, i < e → (erasures i).toNat ≠ j

theorem pad_ne {k j : Nat} {a b : Nat → UInt8} (h : pad k a j ≠ pad k b j) :
    k ≤ j ∧ a (j - k) ≠ b (j - k) := by
  rw [pad, pad] at h
  split at h
  next => exact absurd rfl h
  next hge => exact ⟨by omega, h⟩

/-- In the padded block. -/
theorem wrong_unerased (hplaces : Places n erasures e) (hn : n ≤ 255) {word : Nat → UInt8}
    (hword : Codeword (pad (255 - n) word))
    (hfew : 2 * (unerased n erasures e encoded word).card + e ≤ 32) :
    Wrong (pad (255 - n) encoded) (pad (255 - n) word) (places n erasures e)
      ((unerased n erasures e encoded word).image (255 - n + ·)) where
  codeword := hword
  differs j hj := by
    obtain ⟨i, hi, rfl⟩ := Finset.mem_image.mp hj
    obtain ⟨hlt, hne, -⟩ := Finset.mem_filter.mp hi
    have hlt := Finset.mem_range.mp hlt
    refine ⟨by omega, ?_⟩
    rw [pad_add, pad_add]
    exact hne
  apart := by
    refine Finset.disjoint_left.mpr fun j hj hmem => ?_
    obtain ⟨i, hi, rfl⟩ := Finset.mem_image.mp hj
    obtain ⟨k, hk, heq⟩ := Finset.mem_image.mp hmem
    exact (Finset.mem_filter.mp hi).2.2 k (Finset.mem_range.mp hk) (Nat.add_left_cancel heq)
  complete j hj hne := by
    obtain ⟨hge, hne⟩ := pad_ne hne
    by_cases herased : ∃ i, i < e ∧ (erasures i).toNat = j - (255 - n)
    · obtain ⟨i, hi, heq⟩ := herased
      refine Finset.mem_union_right _ (Finset.mem_image.mpr ⟨i, Finset.mem_range.mpr hi, ?_⟩)
      rw [place, heq, Nat.add_sub_cancel' hge]
    · refine Finset.mem_union_left _ (Finset.mem_image.mpr ⟨j - (255 - n), ?_,
        Nat.add_sub_cancel' hge⟩)
      exact Finset.mem_filter.mpr ⟨Finset.mem_range.mpr (by omega), hne,
        fun i hi heq => herased ⟨i, hi, heq⟩⟩
  few := by
    rw [hplaces.card_places, Finset.card_image_of_injective _ (add_right_injective _)]
    exact hfew

/-- A block in which few bytes are wrong besides the erased ones decodes to the message of the
    word. -/
theorem decode_unerased (h : Usable d.toReedSolomon) (hn : n ≤ 255) (hplaces : Places n erasures e)
    {word : Nat → UInt8} (hword : Codeword (pad (255 - n) word))
    (hfew : 2 * (unerased n erasures e encoded word).card + e ≤ 32) (msg : Nat → UInt8)
    (at_ : Nat) :
    (d.decodeWithErasures encoded n erasures e msg at_).2.1 = some (n - 32) ∧
      ∀ j, j < n - 32 → (d.decodeWithErasures encoded n erasures e msg at_).2.2 (at_ + j) =
        word j := by
  have hw : Wrong (pad (255 - n) encoded) (pad (255 - n) word) (places n erasures e)
      ((unerased n erasures e encoded word).image (255 - n + ·)) :=
    wrong_unerased hplaces hn hword hfew
  have hmin : d.minDistance = 32 := h.1.minDistance_eq
  have hblock : d.blockLength = 255 := h.1.blockLength_eq
  have hread : ∀ {rs : ReedSolomon}, (∀ j, j < 255 →
      rs.receivedPolynomial.coeff (254 - j) = pad (255 - n) word j) → ∀ j, j < n - 32 →
      rs.writeMessage n (n - 32) msg at_ (at_ + j) = word j := by
    intro rs hcoeff j hj
    have hindex : n - (j + 1) = 254 - (255 - n + j) := by omega
    rw [writeMessage_at rs msg at_ n hj, hindex, hcoeff _ (by omega), pad_add]
  rcases Nat.eq_zero_or_pos e with rfl | he
  · -- without erasures it is the other method
    rw [decodeWithErasures, if_pos rfl]
    refine decode_few_errors_pad h hn hword ?_ msg at_
    have hsubset : errorSet (pad (255 - n) encoded) (pad (255 - n) word) ⊆
        (unerased n erasures 0 encoded word).image (255 - n + ·) := fun j hj => by
      obtain ⟨hlt, hne⟩ := mem_errorSet.mp hj
      exact (Finset.mem_union.mp (hw.complete j hlt hne)).resolve_right (Finset.notMem_empty j)
    have hcard := (Finset.card_le_card hsubset).trans Finset.card_image_le
    omega
  have herased : Erased (d.withSyndromes encoded n erasures e) (pad (255 - n) encoded)
      (places n erasures e) := erased_withSyndromes hplaces h hn he
  have hcard := hplaces.card_places
  rw [decodeWithErasures_eq (Nat.ne_of_gt he) (hn.trans (Nat.le_of_eq hblock.symm)) (by omega), hmin]
  cases hzero : (d.withErasures encoded n erasures e).toReedSolomon.ownSyndromes.1 with
  | true =>
    rw [if_pos rfl]
    have hbuilt := built_prepared h
    have hall : d.toReedSolomon.allZero (pad (255 - n) encoded) 255 = true := by
      rw [allZero, ← receive_pad hbuilt.blockLength hn, ← toReedSolomon_prepared]
      exact hzero
    refine ⟨rfl, hread fun j hj => ?_⟩
    rw [herased.received j hj]
    exact hw.eq_of_syndromes_zero ((allZero_iff h _).mp hall) hj
  | false =>
    rw [if_neg Bool.false_ne_true]
    obtain ⟨hfound, -⟩ := herased.factorize hw
    rw [hcard] at hfound
    rw [decodeErrors_found hfound]
    refine ⟨rfl, hread fun j hj => ?_⟩
    have hcoeff := herased.corrected_coeff hw hj
    rw [hcard] at hcoeff
    exact hcoeff

/-- Whatever the encoder and the decoder were used for before: a message of up to 223 bytes comes
    back when `v` bytes of its block are wrong besides `e` erased ones and `2 v + e` is at most
    32. -/
theorem decodes_erasures {enc : ReedSolomon} (henc : ReedSolomon.Reachable enc)
    (hd : Reachable d) {m : Nat} (hm : m ≤ 223) (msg raw : Nat → UInt8)
    (hplaces : Places (m + 32) erasures e)
    (hfew : 2 * (unerased (m + 32) erasures e encoded (enc.encode msg m raw).2.2).card + e ≤ 32)
    (out : Nat → UInt8) (at_ : Nat) :
    (enc.encode msg m raw).2.1 = some 255 ∧
    (d.decodeWithErasures encoded (m + 32) erasures e out at_).2.1 = some m ∧
      ∀ j, j < m → (d.decodeWithErasures encoded (m + 32) erasures e out at_).2.2 (at_ + j) =
        msg j := by
  have hword := codeword_encode_pad henc.usable hm msg raw
  have hpad : 223 - m = 255 - (m + 32) := by omega
  rw [hpad] at hword
  obtain ⟨hlength, hmessage⟩ := decode_unerased hd.usable (by omega) hplaces hword hfew out at_
  rw [Nat.add_sub_cancel] at hlength hmessage
  refine ⟨congrArg Prod.fst (encode_short henc.usable hm msg raw), hlength, fun j hj => ?_⟩
  rw [hmessage j hj, encode_short_message henc.usable hm msg raw hj]

/-- What the encoder writes for the bytes 1, …, 5. -/
def fiveWord : Nat → UInt8 :=
  ((ReedSolomon.create rs_primitive_polynomial_ccsds 1 1 32 default).encode
    (fun j => UInt8.ofNat (j + 1)) 5 fun _ => 0).2.2

/-- The first four bytes are lost, and one more is wrong. -/
def fiveReceived (j : Nat) : UInt8 :=
  if j < 4 then 0 else if j = 6 then fiveWord 6 + 1 else fiveWord j

theorem decodes_erasures_five :
    fiveReceived 6 ≠ fiveWord 6 ∧
      ((create rs_primitive_polynomial_ccsds 1 1 32 default).decodeWithErasures fiveReceived
        (5 + 32) UInt8.ofNat 4 (fun _ => 0) 0).2.1 = some 5 ∧
      ∀ j, j < 5 → ((create rs_primitive_polynomial_ccsds 1 1 32 default).decodeWithErasures
        fiveReceived (5 + 32) UInt8.ofNat 4 (fun _ => 0) 0).2.2 j = UInt8.ofNat (j + 1) := by
  have hbyte : ∀ j, j < 37 → (UInt8.ofNat j).toNat = j := fun j hj => by
    rw [UInt8.toNat_ofNat', Nat.mod_eq_of_lt (Nat.lt_trans hj (by decide))]
  have hplaces : Places (5 + 32) UInt8.ofNat 4 := by
    refine ⟨by decide, fun i k hi hk heq => ?_⟩
    rw [← hbyte i (by omega), ← hbyte k (by omega), heq]
  have hfew : 2 * (unerased (5 + 32) UInt8.ofNat 4 fiveReceived fiveWord).card + 4 ≤ 32 := by
    have hsubset : unerased (5 + 32) UInt8.ofNat 4 fiveReceived fiveWord ⊆ {6} := fun j hj => by
      obtain ⟨hlt, hne, herased⟩ := Finset.mem_filter.mp hj
      have hlow : ¬ j < 4 := fun hlow => herased j hlow (hbyte j (Finset.mem_range.mp hlt))
      by_contra hsix
      refine hne ?_
      rw [fiveReceived, if_neg hlow, if_neg fun h => hsix (Finset.mem_singleton.mpr h)]
    have hcard := Finset.card_le_card hsubset
    rw [Finset.card_singleton] at hcard
    omega
  rw [fiveWord] at hfew
  obtain ⟨-, hlength, hmessage⟩ := decodes_erasures (ReedSolomon.Reachable.create default)
    (Reachable.create default) (m := 5) (by decide) _ _ hplaces hfew (fun _ => 0) 0
  refine ⟨fun heq => ?_, hlength, fun j hj => ?_⟩
  · rw [fiveReceived, if_neg (by decide), if_pos rfl] at heq
    have hnat := congrArg UInt8.toNat heq
    have hlt := UInt8.toNat_lt (fiveWord 6)
    rw [UInt8.toNat_add, UInt8.toNat_one] at hnat
    omega
  · rw [← hmessage j hj, Nat.zero_add]

end ErasureDecoder

end RyFi.Rs
