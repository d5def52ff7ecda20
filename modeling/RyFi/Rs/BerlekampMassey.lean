import RyFi.Lib.KeyEquation
import RyFi.Rs.Evaluation
import RyFi.Rs.ReedSolomon

/-! # The search for the error locator

`reed_solomon_find_error_locator` is the search of the key equation on the polynomial of the
syndromes, whatever these are: `Tracks` relates the buffers to it, and says that the order
of the locator is the number of taps and that nothing beyond the orders is set.
-/

namespace RyFi.Rs

open CLoop Polynomial KeyEquation PolynomialT

namespace ReedSolomon.LocatorSearch

variable {syndromes : Nat → UInt8} {n i : Nat} {s : LocatorSearch}

/-- The buffers after `n` syndromes. -/
structure Tracks (syndromes : Nat → UInt8) (n : Nat) (s : LocatorSearch) : Prop where
  order_eq : s.errorLocator.order = s.numerrors
  locator_above : ∀ j, s.numerrors < j → j ≤ 32 → s.errorLocator.coeff j = 0
  last_above : ∀ j, s.lastErrorLocator.order < j → j ≤ 32 → s.lastErrorLocator.coeff j = 0
  last_ne : s.lastDiscrepancy ≠ 0
  search : Search (poly 32 syndromes) s.errorLocator.toPoly s.lastErrorLocator.toPoly
    s.numerrors s.lastErrorLocator.order s.delayLength n (el s.lastDiscrepancy)

theorem Tracks.numerrors_le (h : Tracks syndromes n s) : s.numerrors ≤ n := by
  have := h.search.lengths
  have := h.search.delay_pos
  omega

/-- The locator has its coefficients in front of zeros. -/
theorem Tracks.coeff_locator (h : Tracks syndromes n s) {k : Nat} (hk : k ≤ 32) :
    s.errorLocator.toPoly.coeff k = el (s.errorLocator.coeff k) := by
  rw [toPoly, coeff_poly, h.order_eq]
  split
  next => rfl
  next hlt => rw [h.locator_above k (by omega) hk, el_zero]

theorem Tracks.coeff_last (h : Tracks syndromes n s) {k : Nat} (hk : k ≤ 32) :
    s.lastErrorLocator.toPoly.coeff k = el (s.lastErrorLocator.coeff k) := by
  rw [toPoly, coeff_poly]
  split
  next => rfl
  next hlt => rw [h.last_above k (by omega) hk, el_zero]

theorem Tracks.locator_zero (h : Tracks syndromes n s) : s.errorLocator.coeff 0 = 1 := by
  refine el_injective ?_
  rw [← h.coeff_locator (Nat.zero_le 32), h.search.register.coeff_zero, el_one]

/-! ## The discrepancy -/

theorem el_discrepancy (h : Tracks syndromes n s) (hn : n < 32) :
    el (s.discrepancy ccsdsField syndromes n) =
      (s.errorLocator.toPoly * poly 32 syndromes).coeff n := by
  have hle := h.numerrors_le
  have hloop := @forLoop_induct _ 1 (s.numerrors + 1)
    (fun j discrepancy => FieldT.add discrepancy
      (ccsdsField.mul (s.errorLocator.coeff j) (syndromes (n - j)))) (syndromes n)
    (fun j d => el d = (poly j s.errorLocator.coeff * poly 32 syndromes).coeff n)
    (by omega) ?_ ?_
  · rw [toPoly, h.order_eq]
    exact hloop
  · rw [coeff_poly_succ_mul, poly_zero, zero_mul, coeff_zero, zero_add, if_pos (Nat.zero_le n),
      h.locator_zero, el_one, one_mul, coeff_poly, Nat.sub_zero, if_pos hn]
  · intro j d _ hj hd
    rw [el_add, el_mul, hd, coeff_poly_succ_mul, if_pos (by omega), coeff_poly,
      if_pos (by omega)]

/-! ## A longer locator -/

variable {last : Nat → UInt8} {d : UInt8}

/-- The last locator, shifted up in place. -/
theorem shifted_apply (s : LocatorSearch) (hpos : 0 < s.delayLength) (k : Nat) :
    forDown (s.lastErrorLocator.order + 1) (fun j last =>
      Function.update last (j + s.delayLength) (s.scaledLast ccsdsField d last j))
      s.lastErrorLocator.coeff k =
    if s.delayLength ≤ k ∧ k - s.delayLength ≤ s.lastErrorLocator.order then
      s.scaledLast ccsdsField d s.lastErrorLocator.coeff (k - s.delayLength)
    else s.lastErrorLocator.coeff k := by
  have hloop := @forDown_induct _ (s.lastErrorLocator.order + 1)
    (fun j last => Function.update last (j + s.delayLength) (s.scaledLast ccsdsField d last j))
    s.lastErrorLocator.coeff
    (fun i c => ∀ k, c k =
      if i + s.delayLength ≤ k ∧ k - s.delayLength ≤ s.lastErrorLocator.order then
        s.scaledLast ccsdsField d s.lastErrorLocator.coeff (k - s.delayLength)
      else s.lastErrorLocator.coeff k) (fun k => by rw [if_neg (by omega)]) ?_
  · rw [hloop k, Nat.zero_add]
  · intro i c hi hc k
    rw [Function.update_apply]
    split
    next heq =>
      subst heq
      rw [if_pos (by omega), Nat.add_sub_cancel, scaledLast, scaledLast, hc, if_neg (by omega)]
    next hne =>
      rw [hc]
      congr 1
      apply propext
      omega

theorem cleared_apply (m : Nat) (last : Nat → UInt8) (k : Nat) :
    forDown m (fun j last => Function.update last j 0) last k =
      if k < m then 0 else last k := by
  have hloop := @forDown_induct _ m (fun j last => Function.update last j 0) last
    (fun i c => ∀ k, c k = if i ≤ k ∧ k < m then 0 else last k)
    (fun k => by rw [if_neg (by omega)]) ?_
  · rw [hloop k]
    congr 1
    apply propext
    omega
  · intro i c hi hc k
    rw [Function.update_apply]
    split
    next heq => rw [if_pos (by omega)]
    next hne =>
      rw [hc]
      congr 1
      apply propext
      omega

/-- `locator = locator - last_locator`, and `last_locator = locator`. -/
theorem swapped_apply (n : Nat) (locator last : Nat → UInt8) :
    forLoop 0 n (fun j (p : (Nat → UInt8) × (Nat → UInt8)) =>
      (Function.update p.1 j (FieldT.add (p.1 j) (p.2 j)), Function.update p.2 j (p.1 j)))
      (locator, last) =
    (fun k => if k < n then FieldT.add (locator k) (last k) else locator k,
      fun k => if k < n then locator k else last k) := by
  refine forLoop_induct (fun i p => p =
    (fun k => if k < i then FieldT.add (locator k) (last k) else locator k,
      fun k => if k < i then locator k else last k)) (Nat.zero_le n) (by simp) ?_
  rintro i p - - rfl
  refine Prod.ext (funext fun k => ?_) (funext fun k => ?_)
  · simp only [Function.update_apply]
    by_cases heq : k = i
    · subst heq
      simp
    · rw [if_neg heq]
      congr 1
      apply propext
      omega
  · simp only [Function.update_apply]
    by_cases heq : k = i
    · subst heq
      simp
    · rw [if_neg heq]
      congr 1
      apply propext
      omega

/-- The scaled and shifted last locator as a polynomial. -/
theorem coeff_shift_last (h : Tracks syndromes n s) (q : Gf) {k : Nat} (hk : k ≤ 32) :
    (C q * (X ^ s.delayLength * s.lastErrorLocator.toPoly)).coeff k =
      if s.delayLength ≤ k then
        q * el (s.lastErrorLocator.coeff (k - s.delayLength)) else 0 := by
  rw [coeff_C_mul, coeff_X_pow_mul', mul_ite, mul_zero]
  split
  · rw [h.coeff_last (by omega)]
  · rfl

/-- The locator after a step that lengthens it, as the elimination has it. -/
theorem lengthen_locator_coeff (h : Tracks syndromes n s) (d : UInt8) {k : Nat} (hk : k ≤ 32) :
    el ((s.lengthen ccsdsField d n).errorLocator.coeff k) =
      (eliminate s.errorLocator.toPoly s.lastErrorLocator.toPoly s.delayLength
        (el d / el s.lastDiscrepancy)).coeff k := by
  have hlengths := h.search.lengths
  have hpos := h.search.delay_pos
  simp only [lengthen, swapped_apply]
  rw [eliminate, coeff_sub, CharTwo.sub_eq_add, coeff_shift_last h _ hk, h.coeff_locator hk,
    cleared_apply, shifted_apply s hpos]
  by_cases hin : k < s.lastErrorLocator.order + s.delayLength + 1
  · rw [if_pos hin, el_add]
    congr 1
    by_cases hlow : k < s.delayLength
    · rw [if_pos hlow, if_neg (by omega), el_zero]
    · rw [if_neg hlow, if_pos (by omega), if_pos (by omega), scaledLast, el_div, el_mul]
      ring
  · rw [if_neg hin, if_pos (by omega), h.last_above _ (by omega) (by omega), el_zero, mul_zero,
      add_zero]

/-- The last locator after such a step is the locator before it. -/
theorem lengthen_last_coeff (h : Tracks syndromes n s) (hroom : 2 * s.numerrors ≤ n) (d : UInt8)
    {k : Nat} (hk : k ≤ 32) :
    (s.lengthen ccsdsField d n).lastErrorLocator.coeff k = s.errorLocator.coeff k := by
  have hlengths := h.search.lengths
  have hpos := h.search.delay_pos
  simp only [lengthen, swapped_apply]
  split
  next => rfl
  next hin =>
    rw [cleared_apply, if_neg (by omega), shifted_apply s hpos, if_neg (by omega),
      h.last_above k (by omega) hk, h.locator_above k (by omega) hk]

theorem tracks_lengthen (h : Tracks syndromes n s) (hn : n < 32) (hroom : 2 * s.numerrors ≤ n)
    (hd : s.discrepancy ccsdsField syndromes n ≠ 0) :
    Tracks syndromes (n + 1) (s.lengthen ccsdsField (s.discrepancy ccsdsField syndromes n) n) := by
  have hel := el_discrepancy h hn
  generalize s.discrepancy ccsdsField syndromes n = d at hd hel
  have hlengths := h.search.lengths
  have hsearch := h.search.lengthen hroom (by rw [← hel]; exact mt el_eq_zero_iff.mp hd)
  rw [← hel] at hsearch
  have horder : (s.lengthen ccsdsField d n).errorLocator.order =
      s.delayLength + s.lastErrorLocator.order := Nat.add_comm _ _
  have hlastOrder : (s.lengthen ccsdsField d n).lastErrorLocator.order = s.numerrors := h.order_eq
  have hnum : (s.lengthen ccsdsField d n).numerrors =
      s.delayLength + s.lastErrorLocator.order := by
    change n + 1 - s.numerrors = _
    omega
  have hdegree := hsearch.register.natDegree_le
  have hpoly : (s.lengthen ccsdsField d n).errorLocator.toPoly =
      eliminate s.errorLocator.toPoly s.lastErrorLocator.toPoly s.delayLength
        (el d / el s.lastDiscrepancy) := by
    refine poly_of_coeff (fun k hk => ?_)
      fun k hk => lengthen_locator_coeff h d (by omega)
    exact coeff_eq_zero_of_natDegree_lt (by omega)
  have hlastPoly : (s.lengthen ccsdsField d n).lastErrorLocator.toPoly = s.errorLocator.toPoly :=
    poly_congr fun k hk => lengthen_last_coeff h hroom d (by omega)
  refine ⟨horder.trans hnum.symm, fun j hj hj' => ?_, fun j hj hj' => ?_, hd, ?_⟩
  · refine el_eq_zero_iff.mp ?_
    rw [lengthen_locator_coeff h d hj']
    exact coeff_eq_zero_of_natDegree_lt (by omega)
  · rw [lengthen_last_coeff h hroom d hj']
    exact h.locator_above j (by omega) hj'
  · rw [hpoly, hlastPoly, hnum, hlastOrder]
    exact hsearch

/-- The highest coefficient after a step that lengthens the locator. -/
theorem lengthen_top (s : LocatorSearch) (hpos : 0 < s.delayLength) (d : UInt8) (i : Nat) :
    (s.lengthen ccsdsField d i).errorLocator.coeff (s.lastErrorLocator.order + s.delayLength) =
      FieldT.add (s.errorLocator.coeff (s.lastErrorLocator.order + s.delayLength))
        (s.scaledLast ccsdsField d s.lastErrorLocator.coeff s.lastErrorLocator.order) := by
  simp only [lengthen, swapped_apply]
  rw [if_pos (Nat.lt_succ_self _), cleared_apply, if_neg (by omega), shifted_apply s hpos,
    if_pos (by omega), Nat.add_sub_cancel]

/-! ## No more taps -/

theorem adjusted_apply (s : LocatorSearch) (d : UInt8) (k : Nat) :
    (s.adjust ccsdsField d).errorLocator.coeff k =
    if s.delayLength ≤ k ∧ k - s.delayLength ≤ s.lastErrorLocator.order then
      FieldT.add (s.errorLocator.coeff k)
        (s.scaledLast ccsdsField d s.lastErrorLocator.coeff (k - s.delayLength))
    else s.errorLocator.coeff k := by
  have hloop := @forDown_induct _ (s.lastErrorLocator.order + 1) (fun j coeff =>
      Function.update coeff (j + s.delayLength) (FieldT.add (coeff (j + s.delayLength))
        (s.scaledLast ccsdsField d s.lastErrorLocator.coeff j))) s.errorLocator.coeff
    (fun i c => ∀ k, c k =
      if i + s.delayLength ≤ k ∧ k - s.delayLength ≤ s.lastErrorLocator.order then
        FieldT.add (s.errorLocator.coeff k)
          (s.scaledLast ccsdsField d s.lastErrorLocator.coeff (k - s.delayLength))
      else s.errorLocator.coeff k) (fun k => by rw [if_neg (by omega)]) ?_
  · refine (hloop k).trans ?_
    rw [Nat.zero_add]
  · intro i c hi hc k
    rw [Function.update_apply]
    split
    next heq =>
      subst heq
      rw [if_pos (by omega), Nat.add_sub_cancel, hc, if_neg (by omega)]
    next hne =>
      rw [hc]
      congr 1
      apply propext
      omega

/-- The locator after a step that keeps its length, as the elimination has it. -/
theorem adjust_locator_coeff (h : Tracks syndromes n s) (d : UInt8) {k : Nat} (hk : k ≤ 32) :
    el ((s.adjust ccsdsField d).errorLocator.coeff k) =
      (eliminate s.errorLocator.toPoly s.lastErrorLocator.toPoly s.delayLength
        (el d / el s.lastDiscrepancy)).coeff k := by
  have hlengths := h.search.lengths
  rw [adjusted_apply, eliminate, coeff_sub, CharTwo.sub_eq_add, coeff_shift_last h _ hk,
    h.coeff_locator hk]
  by_cases hlow : s.delayLength ≤ k
  · by_cases hin : k - s.delayLength ≤ s.lastErrorLocator.order
    · rw [if_pos ⟨hlow, hin⟩, if_pos hlow, el_add, scaledLast, el_div, el_mul]
      ring
    · rw [if_neg (by omega), if_pos hlow, h.last_above _ (by omega) (by omega), el_zero,
        mul_zero, add_zero]
  · rw [if_neg (by omega), if_neg hlow, add_zero]

theorem tracks_adjust (h : Tracks syndromes n s) (hn : n < 32) (hroom : n < 2 * s.numerrors) :
    Tracks syndromes (n + 1) (s.adjust ccsdsField (s.discrepancy ccsdsField syndromes n)) := by
  have hel := el_discrepancy h hn
  generalize s.discrepancy ccsdsField syndromes n = d at hel
  have hlengths := h.search.lengths
  have hsearch := h.search.adjust hroom
  rw [← hel] at hsearch
  have horder : (s.adjust ccsdsField d).errorLocator.order = s.numerrors := by
    have := h.order_eq
    simp only [adjust]
    split <;> omega
  have hdegree := hsearch.register.natDegree_le
  have hpoly : (s.adjust ccsdsField d).errorLocator.toPoly =
      eliminate s.errorLocator.toPoly s.lastErrorLocator.toPoly s.delayLength
        (el d / el s.lastDiscrepancy) := by
    refine poly_of_coeff (fun k hk => ?_)
      fun k hk => adjust_locator_coeff h d (by omega)
    exact coeff_eq_zero_of_natDegree_lt (by omega)
  refine ⟨horder, fun j hj hj' => ?_, h.last_above, h.last_ne, ?_⟩
  · refine el_eq_zero_iff.mp ?_
    rw [adjust_locator_coeff h d hj']
    exact coeff_eq_zero_of_natDegree_lt (Nat.lt_of_le_of_lt hdegree hj)
  · rw [hpoly]
    exact hsearch

/-! ## The whole search -/

theorem tracks_step (h : Tracks syndromes n s) (hn : n < 32) :
    Tracks syndromes (n + 1) (s.step ccsdsField syndromes n) := by
  simp only [step]
  split
  next hd =>
    have hzero := el_discrepancy h hn
    rw [hd, el_zero] at hzero
    exact ⟨h.order_eq, h.locator_above, h.last_above, h.last_ne, h.search.keep hzero.symm⟩
  next hd =>
    split
    next hroom => exact tracks_lengthen h hn hroom hd
    next hroom => exact tracks_adjust h hn (by omega)

/-- The locator is never longer than a register that generates the syndromes. -/
theorem numerrors_step_le {D : Gf[X]} {v N : Nat} (h : Tracks syndromes n s) (hn : n < 32)
    (hD : Register (poly 32 syndromes) D v N) (hN : n < N) (hle : s.numerrors ≤ v) :
    (s.step ccsdsField syndromes n).numerrors ≤ v := by
  simp only [step]
  split
  next => exact hle
  next hd =>
    have hel := el_discrepancy h hn
    split
    next hroom =>
      have hlengths := h.search.lengths
      have hlong := h.search.lengthen_le hD hN (by rw [← hel]; exact mt el_eq_zero_iff.mp hd)
      change n + 1 - s.numerrors ≤ v
      omega
    next => exact hle

theorem locatorStart_locator {rs : ReedSolomon} (hmin : rs.minDistance = 32) {k : Nat}
    (hk : k ≤ 32) : rs.locatorStart.errorLocator.coeff k = if k = 0 then 1 else 0 := by
  simp only [locatorStart, hmin]
  rw [Function.update_apply]
  split
  next => rfl
  next => rw [setRange_inside (Nat.zero_le k) (by omega)]

theorem locatorStart_last {rs : ReedSolomon} (hmin : rs.minDistance = 32) {k : Nat}
    (hk : k ≤ 32) : rs.locatorStart.lastErrorLocator.coeff k = if k = 0 then 1 else 0 := by
  rw [← locatorStart_locator hmin hk]
  have hcopy := @copyRange_inside _ rs.lastErrorLocator.coeff
    rs.locatorStart.errorLocator.coeff 0 0 33 k (by omega)
  simp only [Nat.zero_add] at hcopy
  simp only [locatorStart, hmin] at hcopy ⊢
  exact hcopy

theorem tracks_start {rs : ReedSolomon} (hmin : rs.minDistance = 32) :
    Tracks syndromes 0 rs.locatorStart := by
  have hone : ∀ p : PolynomialT, p.order = 0 → p.coeff 0 = 1 → p.toPoly = 1 := by
    intro p horder hcoeff
    rw [toPoly, horder, poly_succ, poly_zero, hcoeff, el_one, zero_add]
    rfl
  refine ⟨rfl, fun j hj hj' => ?_, fun j hj hj' => ?_, (show (1 : UInt8) ≠ 0 by decide), ?_⟩
  · rw [locatorStart_locator hmin hj', if_neg (Nat.ne_of_gt (Nat.zero_lt_of_lt hj))]
  · rw [locatorStart_last hmin hj', if_neg (Nat.ne_of_gt (Nat.zero_lt_of_lt hj))]
  · rw [hone _ rfl (locatorStart_locator hmin (Nat.zero_le 32)),
      hone _ rfl (locatorStart_last hmin (Nat.zero_le 32))]
    change Search _ 1 1 0 0 1 0 (el 1)
    rw [el_one]
    exact Search.start _

/-- The state of the search after `n` syndromes. -/
theorem tracks_search {rs : ReedSolomon} (hmin : rs.minDistance = 32) (hn : n ≤ 32) :
    Tracks syndromes n (forLoop 0 n (step ccsdsField syndromes) rs.locatorStart) :=
  forLoop_induct (fun i s => Tracks syndromes i s) (Nat.zero_le n) (tracks_start hmin)
    fun _ _ _ hi hs => tracks_step hs (by omega)

theorem numerrors_search_le {rs : ReedSolomon} (hmin : rs.minDistance = 32) {D : Gf[X]} {v : Nat}
    (hD : Register (poly 32 syndromes) D v 32) (hn : n ≤ 32) :
    (forLoop 0 n (step ccsdsField syndromes) rs.locatorStart).numerrors ≤ v := by
  have hloop := @forLoop_induct _ 0 n (step ccsdsField syndromes) rs.locatorStart
    (fun i s => Tracks syndromes i s ∧ s.numerrors ≤ v) (Nat.zero_le n)
    ⟨tracks_start hmin, Nat.zero_le v⟩
    fun i s _ hi hs => ⟨tracks_step hs.1 (by omega),
      numerrors_step_le hs.1 (by omega) hD (by omega) hs.2⟩
  exact hloop.2

end ReedSolomon.LocatorSearch

end RyFi.Rs
