import RyFi.Rs.BerlekampMassey
import RyFi.Rs.Instance

/-! # The shortest recurrence of the syndromes

The search for the error locator is right whatever the syndromes are: what it returns is a
recurrence that all of them obey, and none is shorter.  `Recurs` says so without polynomials;
`register_iff` leads back to the registers of the key equation.
-/

namespace RyFi.Rs

open CLoop Polynomial KeyEquation

/-! ## Recurrences -/

/-- The 32 syndromes obey the recurrence of length `L` with the coefficients `c`. -/
structure Recurs (syndromes : Nat → UInt8) (c : Nat → Gf) (L : Nat) : Prop where
  coeff_zero : c 0 = 1
  sum_eq_zero : ∀ i, L ≤ i → i < 32 →
    ∑ j ∈ Finset.range (L + 1), c j * el (syndromes (i - j)) = 0

variable {syndromes : Nat → UInt8} {L : Nat}

/-- A coefficient of the product is a sum over the taps. -/
theorem coeff_mul_syndromes {R : Gf[X]} (hR : R.natDegree ≤ L) {i : Nat} (hL : L ≤ i)
    (hi : i < 32) :
    (R * poly 32 syndromes).coeff i =
      ∑ j ∈ Finset.range (L + 1), R.coeff j * el (syndromes (i - j)) := by
  have hall : (R * poly 32 syndromes).coeff i =
      ∑ j ∈ Finset.range (i + 1), R.coeff j * el (syndromes (i - j)) := by
    rw [coeff_mul, Finset.Nat.sum_antidiagonal_eq_sum_range_succ
      (fun a b => R.coeff a * (poly 32 syndromes).coeff b)]
    refine Finset.sum_congr rfl fun j _ => ?_
    rw [coeff_poly, if_pos (by omega)]
  rw [hall]
  refine (Finset.sum_subset (Finset.range_mono (by omega)) fun j _ hj => ?_).symm
  rw [Finset.mem_range, not_lt] at hj
  rw [coeff_eq_zero_of_natDegree_lt (by omega), zero_mul]

theorem register_iff (syndromes : Nat → UInt8) (R : Gf[X]) (L : Nat) :
    Register (poly 32 syndromes) R L 32 ↔ R.natDegree ≤ L ∧ Recurs syndromes R.coeff L := by
  constructor
  · intro h
    refine ⟨h.natDegree_le, h.coeff_zero, fun i hL hi => ?_⟩
    rw [← coeff_mul_syndromes h.natDegree_le hL hi]
    exact h.silent i hL hi
  · rintro ⟨hdegree, h⟩
    refine ⟨h.coeff_zero, hdegree, fun i hL hi => ?_⟩
    rw [coeff_mul_syndromes hdegree hL hi]
    exact h.sum_eq_zero i hL hi

/-- Only the coefficients up to the length count. -/
theorem Recurs.congr {c c' : Nat → Gf} (h : Recurs syndromes c L)
    (heq : ∀ j, j ≤ L → c' j = c j) : Recurs syndromes c' L where
  coeff_zero := (heq 0 (Nat.zero_le L)).trans h.coeff_zero
  sum_eq_zero := fun i hL hi => by
    rw [← h.sum_eq_zero i hL hi]
    refine Finset.sum_congr rfl fun j hj => ?_
    rw [heq j (Nat.lt_succ_iff.mp (Finset.mem_range.mp hj))]

/-- Every recurrence is a register. -/
theorem Recurs.exists_register {c : Nat → Gf} (h : Recurs syndromes c L) :
    ∃ R, Register (poly 32 syndromes) R L 32 := by
  have hcoeff : ∀ j, (∑ i ∈ Finset.range (L + 1), monomial i (c i)).coeff j =
      if j < L + 1 then c j else 0 := by
    intro j
    rw [finsetSum_coeff]
    simp only [coeff_monomial, Finset.sum_ite_eq', Finset.mem_range]
  refine ⟨∑ i ∈ Finset.range (L + 1), monomial i (c i), (register_iff _ _ _).mpr ⟨?_, ?_⟩⟩
  · refine natDegree_le_iff_coeff_eq_zero.mpr fun j hj => ?_
    rw [hcoeff, if_neg (by omega)]
  · refine h.congr fun j hj => ?_
    rw [hcoeff, if_pos (by omega)]

/-! ## The search -/

namespace ReedSolomon

variable {rs : ReedSolomon}

/-- The variables of the search before its iteration `i`. -/
def searchAt (rs : ReedSolomon) (i : Nat) : LocatorSearch :=
  forLoop 0 i (LocatorSearch.step rs.field rs.syndromes) rs.locatorStart

theorem tracks_searchAt (h : Usable rs) {i : Nat} (hi : i ≤ 32) :
    LocatorSearch.Tracks rs.syndromes i (rs.searchAt i) := by
  rw [searchAt, show rs.field = ccsdsField from h.1.field_eq]
  exact LocatorSearch.tracks_search h.1.minDistance_eq hi

theorem findErrorLocator_eq (h : Usable rs) :
    (rs.findErrorLocator 0).1.errorLocator = (rs.searchAt 32).errorLocator ∧
      (rs.findErrorLocator 0).2 = (rs.searchAt 32).errorLocator.order := by
  have hmin : rs.minDistance = 32 := h.1.minDistance_eq
  simp only [findErrorLocator, searchAt, hmin, Nat.sub_zero, and_self]

/-- What the last locator is shifted to stays within the length the locator has next. -/
theorem reach_le (h : Usable rs) {i : Nat} (hi : i ≤ 32) :
    (2 * (rs.searchAt i).numerrors ≤ i →
        (rs.searchAt i).lastErrorLocator.order + (rs.searchAt i).delayLength ≤
          i + 1 - (rs.searchAt i).numerrors) ∧
      (i < 2 * (rs.searchAt i).numerrors →
        (rs.searchAt i).lastErrorLocator.order + (rs.searchAt i).delayLength ≤
          (rs.searchAt i).numerrors) := by
  have hlengths := (tracks_searchAt h hi).search.lengths
  omega

/-- The locator of the 32 syndromes. -/
theorem recurs_searchAt (h : Usable rs) :
    Recurs rs.syndromes (fun j => el ((rs.searchAt 32).errorLocator.coeff j))
      (rs.searchAt 32).numerrors := by
  have htracks := tracks_searchAt h (Nat.le_refl 32)
  have hle := htracks.numerrors_le
  have hregister := ((register_iff _ _ _).mp htracks.search.register).2
  exact hregister.congr fun j hj => (htracks.coeff_locator (by omega)).symm

theorem numerrors_searchAt_le (h : Usable rs) {c : Nat → Gf} {L : Nat}
    (hc : Recurs rs.syndromes c L) : (rs.searchAt 32).numerrors ≤ L := by
  obtain ⟨R, hR⟩ := hc.exists_register
  rw [searchAt, show rs.field = ccsdsField from h.1.field_eq]
  exact LocatorSearch.numerrors_search_le h.1.minDistance_eq hR (Nat.le_refl 32)

/-- The instance with other syndromes in its buffer. -/
def withSyndromes (rs : ReedSolomon) (syndromes : Nat → UInt8) : ReedSolomon :=
  { rs with syndromes := syndromes }

theorem usable_withSyndromes (h : Usable rs) (syndromes : Nat → UInt8) :
    Usable (rs.withSyndromes syndromes) := usable_of_config rfl h

/-- Berlekamp-Massey on any syndromes: the locator is a recurrence they obey and none is
    shorter; throughout, its order is the number of taps, and the shifted last locator fits
    into the order that is set. -/
theorem shortest_recurrence (h : Reachable rs) (syndromes : Nat → UInt8) :
    let start := rs.withSyndromes syndromes
    let locator := (start.findErrorLocator 0).1.errorLocator.coeff
    let length := (start.findErrorLocator 0).2
    locator 0 = 1 ∧ (∀ j, length < j → j ≤ 32 → locator j = 0) ∧
      Recurs syndromes (fun j => el (locator j)) length ∧
      (∀ c L, Recurs syndromes c L → length ≤ L) ∧
      ∀ i, i ≤ 32 →
        let s := start.searchAt i
        s.errorLocator.order = s.numerrors ∧
          (i < 32 → s.discrepancy start.field syndromes i ≠ 0 →
            if 2 * s.numerrors ≤ i then
              s.lastErrorLocator.order + s.delayLength ≤ i + 1 - s.numerrors
            else s.lastErrorLocator.order + s.delayLength ≤ s.numerrors) := by
  intro start locator length
  have husable : Usable start := usable_withSyndromes h.usable syndromes
  have htracks := tracks_searchAt husable (Nat.le_refl 32)
  obtain ⟨hlocator, hlength⟩ := findErrorLocator_eq husable
  have horder : length = (start.searchAt 32).numerrors := hlength.trans htracks.order_eq
  have hcoeff : locator = (start.searchAt 32).errorLocator.coeff :=
    congrArg PolynomialT.coeff hlocator
  rw [horder, hcoeff]
  refine ⟨htracks.locator_zero, htracks.locator_above, recurs_searchAt husable,
    fun c L hc => numerrors_searchAt_le husable hc, fun i hi => ?_⟩
  -- the last locator, shifted by the delay, stays inside the new length
  refine ⟨(tracks_searchAt husable hi).order_eq, fun _ _ => ?_⟩
  obtain ⟨hshort, hlong⟩ := reach_le husable hi
  split
  next hroom => exact hshort hroom
  next hroom => exact hlong (by omega)

/-- The syndromes 0, 1, 0, 1, … -/
def alternating (i : Nat) : UInt8 := if i % 2 = 1 then 1 else 0

theorem recurs_alternating : Recurs alternating (fun j => if j = 1 then 0 else 1) 2 := by
  refine ⟨rfl, fun i hi _ => ?_⟩
  have hsame : alternating (i - 2) = alternating i := by
    simp only [alternating, show (i - 2) % 2 = i % 2 by omega]
  simp [Finset.sum_range_succ, hsame, CharTwo.add_self_eq_zero]

/-- They obey no other recurrence of that length, and no shorter one. -/
theorem recurs_alternating_eq {locator : Nat → UInt8} (hle : L ≤ 2) (hfirst : locator 0 = 1)
    (h : Recurs alternating (fun j => el (locator j)) L) :
    L = 2 ∧ locator 1 = 0 ∧ locator 2 = 1 := by
  have heven : ∀ i, i % 2 = 0 → el (alternating i) = 0 := fun i hi => by
    rw [alternating, if_neg (by omega), el_zero]
  have hodd : ∀ i, i % 2 = 1 → el (alternating i) = 1 := fun i hi => by
    rw [alternating, if_pos hi, el_one]
  have hlength : L = 2 := by
    by_contra hne
    -- the second syndrome does not follow from the first
    have hsum := h.sum_eq_zero 1 (by omega) (by omega)
    rcases Nat.le_one_iff_eq_zero_or_eq_one.mp (show L ≤ 1 by omega) with rfl | rfl <;>
      simp [Finset.sum_range_succ, hfirst, heven, hodd] at hsum
  subst hlength
  have hsecond := h.sum_eq_zero 2 (by omega) (by omega)
  have hthird := h.sum_eq_zero 3 (by omega) (by omega)
  simp [Finset.sum_range_succ, hfirst, heven, hodd] at hsecond hthird
  refine ⟨rfl, hsecond, el_injective ?_⟩
  rw [el_one]
  exact (CharTwo.add_eq_zero.mp hthird).symm

/-- On these a new decoder finds 1 + x². -/
theorem shortest_recurrence_alternating :
    let start := (create rs_primitive_polynomial_ccsds 1 1 32 default).withSyndromes alternating
    let locator := (start.findErrorLocator 0).1.errorLocator.coeff
    (start.findErrorLocator 0).2 = 2 ∧ locator 0 = 1 ∧ locator 1 = 0 ∧ locator 2 = 1 := by
  have hreach : Reachable (create rs_primitive_polynomial_ccsds 1 1 32 default) := .create default
  -- the instance is not computed
  generalize create rs_primitive_polynomial_ccsds 1 1 32 default = rs at hreach
  intro start locator
  obtain ⟨hfirst, -, hrecurs, hleast, -⟩ := shortest_recurrence hreach alternating
  obtain ⟨hlength, hnone, hlast⟩ :=
    @recurs_alternating_eq _ locator (hleast _ 2 recurs_alternating) hfirst hrecurs
  exact ⟨hlength, hfirst, hnone, hlast⟩

end ReedSolomon

end RyFi.Rs
