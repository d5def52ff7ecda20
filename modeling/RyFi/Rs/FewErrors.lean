import RyFi.Rs.Codewords

/-! # Few errors

A block that differs from a code word in at most 16 bytes is decoded to it: the locator of
the errors is the only short register for the syndromes, its roots are all found, and no
other code word is near.
-/

namespace RyFi.Rs

open CLoop Polynomial PolynomialT KeyEquation

/-- Where a block differs from a word. -/
def errorSet (block word : Nat → UInt8) : Finset Nat :=
  (Finset.range 255).filter fun j => block j ≠ word j

theorem mem_errorSet {block word : Nat → UInt8} {j : Nat} :
    j ∈ errorSet block word ↔ j < 255 ∧ block j ≠ word j := by
  rw [errorSet, Finset.mem_filter, Finset.mem_range]

namespace ReedSolomon

variable {rs : ReedSolomon} {block word : Nat → UInt8}

/-- The locator of the errors: their powers of `α`, with the errors as weights. -/
theorem syndromes_of_errors (hword : Codeword word) {k : Nat} (hk : k < 32) :
    (syndromePoly block).coeff k = ∑ j ∈ errorSet block word,
      (el (block j) + el (word j)) * α ^ (254 - j) * (α ^ (254 - j)) ^ k := by
  have hsum := hword k hk
  rw [syndrome_eq_sum] at hsum
  rw [coeff_syndromePoly block hk, syndrome_eq_sum, ← add_zero (∑ j ∈ _, _), ← hsum,
    ← Finset.sum_add_distrib, errorSet, Finset.sum_filter]
  refine Finset.sum_congr rfl fun j _ => ?_
  split
  next => ring
  next heq => rw [not_not.mp heq, CharTwo.add_self_eq_zero]

theorem error_ne {j : Nat} (hj : j ∈ errorSet block word) :
    (el (block j) + el (word j)) * α ^ (254 - j) ≠ 0 := by
  refine mul_ne_zero (fun hzero => ?_) (α_pow_ne (254 - j))
  exact (mem_errorSet.mp hj).2 (el_injective (CharTwo.add_eq_zero.mp hzero))

theorem injOn_errorSet : Set.InjOn (fun j => α ^ (254 - j)) (errorSet block word) :=
  injOn_powers fun _ hj => (mem_errorSet.mp hj).1

/-- With few errors the locator is theirs. -/
theorem located_eq_locator (h : Usable rs) (hword : Codeword word)
    (hfew : (errorSet block word).card ≤ 16) :
    (rs.located block 255).errorLocator.toPoly =
        locator (errorSet block word) (fun j => α ^ (254 - j)) ∧
      (rs.located block 255).errorLocator.order = (errorSet block word).card :=
  register_eq_locator injOn_errorSet (fun j _ => α_pow_ne (254 - j)) (fun _ hj => error_ne hj)
    (fun _ hk => syndromes_of_errors hword hk) (register_located h block)
    (located_order_le_of_register h block
      (register_locator fun _ hk => syndromes_of_errors hword hk)) (by omega)

/-- All its roots are found. -/
theorem found_of_few (h : Usable rs) (hword : Codeword word)
    (hfew : (errorSet block word).card ≤ 16) (hsearch : rs.allZero block 255 = false) :
    (rs.located block 255).ownRoots.1 = true := by
  obtain ⟨hlocator, horder⟩ := located_eq_locator h hword hfew
  have hsearched := searched_located h hsearch (by omega)
  obtain ⟨count, hlist, hfound⟩ := lists_ownRoots hsearched
  refine hfound.mpr (Nat.le_antisymm (hlist.count_le hsearched) ?_)
  -- every error has its root
  have hcell : ∀ j ∈ errorSet block word, ∃ k, k < count ∧
      el ((rs.located block 255).ownRoots.2 k) = (α ^ (254 - j))⁻¹ := fun j hj => by
    obtain ⟨b, hb⟩ := exists_el (α ^ (254 - j))⁻¹
    have hzero : (rs.located block 255).errorLocator.toPoly.eval (el b) = 0 := by
      rw [hlocator, hb]
      exact eval_locator_eq_zero (x := fun j => α ^ (254 - j)) hj (α_pow_ne (254 - j))
    obtain ⟨k, hk, heq⟩ := hlist.complete b.toNat (UInt8.toNat_lt b)
      (by rw [UInt8.ofNat_toNat]; exact hzero)
    exact ⟨k, hk, by rw [UInt8.toNat_inj.mp heq, hb]⟩
  choose! cell hlt hcell using hcell
  rw [horder, ← Finset.card_range count]
  refine Finset.card_le_card_of_injOn cell (fun j hj => Finset.mem_range.mpr (hlt j hj)) ?_
  intro i hi j hj hij
  refine injOn_errorSet hi hj (inv_injective ?_)
  simp only
  rw [← hcell i hi, ← hcell j hj, hij]

/-- No errors, no search. -/
theorem errorSet_of_allZero (h : Usable rs) (hword : Codeword word)
    (hfew : (errorSet block word).card ≤ 16) (hzero : rs.allZero block 255 = true) :
    errorSet block word = ∅ := by
  have hregister : Register (syndromePoly block) 1 0 32 := ⟨coeff_one_zero, by simp,
    fun k _ hk => by rw [one_mul, coeff_syndromePoly block hk, (allZero_iff h block).mp hzero k hk]⟩
  have hnone := (register_eq_locator injOn_errorSet (fun j _ => α_pow_ne (254 - j))
    (fun _ hj => error_ne hj) (fun _ hk => syndromes_of_errors hword hk) hregister
    (Nat.zero_le _) (by omega)).2
  exact Finset.card_eq_zero.mp hnone.symm

/-- Only the locations that were found are changed. -/
theorem corrected_coeff_other (rs : ReedSolomon) {p : Nat}
    (hp : ∀ k, k < rs.errorLocator.order → rs.location k ≠ p) :
    rs.corrected.receivedPolynomial.coeff p = rs.receivedPolynomial.coeff p := by
  refine el_injective ?_
  rw [el_corrected, correction, finsetSum_coeff, Finset.sum_eq_zero, add_zero]
  intro k hk
  rw [coeff_monomial, if_neg (hp k (Finset.mem_range.mp hk))]

theorem located_coeff (h : Usable rs) (block : Nat → UInt8) {j : Nat} (hj : j < 255) :
    (rs.located block 255).receivedPolynomial.coeff (254 - j) = block j := by
  have hpoly := received_located h block
  have hcoeff := poly_inj hpoly (show 254 - j < 255 by omega)
  simp only [show 254 - (254 - j) = j by omega] at hcoeff
  exact hcoeff

/-- A block with at most 16 errors decodes to the message of the word. -/
theorem decode_few_errors (h : Usable rs) (hword : Codeword word)
    (hfew : (errorSet block word).card ≤ 16) (msg : Nat → UInt8) (at_ : Nat) :
    (rs.decode block 255 msg at_).2.1 = some 223 ∧
      ∀ j, j < 223 → (rs.decode block 255 msg at_).2.2 (at_ + j) = word j := by
  have hmin : rs.minDistance = 32 := h.1.minDistance_eq
  have heq := decode_eq rs block msg at_ (Nat.le_of_eq h.1.blockLength_eq.symm)
  rw [hmin, show 255 - 32 = 223 from rfl] at heq
  cases hzero : rs.allZero block 255 with
  | true =>
    rw [hzero, if_pos rfl] at heq
    have hnone := errorSet_of_allZero h hword hfew hzero
    refine ⟨by rw [heq], fun j hj => ?_⟩
    have hsame : block j = word j := by
      by_contra hne
      have hmem := mem_errorSet.mpr ⟨Nat.lt_trans hj (by omega), hne⟩
      rw [hnone] at hmem
      exact absurd hmem (Finset.notMem_empty j)
    rw [decode_message h block msg at_ (by rw [heq]; simp) hj, heq, ← hsame]
    exact located_coeff h block (Nat.lt_trans hj (by omega))
  | false =>
    obtain ⟨-, horder⟩ := located_eq_locator h hword hfew
    have hsearched := searched_located h hzero (by omega)
    have hfound := found_of_few h hword hfew hzero
    have hf := factored_of_found hsearched hfound
    rw [hzero, if_neg Bool.false_ne_true, decodeErrors_eq, if_pos hfound] at heq
    refine ⟨by rw [heq], fun j hj => ?_⟩
    rw [decode_message h block msg at_ (by rw [heq]; simp) hj, heq]
    -- two code words, each within 16 bytes of the block
    have hclose : ∀ j, j < 255 → j ∉ errorSet block word ∪
        ((Finset.range (errorSet block word).card).image fun k =>
          254 - (rs.located block 255).location k) →
        (rs.located block 255).corrected.receivedPolynomial.coeff (254 - j) = word j := by
      intro j hj hmem
      rw [Finset.mem_union, not_or] at hmem
      rw [corrected_coeff_other, located_coeff h block hj]
      · by_contra hne
        exact hmem.1 (mem_errorSet.mpr ⟨hj, hne⟩)
      · intro k hk hloc
        refine hmem.2 (Finset.mem_image.mpr ⟨k, Finset.mem_range.mpr (horder ▸ hk), ?_⟩)
        have := (location_spec hsearched hf hk).1
        omega
    refine eq_of_syndromes_eq (fun i hi => ?_) ?_ hclose (show j < 255 by omega)
    · exact (codeword_corrected h hsearched hfound i hi).trans (hword i hi).symm
    · refine (Finset.card_union_le _ _).trans ?_
      have := Finset.card_image_le (s := Finset.range (errorSet block word).card)
        (f := fun k => 254 - (rs.located block 255).location k)
      rw [Finset.card_range] at this
      omega

end ReedSolomon

end RyFi.Rs
