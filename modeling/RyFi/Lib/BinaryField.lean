import Mathlib.RingTheory.AdjoinRoot
import Mathlib.Algebra.CharP.Two
import Mathlib.Algebra.Field.ZMod
import Mathlib.GroupTheory.OrderOfElement

/-! # Numbers as elements of a binary field

The bits of a number are the coefficients of a polynomial over `ZMod 2` (`bitPoly`), so that
exclusive or is addition and doubling is multiplication by `X`.  Modulo a monic polynomial
`p` of degree `n` the numbers below `2^n` are the elements (`element`); where the root of `p`
has order `2^n - 1`, its powers are all elements but zero, and `p` is irreducible.
-/

namespace BinaryField

open Polynomial

/-- The polynomial whose coefficients are the bits of `x`. -/
noncomputable def bitPoly (x : Nat) : (ZMod 2)[X] :=
  ∑ i ∈ Finset.range x, if x.testBit i then X ^ i else 0

@[simp] theorem coeff_bitPoly (x i : Nat) :
    (bitPoly x).coeff i = if x.testBit i then 1 else 0 := by
  rw [bitPoly, finsetSum_coeff]
  by_cases hi : i < x
  · rw [Finset.sum_eq_single_of_mem i (Finset.mem_range.mpr hi)]
    · split <;> simp
    · intro j _ hj
      split
      · rw [coeff_X_pow, if_neg (Ne.symm hj)]
      · exact coeff_zero i
  · have hbit : x.testBit i = false :=
      Nat.testBit_lt_two_pow (Nat.lt_of_lt_of_le Nat.lt_two_pow_self
        (Nat.pow_le_pow_right (by omega) (Nat.not_lt.mp hi)))
    rw [if_neg (by simp [hbit])]
    refine Finset.sum_eq_zero fun j hj => ?_
    have := Finset.mem_range.mp hj
    split
    · rw [coeff_X_pow, if_neg (by omega)]
    · exact coeff_zero i

@[simp] theorem bitPoly_zero : bitPoly 0 = 0 := by
  ext i
  simp

@[simp] theorem bitPoly_one : bitPoly 1 = 1 := by
  ext i
  cases i with
  | zero => simp
  | succ i => simp [Nat.testBit_succ, coeff_one]

theorem bitPoly_xor (x y : Nat) : bitPoly (x ^^^ y) = bitPoly x + bitPoly y := by
  ext i
  simp only [coeff_bitPoly, coeff_add, Nat.testBit_xor]
  cases x.testBit i <;> cases y.testBit i <;> decide

theorem bitPoly_double (x : Nat) : bitPoly (2 * x) = X * bitPoly x := by
  ext i
  cases i with
  | zero => simp
  | succ i => simp [Nat.testBit_succ, coeff_X_mul]

theorem bitPoly_injective : Function.Injective bitPoly := by
  intro x y h
  refine Nat.eq_of_testBit_eq fun i => ?_
  have hcoeff := congrArg (fun q => q.coeff i) h
  simp only [coeff_bitPoly] at hcoeff
  cases hx : x.testBit i <;> cases hy : y.testBit i <;> simp_all

theorem degree_bitPoly_lt {x n : Nat} (h : x < 2 ^ n) : (bitPoly x).degree < n := by
  refine (degree_lt_iff_coeff_zero _ _).mpr fun i hi => ?_
  have hbit : x.testBit i = false :=
    Nat.testBit_lt_two_pow (Nat.lt_of_lt_of_le h (Nat.pow_le_pow_right (by omega) hi))
  simp [hbit]

/-- Every polynomial of low degree is the polynomial of a number. -/
theorem exists_bitPoly {n : Nat} {q : (ZMod 2)[X]} (h : q.degree < n) :
    ∃ x, x < 2 ^ n ∧ bitPoly x = q := by
  refine ⟨Nat.ofBits fun i : Fin n => decide (q.coeff i = 1), Nat.ofBits_lt_two_pow _, ?_⟩
  ext i
  rw [coeff_bitPoly]
  by_cases hi : i < n
  · rw [Nat.testBit_ofBits_lt _ _ hi]
    have htwo : ∀ a : ZMod 2, (if decide (a = 1) = true then 1 else 0) = a := by decide
    exact htwo _
  · rw [Nat.testBit_ofBits_ge _ _ (Nat.not_lt.mp hi)]
    exact ((degree_lt_iff_coeff_zero _ _).mp h i (Nat.not_lt.mp hi)).symm

section Modulus

variable (p : (ZMod 2)[X])

/-- The number `x` modulo `p`. -/
noncomputable def element (x : Nat) : AdjoinRoot p := AdjoinRoot.mk p (bitPoly x)

@[simp] theorem element_zero : element p 0 = 0 := by
  rw [element, bitPoly_zero, map_zero]

@[simp] theorem element_one : element p 1 = 1 := by
  rw [element, bitPoly_one, map_one]

theorem element_xor (x y : Nat) : element p (x ^^^ y) = element p x + element p y := by
  rw [element, bitPoly_xor, map_add, element, element]

theorem element_double (x : Nat) : element p (2 * x) = AdjoinRoot.root p * element p x := by
  rw [element, bitPoly_double, map_mul, AdjoinRoot.mk_X, element]

/-- Adding the modulus changes nothing. -/
theorem element_xor_modulus {m : Nat} (hm : bitPoly m = p) (x : Nat) :
    element p (x ^^^ m) = element p x := by
  rw [element_xor, element, element, hm, AdjoinRoot.mk_self, add_zero]

variable {p} {n : Nat}

theorem element_inj (hmonic : p.Monic) (hdegree : p.natDegree = n) {x y : Nat}
    (hx : x < 2 ^ n) (hy : y < 2 ^ n) (h : element p x = element p y) : x = y := by
  refine bitPoly_injective (sub_eq_zero.mp ?_)
  rw [element, element, AdjoinRoot.mk_eq_mk] at h
  refine eq_zero_of_dvd_of_degree_lt h ?_
  rw [degree_eq_natDegree hmonic.ne_zero, hdegree]
  exact lt_of_le_of_lt (degree_sub_le _ _)
    (max_lt (degree_bitPoly_lt hx) (degree_bitPoly_lt hy))

theorem exists_element (hmonic : p.Monic) (hdegree : p.natDegree = n) (a : AdjoinRoot p) :
    ∃ x, x < 2 ^ n ∧ element p x = a := by
  obtain ⟨q, rfl⟩ := AdjoinRoot.mk_surjective a
  have hlow : (q %ₘ p).degree < n := by
    rw [← hdegree, ← degree_eq_natDegree hmonic.ne_zero]
    exact degree_modByMonic_lt q hmonic
  obtain ⟨x, hx, hq⟩ := exists_bitPoly hlow
  refine ⟨x, hx, ?_⟩
  rw [element, hq, AdjoinRoot.mk_eq_mk]
  exact ⟨-(q /ₘ p), by
    have := modByMonic_add_div q p
    linear_combination this⟩

/-- The powers of a root of full order are all elements but zero. -/
theorem exists_root_pow (hmonic : p.Monic) (hdegree : p.natDegree = n) (hn : 0 < n)
    (horder : orderOf (AdjoinRoot.root p) = 2 ^ n - 1) {a : AdjoinRoot p} (ha : a ≠ 0) :
    ∃ k, k < 2 ^ n - 1 ∧ AdjoinRoot.root p ^ k = a := by
  classical
  have hpos : 2 ^ 1 ≤ 2 ^ n := Nat.pow_le_pow_right (by omega) hn
  have hne : (1 : AdjoinRoot p) ≠ 0 := fun h => by
    have := element_inj hmonic hdegree (show 1 < 2 ^ n by omega) (show 0 < 2 ^ n by omega)
      (by rw [element_one, element_zero, h])
    omega
  have hunit : ∀ k, AdjoinRoot.root p ^ k ≠ 0 := fun k h => by
    refine hne ?_
    rw [← one_pow k, ← pow_orderOf_eq_one (AdjoinRoot.root p), ← pow_mul, Nat.mul_comm, pow_mul,
      h, horder, zero_pow (by omega)]
  have hall : ((Finset.range (2 ^ n)).image (element p)).card = 2 ^ n := by
    rw [Finset.card_image_of_injOn, Finset.card_range]
    intro x hx y hy hxy
    exact element_inj hmonic hdegree (Finset.mem_range.mp hx) (Finset.mem_range.mp hy) hxy
  have hmem : ∀ b, b ∈ (Finset.range (2 ^ n)).image (element p) := fun b => by
    obtain ⟨x, hx, hb⟩ := exists_element hmonic hdegree b
    exact Finset.mem_image.mpr ⟨x, Finset.mem_range.mpr hx, hb⟩
  have hpowers : ((Finset.range (2 ^ n - 1)).image (AdjoinRoot.root p ^ ·)).card =
      2 ^ n - 1 := by
    rw [Finset.card_image_of_injOn, Finset.card_range]
    intro i hi j hj hij
    rw [← horder] at hi hj
    exact pow_injOn_Iio_orderOf (Finset.mem_range.mp hi) (Finset.mem_range.mp hj) hij
  -- both sets have 2 ^ n - 1 elements, so the powers are all the units
  have hsub : (Finset.range (2 ^ n - 1)).image (AdjoinRoot.root p ^ ·) ⊆
      ((Finset.range (2 ^ n)).image (element p)).erase 0 := by
    intro b hb
    obtain ⟨k, -, rfl⟩ := Finset.mem_image.mp hb
    exact Finset.mem_erase.mpr ⟨hunit k, hmem _⟩
  have heq := Finset.eq_of_subset_of_card_le hsub (by
    rw [Finset.card_erase_of_mem (hmem 0), hall, hpowers])
  have ha' := Finset.mem_erase.mpr ⟨ha, hmem a⟩
  rw [← heq] at ha'
  obtain ⟨k, hk, hpow⟩ := Finset.mem_image.mp ha'
  exact ⟨k, Finset.mem_range.mp hk, hpow⟩

/-- A polynomial with a root of full order is irreducible. -/
theorem irreducible_of_orderOf_root (hmonic : p.Monic) (hdegree : p.natDegree = n) (hn : 0 < n)
    (horder : orderOf (AdjoinRoot.root p) = 2 ^ n - 1) : Irreducible p := by
  have hpos : 2 ^ 1 ≤ 2 ^ n := Nat.pow_le_pow_right (by omega) hn
  have hroot : AdjoinRoot.root p ^ (2 ^ n - 1) = 1 := horder ▸ pow_orderOf_eq_one _
  have hunit : ∀ a : AdjoinRoot p, a ≠ 0 → IsUnit a := fun a ha => by
    obtain ⟨k, -, rfl⟩ := exists_root_pow hmonic hdegree hn horder ha
    exact (IsUnit.of_pow_eq_one hroot (by omega)).pow k
  have hprime : Prime p := by
    refine ⟨hmonic.ne_zero, ?_, fun a b hab => ?_⟩
    · intro hp
      have := natDegree_eq_zero_of_isUnit hp
      omega
    · simp only [← AdjoinRoot.mk_eq_zero, map_mul] at hab ⊢
      by_contra hne
      rw [not_or] at hne
      have hmk := (hunit _ hne.1).mul_right_eq_zero.mp hab
      exact hne.2 hmk
  exact hprime.irreducible

end Modulus

end BinaryField
