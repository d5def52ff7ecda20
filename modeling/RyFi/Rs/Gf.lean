import RyFi.Lib.BinaryField
import RyFi.Rs.Field
import Mathlib.Algebra.CharP.Algebra
import Mathlib.Tactic.Positivity

/-! # The tables are a field

The elements are the bytes modulo the CCSDS polynomial (`el`), the powers of `α` are all of
them but zero, and the tables that `field_create` builds hold these powers (`el_exp`) and
their logarithms (`pow_log`).  So the functions of field.h are the operations of the field;
a logarithm is never 0, which marks the zero element.
-/

namespace RyFi.Rs

open CLoop BinaryField Polynomial

/-! ## The field -/

/-- The CCSDS polynomial. -/
noncomputable def ccsds : (ZMod 2)[X] := bitPoly 0x187

theorem ccsds_natDegree : ccsds.natDegree = 8 := by
  refine natDegree_eq_of_le_of_coeff_ne_zero ?_ ?_
  · refine natDegree_le_iff_coeff_eq_zero.mpr fun i hi => ?_
    rw [ccsds, coeff_bitPoly, if_neg]
    rw [Nat.testBit_lt_two_pow]
    · exact Bool.false_ne_true
    · exact Nat.lt_of_lt_of_le (show 0x187 < 2 ^ 9 by decide)
        (Nat.pow_le_pow_right (by decide) hi)
  · rw [ccsds, coeff_bitPoly]
    decide

theorem ccsds_monic : ccsds.Monic := by
  rw [Monic, leadingCoeff, ccsds_natDegree, ccsds, coeff_bitPoly]
  rfl

/-- From one power of the root to the next. -/
def nextPower (e : Nat) : Nat := if 2 * e > 255 then 2 * e ^^^ 0x187 else 2 * e

theorem element_nextPower (e : Nat) :
    element ccsds (nextPower e) = AdjoinRoot.root ccsds * element ccsds e := by
  rw [nextPower, ← element_double]
  split
  · exact element_xor_modulus ccsds rfl _
  · rfl

theorem element_iterate (k : Nat) :
    element ccsds (nextPower^[k] 1) = AdjoinRoot.root ccsds ^ k := by
  induction k with
  | zero => simp
  | succ k ih => rw [Function.iterate_succ_apply', element_nextPower, ih, pow_succ']

theorem iterate_lt (k : Nat) : nextPower^[k] 1 < 2 ^ 8 := by
  induction k with
  | zero => decide
  | succ k ih =>
    rw [Function.iterate_succ_apply']
    have hnext : ∀ e, e < 2 ^ 8 → nextPower e < 2 ^ 8 := by decide +kernel
    exact hnext _ ih

theorem root_pow_eq_one_iff (k : Nat) :
    AdjoinRoot.root ccsds ^ k = 1 ↔ nextPower^[k] 1 = 1 := by
  rw [← element_iterate]
  constructor
  · intro h
    rw [← element_one] at h
    exact element_inj ccsds_monic ccsds_natDegree (iterate_lt k) (by decide) h
  · intro h
    rw [h, element_one]

theorem orderOf_root : orderOf (AdjoinRoot.root ccsds) = 255 := by
  refine orderOf_eq_of_pow_and_pow_div_prime (by decide) ?_ ?_
  · rw [root_pow_eq_one_iff]
    decide +kernel
  · intro q hq hdvd
    rw [Ne, root_pow_eq_one_iff]
    have hfactors : q = 3 ∨ q = 5 ∨ q = 17 := by
      rw [show 255 = 3 * (5 * 17) from rfl, hq.dvd_mul, hq.dvd_mul,
        Nat.prime_dvd_prime_iff_eq hq Nat.prime_three,
        Nat.prime_dvd_prime_iff_eq hq Nat.prime_five,
        Nat.prime_dvd_prime_iff_eq hq (by decide : Nat.Prime 17)] at hdvd
      exact hdvd
    rcases hfactors with rfl | rfl | rfl <;> decide +kernel

instance : Fact (Irreducible ccsds) :=
  ⟨irreducible_of_orderOf_root ccsds_monic ccsds_natDegree (by decide) orderOf_root⟩

/-- The field of 256 elements. -/
abbrev Gf : Type := AdjoinRoot ccsds

instance : CharP Gf 2 := charP_of_injective_algebraMap (algebraMap (ZMod 2) Gf).injective 2

/-- The primitive element. -/
noncomputable def α : Gf := AdjoinRoot.root ccsds

theorem orderOf_α : orderOf α = 255 := orderOf_root

theorem α_pow_255 : α ^ 255 = 1 := orderOf_α ▸ pow_orderOf_eq_one α

theorem α_ne : α ≠ 0 := fun h => by
  have := α_pow_255
  rw [h, zero_pow (by decide)] at this
  exact zero_ne_one this

theorem α_pow_ne (k : Nat) : α ^ k ≠ 0 := pow_ne_zero k α_ne

theorem α_pow_inj {i j : Nat} : α ^ i = α ^ j ↔ i % 255 = j % 255 := by
  have horder : orderOf (Units.mk0 α α_ne) = 255 := by
    rw [← orderOf_units, Units.val_mk0, orderOf_α]
  rw [← horder, ← pow_inj_mod, Units.ext_iff, Units.val_pow_eq_pow_val, Units.val_pow_eq_pow_val,
    Units.val_mk0]

theorem α_pow_mod (k : Nat) : α ^ (k % 255) = α ^ k :=
  α_pow_inj.mpr (Nat.mod_mod k 255)

/-! ## Bytes as elements -/

/-- The element a byte stands for. -/
noncomputable def el (b : UInt8) : Gf := element ccsds b.toNat

@[simp] theorem el_zero : el 0 = 0 := element_zero ccsds

@[simp] theorem el_one : el 1 = 1 := element_one ccsds

theorem el_xor (a b : UInt8) : el (a ^^^ b) = el a + el b := by
  rw [el, UInt8.toNat_xor, element_xor, el, el]

theorem el_injective : Function.Injective el := fun a b h =>
  UInt8.toNat_inj.mp
    (element_inj ccsds_monic ccsds_natDegree (UInt8.toNat_lt a) (UInt8.toNat_lt b) h)

@[simp] theorem el_eq_zero_iff {b : UInt8} : el b = 0 ↔ b = 0 := by
  rw [← el_zero]
  exact el_injective.eq_iff

/-- Every byte but zero is a power of the primitive element. -/
theorem exists_α_pow {b : UInt8} (hb : b ≠ 0) : ∃ k, 1 ≤ k ∧ k ≤ 255 ∧ α ^ k = el b := by
  obtain ⟨k, hk, hpow⟩ := exists_root_pow ccsds_monic ccsds_natDegree (by decide) orderOf_root
    (mt el_eq_zero_iff.mp hb)
  by_cases hzero : k = 0
  · refine ⟨255, by decide, Nat.le_refl 255, ?_⟩
    rw [α_pow_255, ← hpow, hzero]
    rfl
  · exact ⟨k, by omega, by omega, hpow⟩

/-- Every element is a byte. -/
theorem exists_el (a : Gf) : ∃ b, el b = a := by
  obtain ⟨x, hx, ha⟩ := exists_element ccsds_monic ccsds_natDegree a
  refine ⟨UInt8.ofNat x, ?_⟩
  rw [el, UInt8.toNat_ofNat', Nat.mod_eq_of_lt hx, ha]

/-! ## The tables -/

theorem nextElement_toNat {e : UInt16} (h : e.toNat < 256) :
    (FieldT.nextElement rs_primitive_polynomial_ccsds e).toNat = nextPower e.toNat := by
  have hdouble : (e * 2).toNat = 2 * e.toNat := by
    rw [UInt16.toNat_mul, show (2 : UInt16).toNat = 2 from rfl, Nat.mod_eq_of_lt (by omega),
      Nat.mul_comm]
  have hgt : e * 2 > 255 ↔ 2 * e.toNat > 255 := by
    rw [gt_iff_lt, UInt16.lt_iff_toNat_lt, hdouble]
    rfl
  simp only [FieldT.nextElement, nextPower, hgt]
  split
  · rw [UInt16.toNat_xor, hdouble]
    rfl
  · exact hdouble

/-- The tables before iteration `i` of `field_create`. -/
structure Filling (i : Nat) (s : UInt16 × FieldT) : Prop where
  last_eq : s.1.toNat = nextPower^[i - 1] 1
  exp_eq : ∀ j, j < i → el (s.2.exp j) = α ^ j
  log_eq : ∀ k, 1 ≤ k → k < i → k < 256 → ∀ b, el b = α ^ k → (s.2.log b.toNat).toNat = k
  log_zero : s.2.log 0 = 0

theorem filling_createStep {i : Nat} {s : UInt16 × FieldT} (hi : 1 ≤ i) (h : Filling i s) :
    Filling (i + 1) (FieldT.createStep rs_primitive_polynomial_ccsds i s) := by
  have hlast : (FieldT.createStep rs_primitive_polynomial_ccsds i s).1.toNat =
      nextPower^[i] 1 := by
    obtain ⟨i, rfl⟩ : ∃ i', i = i' + 1 := ⟨i - 1, by omega⟩
    rw [FieldT.createStep, nextElement_toNat (by rw [h.last_eq]; exact iterate_lt _), h.last_eq,
      Function.iterate_succ_apply', Nat.add_sub_cancel]
  have hbyte : (FieldT.createStep rs_primitive_polynomial_ccsds i s).1.toUInt8.toNat =
      nextPower^[i] 1 := by
    rw [UInt16.toNat_toUInt8, hlast, Nat.mod_eq_of_lt (iterate_lt i)]
  have hel : el (FieldT.createStep rs_primitive_polynomial_ccsds i s).1.toUInt8 = α ^ i := by
    rw [el, hbyte, element_iterate, α]
  refine ⟨hlast, ?_, ?_, ?_⟩
  · intro j hj
    simp only [FieldT.createStep, Function.update_apply]
    split
    next heq => exact heq ▸ hel
    next hne => exact h.exp_eq j (by omega)
  · intro k hk hki hk' b hb
    simp only [FieldT.createStep]
    by_cases hlt : i < 256
    · rw [if_pos hlt, Function.update_apply]
      split
      next heq =>
        -- two logarithms of one element are equal
        have hsame : el b = α ^ i := by
          rw [← hel, el, el, hbyte, heq]
          exact congrArg _ hlast
        have := α_pow_inj.mp (hb.symm.trans hsame)
        rw [UInt8.toNat_ofNat', Nat.mod_eq_of_lt (by omega)]
        omega
      next hne =>
        by_cases heq : k = i
        · refine absurd ?_ hne
          have hsame : b = (FieldT.createStep rs_primitive_polynomial_ccsds i s).1.toUInt8 :=
            el_injective (by rw [hb, hel, heq])
          exact (congrArg UInt8.toNat hsame).trans (hbyte.trans hlast.symm)
        · exact h.log_eq k hk (by omega) hk' b hb
    · rw [if_neg hlt]
      exact h.log_eq k hk (by omega) hk' b hb
  · simp only [FieldT.createStep]
    split
    · rw [Function.update_apply, if_neg, h.log_zero]
      intro hzero
      refine α_pow_ne i ?_
      rw [← hel, el, hbyte, ← hlast]
      exact (congrArg (element ccsds) hzero.symm).trans (element_zero ccsds)
    · exact h.log_zero

/-- The tables of the CCSDS field. -/
@[irreducible] def ccsdsField : FieldT := FieldT.create rs_primitive_polynomial_ccsds

theorem ccsdsField_eq : ccsdsField = FieldT.create rs_primitive_polynomial_ccsds := by
  unfold ccsdsField
  rfl

theorem filling_create : ∃ e, Filling 512 (e, ccsdsField) := by
  have hstart : Filling 1
      (1, ⟨Function.update (fun _ => 0) 0 1, Function.update (fun _ => 0) 0 0⟩) := by
    refine ⟨rfl, fun j hj => ?_, fun k hk hk' => absurd hk' (by omega), by simp⟩
    obtain rfl : j = 0 := by omega
    simp
  have hloop := forLoop_induct (fun i s => Filling i s) (show 1 ≤ 512 by omega) hstart
    fun i s hi _ h => filling_createStep hi h
  unfold ccsdsField FieldT.create
  generalize forLoop 1 512 (FieldT.createStep rs_primitive_polynomial_ccsds) _ = s at hloop ⊢
  exact ⟨s.1, hloop⟩

/-- The table of powers. -/
theorem el_exp {i : Nat} (h : i < 512) : el (ccsdsField.exp i) = α ^ i := by
  obtain ⟨e, he⟩ := filling_create
  exact he.exp_eq i h

@[simp] theorem log_zero : ccsdsField.log 0 = 0 := by
  obtain ⟨e, he⟩ := filling_create
  exact he.log_zero

/-- The table of logarithms. -/
theorem log_spec {b : UInt8} (hb : b ≠ 0) :
    1 ≤ (ccsdsField.log b.toNat).toNat ∧ α ^ (ccsdsField.log b.toNat).toNat = el b := by
  obtain ⟨e, he⟩ := filling_create
  obtain ⟨k, hk, hk', hpow⟩ := exists_α_pow hb
  have hlog := he.log_eq k hk (by omega) (by omega) b hpow.symm
  exact ⟨by rw [hlog]; exact hk, by rw [hlog, hpow]⟩

theorem pow_log {b : UInt8} (hb : b ≠ 0) : α ^ (ccsdsField.log b.toNat).toNat = el b :=
  (log_spec hb).2

theorem log_pos {b : UInt8} (hb : b ≠ 0) : 1 ≤ (ccsdsField.log b.toNat).toNat := (log_spec hb).1

theorem log_eq_zero_iff {b : UInt8} : ccsdsField.log b.toNat = 0 ↔ b = 0 := by
  constructor
  · intro h
    by_contra hb
    have := log_pos hb
    rw [h] at this
    exact absurd this (by decide)
  · rintro rfl
    exact log_zero

theorem log_lt (b : UInt8) : (ccsdsField.log b.toNat).toNat < 256 := UInt8.toNat_lt _

/-! ## The functions of field.h -/

@[simp] theorem el_add (a b : UInt8) : el (FieldT.add a b) = el a + el b := el_xor a b

@[simp] theorem el_sub (a b : UInt8) : el (FieldT.sub a b) = el a + el b := el_xor a b

theorem el_sum (a : UInt8) (n : Nat) : el (FieldT.sum a n) = (n : Gf) * el a := by
  rw [CharP.cast_eq_mod Gf 2 n, FieldT.sum]
  rcases Nat.mod_two_eq_zero_or_one n with h | h
  · simp [h]
  · simp [h]

/-- A product through the table of powers. -/
theorem el_exp_log {a : UInt8} (ha : a ≠ 0) {k : Nat} (hk : k ≤ 255) :
    el (ccsdsField.exp ((ccsdsField.log a.toNat).toNat + k)) = el a * α ^ k := by
  have := log_lt a
  rw [el_exp (by omega), pow_add, pow_log ha]

@[simp] theorem el_mul (a b : UInt8) : el (ccsdsField.mul a b) = el a * el b := by
  rw [FieldT.mul]
  split
  next h =>
    rcases h with rfl | rfl <;> simp
  next h =>
    rw [not_or] at h
    have := log_lt b
    rw [el_exp_log h.1 (by omega), pow_log h.2]

@[simp] theorem el_div (a b : UInt8) : el (ccsdsField.div a b) = el a / el b := by
  rw [FieldT.div]
  split
  next h => simp [h]
  next ha =>
    split
    next h => simp [h]
    next hb =>
      have hla := log_lt a
      have hlb := log_lt b
      have hsum : α ^ (255 + (ccsdsField.log a.toNat).toNat - (ccsdsField.log b.toNat).toNat) *
          α ^ (ccsdsField.log b.toNat).toNat = α ^ (ccsdsField.log a.toNat).toNat := by
        rw [← pow_add, Nat.sub_add_cancel (by omega), pow_add, α_pow_255, one_mul]
      rw [el_exp (by omega), eq_div_iff (mt el_eq_zero_iff.mp hb), ← pow_log ha, ← pow_log hb,
        hsum]

theorem mulLog_spec {l r : UInt8} (hl : 1 ≤ l.toNat) :
    1 ≤ (FieldT.mulLog l r).toNat ∧
      α ^ (FieldT.mulLog l r).toNat = α ^ l.toNat * α ^ r.toNat := by
  have hl' := UInt8.toNat_lt l
  have hr' := UInt8.toNat_lt r
  simp only [FieldT.mulLog]
  split
  next h =>
    rw [UInt8.toNat_ofNat', Nat.mod_eq_of_lt (by omega), ← pow_add]
    exact ⟨by omega, α_pow_inj.mpr (by omega)⟩
  next h =>
    rw [UInt8.toNat_ofNat', Nat.mod_eq_of_lt (by omega), ← pow_add]
    exact ⟨by omega, rfl⟩

theorem divLog_spec {l r : UInt8} (hl : 1 ≤ l.toNat) :
    1 ≤ (FieldT.divLog l r).toNat ∧
      α ^ (FieldT.divLog l r).toNat = α ^ l.toNat / α ^ r.toNat := by
  have hl' := UInt8.toNat_lt l
  have hr' := UInt8.toNat_lt r
  simp only [FieldT.divLog]
  split
  next h =>
    rw [UInt8.toNat_ofNat', Nat.mod_eq_of_lt (by omega), eq_div_iff (α_pow_ne _), ← pow_add]
    exact ⟨by omega, α_pow_inj.mpr (by omega)⟩
  next h =>
    rw [UInt8.toNat_ofNat', Nat.mod_eq_of_lt (by omega), eq_div_iff (α_pow_ne _), ← pow_add]
    exact ⟨by omega, α_pow_inj.mpr (by omega)⟩

/-- A power of an element, to an exponent that is not negative. -/
theorem el_pow {b : UInt8} (hb : b ≠ 0) (n : Nat) : el (ccsdsField.pow b n) = el b ^ n := by
  have hmod : ((ccsdsField.log b.toNat).toNat * (n : Int)).tmod 255 =
      ((ccsdsField.log b.toNat).toNat * n % 255 : Nat) := by
    rw [Int.tmod_eq_emod_of_nonneg (by positivity)]
    push_cast
    rfl
  simp only [FieldT.pow, hmod]
  rw [if_neg (by omega), Int.toNat_natCast,
    el_exp (Nat.lt_trans (Nat.mod_lt _ (by decide)) (by decide)), α_pow_mod, pow_mul,
    pow_log hb]

/-- The logarithm of the zero element is taken for that of 1. -/
theorem el_pow_zero_left (n : Nat) : el (ccsdsField.pow 0 n) = 1 := by
  have hmod : ((0 : UInt8).toNat * (n : Int)).tmod 255 = 0 := by simp
  simp only [FieldT.pow, show (0 : UInt8).toNat = 0 from rfl, log_zero] at hmod ⊢
  rw [hmod, if_neg (by decide), show ((0 : Int).toNat) = 0 from rfl, el_exp (by decide),
    pow_zero]

end RyFi.Rs
