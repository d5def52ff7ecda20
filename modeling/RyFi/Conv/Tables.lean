import RyFi.Conv.Neon
import Mathlib.Data.Nat.Bitwise

/-! # What the tables say

Row `i` of `fillTable` holds the parities of the register under the polynomials.  The packed
pair tables give every successor the branch metrics of its two registers, so that one entry
of add-compare-select is a plain step of the trellis.
-/

namespace RyFi.Conv

open CLoop

/-! ## Rows -/

/-- The output of polynomial `poly` on a register. -/
def parity (poly reg : Nat) : Bool := decide (popcount (reg &&& poly) % 2 = 1)

theorem fillTable_aux (rate : Nat) (poly : Nat → Nat) (i : Nat) :
    fillTable rate poly i < 2 ^ rate ∧
      ∀ j, (fillTable rate poly i).testBit j = (decide (j < rate) && parity (poly j) i) := by
  have hloop := @forLoop_induct _ 0 rate
    (fun j (s : Nat × Nat) =>
      (s.1 ||| (if popcount (i &&& poly j) % 2 ≠ 0 then s.2 else 0), s.2 <<< 1)) (0, 1)
    (fun n s => s.1 < 2 ^ n ∧ s.2 = 2 ^ n ∧
      ∀ j, s.1.testBit j = (decide (j < n) && parity (poly j) i)) (Nat.zero_le _) ?_ ?_
  · exact ⟨hloop.1, hloop.2.2⟩
  · simp
  · rintro n ⟨out, mask⟩ - - ⟨hlt, hmask, hbits⟩
    simp only at hlt hmask hbits ⊢
    subst hmask
    have hnew : (if popcount (i &&& poly n) % 2 ≠ 0 then 2 ^ n else 0) =
        if parity (poly n) i then 2 ^ n else 0 := by
      have := Nat.mod_lt (popcount (i &&& poly n)) (show 0 < 2 by omega)
      by_cases hodd : popcount (i &&& poly n) % 2 = 1
      · simp [parity, hodd]
      · simp [parity, show popcount (i &&& poly n) % 2 = 0 by omega]
    rw [hnew]
    refine ⟨?_, ?_, ?_⟩
    · have hpow : 2 ^ n < 2 ^ (n + 1) := Nat.pow_lt_pow_right (by omega) (by omega)
      refine Nat.or_lt_two_pow (by omega) ?_
      split <;> omega
    · rw [Nat.shiftLeft_eq, Nat.pow_one, Nat.pow_succ]
    · intro j
      rw [Nat.testBit_or, hbits]
      -- the mask sets bit n only
      by_cases hj : j = n
      · subst hj
        cases parity (poly j) i <;> simp [Nat.testBit_two_pow_self]
      · have hclear : (if parity (poly n) i then 2 ^ n else 0).testBit j = false := by
          split
          · exact Nat.testBit_two_pow_of_ne (fun h => hj h.symm)
          · simp
        rw [hclear, Bool.or_false]
        congr 1
        exact decide_eq_decide.mpr (by omega)

theorem fillTable_lt (rate : Nat) (poly : Nat → Nat) (i : Nat) :
    fillTable rate poly i < 2 ^ rate :=
  (fillTable_aux rate poly i).1

theorem fillTable_testBit {rate j : Nat} (poly : Nat → Nat) (i : Nat) (hj : j < rate) :
    (fillTable rate poly i).testBit j = parity (poly j) i := by
  rw [(fillTable_aux rate poly i).2, decide_eq_true hj, Bool.true_and]

/-! ## Linearity -/

theorem filter_xor_parity (l : List Nat) (p q : Nat → Bool) :
    (l.filter fun i => p i ^^ q i).length % 2 =
      ((l.filter p).length + (l.filter q).length) % 2 := by
  induction l with
  | nil => rfl
  | cons i l ih =>
    cases hp : p i <;> cases hq : q i <;> simp [hp, hq] <;> omega

theorem parity_xor (poly a b : Nat) : parity poly (a ^^^ b) = (parity poly a ^^ parity poly b) := by
  have hfilter := filter_xor_parity (List.range 32) (fun i => (a &&& poly).testBit i)
    (fun i => (b &&& poly).testBit i)
  have hsum : popcount ((a ^^^ b) &&& poly) % 2 =
      (popcount (a &&& poly) + popcount (b &&& poly)) % 2 := by
    rw [popcount, popcount, popcount, ← hfilter]
    simp only [Nat.testBit_and, Nat.testBit_xor, Bool.and_xor_distrib_right]
  rw [parity, parity, parity, hsum]
  generalize popcount (a &&& poly) = x
  generalize popcount (b &&& poly) = y
  rcases Nat.mod_two_eq_zero_or_one x with hx | hx <;>
    rcases Nat.mod_two_eq_zero_or_one y with hy | hy <;> simp [Nat.add_mod, hx, hy]

/-- The outputs on a sum of registers are the sum of the outputs. -/
theorem fillTable_xor (rate : Nat) (poly : Nat → Nat) (a b : Nat) :
    fillTable rate poly (a ^^^ b) = fillTable rate poly a ^^^ fillTable rate poly b := by
  refine Nat.eq_of_testBit_eq fun j => ?_
  rw [Nat.testBit_xor, (fillTable_aux _ _ _).2, (fillTable_aux _ _ _).2, (fillTable_aux _ _ _).2,
    parity_xor]
  cases decide (j < rate) <;> simp

/-! ## Keys -/

/-- The two rows of a successor pair, packed as `pair_lookup_create` does. -/
def packed (rate : Nat) (table : Nat → Nat) (i : Nat) : Nat :=
  (table (i * 2 + 1) <<< rate) ||| table (i * 2)

/-- Every key given out so far leads back to its pair of rows. -/
structure PairFill.Keyed (rate : Nat) (table : Nat → Nat) (n : Nat) (s : PairFill) : Prop where
  counter_pos : 0 < s.outputCounter
  known : ∀ out, s.invOutputs out ≠ 0 →
    s.invOutputs out < s.outputCounter ∧ s.outputs (s.invOutputs out) = out
  keyed : ∀ i, i < n → 0 < s.keys i ∧ s.keys i < s.outputCounter ∧
    s.outputs (s.keys i) = packed rate table i

/-- A pair that is met for the first time gets a new key, above all others. -/
theorem PairFill.assign_new {rate : Nat} {table : Nat → Nat} {n : Nat} {s : PairFill}
    (hnew : s.invOutputs (packed rate table n) = 0) :
    s.assign rate table n =
      { keys := Function.update s.keys n s.outputCounter
        outputs := Function.update s.outputs s.outputCounter (packed rate table n)
        invOutputs := Function.update s.invOutputs (packed rate table n) s.outputCounter
        outputCounter := s.outputCounter + 1 } := by
  simp only [PairFill.assign]
  rw [show (table (n * 2 + 1) <<< rate) ||| table (n * 2) = packed rate table n from rfl]
  rw [if_pos hnew]
  simp

theorem PairFill.assign_known {rate : Nat} {table : Nat → Nat} {n : Nat} {s : PairFill}
    (hknown : s.invOutputs (packed rate table n) ≠ 0) :
    s.assign rate table n =
      { s with keys := Function.update s.keys n (s.invOutputs (packed rate table n)) } := by
  simp only [PairFill.assign]
  rw [show (table (n * 2 + 1) <<< rate) ||| table (n * 2) = packed rate table n from rfl]
  rw [if_neg hknown]

theorem PairFill.keyed_assign {rate : Nat} {table : Nat → Nat} {n : Nat} {s : PairFill}
    (h : Keyed rate table n s) : Keyed rate table (n + 1) (s.assign rate table n) := by
  have hpos := h.counter_pos
  by_cases hnew : s.invOutputs (packed rate table n) = 0
  · rw [assign_new hnew]
    refine ⟨Nat.succ_pos _, ?_, ?_⟩
    · intro out hout
      simp only [Function.update_apply] at hout ⊢
      by_cases heq : out = packed rate table n
      · rw [if_pos heq]
        exact ⟨Nat.lt_succ_self _, by rw [if_pos rfl, heq]⟩
      · rw [if_neg heq] at hout ⊢
        obtain ⟨hlt, hback⟩ := h.known out hout
        exact ⟨by omega, by rw [if_neg (by omega), hback]⟩
    · intro i hi
      simp only [Function.update_apply]
      by_cases heq : i = n
      · rw [if_pos heq, if_pos rfl, heq]
        exact ⟨hpos, Nat.lt_succ_self _, rfl⟩
      · rw [if_neg heq]
        obtain ⟨hkey, hlt, hback⟩ := h.keyed i (by omega)
        exact ⟨hkey, by omega, by rw [if_neg (by omega), hback]⟩
  · obtain ⟨hlt, hback⟩ := h.known _ hnew
    rw [assign_known hnew]
    refine ⟨hpos, h.known, ?_⟩
    intro i hi
    simp only [Function.update_apply]
    by_cases heq : i = n
    · rw [if_pos heq, heq]
      exact ⟨Nat.pos_of_ne_zero hnew, hlt, hback⟩
    · rw [if_neg heq]
      exact h.keyed i (by omega)

/-- A pair lookup set up for `table`, whatever its distances are. -/
structure PairLookup.For (rate order : Nat) (table : Nat → Nat) (pairs : PairLookup) : Prop where
  keyed : ∀ i, i < 2 ^ (order - 1) → 0 < pairs.keys i ∧ pairs.keys i < pairs.outputsLen ∧
    pairs.outputs (pairs.keys i) = packed rate table i
  mask_eq : pairs.outputMask = 2 ^ rate - 1
  width_eq : pairs.outputWidth = rate

theorem PairLookup.for_create (rate order : Nat) (table : Nat → Nat) :
    For rate order table (create rate order table) := by
  have hloop := @forLoop_induct _ 0 (1 <<< (order - 1)) (PairFill.assign rate table)
    ⟨fun _ => 0, fun _ => 0, fun _ => 0, 1⟩
    (fun n s => PairFill.Keyed rate table n s) (Nat.zero_le _)
    ⟨Nat.one_pos, fun out hout => absurd rfl hout, fun i hi => absurd hi (Nat.not_lt_zero i)⟩
    fun n s _ _ h => PairFill.keyed_assign h
  refine ⟨fun i hi => hloop.keyed i ?_, ?_, rfl⟩
  · rw [Nat.one_shiftLeft]
    exact hi
  · simp only [create, Nat.one_shiftLeft]

/-! ## Packed distances -/

theorem pack_toNat (high low : UInt16) :
    ((high.toUInt32 <<< 16) ||| low.toUInt32).toNat = high.toNat * 2 ^ 16 + low.toNat := by
  have hhigh := high.toNat_lt
  have hlow := low.toNat_lt
  rw [UInt32.toNat_or, UInt32.toNat_shiftLeft, UInt16.toNat_toUInt32, UInt16.toNat_toUInt32,
    show (16 : UInt32).toNat % 32 = 16 from rfl, Nat.shiftLeft_eq, Nat.mod_eq_of_lt (by omega),
    Nat.mul_comm, ← Nat.two_pow_add_eq_or_of_lt hlow]

theorem lowHalf_pack (high low : UInt16) :
    Convolutional.lowHalf ((high.toUInt32 <<< 16) ||| low.toUInt32) = low := by
  have hlow := low.toNat_lt
  rw [← UInt16.toNat_inj, Convolutional.lowHalf, UInt32.toNat_toUInt16, UInt32.toNat_and,
    pack_toNat, show (0xFFFF : UInt32).toNat = 2 ^ 16 - 1 from rfl, Nat.and_two_pow_sub_one_eq_mod]
  omega

theorem highHalf_pack (high low : UInt16) :
    Convolutional.highHalf ((high.toUInt32 <<< 16) ||| low.toUInt32) = high := by
  have hhigh := high.toNat_lt
  have hlow := low.toNat_lt
  rw [← UInt16.toNat_inj, Convolutional.highHalf, UInt32.toNat_toUInt16, UInt32.toNat_shiftRight,
    pack_toNat, show (16 : UInt32).toNat % 32 = 16 from rfl, Nat.shiftRight_eq_div_pow]
  omega

theorem packed_low {rate : Nat} {table : Nat → Nat} (htable : ∀ i, table i < 2 ^ rate) (i : Nat) :
    packed rate table i &&& (2 ^ rate - 1) = table (i * 2) := by
  rw [Nat.and_two_pow_sub_one_eq_mod, packed, Nat.or_mod_two_pow, Nat.shiftLeft_eq,
    Nat.mul_mod_left, Nat.zero_or, Nat.mod_eq_of_lt (htable _)]

theorem packed_high {rate : Nat} {table : Nat → Nat} (htable : ∀ i, table i < 2 ^ rate) (i : Nat) :
    packed rate table i >>> rate = table (i * 2 + 1) := by
  rw [packed, Nat.shiftRight_or_distrib, Nat.shiftLeft_shiftRight, Nat.shiftRight_eq_div_pow,
    Nat.div_eq_of_lt (htable _), Nat.or_zero]

/-- What the inner phase reads for successor pair `i`. -/
theorem fillDistance_keys {rate order : Nat} {table : Nat → Nat} {pairs : PairLookup}
    (h : PairLookup.For rate order table pairs) (htable : ∀ i, table i < 2 ^ rate)
    (distances : Nat → UInt16) {i : Nat} (hi : i < 2 ^ (order - 1)) :
    Convolutional.lowHalf ((pairs.fillDistance distances).distances
        ((pairs.fillDistance distances).keys i)) = distances (table (i * 2)) ∧
      Convolutional.highHalf ((pairs.fillDistance distances).distances
        ((pairs.fillDistance distances).keys i)) = distances (table (i * 2 + 1)) := by
  obtain ⟨hpos, hlt, hback⟩ := h.keyed i hi
  have hentry : (pairs.fillDistance distances).distances (pairs.keys i) =
      ((distances (table (i * 2 + 1))).toUInt32 <<< 16) |||
        (distances (table (i * 2))).toUInt32 := by
    simp only [PairLookup.fillDistance]
    rw [forLoop_update, if_pos ⟨hpos, hlt⟩, hback, h.mask_eq, h.width_eq, packed_low htable,
      packed_high htable]
  rw [show (pairs.fillDistance distances).keys i = pairs.keys i from rfl, hentry]
  exact ⟨lowHalf_pack _ _, highHalf_pack _ _⟩

/-- An entry of add-compare-select is a step of the trellis: the two registers that shift
    into state `j`, ties to the low one. -/
theorem acsEntry_fillDistance (order : Nat) {rate : Nat} {table : Nat → Nat} {pairs : PairLookup}
    (h : PairLookup.For rate (order + 2) table pairs) (htable : ∀ i, table i < 2 ^ rate)
    (distances readErrors : Nat → UInt16) {j : Nat} (hj : j < 2 ^ (order + 1)) :
    Convolutional.acsEntry (pairs.fillDistance distances) (2 ^ order) readErrors j =
      Convolutional.select (distances (table j) + readErrors (j / 2))
        (distances (table (j + 2 ^ (order + 1))) + readErrors (2 ^ order + j / 2)) := by
  have hpow := Nat.pow_succ 2 order
  obtain ⟨hlow, hlow'⟩ := fillDistance_keys h htable distances (i := j / 2)
    (by rw [show order + 2 - 1 = order + 1 by omega]; omega)
  obtain ⟨hhigh, hhigh'⟩ := fillDistance_keys h htable distances (i := 2 ^ order + j / 2)
    (by rw [show order + 2 - 1 = order + 1 by omega]; omega)
  simp only [Convolutional.acsEntry, hlow, hlow', hhigh, hhigh']
  split
  next heven =>
    rw [show j / 2 * 2 = j by omega, show (2 ^ order + j / 2) * 2 = j + 2 ^ (order + 1) by omega]
  next hodd =>
    rw [show j / 2 * 2 + 1 = j by omega,
      show (2 ^ order + j / 2) * 2 + 1 = j + 2 ^ (order + 1) by omega]

end RyFi.Conv
