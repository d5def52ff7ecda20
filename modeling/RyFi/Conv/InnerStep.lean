import RyFi.Conv.Tables
import RyFi.Conv.Instance
import Mathlib.Order.Interval.Finset.Nat

/-! # The inner slice is the plain trellis step

`plainStep` walks over the states and looks every register up in the table; with the metrics
packed by keys, add-compare-select fills the same slice.  The keys stay in the arrays that
`pair_lookup_create` allocates because the code is linear: a pair of outputs is determined by
its low one, so there are at most `2 ^ rate` of them (`Named.counter_le`).
-/

namespace RyFi.Conv

open CLoop

/-! ## How many keys there are -/

/-- The two outputs of a successor pair always differ by the output of the register 1. -/
theorem fillTable_pair (rate : Nat) (poly : Nat → Nat) (i : Nat) :
    fillTable rate poly (i * 2 + 1) = fillTable rate poly (i * 2) ^^^ fillTable rate poly 1 := by
  have hregister : i * 2 + 1 = (i * 2) ^^^ 1 := by
    have hor := Nat.two_pow_add_eq_or_of_lt (i := 1) (b := 1) (by omega) i
    rw [Nat.pow_one, Nat.mul_comm] at hor
    rw [hor]
    refine Nat.eq_of_testBit_eq fun j => ?_
    rw [Nat.testBit_or, Nat.testBit_xor]
    cases j with
    | zero => simp [Nat.testBit_zero]
    | succ j => simp [Nat.testBit_succ]
  rw [hregister, fillTable_xor]

namespace PairFill

variable {rate n : Nat} {table : Nat → Nat} {s : PairFill}

/-- Every key names one pair, and every pair belongs to a register met so far. -/
structure Named (rate : Nat) (table : Nat → Nat) (n : Nat) (s : PairFill) : Prop where
  keyed : Keyed rate table n s
  named : ∀ key, 0 < key → key < s.outputCounter →
    s.invOutputs (s.outputs key) = key ∧ ∃ i, i < n ∧ s.outputs key = packed rate table i

theorem named_assign (h : Named rate table n s) :
    Named rate table (n + 1) (s.assign rate table n) := by
  refine ⟨keyed_assign h.keyed, fun key hpos hlt => ?_⟩
  by_cases hnew : s.invOutputs (packed rate table n) = 0
  · rw [assign_new hnew] at hlt ⊢
    simp only [Function.update_apply] at hlt ⊢
    by_cases hkey : key = s.outputCounter
    · rw [if_pos hkey, if_pos rfl]
      exact ⟨hkey.symm, n, Nat.lt_succ_self n, rfl⟩
    · obtain ⟨hback, i, hi, hout⟩ := h.named key hpos (by omega)
      have hother : s.outputs key ≠ packed rate table n := by
        intro heq
        rw [heq, hnew] at hback
        omega
      rw [if_neg hkey, if_neg hother]
      exact ⟨hback, i, by omega, hout⟩
  · rw [assign_known hnew] at hlt ⊢
    obtain ⟨hback, i, hi, hout⟩ := h.named key hpos hlt
    exact ⟨hback, i, by omega, hout⟩

/-- In a linear code the low halves of the pairs tell the keys apart. -/
theorem Named.counter_le (h : Named rate table n s) (htable : ∀ i, table i < 2 ^ rate)
    {mask : Nat} (hmask : ∀ i, table (i * 2 + 1) = table (i * 2) ^^^ mask) :
    s.outputCounter ≤ 2 ^ rate + 1 := by
  have hcard : (Finset.Ico 1 s.outputCounter).card ≤ (Finset.range (2 ^ rate)).card := by
    refine Finset.card_le_card_of_injOn (fun key => s.outputs key % 2 ^ rate) ?_ ?_
    · intro key _
      exact Finset.mem_coe.mpr (Finset.mem_range.mpr (Nat.mod_lt _ (Nat.two_pow_pos rate)))
    · intro key hkey key' hkey' heq
      rw [Finset.mem_coe, Finset.mem_Ico] at hkey hkey'
      obtain ⟨hback, i, -, hout⟩ := h.named key (by omega) hkey.2
      obtain ⟨hback', i', -, hout'⟩ := h.named key' (by omega) hkey'.2
      simp only [hout, hout', ← Nat.and_two_pow_sub_one_eq_mod, packed_low htable] at heq
      have hpair : s.outputs key = s.outputs key' := by
        rw [hout, hout', packed, packed, hmask, hmask, heq]
      rw [← hback, ← hback', hpair]
  rw [Nat.card_Ico, Finset.card_range] at hcard
  omega

end PairFill

namespace PairLookup

variable {rate order : Nat} {poly : Nat → Nat} {pairs : PairLookup}

/-- The states of a pair lookup: created, and filled for any slices. -/
inductive Filled (rate order : Nat) (table : Nat → Nat) : PairLookup → Prop
  | create : Filled rate order table (PairLookup.create rate order table)
  | fillDistance {pairs : PairLookup} (h : Filled rate order table pairs)
      (distances : Nat → UInt16) : Filled rate order table (pairs.fillDistance distances)

theorem Filled.for {table : Nat → Nat} (h : Filled rate order table pairs) :
    For rate order table pairs := by
  induction h with
  | create => exact for_create rate order table
  | fillDistance _ _ ih => exact ⟨ih.keyed, ih.mask_eq, ih.width_eq⟩

theorem outputsLen_create_le (rate order : Nat) (poly : Nat → Nat) :
    (create rate order (fillTable rate poly)).outputsLen ≤ 2 ^ rate + 1 := by
  have hnamed := @forLoop_induct _ 0 (1 <<< (order - 1))
    (PairFill.assign rate (fillTable rate poly))
    ⟨fun _ => 0, fun _ => 0, fun _ => 0, 1⟩
    (fun n s => PairFill.Named rate (fillTable rate poly) n s) (Nat.zero_le _)
    ⟨⟨Nat.one_pos, fun out hout => absurd rfl hout, fun i hi => absurd hi (Nat.not_lt_zero i)⟩,
      fun key hpos hlt => absurd hlt (Nat.not_lt.mpr hpos)⟩
    fun n s _ _ h => PairFill.named_assign h
  exact hnamed.counter_le (fillTable_lt rate poly) (fillTable_pair rate poly)

theorem Filled.outputsLen_le (h : Filled rate order (fillTable rate poly) pairs) :
    pairs.outputsLen ≤ 2 ^ rate + 1 := by
  induction h with
  | create => exact outputsLen_create_le rate order poly
  | fillDistance _ _ ih => exact ih

end PairLookup

/-! ## The plain step -/

namespace Convolutional

variable {rate order : Nat} {poly : Nat → Nat} {raw conv : Convolutional} {pairs : PairLookup}

/-- The metric of a register: that of the state it comes from, and the distance of its row. -/
def registerMetric (table : Nat → Nat) (distances readErrors : Nat → UInt16) (register : Nat) :
    UInt16 :=
  readErrors (register / 2) + distances (table register)

/-- Every state from the two registers that end in it, ties to the low one. -/
def plainStep (order : Nat) (table : Nat → Nat) (distances readErrors : Nat → UInt16) (s : Slice) :
    Slice :=
  forLoop 0 (2 ^ (order - 1)) (fun state s =>
    s.store state (select (registerMetric table distances readErrors state)
      (registerMetric table distances readErrors (state + 2 ^ (order - 1))))) s

theorem plainStep_eq (order : Nat) (table : Nat → Nat) (distances readErrors : Nat → UInt16)
    (s : Slice) :
    plainStep order table distances readErrors s =
      filled (fun state => select (registerMetric table distances readErrors state)
        (registerMetric table distances readErrors (state + 2 ^ (order - 1)))) s
        (2 ^ (order - 1)) := by
  refine forLoop_induct (fun n t => t = filled (fun state =>
    select (registerMetric table distances readErrors state)
      (registerMetric table distances readErrors (state + 2 ^ (order - 1)))) s n)
    (Nat.zero_le _) (by simp [filled]) ?_
  rintro n t - - rfl
  exact filled_store _ s n

theorem acs_eq_plainStep (neon : Bool) (horder : 2 ≤ order) {table : Nat → Nat}
    (hpairs : PairLookup.For rate order table pairs) (htable : ∀ i, table i < 2 ^ rate)
    (distances readErrors : Nat → UInt16) (s : Slice) :
    acs neon (pairs.fillDistance distances) (1 <<< (order - 1) >>> 1) readErrors s =
      plainStep order table distances readErrors s := by
  obtain ⟨k, rfl⟩ : ∃ k, order = k + 2 := ⟨order - 2, by omega⟩
  have hpow := Nat.pow_succ 2 k
  have hbase : 1 <<< (k + 2 - 1) >>> 1 = 2 ^ k := by
    rw [Nat.one_shiftLeft, Nat.shiftRight_eq_div_pow, show k + 2 - 1 = k + 1 by omega]
    omega
  rw [acs_eq, plainStep_eq, hbase, show k + 2 - 1 = k + 1 by omega,
    show 2 * 2 ^ k = 2 ^ (k + 1) by omega]
  have hentry : ∀ state, state < 2 ^ (k + 1) →
      acsEntry (pairs.fillDistance distances) (2 ^ k) readErrors state =
        select (registerMetric table distances readErrors state)
          (registerMetric table distances readErrors (state + 2 ^ (k + 1))) := by
    intro state hstate
    rw [acsEntry_fillDistance k hpairs htable distances readErrors hstate, registerMetric,
      registerMetric, UInt16.add_comm, UInt16.add_comm (distances (table (state + 2 ^ (k + 1)))),
      show (state + 2 ^ (k + 1)) / 2 = 2 ^ k + state / 2 by omega]
  simp only [filled, Slice.mk.injEq]
  constructor <;>
  · funext state
    by_cases hstate : state < 2 ^ (k + 1)
    · rw [if_pos hstate, if_pos hstate, hentry state hstate]
    · rw [if_neg hstate, if_neg hstate]

/-- The state a register ends in gets the better of the two registers that end in it. -/
theorem plainStep_successor (order : Nat) (table : Nat → Nat) (distances readErrors : Nat → UInt16)
    (s : Slice) (register : Nat) :
    let state := register % 2 ^ (order - 1)
    let low := registerMetric table distances readErrors state
    let high := registerMetric table distances readErrors (state + 2 ^ (order - 1))
    let filled := plainStep order table distances readErrors s
    filled.errors state = (if low ≤ high then low else high) ∧
      filled.history state = if low ≤ high then 0 else 1 := by
  intro state low high slice
  have hstate : state < 2 ^ (order - 1) := Nat.mod_lt _ (Nat.two_pow_pos _)
  have hslice : slice = _ := plainStep_eq order table distances readErrors s
  rw [hslice]
  simp only [filled, if_pos hstate, select]
  split <;> exact ⟨rfl, rfl⟩

theorem two_le_of_create (h : create rate order poly raw = some conv) : 2 ≤ rate := by
  simp only [create] at h
  split at h
  · cases h
  · split at h
    · cases h
    · omega

/-- The packed inner slice is the plain step, in both versions and whatever was filled in
    before, and every key lies within the arrays it indexes. -/
theorem inner_step_plain (hcreate : create rate order poly raw = some conv) (horder : 2 ≤ order)
    (hpairs : PairLookup.Filled rate order conv.table pairs) (neon : Bool)
    (distances readErrors : Nat → UInt16) (s : Slice) :
    let filled := acs neon (pairs.fillDistance distances) (1 <<< (order - 1) >>> 1) readErrors s
    filled = plainStep order conv.table distances readErrors s ∧
      (∀ register, register < 2 ^ order →
        let state := register % 2 ^ (order - 1)
        let low := registerMetric conv.table distances readErrors state
        let high := registerMetric conv.table distances readErrors (state + 2 ^ (order - 1))
        filled.errors state = (if low ≤ high then low else high) ∧
          filled.history state = if low ≤ high then 0 else 1) ∧
      ∀ i, i < 2 ^ (order - 1) → 0 < pairs.keys i ∧ pairs.keys i ≤ 2 ^ rate ∧
        pairs.keys i < 2 ^ (2 * rate) ∧ pairs.keys i < pairs.outputsLen := by
  have hconf := configured_create hcreate
  rw [hconf.table_eq] at hpairs ⊢
  have hstep := acs_eq_plainStep neon horder hpairs.for (fillTable_lt rate poly) distances
    readErrors s
  intro slice
  have hslice : slice = plainStep order (fillTable rate poly) distances readErrors s := hstep
  rw [hslice]
  refine ⟨rfl, fun register _ =>
    plainStep_successor order (fillTable rate poly) distances readErrors s register,
    fun i hi => ?_⟩
  obtain ⟨hpos, hlt, -⟩ := hpairs.for.keyed i hi
  have hlen := hpairs.outputsLen_le
  have hrate := two_le_of_create hcreate
  have hpow : 2 ^ rate < 2 ^ (2 * rate) := Nat.pow_lt_pow_right (by decide) (by omega)
  exact ⟨hpos, by omega, by omega, hlt⟩

/-- The last key of the modem's code. -/
theorem inner_step_plain_r12_7 :
    (PairLookup.create 2 7 (initialized 2 7 r12_7_polynomial zeroed).table).keys 63 ≤ 2 ^ 2 :=
  ((inner_step_plain (show create 2 7 r12_7_polynomial zeroed = some _ from rfl)
    (by decide) PairLookup.Filled.create false (fun _ => 0) (fun _ => 0)
    ⟨fun _ => 0, fun _ => 0⟩).2.2 63 (by decide)).2.1

end Convolutional

end RyFi.Conv
