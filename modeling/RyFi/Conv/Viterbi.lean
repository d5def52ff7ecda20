import RyFi.Lib.ShiftTrellis
import RyFi.Conv.Tables
import RyFi.Conv.Ring
import Mathlib.Data.Finset.Max
import Mathlib.Data.Nat.Find

/-! # What a decode of the rate 1/2, K = 7 code computes

The decoder as mathematics: the trellis of the received soft values with unbounded metrics,
the state each burst starts from, and the bits read off the selected paths.  The cost of the
first slice is zero: `error_buffer_swap` first lets the two pointers name the same array, so
what the first slice of the warmup writes is never read.
-/

namespace RyFi.Conv

open ShiftTrellis

/-- The rows of the code. -/
def codeTable : Nat → Nat := fillTable 2 r12_7_polynomial

/-- The distance of a soft value from a bit sent at full strength. -/
def bitCost (y : UInt8) (bit : Bool) : Nat := if bit then 255 - y.toNat else y.toNat

/-- The distance of slice `t` from the output `out`. -/
def sliceCost (soft : Nat → UInt8) (t out : Nat) : Nat :=
  bitCost (soft (2 * t)) (out.testBit 0) + bitCost (soft (2 * t + 1)) (out.testBit 1)

/-- The trellis of a block of `sets` slices. -/
def trellis (soft : Nat → UInt8) (sets : Nat) : Trellis where
  memory := 6
  cost t reg := if t = 0 then 0 else sliceCost soft t (codeTable reg)
  late := sets - 6

@[simp] theorem trellis_memory (soft : Nat → UInt8) (sets : Nat) :
    (trellis soft sets).memory = 6 := rfl

/-- The distance between the states that still matter after `t` slices: in the last six
    slices only zeros are shifted in. -/
def skipAt (sets t : Nat) : Nat := 2 ^ (t - (sets - 6))

/-- The states that matter after `t` slices. -/
def liveAt (sets t s : Nat) : Prop := t ≤ sets ∧ s < 64 ∧ s < 2 ^ t ∧ skipAt sets t ∣ s

/-- `s` is a multiple of `skip` where `f` is least. -/
def IsLeast (f : Nat → Nat) (skip s : Nat) : Prop :=
  s < 64 ∧ skip ∣ s ∧ ∀ s', s' < 64 → skip ∣ s' → f s ≤ f s'

instance (f : Nat → Nat) (skip s : Nat) : Decidable (IsLeast f skip s) :=
  inferInstanceAs (Decidable (s < 64 ∧ skip ∣ s ∧ ∀ s', s' < 64 → skip ∣ s' → f s ≤ f s'))

theorem exists_isLeast (f : Nat → Nat) (skip : Nat) : ∃ s, IsLeast f skip s := by
  obtain ⟨s, hs, hmin⟩ := Finset.exists_min_image ((Finset.range 64).filter (skip ∣ ·)) f
    ⟨0, by simp⟩
  rw [Finset.mem_filter, Finset.mem_range] at hs
  refine ⟨s, hs.1, hs.2, fun s' hs' hskip => hmin s' ?_⟩
  rw [Finset.mem_filter, Finset.mem_range]
  exact ⟨hs', hskip⟩

/-- The first such state. -/
def winner (f : Nat → Nat) (skip : Nat) : Nat := Nat.find (exists_isLeast f skip)

theorem winner_isLeast (f : Nat → Nat) (skip : Nat) : IsLeast f skip (winner f skip) :=
  Nat.find_spec (exists_isLeast f skip)

theorem winner_eq {f : Nat → Nat} {skip s : Nat} (hs : s < 64) (hskip : skip ∣ s)
    (hfirst : ∀ s', s' < 64 → skip ∣ s' → f s < f s' ∨ (f s = f s' ∧ s ≤ s')) :
    winner f skip = s := by
  have hleast : IsLeast f skip s := ⟨hs, hskip, fun s' hs' hskip' => by
    have := hfirst s' hs' hskip'
    omega⟩
  have hle : winner f skip ≤ s := Nat.find_min' _ hleast
  obtain ⟨hw, hwskip, hwmin⟩ := winner_isLeast f skip
  have := hfirst _ hw hwskip
  have := hwmin s hs hskip
  omega

/-- The slice after which the burst with bit `u` is decoded. -/
def burstTime (u : Nat) : Nat := 146 + 105 * (u / 105)

/-- Bit `u` of the decoded message. -/
def decodedBit (soft : Nat → UInt8) (sets u : Nat) : Bool :=
  let T := trellis soft sets
  let t := burstTime u
  if t ≤ sets then (T.best t (winner (T.metric t) (skipAt sets t))).testBit (t - 1 - u)
  else (T.best sets 0).testBit (sets - 1 - u)

/-- The decoded message. -/
def decodedBits (soft : Nat → UInt8) (sets n : Nat) : List Bool :=
  (List.range n).map (decodedBit soft sets)

/-! ## Costs -/

theorem bitCost_le (y : UInt8) (bit : Bool) : bitCost y bit ≤ 255 := by
  have := y.toNat_lt
  simp only [bitCost]
  split <;> omega

theorem bitCost_not (y : UInt8) (bit : Bool) : bitCost y bit + bitCost y (!bit) = 255 := by
  have := y.toNat_lt
  cases bit <;> simp [bitCost] <;> omega

theorem sliceCost_le (soft : Nat → UInt8) (t out : Nat) : sliceCost soft t out ≤ 510 := by
  have h0 := bitCost_le (soft (2 * t)) (out.testBit 0)
  have h1 := bitCost_le (soft (2 * t + 1)) (out.testBit 1)
  simp only [sliceCost]
  omega

variable {soft : Nat → UInt8} {sets : Nat}

theorem cost_le (t reg : Nat) : (trellis soft sets).cost t reg ≤ 510 := by
  simp only [trellis]
  split
  · omega
  · exact sliceCost_le _ _ _

/-- Both polynomials tap the newest bit: the two successors of a state have opposite outputs. -/
theorem codeTable_newest {p : Nat} (hp : p < 64) (j : Nat) (hj : j < 2) :
    (codeTable (2 * p + 1)).testBit j = !(codeTable (2 * p)).testBit j := by
  have hall : ∀ p : Fin 64, ∀ j : Fin 2,
      (codeTable (2 * p.val + 1)).testBit j.val = !(codeTable (2 * p.val)).testBit j.val := by
    decide +kernel
  exact hall ⟨p, hp⟩ ⟨j, hj⟩

/-- So one of the two costs at most half of what they can. -/
theorem cost_cheap (t : Nat) {p : Nat} (hp : p < 64) :
    ∃ b < 2, (trellis soft sets).cost t (2 * p + b) ≤ 255 := by
  by_cases ht : t = 0
  · exact ⟨0, by omega, by simp [trellis, ht]⟩
  · have hzero := codeTable_newest hp 0 (by omega)
    have hone := codeTable_newest hp 1 (by omega)
    have h0 := bitCost_not (soft (2 * t)) ((codeTable (2 * p)).testBit 0)
    have h1 := bitCost_not (soft (2 * t + 1)) ((codeTable (2 * p)).testBit 1)
    by_cases hle : sliceCost soft t (codeTable (2 * p)) ≤ 255
    · refine ⟨0, by omega, ?_⟩
      simp only [trellis, if_neg ht]
      exact hle
    · refine ⟨1, by omega, ?_⟩
      simp only [trellis, if_neg ht]
      simp only [sliceCost, hzero, hone] at hle ⊢
      omega

/-- The decoded message is that of the soft values of its slices. -/
theorem decodedBits_congr {soft' : Nat → UInt8} (h : ∀ k, k < 2 * sets → soft' k = soft k)
    (n : Nat) : decodedBits soft' sets n = decodedBits soft sets n := by
  have hcost : ∀ t, t < sets → ∀ reg,
      (trellis soft' sets).cost t reg = (trellis soft sets).cost t reg := fun t ht reg => by
    simp only [trellis, sliceCost]
    rw [h (2 * t) (by omega), h (2 * t + 1) (by omega)]
  have hmetric : ∀ t, t ≤ sets → (trellis soft' sets).metric t = (trellis soft sets).metric t :=
    fun t ht => funext fun s => Trellis.metric_congr rfl rfl hcost ht
  have hbest : ∀ t s, t ≤ sets → (trellis soft' sets).best t s = (trellis soft sets).best t s :=
    fun t s ht => Trellis.best_congr rfl rfl hcost ht
  refine List.map_congr_left fun u _ => ?_
  simp only [decodedBit]
  split
  next hle => rw [hmetric _ hle, hbest _ _ hle]
  next => rw [hbest _ _ (Nat.le_refl sets)]

/-! ## Paths read from the history -/

/-- The history an unbounded buffer would hold: slice `u` is filled after `u + 7` slices. -/
def historyOf (soft : Nat → UInt8) (sets u s : Nat) : UInt8 :=
  if (trellis soft sets).high (u + 6) s then 1 else 0

theorem historyOf_ne_zero (u s : Nat) :
    (historyOf soft sets u s ≠ 0) = ((trellis soft sets).high (u + 6) s = true) := by
  simp only [historyOf]
  cases (trellis soft sets).high (u + 6) s <;> simp

theorem back_eq {s : Nat} (hs : s < 64) (u : Nat) :
    (s ||| if historyOf soft sets u s ≠ 0 then 64 else 0) >>> 1 =
      (trellis soft sets).reg (u + 6) s / 2 := by
  have hor : s ||| 64 = s + 64 := by
    rw [Nat.lor_comm, Nat.add_comm]
    exact (Nat.two_pow_add_eq_or_of_lt (i := 6) hs 1).symm
  simp only [historyOf_ne_zero, Trellis.reg, trellis_memory]
  cases (trellis soft sets).high (u + 6) s with
  | true => simp [hor, Nat.shiftRight_eq_div_pow]
  | false => simp [Nat.shiftRight_eq_div_pow]

/-- Walking back through the history runs along the selected path. -/
theorem walkBack_historyOf {n p k : Nat} (hp : p < 64) (hk : k ≤ n) :
    HistoryBuffer.walkBack (historyOf soft sets) 64 n p k =
      (trellis soft sets).best (n + 6) p / 2 ^ k % 64 := by
  have hpow : 2 ^ 6 ≤ 2 ^ (n + 6) := Nat.pow_le_pow_right (by omega) (by omega)
  induction k with
  | zero =>
    rw [Nat.pow_zero, Nat.div_one]
    exact (Trellis.best_state (T := trellis soft sets) (by simp) ⟨hp, by omega⟩).symm
  | succ k ih =>
    have htime : n - 1 - k + 6 + 1 + k = n + 6 := by omega
    have hback := Trellis.best_state_back (T := trellis soft sets) (t := n - 1 - k + 6) (s := p)
      (by simp) k (by rw [htime]; exact ⟨hp, by omega⟩)
    rw [htime] at hback
    simp only [HistoryBuffer.walkBack, ih (by omega)]
    rw [back_eq (Nat.mod_lt _ (by omega))]
    exact hback.symm

/-- The bits written for a path are its oldest ones. -/
theorem pathBit_historyOf {n p u : Nat} (hp : p < 64) (hu : u < n) :
    HistoryBuffer.pathBit (historyOf soft sets) 64 n p u =
      ((trellis soft sets).best (n + 6) p).testBit (n + 6 - 1 - u) := by
  have hpow : 2 ^ 6 ≤ 2 ^ (n + 6) := Nat.pow_le_pow_right (by omega) (by omega)
  have htime : u + 6 + 1 + (n - 1 - u) = n + 6 := by omega
  have hhigh := Trellis.high_back (T := trellis soft sets) (t := u + 6) (s := p) (by simp)
    (n - 1 - u) (by rw [htime]; exact ⟨hp, by omega⟩)
  rw [htime] at hhigh
  simp only [HistoryBuffer.pathBit, walkBack_historyOf hp (show n - 1 - u ≤ n by omega),
    historyOf_ne_zero]
  rw [show n + 6 - 1 - u = 6 + (n - 1 - u) by omega]
  simpa using hhigh

end RyFi.Conv
