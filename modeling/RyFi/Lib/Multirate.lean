import Mathlib.Algebra.BigOperators.Intervals
import Mathlib.Algebra.Module.Defs

/-! # Multirate filters

Signals begin at 0; before that they are zero.  `upsample`, `filter` and `decimate` say what a
change of the rate by `p / q` is: put `p - 1` zeros behind every sample, filter, and keep every
`q`-th sample.  Most of the products of the filter are with the zeros in between: `polyphase`
leaves them out, so that of the taps only every `p`-th is used for a sample.
-/

namespace Multirate

variable {R T : Type*}

section

variable [Zero T]

/-- The sample `i` before sample `m`. -/
def past (x : ℕ → T) (m i : ℕ) : T := if i ≤ m then x (m - i) else 0

def upsample (p : ℕ) (x : ℕ → T) (m : ℕ) : T := if p ∣ m then x (m / p) else 0

def decimate (q : ℕ) (y : ℕ → T) (k : ℕ) : T := y (k * q)

variable {x x' : ℕ → T} {p m n i j φ : ℕ}

theorem past_congr (h : ∀ j, j ≤ m → x j = x' j) : past x m i = past x' m i := by
  rw [past, past]
  split
  · exact h _ (Nat.sub_le m i)
  · rfl

theorem past_add (h : i ≤ n) : past x (m + i) n = past x m (n - i) := by
  rw [past, past]
  by_cases hle : n ≤ m + i
  · rw [if_pos hle, if_pos (by omega)]
    congr 1
    omega
  · rw [if_neg hle, if_neg (by omega)]

/-- Of the upsampled signal every `p`-th sample is one of the signal. -/
theorem past_upsample (hφ : φ < p) :
    past (upsample p x) (n * p + φ) (j * p + i) =
      if i % p = φ then past x n (j + i / p) else 0 := by
  have hp : 0 < p := Nat.zero_lt_of_lt hφ
  have hi := Nat.div_add_mod i p
  have hlt := Nat.mod_lt i hp
  rw [past, upsample]
  split
  next hle =>
    by_cases heq : i % p = φ
    · obtain ⟨k, hk⟩ : ∃ k, n = j + i / p + k := by
        refine Nat.exists_eq_add_of_le ?_
        by_contra hgt
        have hmul : (n + 1) * p ≤ (j + i / p) * p := Nat.mul_le_mul_right p (by omega)
        rw [Nat.add_mul, Nat.one_mul, Nat.add_mul, Nat.mul_comm (i / p) p] at hmul
        omega
      have hdiff : n * p + φ - (j * p + i) = k * p := by
        rw [hk, Nat.add_mul, Nat.add_mul, Nat.mul_comm (i / p) p]
        omega
      rw [if_pos heq, hdiff, if_pos (Nat.dvd_mul_left p k), Nat.mul_div_cancel k hp, past,
        if_pos (by omega)]
      congr 1
      omega
    · rw [if_neg heq, if_neg]
      rintro ⟨k, hk⟩
      refine heq ?_
      have hsum : n * p + φ = (j + k) * p + i := by
        rw [Nat.add_mul, Nat.mul_comm k p]
        omega
      have hmod := congrArg (· % p) hsum
      simp only [Nat.mul_add_mod_self_right, Nat.mod_eq_of_lt hφ] at hmod
      exact hmod.symm
  next hgt =>
    by_cases heq : i % p = φ
    · rw [if_pos heq, past, if_neg]
      intro hle
      have hmul : (j + i / p) * p ≤ n * p := Nat.mul_le_mul_right p hle
      rw [Nat.add_mul, Nat.mul_comm (i / p) p] at hmul
      omega
    · rw [if_neg heq]

end

variable [Semiring R] [AddCommMonoid T] [Module R T]

/-- The first `n` taps. -/
def filter (h : ℕ → R) (n : ℕ) (x : ℕ → T) (m : ℕ) : T := ∑ i ∈ Finset.range n, h i • past x m i

theorem filter_congr {h h' : ℕ → R} {n : ℕ} (hh : ∀ i, i < n → h i = h' i) (x : ℕ → T) (m : ℕ) :
    filter h n x m = filter h' n x m :=
  Finset.sum_congr rfl fun i hi => by rw [hh i (Finset.mem_range.mp hi)]

/-- Sample `n * p + φ` of the filtered, upsampled signal. -/
theorem polyphase {p φ : ℕ} (hφ : φ < p) (h : ℕ → R) (t n : ℕ) (x : ℕ → T) :
    filter h (t * p) (upsample p x) (n * p + φ) =
      ∑ j ∈ Finset.range t, h (j * p + φ) • past x n j := by
  induction t with
  | zero => simp [filter]
  | succ t ih =>
    have hlast : ∀ i ∈ Finset.range p,
        h (t * p + i) • past (upsample p x) (n * p + φ) (t * p + i) =
          if i = φ then h (t * p + φ) • past x n t else 0 := by
      intro i hi
      have hlt := Finset.mem_range.mp hi
      rw [past_upsample hφ, Nat.mod_eq_of_lt hlt, Nat.div_eq_of_lt hlt, Nat.add_zero]
      split
      next heq => rw [heq]
      next => rw [smul_zero]
    rw [filter, Nat.add_mul, Nat.one_mul, Finset.sum_range_add, Finset.sum_congr rfl hlast,
      Finset.sum_ite_eq' (Finset.range p), if_pos (Finset.mem_range.mpr hφ), Finset.sum_range_succ,
      ← ih, filter]

end Multirate
