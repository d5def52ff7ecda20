import RyFi.Conv.LightWords

/-! # Up to four bit errors

With full confidence in every bit, a path costs 255 for each received bit it contradicts,
so the sent path is replaced by another only where at least half of the ones of their
difference are errors.  The code has no word of fewer than nine ones, and four errors are
too few; but the decoder does not see the first pair of bits, and seven words that start
there have only seven or eight ones left.  `Uncorrectable` says when the errors hit one.
-/

namespace RyFi.Conv

open ShiftTrellis

/-! ## The condition -/

/-- A word that starts in the first slice: its slices, the path, and the positions of its ones
    after the first pair. -/
structure LightWord where
  slices : Nat
  path : Nat
  positions : List Nat
deriving DecidableEq

def lightWords : List LightWord :=
  [⟨7, 0b1000000, [3, 5, 8, 9, 10, 12, 13]⟩,
    ⟨8, 0b11000000, [2, 7, 8, 9, 11, 13, 14, 15]⟩,
    ⟨9, 0b101000000, [3, 4, 7, 8, 10, 14, 16, 17]⟩,
    ⟨10, 0b1101000000, [2, 6, 8, 13, 16, 18, 19]⟩,
    ⟨11, 0b11011000000, [2, 6, 9, 11, 17, 19, 20, 21]⟩,
    ⟨13, 0b1000111000000, [3, 5, 16, 19, 20, 23, 24, 25]⟩,
    ⟨17, 0b10001110101000000, [3, 5, 17, 25, 26, 30, 32, 33]⟩]

/-- Four errors, all of them on ones of a light word that fits into the block.  Against a word
    of eight the sent path ties where the two meet again; it loses the tie when the input bit
    that is shifted out there is one before the tail and zero in it. -/
def Uncorrectable (msg : Nat → UInt8) (n : Nat) (E : Finset Nat) : Prop :=
  ∃ word ∈ lightWords, word.slices ≤ 8 * n + 8 ∧ E.card = 4 ∧ (∀ k ∈ E, k ∈ word.positions) ∧
    (word.positions.length = 7 ∨
      inputBit msg n (word.slices - 7) = decide (word.slices ≤ 8 * n + 2))

theorem lightWords_closed :
    closedWords = lightWords.map fun word => (word.slices, word.path, word.positions.length) := by
  decide

/-- The positions are those of the path. -/
theorem lightWords_positions {word : LightWord} (h : word ∈ lightWords) {k : Nat}
    (hk : k < 2 * word.slices) :
    (2 ≤ k ∧ codeAt word.slices word.path k = true) ↔ k ∈ word.positions := by
  have hall : ∀ word ∈ lightWords, ∀ k < 2 * word.slices,
      (2 ≤ k ∧ codeAt word.slices word.path k = true) ↔ k ∈ word.positions := by
    decide +kernel
  exact hall word h k hk

theorem lightWords_shape {word : LightWord} (h : word ∈ lightWords) :
    7 ≤ word.slices ∧ word.slices ≤ 17 ∧ word.path < 2 ^ word.slices ∧ word.path % 128 = 64 ∧
      (∀ k ∈ word.positions, k < 2 * word.slices) ∧
      weight word.slices word.path = word.positions.length ∧
      (word.positions.length = 7 ∨ word.positions.length = 8) := by
  have hall : ∀ word ∈ lightWords,
      7 ≤ word.slices ∧ word.slices ≤ 17 ∧ word.path < 2 ^ word.slices ∧ word.path % 128 = 64 ∧
      (∀ k ∈ word.positions, k < 2 * word.slices) ∧
      weight word.slices word.path = word.positions.length ∧
      (word.positions.length = 7 ∨ word.positions.length = 8) := by
    decide +kernel
  exact hall word h

/-! ## Costs with hard decisions -/

variable {soft msg : Nat → UInt8} {n : Nat} {E : Finset Nat}

/-- Full confidence in the bits received: those sent, flipped at the positions of `E`. -/
def Flipped (soft msg : Nat → UInt8) (n : Nat) (E : Finset Nat) : Prop :=
  ∀ k, k < 2 * slicesOf n →
    soft k = if Convolutional.sentBit msg n k ^^ decide (k ∈ E) then 255 else 0

/-- The errors on the ones of a path. -/
def hits (E : Finset Nat) (t d : Nat) : Nat :=
  (E.filter fun k => 2 ≤ k ∧ k < 2 * t ∧ codeAt t d k = true).card

theorem hits_le (E : Finset Nat) (t d : Nat) : hits E t d ≤ E.card :=
  Finset.card_filter_le _ _

theorem bitCost_hard (received bit : Bool) :
    bitCost (if received then 255 else 0) bit = 255 * (bit ^^ received).toNat := by
  cases received <;> cases bit <;> rfl

section Flipped

variable (h : Flipped soft msg n E)

include h

/-- A path costs 255 for each received bit it contradicts after the first pair. -/
theorem pathCost_flipped {t : Nat} (ht : t ≤ slicesOf n) (v : Nat) :
    (trellis soft (slicesOf n)).pathCost t v = 255 * count t fun k =>
      codeAt t v k ^^ (Convolutional.sentBit msg n k ^^ decide (k ∈ E)) := by
  induction t generalizing v with
  | zero => rfl
  | succ t ih =>
    rw [Trellis.pathCost, ih (by omega), count_succ, trellis_memory]
    rw [count_congr (p := fun k => codeAt (t + 1) v k ^^
        (Convolutional.sentBit msg n k ^^ decide (k ∈ E)))
      (q := fun k => codeAt t (v / 2) k ^^ (Convolutional.sentBit msg n k ^^ decide (k ∈ E)))
      fun k hk => by rw [codeAt_half hk], Nat.mul_add]
    congr 1
    by_cases hfirst : t = 0
    · simp [trellis, hfirst]
    · have hzero : codeAt (t + 1) v (2 * t) = _ := codeAt_last t v (j := 0) (by omega)
      have hone := codeAt_last t v (j := 1) (by omega)
      rw [if_neg hfirst, hzero, hone]
      simp only [trellis, if_neg hfirst, sliceCost, h (2 * t) (by omega),
        h (2 * t + 1) (by omega), bitCost_hard, show 2 ^ (6 + 1) = 128 from rfl]
      rw [Nat.mul_add]

/-- Two paths compared: the ones of the difference against the errors on them. -/
theorem pathCost_xor {t : Nat} (ht : t ≤ slicesOf n) (d : Nat) :
    (trellis soft (slicesOf n)).pathCost t (inputPath msg n t ^^^ d) + 510 * hits E t d =
      (trellis soft (slicesOf n)).pathCost t (inputPath msg n t) + 255 * weight t d := by
  have hcount := count_xor t (codeAt t d) fun k => decide (k ∈ E)
  have hsent := pathCost_flipped h ht (inputPath msg n t)
  have hother := pathCost_flipped h ht (inputPath msg n t ^^^ d)
  rw [count_congr (q := fun k => decide (k ∈ E)) fun k hk => by
    rw [codeAt_inputPath hk, ← Bool.xor_assoc, Bool.xor_self, Bool.false_xor]] at hsent
  rw [count_congr (q := fun k => codeAt t d k ^^ decide (k ∈ E)) fun k hk => by
    rw [codeAt_xor, codeAt_inputPath hk, ← Bool.xor_assoc, Bool.xor_comm _ (codeAt t d k),
      Bool.xor_assoc (codeAt t d k), Bool.xor_self, Bool.xor_false]] at hother
  rw [hsent, hother, weight, hits, ← count_mem]
  omega

end Flipped

/-- Errors on half of the ones of a light word are four, all of them on its ones. -/
theorem positions_of_hits (hE : E.card ≤ 4) {word : LightWord} (hword : word ∈ lightWords)
    (hhits : word.positions.length ≤ 2 * hits E word.slices word.path) :
    E.card = 4 ∧ ∀ k ∈ E, k ∈ word.positions := by
  obtain ⟨-, -, -, -, -, -, hlen⟩ := lightWords_shape hword
  have hle := hits_le E word.slices word.path
  have hcard : E.card = 4 := by omega
  refine ⟨hcard, fun k hk => ?_⟩
  have hall : (E.filter fun k => 2 ≤ k ∧ k < 2 * word.slices ∧
      codeAt word.slices word.path k = true) = E :=
    Finset.eq_of_subset_of_card_le (Finset.filter_subset _ _) (by rw [← hits]; omega)
  rw [← hall, Finset.mem_filter] at hk
  exact (lightWords_positions hword hk.2.2.1).mp ⟨hk.2.1, hk.2.2.2⟩

/-! ## Where the sent path survives -/

/-- The sent path is the one selected for its state after `t` slices. -/
def Survives (soft msg : Nat → UInt8) (n t : Nat) : Prop :=
  (trellis soft (slicesOf n)).best t (inputPath msg n t % 64) = inputPath msg n t

theorem live_inputPath (soft msg : Nat → UInt8) (n t : Nat) :
    (trellis soft (slicesOf n)).Live t (inputPath msg n t % 64) :=
  Trellis.live_of_path (T := trellis soft (slicesOf n)) (inputPath_lt _ _ t)

/-- Surviving until later means surviving now. -/
theorem survives_of_later {t k : Nat} (h : Survives soft msg n (t + k)) :
    Survives soft msg n t := by
  have hshift := Trellis.best_shift (T := trellis soft (slicesOf n)) (by simp) k
    (live_inputPath soft msg n (t + k))
  rw [h, inputPath_shift] at hshift
  exact hshift.symm

/-- Numbers of `t` bits that are not zero have a highest one. -/
theorem exists_length {d t : Nat} (hpos : d ≠ 0) (hlt : d < 2 ^ t) :
    ∃ k, 0 < k ∧ k ≤ t ∧ 2 ^ (k - 1) ≤ d ∧ d < 2 ^ k := by
  have hlog := Nat.log2_self_le hpos
  have hlog' := Nat.lt_log2_self (n := d)
  refine ⟨d.log2 + 1, by omega, ?_, hlog, hlog'⟩
  by_contra hlong
  have hpow : 2 ^ t ≤ 2 ^ d.log2 := Nat.pow_le_pow_right (by omega) (by omega)
  omega

theorem xor_div (a b k : Nat) : (a ^^^ b) / 2 ^ k = (a / 2 ^ k) ^^^ (b / 2 ^ k) :=
  Nat.xor_div_two_pow

theorem xor_mod_64 (a b : Nat) : (a ^^^ b) % 64 = (a % 64) ^^^ (b % 64) :=
  Nat.xor_mod_two_pow (n := 6)

/-- A selected path that is not the sent one stays away from it once it has left it, as long
    as the sent path survives. -/
theorem apart_of_survives {t k v : Nat}
    (hlive : (trellis soft (slicesOf n)).Live t (v % 64))
    (hbest : (trellis soft (slicesOf n)).best t (v % 64) = v)
    (hlow : 2 ^ (k - 1) ≤ inputPath msg n t ^^^ v) (hle : k ≤ t) {j : Nat} (hj : j < k)
    (hsurvives : Survives soft msg n (t - j)) : (inputPath msg n t ^^^ v) / 2 ^ j % 64 ≠ 0 := by
  intro hzero
  rw [xor_div, xor_mod_64, Nat.xor_eq_zero_iff] at hzero
  have hsent := inputPath_shift msg n (t - j) j
  rw [Nat.sub_add_cancel (by omega)] at hsent
  have hshift := Trellis.best_shift (T := trellis soft (slicesOf n)) (t := t - j) (s := v % 64)
    (by simp) j (by rw [Nat.sub_add_cancel (by omega)]; exact hlive)
  rw [Nat.sub_add_cancel (by omega), hbest, trellis_memory, show 2 ^ 6 = 64 from rfl, ← hzero,
    hsent, hsurvives] at hshift
  have hsame : (inputPath msg n t ^^^ v) / 2 ^ j = 0 := by
    rw [xor_div, hsent, hshift, Nat.xor_self]
  have hpow : 2 ^ j ≤ 2 ^ (k - 1) := Nat.pow_le_pow_right (by omega) (by omega)
  rw [Nat.div_eq_zero_iff] at hsame
  have := Nat.two_pow_pos j
  omega

/-- The arrival cost of a path whose beginning is selected is its cost. -/
theorem arrive_of_best (soft : Nat → UInt8) (n : Nat) {t w : Nat} (hw : w < 2 ^ (t + 1))
    (hbest : (trellis soft (slicesOf n)).best t (w / 2 % 64) = w / 2) :
    (trellis soft (slicesOf n)).arrive t (w % 128) =
      (trellis soft (slicesOf n)).pathCost (t + 1) w := by
  have hhalf : w / 2 < 2 ^ t := by
    rw [Nat.pow_succ] at hw
    omega
  have hcost := Trellis.pathCost_best (T := trellis soft (slicesOf n)) (by simp)
    (Trellis.live_of_path (T := trellis soft (slicesOf n)) hhalf)
  rw [trellis_memory, show 2 ^ 6 = 64 from rfl, hbest] at hcost
  rw [Trellis.arrive, show w % 128 / 2 = w / 2 % 64 by omega, ← hcost, Trellis.pathCost,
    trellis_memory, Nat.add_comm, show 2 ^ (6 + 1) = 128 from rfl]

/-- Of any path it is at most that. -/
theorem arrive_le (soft : Nat → UInt8) (n : Nat) {t w : Nat} (hw : w < 2 ^ (t + 1)) :
    (trellis soft (slicesOf n)).arrive t (w % 128) ≤
      (trellis soft (slicesOf n)).pathCost (t + 1) w := by
  have hhalf : w / 2 < 2 ^ t := by
    rw [Nat.pow_succ] at hw
    omega
  have hle := Trellis.metric_le (T := trellis soft (slicesOf n)) hhalf
  rw [trellis_memory, show 2 ^ 6 = 64 from rfl] at hle
  rw [Trellis.arrive, show w % 128 / 2 = w / 2 % 64 by omega, Trellis.pathCost, trellis_memory,
    Nat.add_comm]
  exact Nat.add_le_add_right hle _

theorem mod_128 (w : Nat) : w % 128 = w % 64 + if w.testBit 6 then 64 else 0 := by
  have hsplit := Nat.mod_pow_succ (x := w) (b := 2) (k := 6)
  rw [Nat.testBit_eq_decide_div_mod_eq]
  rcases Nat.mod_two_eq_zero_or_one (w / 2 ^ 6) with hzero | hone
  · simp only [hzero] at hsplit ⊢
    simpa using hsplit
  · simp only [hone] at hsplit ⊢
    simpa using hsplit

theorem testBit_six_of_mod {d : Nat} (hd : d % 128 = 64) : d.testBit 6 = true := by
  rw [Nat.testBit_eq_decide_div_mod_eq, decide_eq_true_iff]
  omega

/-- The selected path is no dearer than the sent one if its state has no larger metric. -/
theorem best_cheaper (msg : Nat → UInt8) {t s : Nat} (hlive : (trellis soft (slicesOf n)).Live t s)
    (hle : (trellis soft (slicesOf n)).metric t s ≤
      (trellis soft (slicesOf n)).metric t (inputPath msg n t % 64)) :
    (trellis soft (slicesOf n)).pathCost t ((trellis soft (slicesOf n)).best t s) ≤
      (trellis soft (slicesOf n)).pathCost t (inputPath msg n t) := by
  rw [Trellis.pathCost_best (by simp) hlive]
  exact Nat.le_trans hle (Trellis.metric_le (T := trellis soft (slicesOf n)) (inputPath_lt _ _ t))

/-- The high predecessor is selected where it is cheaper; in the tail a tie goes to it too. -/
theorem high_iff (soft : Nat → UInt8) (n : Nat) {t s : Nat} (ht : 6 ≤ t) :
    (trellis soft (slicesOf n)).high t s = true ↔
      (trellis soft (slicesOf n)).arrive t (s + 64) < (trellis soft (slicesOf n)).arrive t s ∨
        8 * n + 2 ≤ t ∧ (trellis soft (slicesOf n)).arrive t (s + 64) =
          (trellis soft (slicesOf n)).arrive t s := by
  have hlate : (trellis soft (slicesOf n)).late = 8 * n + 2 := by
    change slicesOf n - 6 = 8 * n + 2
    simp only [slicesOf]
    omega
  by_cases hinner : t < 8 * n + 2
  · rw [Trellis.high_inner (T := trellis soft (slicesOf n)) ht (by omega), trellis_memory,
      show 2 ^ 6 = 64 from rfl, decide_eq_true_iff]
    omega
  · rw [Trellis.high_late (T := trellis soft (slicesOf n)) ht (by omega), trellis_memory,
      show 2 ^ 6 = 64 from rfl, decide_eq_true_iff]
    omega

/-- The bit that tells the two predecessors of the sent path apart is the one shifted out. -/
theorem inputPath_oldest (msg : Nat → UInt8) (n : Nat) {t : Nat} (ht : 6 ≤ t) :
    (inputPath msg n (t + 1)).testBit 6 = inputBit msg n (t + 1 - 7) := by
  have hbit := inputPath_testBit msg n (t := t + 1) (u := t + 1 - 7) (by omega)
  rw [show t + 1 - 1 - (t + 1 - 7) = 6 by omega] at hbit
  exact hbit

/-- Where the sent path loses a tie to the other predecessor, the input bit shifted out there
    says so. -/
theorem inputBit_of_lost_tie {t v : Nat} (hlive : (trellis soft (slicesOf n)).Live (t + 1) (v % 64))
    (hbest : (trellis soft (slicesOf n)).best (t + 1) (v % 64) = v)
    (hend : v % 64 = inputPath msg n (t + 1) % 64)
    (hopposite : v.testBit 6 = !(inputPath msg n (t + 1)).testBit 6) (ht : 6 ≤ t)
    (hcost : (trellis soft (slicesOf n)).pathCost (t + 1) v =
      (trellis soft (slicesOf n)).pathCost (t + 1) (inputPath msg n (t + 1)))
    (hbefore : Survives soft msg n t) :
    inputBit msg n (t + 1 - 7) = decide (t + 1 ≤ 8 * n + 2) := by
  have hv := Trellis.best_lt (T := trellis soft (slicesOf n)) (t + 1) (v % 64)
  rw [hbest] at hv
  have hsentArrive := arrive_of_best soft n (inputPath_lt _ _ (t + 1)) (by
    rw [inputPath_half]
    exact hbefore)
  have hotherArrive := arrive_of_best soft n hv (by
    have hhalf := Trellis.best_shift (T := trellis soft (slicesOf n)) (by simp) 1 hlive
    rw [hbest, Nat.pow_one] at hhalf
    exact hhalf.symm)
  rw [mod_128] at hsentArrive hotherArrive
  have htie : (trellis soft (slicesOf n)).arrive t (v % 64 + 64) =
      (trellis soft (slicesOf n)).arrive t (v % 64) := by
    rw [hopposite, hend] at hotherArrive
    rw [hend]
    cases hx : (inputPath msg n (t + 1)).testBit 6 with
    | false =>
      simp only [hx, Bool.not_false, if_true, Bool.false_eq_true, if_false, Nat.add_zero]
        at hsentArrive hotherArrive
      omega
    | true =>
      simp only [hx, Bool.not_true, if_true, Bool.false_eq_true, if_false, Nat.add_zero]
        at hsentArrive hotherArrive
      omega
  have hhigh := Trellis.high_eq_testBit (T := trellis soft (slicesOf n)) (by simp) hlive
  have hiff := high_iff soft n (t := t) (s := v % 64) ht
  rw [hbest, trellis_memory, hopposite] at hhigh
  rw [hhigh, htie] at hiff
  rw [← inputPath_oldest msg n ht]
  -- which predecessor the sent path has decides which way the tie must have gone
  cases hx : (inputPath msg n (t + 1)).testBit 6 with
  | false =>
    have hlate : 8 * n + 2 ≤ t := by simpa [hx] using hiff
    exact (decide_eq_false (by omega)).symm
  | true =>
    have hinner : t < 8 * n + 2 := by simpa [hx] using hiff
    exact (decide_eq_true (by omega)).symm

/-- A sent path that would lose a tie survives only where it is strictly cheaper. -/
theorem arrive_lt_of_survives {t w : Nat} (ht : 6 ≤ t) (hsurvives : Survives soft msg n (t + 1))
    (hbit : inputBit msg n (t + 1 - 7) = decide (t + 1 ≤ 8 * n + 2))
    (hend : w % 64 = inputPath msg n (t + 1) % 64)
    (hopposite : w.testBit 6 = !(inputPath msg n (t + 1)).testBit 6) :
    (trellis soft (slicesOf n)).arrive t (inputPath msg n (t + 1) % 128) <
      (trellis soft (slicesOf n)).arrive t (w % 128) := by
  have hhigh := Trellis.high_eq_testBit (T := trellis soft (slicesOf n)) (by simp)
    (live_inputPath soft msg n (t + 1))
  have hiff := high_iff soft n (t := t) (s := inputPath msg n (t + 1) % 64) ht
  rw [hsurvives, trellis_memory] at hhigh
  rw [mod_128 w, mod_128 (inputPath msg n (t + 1)), hend, hopposite]
  rw [hhigh, inputPath_oldest msg n ht, hbit] at hiff
  rw [inputPath_oldest msg n ht, hbit]
  by_cases hinner : t + 1 ≤ 8 * n + 2
  · simp only [decide_eq_true hinner, true_iff, Bool.not_true, Bool.false_eq_true, if_true,
      if_false, Nat.add_zero] at hiff ⊢
    omega
  · simp only [decide_eq_false hinner, Bool.not_false, Bool.false_eq_true, false_iff, if_true,
      if_false, Nat.add_zero] at hiff ⊢
    omega

/-- The difference of two paths in one state that never met: it has left the zero path and
    closes only in the last slice. -/
theorem open_of_lost {t v : Nat} (hlive : (trellis soft (slicesOf n)).Live t (v % 64))
    (hbest : (trellis soft (slicesOf n)).best t (v % 64) = v)
    (hend : v % 64 = inputPath msg n t % 64) (hne : v ≠ inputPath msg n t)
    (hbefore : ∀ t', t' < t → Survives soft msg n t') :
    ∃ k, 7 ≤ k ∧ k ≤ t ∧ 2 ^ (k - 1) ≤ inputPath msg n t ^^^ v ∧ inputPath msg n t ^^^ v < 2 ^ k ∧
      (inputPath msg n t ^^^ v) % 64 = 0 ∧ Open (k - 1) ((inputPath msg n t ^^^ v) / 2) := by
  have hv := Trellis.best_lt (T := trellis soft (slicesOf n)) t (v % 64)
  rw [hbest] at hv
  have hdiff : inputPath msg n t ^^^ v ≠ 0 := fun hzero =>
    hne (Nat.xor_eq_zero_iff.mp hzero).symm
  have hdiffEnd : (inputPath msg n t ^^^ v) % 64 = 0 := by
    rw [xor_mod_64, hend, Nat.xor_self]
  obtain ⟨k, hpos, hk, hlow, hhigh⟩ :=
    exists_length hdiff (Nat.xor_lt_two_pow (inputPath_lt msg n t) hv)
  -- it closes with six zeros, so it has seven bits at least
  have hseven : 7 ≤ k := by
    by_contra hshort
    have hpow : 2 ^ k ≤ 2 ^ 6 := Nat.pow_le_pow_right (by omega) (by omega)
    omega
  refine ⟨k, hseven, hk, hlow, hhigh, hdiffEnd, ?_⟩
  have hpow : 2 ^ (k - 1) = 2 * 2 ^ (k - 1 - 1) := by
    rw [← Nat.pow_succ', Nat.succ_eq_add_one, Nat.sub_add_cancel (by omega)]
  have hpow' : 2 ^ k = 2 * 2 ^ (k - 1) := by
    rw [← Nat.pow_succ', Nat.succ_eq_add_one, Nat.sub_add_cancel (by omega)]
  refine ⟨by omega, by omega, by omega, fun j hj => ?_⟩
  rw [Nat.div_div_eq_div_mul, ← Nat.pow_succ']
  exact apart_of_survives hlive hbest hlow hk (by omega) (hbefore _ (by omega))

section Flipped

variable (h : Flipped soft msg n E)

include h

/-- A path that is no dearer differs in few ones, half of them errors. -/
theorem weight_le_hits {t v : Nat} (ht : t ≤ slicesOf n)
    (hcost : (trellis soft (slicesOf n)).pathCost t v ≤
      (trellis soft (slicesOf n)).pathCost t (inputPath msg n t)) :
    weight t (inputPath msg n t ^^^ v) ≤ 2 * hits E t (inputPath msg n t ^^^ v) := by
  have hxor := pathCost_xor h ht (inputPath msg n t ^^^ v)
  rw [← Nat.xor_assoc, Nat.xor_self, Nat.zero_xor] at hxor
  omega

variable (hE : E.card ≤ 4)

include hE

/-- What replaces the sent path for the first time differs from it in a light word. -/
theorem light_of_lost {t v : Nat} (ht : t ≤ slicesOf n)
    (hlive : (trellis soft (slicesOf n)).Live t (v % 64))
    (hbest : (trellis soft (slicesOf n)).best t (v % 64) = v)
    (hend : v % 64 = inputPath msg n t % 64) (hne : v ≠ inputPath msg n t)
    (hcheaper : (trellis soft (slicesOf n)).pathCost t v ≤
      (trellis soft (slicesOf n)).pathCost t (inputPath msg n t))
    (hbefore : ∀ t', t' < t → Survives soft msg n t') :
    ∃ word ∈ lightWords, word.slices = t ∧ word.path = inputPath msg n t ^^^ v ∧
      word.positions.length = weight t (inputPath msg n t ^^^ v) := by
  obtain ⟨k, hseven, hk, hlow, hhigh, hdiffEnd, hopen⟩ :=
    open_of_lost hlive hbest hend hne hbefore
  have hweight := weight_le_hits h ht hcheaper
  have hhits := hits_le E t (inputPath msg n t ^^^ v)
  have hlate : k < t → weight t (inputPath msg n t ^^^ v) =
      weight k (inputPath msg n t ^^^ v) + 2 := by
    intro hlead
    have hlate := weight_late (by omega) hlow hhigh (show 0 < t - k by omega)
    rwa [Nat.sub_add_cancel hk] at hlate
  have hlight : weight (k - 1 + 1) (inputPath msg n t ^^^ v) ≤ 8 := by
    rw [Nat.sub_add_cancel (by omega)]
    obtain hlead | rfl := Nat.lt_or_eq_of_le hk
    · have := hlate hlead
      omega
    · omega
  have hclosed := weight_of_closed (by omega) hopen hdiffEnd hlight
  rw [lightWords_closed, List.mem_map, Nat.sub_add_cancel (by omega)] at hclosed
  obtain ⟨word, hword, heq⟩ := hclosed
  obtain ⟨hslices, heq⟩ := Prod.mk.inj heq
  obtain ⟨hpath, hlength⟩ := Prod.mk.inj heq
  obtain ⟨-, -, -, -, -, -, hlen⟩ := lightWords_shape hword
  obtain hlead | rfl := Nat.lt_or_eq_of_le hk
  · -- a later start counts its first pair: too heavy
    have := hlate hlead
    omega
  · exact ⟨word, hword, hslices, hpath, hlength⟩

/-- The sent path survives a slice it has survived up to, unless the errors hit a word. -/
theorem survives_step (hcorrectable : ¬ Uncorrectable msg n E) {t : Nat} (ht : t ≤ slicesOf n)
    (hbefore : ∀ t', t' < t → Survives soft msg n t') : Survives soft msg n t := by
  by_contra hlost
  have hlive := live_inputPath soft msg n t
  have hend := Trellis.best_state (T := trellis soft (slicesOf n)) (by simp) hlive
  have hcheaper := best_cheaper msg hlive (Nat.le_refl _)
  rw [trellis_memory, show 2 ^ 6 = 64 from rfl] at hend
  rw [Survives] at hlost
  generalize hbest : (trellis soft (slicesOf n)).best t (inputPath msg n t % 64) = v
    at hlost hend hcheaper
  rw [← hend] at hlive hbest
  obtain ⟨word, hword, hslices, hpath, hlength⟩ :=
    light_of_lost h hE ht hlive hbest hend hlost hcheaper hbefore
  obtain ⟨hseven, -, -, hbits, -, -, hlen⟩ := lightWords_shape hword
  have hpositions := positions_of_hits hE hword (by
    rw [hlength, hslices, hpath]
    exact weight_le_hits h ht hcheaper)
  refine hcorrectable ⟨word, hword, by rw [hslices]; exact ht, hpositions.1, hpositions.2, ?_⟩
  by_cases hshort : word.positions.length = 7
  · exact Or.inl hshort
  · -- the two paths tie, and the other one is selected
    refine Or.inr ?_
    obtain ⟨t, rfl⟩ : ∃ t', t = t' + 1 := ⟨t - 1, by omega⟩
    have hxor := pathCost_xor h ht (inputPath msg n (t + 1) ^^^ v)
    rw [← Nat.xor_assoc, Nat.xor_self, Nat.zero_xor, ← hlength] at hxor
    have hhits := hits_le E (t + 1) (inputPath msg n (t + 1) ^^^ v)
    have hopposite : v.testBit 6 = !(inputPath msg n (t + 1)).testBit 6 := by
      have hbit := testBit_six_of_mod hbits
      rw [hpath, Nat.testBit_xor] at hbit
      cases hx : (inputPath msg n (t + 1)).testBit 6 <;> simp_all
    rw [hslices]
    exact inputBit_of_lost_tie hlive hbest hend hopposite (by omega) (by omega)
      (hbefore t (by omega))

/-- Unless the errors hit a word, the sent path survives every slice. -/
theorem survives_of_correctable (hcorrectable : ¬ Uncorrectable msg n E) {t : Nat}
    (ht : t ≤ slicesOf n) : Survives soft msg n t := by
  induction t using Nat.strong_induction_on with
  | h t ih => exact survives_step h hE hcorrectable ht fun t' hlt => ih t' hlt (by omega)

end Flipped

/-- Where the errors hit a word, the sent path does not survive its end. -/
theorem not_survives_of_hit (h : Flipped soft msg n E) {word : LightWord}
    (hword : word ∈ lightWords) (hfits : word.slices ≤ slicesOf n) (hcard : E.card = 4)
    (hall : ∀ k ∈ E, k ∈ word.positions)
    (hlost : word.positions.length = 7 ∨
      inputBit msg n (word.slices - 7) = decide (word.slices ≤ 8 * n + 2)) :
    ¬ Survives soft msg n word.slices := by
  intro hsurvives
  obtain ⟨hseven, -, hpathLt, hbits, hpositions, hweight, hlength⟩ := lightWords_shape hword
  have hhits : hits E word.slices word.path = 4 := by
    rw [hits, Finset.filter_true_of_mem, hcard]
    intro k hk
    have hk' := (lightWords_positions hword (hpositions k (hall k hk))).mpr (hall k hk)
    exact ⟨hk'.1, hpositions k (hall k hk), hk'.2⟩
  have hxor := pathCost_xor h hfits word.path
  rw [hhits, hweight] at hxor
  generalize word.slices = t at *
  generalize word.path = d at *
  obtain ⟨t, rfl⟩ : ∃ t', t = t' + 1 := ⟨t - 1, by omega⟩
  have hsentLt := inputPath_lt msg n (t + 1)
  have hotherLt := Nat.xor_lt_two_pow hsentLt hpathLt
  have hotherEnd : (inputPath msg n (t + 1) ^^^ d) % 64 = inputPath msg n (t + 1) % 64 := by
    rw [xor_mod_64, show d % 64 = 0 by omega, Nat.xor_zero]
  obtain hshort | hbit := hlost
  · -- a word of seven makes the other path cheaper
    have hmetric := Trellis.pathCost_best (T := trellis soft (slicesOf n)) (by simp)
      (live_inputPath soft msg n (t + 1))
    rw [hsurvives] at hmetric
    have hle := Trellis.metric_le (T := trellis soft (slicesOf n)) hotherLt
    rw [trellis_memory, show 2 ^ 6 = 64 from rfl, hotherEnd, ← hmetric] at hle
    omega
  · -- of the two arrivals the sent one is selected, and yet it is not the cheaper one
    have hbefore := survives_of_later (k := 1) hsurvives
    have hsentArrive := arrive_of_best soft n hsentLt (by
      rw [inputPath_half]
      exact hbefore)
    have hotherArrive := arrive_le soft n hotherLt
    have hlt := arrive_lt_of_survives (by omega) hsurvives hbit hotherEnd
      (by rw [Nat.testBit_xor, testBit_six_of_mod hbits, Bool.xor_true])
    omega

/-! ## Decoding -/

/-- A difference that closes with the block and starts in its last two free bits is heavy. -/
theorem weight_tail {t d : Nat} (ht : 8 < t) (hend : d % 64 = 0) (hlt : d < 2 ^ 8) (hd : d ≠ 0) :
    9 ≤ weight t d := by
  have hlate : ∀ k, 0 < k → k ≤ 8 → 2 ^ (k - 1) ≤ d → d < 2 ^ k →
      weight t d = weight k d + 2 := by
    intro k hpos hk hlow hhigh
    have hlate := weight_late hpos hlow hhigh (show 0 < t - k by omega)
    rwa [Nat.sub_add_cancel (by omega)] at hlate
  have hcases : d = 64 ∨ d = 128 ∨ d = 192 := by omega
  obtain rfl | rfl | rfl := hcases
  · have hseven : 7 ≤ weight 7 64 := by decide +kernel
    have := hlate 7 (by omega) (by omega) (by omega) (by omega)
    omega
  · have hseven : 7 ≤ weight 8 128 := by decide +kernel
    have := hlate 8 (by omega) (by omega) (by omega) (by omega)
    omega
  · have hseven : 7 ≤ weight 8 192 := by decide +kernel
    have := hlate 8 (by omega) (by omega) (by omega) (by omega)
    omega

/-- The first burst is the beginning of one selected path. -/
theorem survives_of_first_burst (hlong : 146 ≤ slicesOf n)
    (hbits : ∀ u, u < 105 → decodedBit soft (slicesOf n) u = inputBit msg n u) :
    Survives soft msg n 105 := by
  obtain ⟨hlt, -, -⟩ := winner_isLeast ((trellis soft (slicesOf n)).metric 146)
    (skipAt (slicesOf n) 146)
  have hpow : 2 ^ 6 ≤ 2 ^ (105 + 41) := Nat.pow_le_pow_right (by omega) (by omega)
  have hshift := Trellis.best_shift (T := trellis soft (slicesOf n)) (t := 105)
    (s := winner ((trellis soft (slicesOf n)).metric 146) (skipAt (slicesOf n) 146)) (by simp) 41
    ⟨hlt, by omega⟩
  have hv := Trellis.best_shift_lt (T := trellis soft (slicesOf n)) (t := 105)
    (s := winner ((trellis soft (slicesOf n)).metric 146) (skipAt (slicesOf n) 146)) 41
  have hread : ∀ u, u < 105 → decodedBit soft (slicesOf n) u =
      ((trellis soft (slicesOf n)).best 146 (winner ((trellis soft (slicesOf n)).metric 146)
        (skipAt (slicesOf n) 146))).testBit (145 - u) := by
    intro u hu
    have htime : burstTime u = 146 := by
      simp only [burstTime]
      omega
    simp only [decodedBit, htime]
    rw [if_pos hlong]
  generalize (trellis soft (slicesOf n)).best 146 (winner ((trellis soft (slicesOf n)).metric 146)
    (skipAt (slicesOf n) 146)) = v at *
  have hsame : v / 2 ^ 41 = inputPath msg n 105 := by
    -- its bits are the output bits, and these are the message
    refine Nat.eq_of_testBit_eq fun i => ?_
    have hsentLt := inputPath_lt msg n 105
    by_cases hi : i < 105
    · have hsentBit := inputPath_testBit msg n (t := 105) (u := 104 - i) (by omega)
      rw [show 105 - 1 - (104 - i) = i by omega] at hsentBit
      rw [hsentBit, ← hbits _ (by omega), hread _ (by omega), Nat.testBit_div_two_pow]
      congr 1
      omega
    · have hpow : 2 ^ 105 ≤ 2 ^ i := Nat.pow_le_pow_right (by omega) (by omega)
      rw [Nat.testBit_lt_two_pow (by omega), Nat.testBit_lt_two_pow (by omega)]
  change v / 2 ^ 41 = (trellis soft (slicesOf n)).best 105 (v / 2 ^ 41 % 64) at hshift
  rw [hsame] at hshift
  exact hshift.symm

section Flipped

variable (h : Flipped soft msg n E) (hE : E.card ≤ 4)

include h hE

/-- A path that is no dearer than the sent one joined it within the last 41 slices, if the
    sent path survives. -/
theorem agrees_of_survives {t s : Nat} (hlong : 146 ≤ t) (ht : t ≤ slicesOf n)
    (hlive : (trellis soft (slicesOf n)).Live t s)
    (hle : (trellis soft (slicesOf n)).metric t s ≤
      (trellis soft (slicesOf n)).metric t (inputPath msg n t % 64))
    (hsurvives : ∀ t', t' ≤ t → Survives soft msg n t') :
    (trellis soft (slicesOf n)).best t s / 2 ^ 41 = inputPath msg n (t - 41) := by
  have hsentLt := inputPath_lt msg n t
  have hv := Trellis.best_lt (T := trellis soft (slicesOf n)) t s
  have hend := Trellis.best_state (T := trellis soft (slicesOf n)) (by simp) hlive
  have hcheaper := best_cheaper msg hlive hle
  rw [trellis_memory, show 2 ^ 6 = 64 from rfl] at hend
  generalize hbest : (trellis soft (slicesOf n)).best t s = v at hv hend hcheaper ⊢
  rw [← hend] at hlive hbest
  have hweight := weight_le_hits h ht hcheaper
  have hhits := hits_le E t (inputPath msg n t ^^^ v)
  have hshift := inputPath_shift msg n (t - 41) 41
  rw [Nat.sub_add_cancel (by omega)] at hshift
  rw [← hshift]
  by_contra hne
  have hdiff : 2 ^ 41 ≤ inputPath msg n t ^^^ v := by
    by_contra hsmall
    have hzero : (inputPath msg n t ^^^ v) / 2 ^ 41 = 0 := Nat.div_eq_of_lt (by omega)
    rw [xor_div, Nat.xor_eq_zero_iff] at hzero
    exact hne hzero.symm
  obtain ⟨k, hpos, hk, hlow, hhigh⟩ := exists_length (by omega) (Nat.xor_lt_two_pow hsentLt hv)
  have hlength : 42 ≤ k := by
    by_contra hshort
    have hpow : 2 ^ k ≤ 2 ^ 41 := Nat.pow_le_pow_right (by omega) (by omega)
    omega
  have hopen : Open k (inputPath msg n t ^^^ v) :=
    ⟨hpos, hlow, hhigh, fun j hj =>
      apart_of_survives hlive hbest hlow hk hj (hsurvives _ (by omega))⟩
  have hheavy := weight_of_open (by omega) hopen
  -- a difference of 42 slices is heavy even without its first pair
  by_cases hlead : k < t
  · have hlate := weight_late hpos hlow hhigh (show 0 < t - k by omega)
    rw [Nat.sub_add_cancel hk] at hlate
    omega
  · rw [show k = t by omega] at hheavy
    omega

/-- Unless the errors hit a word, the decoded bits are the message. -/
theorem decodedBit_of_correctable (hcorrectable : ¬ Uncorrectable msg n E) {u : Nat}
    (hu : u < slicesOf n - 6) : decodedBit soft (slicesOf n) u = inputBit msg n u := by
  have hsurvives : ∀ t, t ≤ slicesOf n → Survives soft msg n t :=
    fun t ht => survives_of_correctable h hE hcorrectable ht
  refine decodedBit_of_agrees (fun t hge hle => ?_) ?_ hu
  · have hpow : 2 ^ 6 ≤ 2 ^ t := Nat.pow_le_pow_right (by omega) (by omega)
    obtain ⟨hlt, -, hmin⟩ := winner_isLeast ((trellis soft (slicesOf n)).metric t)
      (skipAt (slicesOf n) t)
    exact agrees_of_survives h hE hge hle ⟨hlt, by omega⟩
      (hmin _ (Nat.mod_lt _ (by omega)) (skipAt_dvd_state hle))
      fun t' ht' => hsurvives t' (by omega)
  · have hlast := hsurvives (slicesOf n) (Nat.le_refl _)
    rw [Survives, inputPath_end_state] at hlast
    exact hlast

/-- The last free bits are not worth an error: the whole output comes from one path, which
    could only be wrong there. -/
theorem survives_end_of_decoded (hn : 1 ≤ n) (hshort : slicesOf n < 146)
    (hbits : ∀ u, u < 8 * n → decodedBit soft (slicesOf n) u = inputBit msg n u) :
    Survives soft msg n (slicesOf n) := by
  have hslices : slicesOf n = 8 * n + 8 := rfl
  have hlive : (trellis soft (slicesOf n)).Live (slicesOf n) 0 :=
    ⟨by simp, Nat.two_pow_pos _⟩
  have hend := Trellis.best_state (T := trellis soft (slicesOf n)) (by simp) hlive
  have hv := Trellis.best_lt (T := trellis soft (slicesOf n)) (slicesOf n) 0
  have hcheaper := best_cheaper msg hlive (by rw [inputPath_end_state])
  have hread : ∀ u, u < 8 * n → decodedBit soft (slicesOf n) u =
      ((trellis soft (slicesOf n)).best (slicesOf n) 0).testBit (slicesOf n - 1 - u) := by
    intro u hu
    simp only [decodedBit]
    rw [if_neg (by simp only [burstTime]; omega)]
  rw [Survives, inputPath_end_state]
  generalize (trellis soft (slicesOf n)).best (slicesOf n) 0 = v at *
  have hweight := weight_le_hits h (Nat.le_refl _) hcheaper
  have hhits := hits_le E (slicesOf n) (inputPath msg n (slicesOf n) ^^^ v)
  have hdiffEnd : (inputPath msg n (slicesOf n) ^^^ v) % 64 = 0 := by
    rw [trellis_memory, show 2 ^ 6 = 64 from rfl] at hend
    rw [xor_mod_64, inputPath_end_state, hend, Nat.xor_self]
  have hdiffLt : inputPath msg n (slicesOf n) ^^^ v < 2 ^ 8 := by
    -- only the two free bits of the tail are not in the output
    refine Nat.lt_pow_two_of_testBit _ fun i hi => ?_
    by_cases hin : i < slicesOf n
    · have hsentBit := inputPath_testBit msg n (t := slicesOf n)
        (u := slicesOf n - 1 - i) (by omega)
      have hread' := hread (slicesOf n - 1 - i) (by omega)
      rw [hbits _ (by omega)] at hread'
      rw [show slicesOf n - 1 - (slicesOf n - 1 - i) = i by omega] at hsentBit hread'
      rw [Nat.testBit_xor, hsentBit, hread', Bool.xor_self]
    · have hpow : 2 ^ slicesOf n ≤ 2 ^ i := Nat.pow_le_pow_right (by omega) (by omega)
      have hxorLt := Nat.xor_lt_two_pow (inputPath_lt msg n (slicesOf n)) hv
      exact Nat.testBit_lt_two_pow (by omega)
  by_contra hne
  have hheavy := weight_tail (t := slicesOf n) (by omega) hdiffEnd hdiffLt fun hzero =>
    hne (Nat.xor_eq_zero_iff.mp hzero).symm
  omega

/-- Right output bits mean that the sent path survived the slices a light word can close in. -/
theorem survives_of_decoded (hn : 1 ≤ n)
    (hbits : ∀ u, u < 8 * n → decodedBit soft (slicesOf n) u = inputBit msg n u) {t : Nat}
    (ht : t ≤ 17) (hle : t ≤ slicesOf n) : Survives soft msg n t := by
  have hslices : slicesOf n = 8 * n + 8 := rfl
  by_cases hlong : 146 ≤ slicesOf n
  · have hlater := survives_of_first_burst hlong fun u hu => hbits u (by omega)
    rw [show 105 = t + (105 - t) by omega] at hlater
    exact survives_of_later hlater
  · have hlater := survives_end_of_decoded h hE hn (Nat.lt_of_not_le hlong) hbits
    rw [← Nat.add_sub_cancel' hle] at hlater
    exact survives_of_later hlater

end Flipped

namespace Convolutional

/-- Full confidence in the bits of a buffer, but for those flipped at the positions of `E`. -/
def flippedSoft (bytes : Nat → UInt8) (E : Finset Nat) (k : Nat) : UInt8 :=
  if bufferBit bytes k ^^ decide (k ∈ E) then 255 else 0

/-- Errors that hit a light word are not corrected. -/
theorem not_returns_of_uncorrectable {dec : Convolutional} (hready : Ready dec) (neon : Bool)
    (out : Nat → UInt8) (hflipped : Flipped soft msg n E) (hn : 1 ≤ n) (hlt : 8 * n + 8 < 2 ^ 32)
    (hE : E.card ≤ 4) (huncorrectable : Uncorrectable msg n E) :
    ¬ Returns dec neon soft out msg n := by
  intro hreturns
  obtain ⟨word, hword, hfits, hcard, hall, hlost⟩ := huncorrectable
  have hbits := (returns_iff hready neon out hn hlt).mp hreturns
  exact not_survives_of_hit hflipped hword hfits hcard hall hlost
    (survives_of_decoded hflipped hE hn hbits (lightWords_shape hword).2.1 hfits)

theorem flipped_flippedSoft {enc : Convolutional} (henc : Configured 2 7 r12_7_polynomial enc)
    (encoded msg : Nat → UInt8) (n : Nat) (E : Finset Nat) :
    Flipped (flippedSoft (enc.encode msg n encoded).1 E) msg n E := by
  intro k hk
  rw [flippedSoft, encode_bit henc hk]

/-- Up to four bit errors are corrected exactly when they do not hit a light word, and the
    number of slices fits the 32-bit parameter of the phases. -/
theorem returns_flipped_iff {enc dec : Convolutional} (henc : Configured 2 7 r12_7_polynomial enc)
    (hdec : Used 2 7 r12_7_polynomial dec) (neon : Bool) (encoded out msg : Nat → UInt8) {n : Nat}
    (hn : 1 ≤ n) {E : Finset Nat} (hE : E.card ≤ 4) :
    Returns dec neon (flippedSoft (enc.encode msg n encoded).1 E) out msg n ↔
      8 * n + 8 < 2 ^ 32 ∧ ¬ Uncorrectable msg n E := by
  have hflipped := flipped_flippedSoft henc encoded msg n E
  generalize flippedSoft (enc.encode msg n encoded).1 E = soft at hflipped ⊢
  have hready := ready_used hdec
  constructor
  · intro hreturns
    have hlt : 8 * n + 8 < 2 ^ 32 := by
      by_contra hge
      exact not_returns_of_wrap hready neon out (Nat.le_of_not_lt hge) hreturns
    exact ⟨hlt, fun huncorrectable =>
      not_returns_of_uncorrectable hready neon out hflipped hn hlt hE huncorrectable hreturns⟩
  · rintro ⟨hlt, hcorrectable⟩
    refine (returns_iff hready neon out hn hlt).mpr fun u hu => ?_
    exact decodedBit_of_correctable hflipped hE hcorrectable (by simp only [slicesOf]; omega)

/-- One byte with a single error. -/
theorem returns_flipped_one :
    Returns fresh false (flippedSoft (fresh.encode (fun _ => 0x5A) 1 (fun _ => 0)).1 {6})
      (fun _ => 0) (fun _ => 0x5A) 1 ↔
      8 * 1 + 8 < 2 ^ 32 ∧ ¬ Uncorrectable (fun _ => 0x5A) 1 {6} :=
  returns_flipped_iff (configured_create create_fresh) (Used.create create_fresh) false
    (fun _ => 0) (fun _ => 0) (fun _ => 0x5A) (by omega) (by decide)

/-- One byte with four errors near its beginning: the decoder prefers another byte. -/
theorem not_returns_flipped :
    ¬ Returns fresh false (flippedSoft (fresh.encode (fun _ => 0) 1 (fun _ => 0)).1 {3, 5, 8, 9})
      (fun _ => 0) (fun _ => 0) 1 := by
  have hflipped := flipped_flippedSoft (configured_create create_fresh) (fun _ => 0) (fun _ => 0) 1
    {3, 5, 8, 9}
  generalize flippedSoft (fresh.encode (fun _ => 0) 1 (fun _ => 0)).1 {3, 5, 8, 9} = soft
    at hflipped ⊢
  refine not_returns_of_uncorrectable (ready_used (Used.create create_fresh)) false (fun _ => 0)
    hflipped (by omega) (by omega) (by decide) ?_
  exact ⟨⟨7, 0b1000000, [3, 5, 8, 9, 10, 12, 13]⟩, by decide, by decide, by decide, by decide,
    Or.inl rfl⟩

end Convolutional

end RyFi.Conv
