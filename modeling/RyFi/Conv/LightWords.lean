import RyFi.Conv.RoundTrip

/-! # Light words of the code

The difference of two paths is a path, and the outputs differ by its outputs.  `weight`
counts those after the first pair of bits, which the decoder does not see.  `search` lists
the paths that leave the zero path in the first slice and stay light: they have all met it
again after 28 slices, and only seven of them have at most eight ones.
-/

namespace RyFi.Conv

/-! ## Linearity -/

theorem codeTable_xor (a b : Nat) {j : Nat} (hj : j < 2) :
    (codeTable (a ^^^ b)).testBit j = ((codeTable a).testBit j ^^ (codeTable b).testBit j) := by
  simp only [codeTable, fillTable_testBit _ _ hj, parity_xor]

/-- Code bit `k` of a path of `t` bits. -/
def codeAt (t v k : Nat) : Bool := (codeTable (v / 2 ^ (t - 1 - k / 2) % 128)).testBit (k % 2)

theorem codeAt_xor (t a b k : Nat) : codeAt t (a ^^^ b) k = (codeAt t a k ^^ codeAt t b k) := by
  have hreg : (a ^^^ b) / 2 ^ (t - 1 - k / 2) % 128 =
      (a / 2 ^ (t - 1 - k / 2) % 128) ^^^ (b / 2 ^ (t - 1 - k / 2) % 128) := by
    rw [show (128 : Nat) = 2 ^ 7 from rfl, Nat.xor_div_two_pow, Nat.xor_mod_two_pow]
  simp only [codeAt, hreg]
  exact codeTable_xor _ _ (Nat.mod_lt _ (by omega))

theorem codeAt_half {t v k : Nat} (hk : k < 2 * t) : codeAt (t + 1) v k = codeAt t (v / 2) k := by
  simp only [codeAt]
  rw [Nat.div_div_eq_div_mul, ← Nat.pow_succ', show t + 1 - 1 - k / 2 = t - 1 - k / 2 + 1 by omega]

theorem codeAt_last (t v : Nat) {j : Nat} (hj : j < 2) :
    codeAt (t + 1) v (2 * t + j) = (codeTable (v % 128)).testBit j := by
  simp only [codeAt]
  rw [show t + 1 - 1 - (2 * t + j) / 2 = 0 by omega, show (2 * t + j) % 2 = j by omega,
    Nat.pow_zero, Nat.div_one]

/-- The sent bits are those of the sent path. -/
theorem codeAt_inputPath {msg : Nat → UInt8} {n t k : Nat} (hk : k < 2 * t) :
    codeAt t (inputPath msg n t) k = Convolutional.sentBit msg n k := by
  have hshift := inputPath_shift msg n (k / 2 + 1) (t - 1 - k / 2)
  rw [show k / 2 + 1 + (t - 1 - k / 2) = t by omega] at hshift
  rw [codeAt, hshift]
  rfl

/-! ## Counting positions -/

/-- The positions after the first pair, in `t` slices, with property `p`. -/
def count (t : Nat) (p : Nat → Bool) : Nat :=
  (List.range (2 * t)).countP fun k => decide (2 ≤ k) && p k

theorem count_succ (t : Nat) (p : Nat → Bool) :
    count (t + 1) p =
      count t p + if t = 0 then 0 else (p (2 * t)).toNat + (p (2 * t + 1)).toNat := by
  rw [count, Nat.mul_succ, List.range_succ, List.range_succ, List.countP_append, List.countP_append,
    List.countP_singleton, List.countP_singleton, ← count]
  by_cases ht : t = 0
  · subst ht
    simp
  · rw [if_neg ht, decide_eq_true (show 2 ≤ 2 * t by omega),
      decide_eq_true (show 2 ≤ 2 * t + 1 by omega), Bool.true_and, Bool.true_and]
    cases p (2 * t) <;> cases p (2 * t + 1) <;> simp

theorem count_congr {t : Nat} {p q : Nat → Bool} (h : ∀ k, k < 2 * t → p k = q k) :
    count t p = count t q := by
  refine List.countP_congr fun k hk => ?_
  rw [h k (List.mem_range.mp hk)]

/-- Inclusion and exclusion. -/
theorem count_xor (t : Nat) (p q : Nat → Bool) :
    count t (fun k => p k ^^ q k) + 2 * count t (fun k => p k && q k) = count t p + count t q := by
  induction t with
  | zero => rfl
  | succ t ih =>
    rw [count_succ, count_succ t fun k => p k && q k, count_succ t p, count_succ t q]
    by_cases ht : t = 0
    · rw [if_pos ht, if_pos ht, if_pos ht, if_pos ht]
      omega
    · rw [if_neg ht, if_neg ht, if_neg ht, if_neg ht]
      cases p (2 * t) <;> cases q (2 * t) <;> cases p (2 * t + 1) <;> cases q (2 * t + 1) <;>
        simp only [Bool.xor_false, Bool.xor_true, Bool.false_and, Bool.true_and, Bool.not_true,
          Bool.not_false, Bool.toNat_true, Bool.toNat_false] <;> omega

/-- How many positions of a finite set have the property. -/
theorem count_mem (t : Nat) (p : Nat → Bool) (E : Finset Nat) :
    count t (fun k => p k && decide (k ∈ E)) =
      (E.filter fun k => 2 ≤ k ∧ k < 2 * t ∧ p k = true).card := by
  rw [count, List.countP_eq_length_filter,
    ← List.toFinset_card_of_nodup (List.nodup_range.filter _)]
  congr 1
  ext k
  simp only [List.mem_toFinset, List.mem_filter, List.mem_range, Finset.mem_filter,
    Bool.and_eq_true, decide_eq_true_eq]
  constructor
  · rintro ⟨hlt, hle, hp, hE⟩
    exact ⟨hE, hle, hlt, hp⟩
  · rintro ⟨hE, hle, hlt, hp⟩
    exact ⟨hlt, hle, hp, hE⟩

/-! ## Weights -/

/-- The ones of a path of `t` bits after the first pair. -/
def weight (t d : Nat) : Nat := count t (codeAt t d)

/-- The parity of seven bits, folded. -/
def foldParity (x : Nat) : Nat :=
  let y := x ^^^ (x / 16)
  let z := y ^^^ (y / 4)
  (z ^^^ (z / 2)) % 2

/-- The ones of a row. -/
def rowWeight (reg : Nat) : Nat := foldParity (reg &&& 0o161) + foldParity (reg &&& 0o127)

theorem rowWeight_eq {reg : Nat} (h : reg < 128) :
    rowWeight reg = ((codeTable reg).testBit 0).toNat + ((codeTable reg).testBit 1).toNat := by
  have hall : ∀ reg : Fin 128, rowWeight reg.val =
      ((codeTable reg.val).testBit 0).toNat + ((codeTable reg.val).testBit 1).toNat := by
    decide +kernel
  exact hall ⟨reg, h⟩

theorem weight_succ (t d : Nat) :
    weight (t + 1) d = weight t (d / 2) + if t = 0 then 0 else rowWeight (d % 128) := by
  rw [weight, count_succ, rowWeight_eq (Nat.mod_lt _ (by omega)), codeAt_last t d (by omega),
    ← Nat.add_zero (2 * t), codeAt_last t d (by omega)]
  rw [count_congr fun k hk => codeAt_half hk]
  rfl

/-- A path that starts with zeros has the weight of what follows, with its first pair. -/
theorem weight_late {k d : Nat} (hk : 0 < k) (hlow : 2 ^ (k - 1) ≤ d) (hhigh : d < 2 ^ k)
    {lead : Nat} (hlead : 0 < lead) : weight (lead + k) d = weight k d + 2 := by
  induction k generalizing d with
  | zero => omega
  | succ k ih =>
    rw [← Nat.add_assoc, weight_succ, weight_succ k, if_neg (by omega)]
    by_cases hone : k = 0
    · subst hone
      have hd : d = 1 := by omega
      have hzero : ∀ t, weight t 0 = 0 := by
        intro t
        induction t with
        | zero => rfl
        | succ t iht =>
          rw [weight_succ, Nat.zero_div, iht]
          split <;> rfl
      rw [hd, show 1 / 2 = 0 from rfl, hzero, hzero]
      rfl
    · have hpow : 2 ^ k = 2 * 2 ^ (k - 1) := by
        rw [← Nat.pow_succ', Nat.succ_eq_add_one, Nat.sub_add_cancel (by omega)]
      rw [Nat.add_sub_cancel] at hlow
      rw [Nat.pow_succ] at hhigh
      rw [ih (by omega) (by omega) (by omega), if_neg hone]
      omega

/-! ## The search -/

/-- The paths that leave the zero path in the first slice and have not met it again. -/
def Open (t d : Nat) : Prop := 0 < t ∧ 2 ^ (t - 1) ≤ d ∧ d < 2 ^ t ∧ ∀ j, j < t → d / 2 ^ j % 64 ≠ 0

/-- Both continuations that stay light. -/
def extendPath (p : Nat × Nat) : List (Nat × Nat) :=
  [(2 * p.1, p.2 + rowWeight (2 * p.1 % 128)),
    (2 * p.1 + 1, p.2 + rowWeight ((2 * p.1 + 1) % 128))].filter fun q => q.2 ≤ 8

/-- One slice: the light open paths, and the words closed so far with their lengths. -/
def searchStep (t : Nat) (s : List (Nat × Nat) × List (Nat × Nat × Nat)) :
    List (Nat × Nat) × List (Nat × Nat × Nat) :=
  match s with
  | (opened, closed) =>
    let next := opened.flatMap extendPath
    (next.filter fun p => p.1 % 64 ≠ 0,
      closed ++ (next.filter fun p => p.1 % 64 = 0).map fun p => (t, p))

/-- The search after `k + 1` slices. -/
def search : Nat → List (Nat × Nat) × List (Nat × Nat × Nat)
  | 0 => ([(1, 0)], [])
  | k + 1 => searchStep (k + 2) (search k)

theorem search_succ (k : Nat) :
    (search (k + 1)).1 = ((search k).1.flatMap extendPath).filter (fun p => p.1 % 64 ≠ 0) ∧
      (search (k + 1)).2 = (search k).2 ++
        (((search k).1.flatMap extendPath).filter fun p => p.1 % 64 = 0).map fun p => (k + 2, p) :=
  ⟨rfl, rfl⟩

theorem mem_extendPath {p : Nat × Nat} {d w : Nat} (hd : d / 2 = p.1)
    (hw : w = p.2 + rowWeight (d % 128)) (hle : w ≤ 8) : (d, w) ∈ extendPath p := by
  rw [extendPath, List.mem_filter]
  refine ⟨?_, by simpa using hle⟩
  rcases Nat.mod_two_eq_zero_or_one d with hzero | hone
  · rw [show d = 2 * p.1 by omega] at hw ⊢
    rw [hw]
    exact List.mem_cons_self
  · rw [show d = 2 * p.1 + 1 by omega] at hw ⊢
    rw [hw]
    exact List.mem_cons_of_mem _ List.mem_cons_self

theorem open_half {t d : Nat} (ht : 0 < t) (h : Open (t + 1) d) : Open t (d / 2) := by
  obtain ⟨-, hlow, hhigh, hopen⟩ := h
  rw [Nat.pow_succ] at hhigh
  rw [Nat.add_sub_cancel] at hlow
  have hpow : 2 ^ t = 2 * 2 ^ (t - 1) := by
    rw [← Nat.pow_succ', Nat.succ_eq_add_one, Nat.sub_add_cancel (by omega)]
  refine ⟨ht, by omega, by omega, fun j hj => ?_⟩
  rw [Nat.div_div_eq_div_mul, ← Nat.pow_succ']
  exact hopen (j + 1) (by omega)

/-- The search finds every light open path. -/
theorem mem_search_open {k d : Nat} (h : Open (k + 1) d) (hw : weight (k + 1) d ≤ 8) :
    (d, weight (k + 1) d) ∈ (search k).1 := by
  induction k generalizing d with
  | zero =>
    obtain ⟨-, hlow, hhigh, -⟩ := h
    have hd : d = 1 := by omega
    subst hd
    exact List.mem_singleton.mpr rfl
  | succ k ih =>
    have hhalf := open_half (by omega) h
    have hsucc := weight_succ (k + 1) d
    rw [if_neg (by omega)] at hsucc
    have hmem := ih hhalf (by omega)
    rw [(search_succ k).1, List.mem_filter]
    refine ⟨List.mem_flatMap.mpr ⟨_, hmem, mem_extendPath rfl hsucc hw⟩, ?_⟩
    have hlast := h.2.2.2 0 (by omega)
    rw [Nat.pow_zero, Nat.div_one] at hlast
    simpa using hlast

/-- The search finds every light word that closes. -/
theorem mem_search_closed {k d : Nat} (h : Open (k + 1) (d / 2)) (hzero : d % 64 = 0)
    (hw : weight (k + 2) d ≤ 8) {K : Nat} (hK : k < K) :
    (k + 2, d, weight (k + 2) d) ∈ (search K).2 := by
  induction K, hK using Nat.le_induction with
  | base =>
    have hsucc : weight (k + 2) d = weight (k + 1) (d / 2) + rowWeight (d % 128) := by
      rw [weight_succ, if_neg (by omega)]
    have hmem := mem_search_open h (by omega)
    rw [(search_succ k).2]
    refine List.mem_append_right _ (List.mem_map.mpr ⟨(d, weight (k + 2) d), ?_, rfl⟩)
    rw [List.mem_filter]
    exact ⟨List.mem_flatMap.mpr ⟨_, hmem, mem_extendPath rfl hsucc hw⟩, by simpa using hzero⟩
  | succ K _ ih =>
    rw [(search_succ K).2]
    exact List.mem_append_left _ ih

/-- Number of slices, path and weight of the light words. -/
def closedWords : List (Nat × Nat × Nat) :=
  [(7, 0b1000000, 7), (8, 0b11000000, 8), (9, 0b101000000, 8), (10, 0b1101000000, 7),
    (11, 0b11011000000, 8), (13, 0b1000111000000, 8), (17, 0b10001110101000000, 8)]

theorem search_done : search 28 = ([], closedWords) := by
  decide +kernel

/-- A path that has not met the zero path after 29 slices has at least nine ones. -/
theorem weight_of_open {t d : Nat} (ht : 29 ≤ t) (h : Open t d) : 9 ≤ weight t d := by
  induction t, ht using Nat.le_induction generalizing d with
  | base =>
    by_contra hlight
    have hle : weight (28 + 1) d ≤ 8 := Nat.le_of_lt_succ (Nat.lt_of_not_le hlight)
    have hmem := mem_search_open (k := 28) h hle
    rw [search_done] at hmem
    exact absurd hmem List.not_mem_nil
  | succ t ht ih =>
    have hhalf := ih (open_half (by omega) h)
    rw [weight_succ]
    omega

/-- A word that closes is heavy or one of the seven. -/
theorem weight_of_closed {t d : Nat} (ht : 0 < t) (h : Open t (d / 2)) (hzero : d % 64 = 0)
    (hw : weight (t + 1) d ≤ 8) : (t + 1, d, weight (t + 1) d) ∈ closedWords := by
  obtain ⟨k, rfl⟩ : ∃ k, t = k + 1 := ⟨t - 1, by omega⟩
  by_cases hlong : k < 28
  · have hmem := mem_search_closed h hzero hw hlong
    rw [search_done] at hmem
    exact hmem
  · have hheavy := weight_of_open (by omega) h
    rw [weight_succ] at hw
    omega

end RyFi.Conv
