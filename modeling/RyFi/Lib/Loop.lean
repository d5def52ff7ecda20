import Mathlib.Logic.Function.Basic
import Mathlib.Data.List.Range

/-! # Counted loops, loops with a variant, and memory as a function

Three notions a shallow embedding of C needs and their rules:

* `forLoop lo hi body` — `for (i = lo; i < hi; i++) body`, with the invariant rule
  `forLoop_induct` and the unfolding equation `forLoop_succ`; `forDown` counts down to 0;
* `whileVariant cond body variant` — `while (cond) body` run on the fuel a variant gives,
  with `whileVariant_unfold` (the fuel never shows) and `whileVariant_induct`;
* `setRange`, `copyRange` — `memset` and `memcpy` on memories `Nat → α`; a single store is
  `Function.update`.
-/

namespace CLoop

universe u v

variable {σ : Type u} {α : Type v}

/-! ## Counted loops -/

/-- Runs `body i` for `i = lo, …, hi - 1`, in this order. -/
def forLoop (lo hi : Nat) (body : Nat → σ → σ) (s : σ) : σ :=
  (List.range' lo (hi - lo)).foldl (fun s i => body i s) s

theorem forLoop_of_le {lo hi : Nat} (h : hi ≤ lo) (body : Nat → σ → σ) (s : σ) :
    forLoop lo hi body s = s := by
  simp [forLoop, Nat.sub_eq_zero_of_le h]

@[simp] theorem forLoop_self (lo : Nat) (body : Nat → σ → σ) (s : σ) :
    forLoop lo lo body s = s :=
  forLoop_of_le (Nat.le_refl lo) body s

/-- The last iteration split off. -/
theorem forLoop_succ {lo hi : Nat} (h : lo ≤ hi) (body : Nat → σ → σ) (s : σ) :
    forLoop lo (hi + 1) body s = body hi (forLoop lo hi body s) := by
  have hlen : hi + 1 - lo = (hi - lo) + 1 := by omega
  have hlast : lo + (hi - lo) = hi := by omega
  simp [forLoop, hlen, List.range'_concat, List.foldl_append, hlast]

/-- A loop counted from its first index. -/
theorem forLoop_shift (lo n : Nat) (body : Nat → σ → σ) (s : σ) :
    forLoop lo (lo + n) body s = forLoop 0 n (fun i => body (lo + i)) s := by
  induction n with
  | zero => simp
  | succ n ih => rw [← Nat.add_assoc, forLoop_succ (by omega), forLoop_succ (by omega), ih]

/-- The invariant rule: `P i` holds before iteration `i`. -/
theorem forLoop_induct {lo hi : Nat} {body : Nat → σ → σ} {s : σ} (P : Nat → σ → Prop)
    (hle : lo ≤ hi) (start : P lo s)
    (step : ∀ i s, lo ≤ i → i < hi → P i s → P (i + 1) (body i s)) :
    P hi (forLoop lo hi body s) := by
  induction hi, hle using Nat.le_induction with
  | base => simpa using start
  | succ hi hle ih =>
    rw [forLoop_succ hle]
    exact step hi _ hle (by omega) (ih fun i s hlo hhi => step i s hlo (by omega))

/-- Two loops whose bodies agree on the indices they run over. -/
theorem forLoop_congr {lo hi : Nat} {body body' : Nat → σ → σ} {s : σ}
    (agree : ∀ i s, lo ≤ i → i < hi → body i s = body' i s) :
    forLoop lo hi body s = forLoop lo hi body' s := by
  rcases Nat.le_total hi lo with hle | hle
  · rw [forLoop_of_le hle, forLoop_of_le hle]
  · induction hi, hle using Nat.le_induction with
    | base => simp
    | succ hi hle ih =>
      rw [forLoop_succ hle, forLoop_succ hle,
        ih (fun i s hlo hhi => agree i s hlo (by omega)), agree hi _ hle (by omega)]

/-- Two loops over the same indices keep two states related. -/
theorem forLoop_rel {τ : Type u} {lo hi : Nat} {body : Nat → σ → σ} {body' : Nat → τ → τ}
    {s : σ} {t : τ} (R : Nat → σ → τ → Prop) (hle : lo ≤ hi) (start : R lo s t)
    (step : ∀ i s t, lo ≤ i → i < hi → R i s t → R (i + 1) (body i s) (body' i t)) :
    R hi (forLoop lo hi body s) (forLoop lo hi body' t) := by
  induction hi, hle using Nat.le_induction with
  | base => simpa using start
  | succ hi hle ih =>
    rw [forLoop_succ hle, forLoop_succ hle]
    exact step hi _ _ hle (by omega) (ih fun i s t hlo hhi => step i s t hlo (by omega))

/-- A loop that rewrites one cell per index. -/
theorem forLoop_modify (lo hi : Nat) (value : Nat → α → α) (m : Nat → α) (j : Nat) :
    forLoop lo hi (fun i m => Function.update m i (value i (m i))) m j =
      if lo ≤ j ∧ j < hi then value j (m j) else m j := by
  rcases Nat.le_total hi lo with hle | hle
  · rw [forLoop_of_le hle, if_neg (by omega)]
  · induction hi, hle using Nat.le_induction generalizing j with
    | base => simp
    | succ hi hle ih =>
      rw [forLoop_succ hle, Function.update_apply, ih, ih]
      split
      · subst j; simp [hle]
      · congr 1; apply propext; omega

/-- A loop that stores one value per index. -/
theorem forLoop_update (lo hi : Nat) (value : Nat → α) (m : Nat → α) (j : Nat) :
    forLoop lo hi (fun i m => Function.update m i (value i)) m j =
      if lo ≤ j ∧ j < hi then value j else m j :=
  forLoop_modify lo hi (fun i _ => value i) m j

/-- A loop that stores its values at positions of its own. -/
theorem forLoop_store {n : Nat} {p : Nat → Nat}
    (hpos : ∀ i k, i < n → k < n → p i = p k → i = k) (value : Nat → α) (m : Nat → α)
    {i : Nat} (hi : i < n) :
    forLoop 0 n (fun i m => Function.update m (p i) (value i)) m (p i) = value i := by
  have hloop := @forLoop_induct _ 0 n (fun i m => Function.update m (p i) (value i)) m
    (fun k m => ∀ i, i < k → m (p i) = value i) (Nat.zero_le n)
    (fun i hi => absurd hi (Nat.not_lt_zero i)) ?_
  · exact hloop i hi
  · intro k m _ hk hm i hi
    by_cases heq : p i = p k
    · rw [hpos i k (by omega) hk heq, Function.update_self]
    · rw [Function.update_of_ne heq]
      exact hm i (Nat.lt_of_le_of_ne (Nat.lt_succ_iff.mp hi) fun h => heq (by rw [h]))

theorem forLoop_store_other {n : Nat} {p : Nat → Nat} {j : Nat}
    (hpos : ∀ i, i < n → p i ≠ j) (value : Nat → α) (m : Nat → α) :
    forLoop 0 n (fun i m => Function.update m (p i) (value i)) m j = m j :=
  forLoop_induct (fun _ (m' : Nat → α) => m' j = m j) (Nat.zero_le n) rfl fun i m' _ hi hm => by
    rw [Function.update_of_ne (Ne.symm (hpos i hi)), hm]

/-- Runs `body i` for `i = n - 1, …, 0`, in this order. -/
def forDown (n : Nat) (body : Nat → σ → σ) (s : σ) : σ :=
  forLoop 0 n (fun k => body (n - 1 - k)) s

/-- The invariant rule: `P i` holds when the iterations from `i` on have run. -/
theorem forDown_induct {n : Nat} {body : Nat → σ → σ} {s : σ} (P : Nat → σ → Prop)
    (start : P n s) (step : ∀ i s, i < n → P (i + 1) s → P i (body i s)) :
    P 0 (forDown n body s) := by
  have hloop := @forLoop_induct _ 0 n (fun k => body (n - 1 - k)) s
    (fun k s => P (n - k) s) (Nat.zero_le n) start
    fun k s _ hk hs => by
      have hnext := step (n - 1 - k) s (by omega)
      rw [show n - 1 - k + 1 = n - k by omega] at hnext
      rw [show n - (k + 1) = n - 1 - k by omega]
      exact hnext hs
  rw [Nat.sub_self] at hloop
  exact hloop

/-! ## Loops with a variant -/

/-- Runs `body` while `cond` holds, at most `fuel` times. -/
def whileFuel (cond : σ → Bool) (body : σ → σ) : Nat → σ → σ
  | 0, s => s
  | fuel + 1, s => if cond s then whileFuel cond body fuel (body s) else s

/-- `while (cond) body`, run on the fuel its variant gives. -/
def whileVariant (cond : σ → Bool) (body : σ → σ) (variant : σ → Nat) (s : σ) : σ :=
  whileFuel cond body (variant s) s

section Variant

variable {cond : σ → Bool} {body : σ → σ} {variant : σ → Nat}

theorem whileFuel_of_not {s : σ} (h : cond s = false) (fuel : Nat) :
    whileFuel cond body fuel s = s := by
  cases fuel <;> simp [whileFuel, h]

/-- Fuel beyond the variant changes nothing. -/
theorem whileFuel_eq_of_le (decreases : ∀ s, cond s = true → variant (body s) < variant s)
    {fuel fuel' : Nat} {s : σ} (h : variant s ≤ fuel) (h' : variant s ≤ fuel') :
    whileFuel cond body fuel s = whileFuel cond body fuel' s := by
  induction fuel generalizing fuel' s with
  | zero =>
    have done : cond s = false := by
      by_contra hc
      have := decreases s (by simpa using hc)
      omega
    rw [whileFuel_of_not done, whileFuel_of_not done]
  | succ fuel ih =>
    cases hc : cond s with
    | false => rw [whileFuel_of_not hc, whileFuel_of_not hc]
    | true =>
      have hlt := decreases s hc
      obtain ⟨fuel', rfl⟩ : ∃ k, fuel' = k + 1 := ⟨fuel' - 1, by omega⟩
      simp only [whileFuel, hc, if_true]
      exact ih (by omega) (by omega)

/-- The loop does one iteration and runs on: its fuel is never what stops it. -/
theorem whileVariant_unfold (decreases : ∀ s, cond s = true → variant (body s) < variant s)
    (s : σ) :
    whileVariant cond body variant s =
      if cond s then whileVariant cond body variant (body s) else s := by
  cases hc : cond s with
  | false => simp [whileVariant, whileFuel_of_not hc]
  | true =>
    have hlt := decreases s hc
    obtain ⟨fuel, hfuel⟩ : ∃ k, variant s = k + 1 := ⟨variant s - 1, by omega⟩
    simp only [whileVariant, hfuel, whileFuel, hc, if_true]
    exact whileFuel_eq_of_le decreases (by omega) le_rfl

theorem whileVariant_of_not {s : σ} (h : cond s = false) :
    whileVariant cond body variant s = s :=
  whileFuel_of_not h _

theorem whileVariant_of_cond
    (decreases : ∀ s, cond s = true → variant (body s) < variant s) {s : σ}
    (h : cond s = true) :
    whileVariant cond body variant s = whileVariant cond body variant (body s) := by
  rw [whileVariant_unfold decreases, if_pos h]

/-- The invariant rule: what every iteration preserves holds at the exit, where the
    condition has become false. -/
theorem whileVariant_induct
    (decreases : ∀ s, cond s = true → variant (body s) < variant s) (P : σ → Prop) {s : σ}
    (start : P s) (step : ∀ s, P s → cond s = true → P (body s)) :
    P (whileVariant cond body variant s) ∧
      cond (whileVariant cond body variant s) = false := by
  induction hn : variant s using Nat.strong_induction_on generalizing s with
  | h n ih =>
    cases hc : cond s with
    | false => rw [whileVariant_of_not hc]; exact ⟨start, hc⟩
    | true =>
      rw [whileVariant_of_cond decreases hc]
      exact ih _ (hn ▸ decreases s hc) (step s start hc) rfl

/-- The loop is finitely many iterations: the condition holds before each and fails after the
    last. -/
theorem whileVariant_iterate (decreases : ∀ s, cond s = true → variant (body s) < variant s)
    (s : σ) :
    ∃ n, n ≤ variant s ∧ whileVariant cond body variant s = body^[n] s ∧
      cond (body^[n] s) = false ∧ ∀ k, k < n → cond (body^[k] s) = true := by
  induction hn : variant s using Nat.strong_induction_on generalizing s with
  | h m ih =>
    cases hc : cond s with
    | false =>
      exact ⟨0, Nat.zero_le m, whileVariant_of_not hc, hc,
        fun k hk => absurd hk (Nat.not_lt_zero k)⟩
    | true =>
      have hlt := decreases s hc
      obtain ⟨n, hle, heq, hexit, hrun⟩ := ih _ (hn ▸ hlt) (body s) rfl
      refine ⟨n + 1, by omega, ?_, hexit, fun k hk => ?_⟩
      · rw [whileVariant_of_cond decreases hc, heq, Function.iterate_succ_apply]
      · cases k with
        | zero => exact hc
        | succ k => exact hrun k (by omega)

end Variant

/-! ## Stores and copies of ranges -/

/-- `memset(&dst[at], value, n)`. -/
def setRange (dst : Nat → α) (at_ : Nat) (value : α) (n : Nat) : Nat → α :=
  fun i => if at_ ≤ i ∧ i < at_ + n then value else dst i

theorem setRange_inside {dst : Nat → α} {value : α} {at_ n i : Nat} (h : at_ ≤ i)
    (h' : i < at_ + n) : setRange dst at_ value n i = value :=
  if_pos ⟨h, h'⟩

theorem setRange_above {dst : Nat → α} {value : α} {at_ n i : Nat} (h : at_ + n ≤ i) :
    setRange dst at_ value n i = dst i :=
  if_neg (by omega)

/-- `memcpy(&dst[at], &src[from], n)`. -/
def copyRange (dst : Nat → α) (at_ : Nat) (src : Nat → α) (from_ n : Nat) : Nat → α :=
  fun i => if at_ ≤ i ∧ i < at_ + n then src (from_ + (i - at_)) else dst i

theorem copyRange_inside {dst src : Nat → α} {at_ from_ n j : Nat} (h : j < n) :
    copyRange dst at_ src from_ n (at_ + j) = src (from_ + j) := by
  simp only [copyRange]
  rw [if_pos (by omega), Nat.add_sub_cancel_left]

theorem copyRange_below {dst src : Nat → α} {at_ from_ n i : Nat} (h : i < at_) :
    copyRange dst at_ src from_ n i = dst i :=
  if_neg (by omega)

theorem copyRange_above {dst src : Nat → α} {at_ from_ n i : Nat} (h : at_ + n ≤ i) :
    copyRange dst at_ src from_ n i = dst i :=
  if_neg (by omega)

end CLoop
