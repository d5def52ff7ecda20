import RyFi.Conv.Convolutional

/-! # The NEON versions are bit-exact

Both versions of add-compare-select fill the same slice (`acsEntry`), and both versions of
the search return the first state of least error (`FirstMin`), whose tie-break is the
lowest state.
-/

namespace RyFi.Conv

open CLoop

/-! ## Add-compare-select -/

namespace Convolutional

/-- The entry of successor `j`: its metric and its history bit. -/
def acsEntry (pairs : PairLookup) (highbase : Nat) (readErrors : Nat → UInt16) (j : Nat) :
    UInt16 × UInt8 :=
  let low := pairs.distances (pairs.keys (j / 2))
  let high := pairs.distances (pairs.keys (highbase + j / 2))
  if j % 2 = 0 then
    select (lowHalf low + readErrors (j / 2)) (lowHalf high + readErrors (highbase + j / 2))
  else
    select (highHalf low + readErrors (j / 2)) (highHalf high + readErrors (highbase + j / 2))

/-- The slice with its first `n` entries filled. -/
def filled (entry : Nat → UInt16 × UInt8) (s : Slice) (n : Nat) : Slice where
  errors j := if j < n then (entry j).1 else s.errors j
  history j := if j < n then (entry j).2 else s.history j

theorem filled_store (entry : Nat → UInt16 × UInt8) (s : Slice) (n : Nat) :
    (filled entry s n).store n (entry n) = filled entry s (n + 1) := by
  simp only [Slice.store, filled, Slice.mk.injEq]
  constructor <;>
  · funext j
    rw [Function.update_apply]
    by_cases hj : j = n
    · rw [if_pos hj, if_pos (by omega), hj]
    · rw [if_neg hj]
      by_cases hlt : j < n
      · rw [if_pos hlt, if_pos (by omega)]
      · rw [if_neg hlt, if_neg (by omega)]

variable (pairs : PairLookup) (highbase : Nat) (readErrors : Nat → UInt16) (s : Slice)

theorem acsScalar_eq :
    acsScalar pairs highbase readErrors s =
      filled (acsEntry pairs highbase readErrors) s (2 * highbase) := by
  refine forLoop_induct
    (fun p t => t = filled (acsEntry pairs highbase readErrors) s (2 * p)) (Nat.zero_le _) ?_ ?_
  · simp [filled]
  · rintro p t - hp rfl
    have hentry : acsEntry pairs highbase readErrors (2 * p) =
        select (lowHalf (pairs.distances (pairs.keys p)) + readErrors p)
          (lowHalf (pairs.distances (pairs.keys (highbase + p))) + readErrors (highbase + p)) := by
      have hdiv : 2 * p / 2 = p := by omega
      have hmod : 2 * p % 2 = 0 := by omega
      simp only [acsEntry, hdiv, hmod, if_true]
    have hentry' : acsEntry pairs highbase readErrors (2 * p + 1) =
        select (highHalf (pairs.distances (pairs.keys p)) + readErrors p)
          (highHalf (pairs.distances (pairs.keys (highbase + p))) + readErrors (highbase + p)) := by
      have hdiv : (2 * p + 1) / 2 = p := by omega
      have hmod : ¬ (2 * p + 1) % 2 = 0 := by omega
      simp only [acsEntry, hdiv, hmod, if_false]
    simp only [← hentry, ← hentry']
    rw [filled_store, filled_store]
    rfl

/-- Two interleaved registers fill sixteen entries. -/
theorem store2_filled {α : Type} (entry : Nat → α) (dst : Nat → α) (c : Nat) (a b : Fin 8 → α)
    (ha : ∀ k : Fin 8, a k = entry (16 * c + 2 * k.val))
    (hb : ∀ k : Fin 8, b k = entry (16 * c + 2 * k.val + 1)) :
    store2 (fun j => if j < 16 * c then entry j else dst j) (16 * c) a b =
      fun j => if j < 16 * (c + 1) then entry j else dst j := by
  funext j
  simp only [store2]
  by_cases hin : 16 * c ≤ j ∧ j < 16 * c + 16
  · rw [dif_pos hin, if_pos (by omega : j < 16 * (c + 1))]
    by_cases heven : (j - 16 * c) % 2 = 0
    · rw [if_pos heven, ha]
      congr 1
      simp only
      omega
    · rw [if_neg heven, hb]
      congr 1
      simp only
      omega
  · rw [dif_neg hin]
    by_cases hlow : j < 16 * c
    · rw [if_pos hlow, if_pos (by omega)]
    · rw [if_neg hlow, if_neg (by omega)]

theorem min_eq_select (a b : UInt16) : (if a ≤ b then a else b) = (select a b).1 := by
  unfold select
  split <;> rfl

/-- The masked comparison is the history bit. -/
theorem lt_eq_select (a b : UInt16) :
    (((if b < a then 0xFFFF else 0) : UInt16) &&& 1).toUInt8 = (select a b).2 := by
  unfold select
  by_cases hle : a ≤ b
  · rw [if_pos hle, if_neg (UInt16.not_lt.mpr hle)]
    rfl
  · rw [if_neg hle, if_pos (UInt16.not_le.mp hle)]
    rfl

theorem acsLanes_eq (c : Nat) :
    acsLanes pairs highbase readErrors c
        (filled (acsEntry pairs highbase readErrors) s (16 * c)) =
      filled (acsEntry pairs highbase readErrors) s (16 * (c + 1)) := by
  -- lane k fills the states 2k and 2k + 1 of its chunk
  have heven : ∀ k : Fin 8, acsEntry pairs highbase readErrors (16 * c + 2 * k.val) =
      select (lowHalf (pairs.distances (pairs.keys (8 * c + k.val))) + readErrors (8 * c + k.val))
        (lowHalf (pairs.distances (pairs.keys (highbase + 8 * c + k.val))) +
          readErrors (highbase + 8 * c + k.val)) := by
    intro k
    have hdiv : (16 * c + 2 * k.val) / 2 = 8 * c + k.val := by omega
    have hmod : (16 * c + 2 * k.val) % 2 = 0 := by omega
    have hassoc : highbase + (8 * c + k.val) = highbase + 8 * c + k.val := by omega
    simp only [acsEntry, hdiv, hmod, if_true, hassoc]
  have hodd : ∀ k : Fin 8, acsEntry pairs highbase readErrors (16 * c + 2 * k.val + 1) =
      select (highHalf (pairs.distances (pairs.keys (8 * c + k.val))) + readErrors (8 * c + k.val))
        (highHalf (pairs.distances (pairs.keys (highbase + 8 * c + k.val))) +
          readErrors (highbase + 8 * c + k.val)) := by
    intro k
    have hdiv : (16 * c + 2 * k.val + 1) / 2 = 8 * c + k.val := by omega
    have hmod : ¬ (16 * c + 2 * k.val + 1) % 2 = 0 := by omega
    have hassoc : highbase + (8 * c + k.val) = highbase + 8 * c + k.val := by omega
    simp only [acsEntry, hdiv, hmod, if_false, hassoc]
  have hlow : ∀ (f : Nat → UInt32) (k : Fin 8), halves f (2 * k.val) = lowHalf (f k.val) := by
    intro f k
    have hdiv : 2 * k.val / 2 = k.val := by omega
    have hmod : 2 * k.val % 2 = 0 := by omega
    simp only [halves, hdiv, hmod, if_true]
  have hhigh : ∀ (f : Nat → UInt32) (k : Fin 8),
      halves f (2 * k.val + 1) = highHalf (f k.val) := by
    intro f k
    have hdiv : (2 * k.val + 1) / 2 = k.val := by omega
    have hmod : ¬ (2 * k.val + 1) % 2 = 0 := by omega
    simp only [halves, hdiv, hmod, if_false]
  have hat : 2 * (8 * c) = 16 * c := by omega
  simp only [acsLanes, filled, hat, Slice.mk.injEq]
  constructor
  · refine store2_filled (fun j => (acsEntry pairs highbase readErrors j).1) _ c _ _ ?_ ?_
    · intro k
      simp only [heven, U16x8.min, U16x8.add, U16x8.load2, U16x8.load, hlow, min_eq_select]
    · intro k
      simp only [hodd, U16x8.min, U16x8.add, U16x8.load2, U16x8.load, hhigh, min_eq_select]
  · refine store2_filled (fun j => (acsEntry pairs highbase readErrors j).2) _ c _ _ ?_ ?_
    · intro k
      simp only [heven, U16x8.narrow, U16x8.and, U16x8.lt, U16x8.dup, U16x8.add, U16x8.load2,
        U16x8.load, hlow, lt_eq_select]
    · intro k
      simp only [hodd, U16x8.narrow, U16x8.and, U16x8.lt, U16x8.dup, U16x8.add, U16x8.load2,
        U16x8.load, hhigh, lt_eq_select]

/-- Both versions of add-compare-select write the same errors and history. -/
theorem acs_eq (neon : Bool) :
    acs neon pairs highbase readErrors s =
      filled (acsEntry pairs highbase readErrors) s (2 * highbase) := by
  unfold acs
  split
  next h =>
    have hloop := @forLoop_induct _ 0 (highbase / 8) (acsLanes pairs highbase readErrors) s
      (fun c t => t = filled (acsEntry pairs highbase readErrors) s (16 * c)) (Nat.zero_le _)
      (by simp [filled]) (by
        rintro c t - - rfl
        exact acsLanes_eq pairs highbase readErrors s c)
    rw [hloop]
    congr 1
    omega
  next => exact acsScalar_eq pairs highbase readErrors s

end Convolutional

/-! ## Search -/

/-- `best` is the first index of `P` with the least value, or 0 when every value is the
    sentinel of the search. -/
def FirstMin (f : Nat → UInt16) (P : Nat → Prop) (best : Nat) (value : UInt16) : Prop :=
  (value.toNat = 65535 ∧ best = 0 ∧ ∀ i, P i → (f i).toNat = 65535) ∨
    (P best ∧ value = f best ∧ value.toNat < 65535 ∧
      ∀ i, P i → (f best).toNat < (f i).toNat ∨ ((f best).toNat = (f i).toNat ∧ best ≤ i))

namespace HistoryBuffer

variable {f : Nat → UInt16} {P Q : Nat → Prop} {b b' : Nat} {v v' : UInt16}

theorem firstMin_unique (h : FirstMin f P b v) (h' : FirstMin f P b' v') : b = b' := by
  obtain ⟨-, rfl, hall⟩ | ⟨hb, rfl, hlt, hmin⟩ := h
  · obtain ⟨-, rfl, -⟩ | ⟨hb', rfl, hlt', -⟩ := h'
    · rfl
    · have := hall b' hb'
      omega
  · obtain ⟨-, rfl, hall⟩ | ⟨hb', rfl, hlt', hmin'⟩ := h'
    · have := hall b hb
      omega
    · have h1 := hmin b' hb'
      have h2 := hmin' b hb
      omega

theorem firstMin_congr (hPQ : ∀ i, P i ↔ Q i) (h : FirstMin f P b v) : FirstMin f Q b v := by
  have heq : P = Q := funext fun i => propext (hPQ i)
  rw [← heq]
  exact h

/-- One more index, behind all others. -/
theorem firstMin_step (h : FirstMin f P b v) {i : Nat} (hlast : ∀ j, P j → j < i) :
    FirstMin f (fun j => P j ∨ j = i) (if f i < v then i else b) (if f i < v then f i else v) := by
  by_cases hlt : f i < v
  · rw [if_pos hlt, if_pos hlt]
    rw [UInt16.lt_iff_toNat_lt] at hlt
    have hmax := v.toNat_lt
    refine Or.inr ⟨Or.inr rfl, rfl, by omega, ?_⟩
    rintro j (hj | rfl)
    · obtain ⟨-, -, hall⟩ | ⟨-, rfl, -, hmin⟩ := h
      · have := hall j hj
        omega
      · have := hmin j hj
        omega
    · exact Or.inr ⟨rfl, Nat.le_refl _⟩
  · rw [if_neg hlt, if_neg hlt]
    rw [UInt16.lt_iff_toNat_lt] at hlt
    have hmax := (f i).toNat_lt
    obtain ⟨hv, hb, hall⟩ | ⟨hb, rfl, hvlt, hmin⟩ := h
    · refine Or.inl ⟨hv, hb, ?_⟩
      rintro j (hj | rfl)
      · exact hall j hj
      · omega
    · refine Or.inr ⟨Or.inl hb, rfl, hvlt, ?_⟩
      rintro j (hj | rfl)
      · exact hmin j hj
      · have := hlast b hb
        omega

/-- Two searches joined, as the last loop of the NEON version does. -/
theorem firstMin_join (h : FirstMin f P b v) (h' : FirstMin f Q b' v') :
    FirstMin f (fun j => P j ∨ Q j)
      (if v' < v ∨ (v' = v ∧ b' < b) then b' else b)
      (if v' < v ∨ (v' = v ∧ b' < b) then v' else v) := by
  by_cases hlt : v' < v ∨ (v' = v ∧ b' < b)
  · -- the right part is better, or equally good and earlier
    rw [if_pos hlt, if_pos hlt]
    rw [UInt16.lt_iff_toNat_lt, ← UInt16.toNat_inj] at hlt
    have hmax := v.toNat_lt
    obtain ⟨hv', rfl, hall'⟩ | ⟨hb', rfl, hvlt', hmin'⟩ := h'
    · obtain ⟨hv, rfl, hall⟩ | ⟨hb, rfl, hvlt, hmin⟩ := h
      · omega
      · omega
    · refine Or.inr ⟨Or.inr hb', rfl, hvlt', ?_⟩
      rintro j (hj | hj)
      · obtain ⟨-, -, hall⟩ | ⟨-, rfl, -, hmin⟩ := h
        · have := hall j hj
          omega
        · have := hmin j hj
          omega
      · exact hmin' j hj
  · rw [if_neg hlt, if_neg hlt]
    rw [UInt16.lt_iff_toNat_lt, ← UInt16.toNat_inj] at hlt
    obtain ⟨hv, hb, hall⟩ | ⟨hb, rfl, hvlt, hmin⟩ := h
    · obtain ⟨hv', -, hall'⟩ | ⟨hb', rfl, hvlt', hmin'⟩ := h'
      · refine Or.inl ⟨hv, hb, ?_⟩
        rintro j (hj | hj)
        · exact hall j hj
        · exact hall' j hj
      · omega
    · refine Or.inr ⟨Or.inl hb, rfl, hvlt, ?_⟩
      rintro j (hj | hj)
      · exact hmin j hj
      · obtain ⟨-, -, hall'⟩ | ⟨-, rfl, -, hmin'⟩ := h'
        · have := hall' j hj
          omega
        · have := hmin' j hj
          omega

theorem firstMin_empty (hP : ∀ i, ¬ P i) : FirstMin f P 0 0xFFFF :=
  Or.inl ⟨rfl, rfl, fun i hi => absurd hi (hP i)⟩

/-- The states the search looks at. -/
def searched (numStates searchEvery : Nat) (state : Nat) : Prop :=
  ∃ k, k < (numStates + searchEvery - 1) / searchEvery ∧ state = k * searchEvery

theorem searchScalar_firstMin (numStates : Nat) (distances : Nat → UInt16) {searchEvery : Nat}
    (hpos : 0 < searchEvery) :
    FirstMin distances (searched numStates searchEvery)
      (searchScalar numStates distances searchEvery).1
      (searchScalar numStates distances searchEvery).2 := by
  unfold searched
  refine forLoop_induct (fun n (s : Nat × UInt16) =>
    FirstMin distances (fun i => ∃ k, k < n ∧ i = k * searchEvery) s.1 s.2) (Nat.zero_le _) ?_ ?_
  · exact firstMin_empty fun i ⟨k, hk, _⟩ => Nat.not_lt_zero k hk
  · intro k s _ _ h
    have hstep := @firstMin_step _ _ _ _ h (k * searchEvery) (by
      rintro j ⟨k', hk', rfl⟩
      exact Nat.mul_lt_mul_of_pos_right hk' hpos)
    have hset : ∀ i, ((∃ k', k' < k ∧ i = k' * searchEvery) ∨ i = k * searchEvery) ↔
        ∃ k', k' < k + 1 ∧ i = k' * searchEvery := by
      intro i
      constructor
      · rintro (⟨k', hk', rfl⟩ | rfl)
        · exact ⟨k', by omega, rfl⟩
        · exact ⟨k, by omega, rfl⟩
      · rintro ⟨k', hk', rfl⟩
        by_cases heq : k' = k
        · exact Or.inr (by rw [heq])
        · exact Or.inl ⟨k', by omega, rfl⟩
    have hresult := firstMin_congr hset hstep
    simp only
    split
    next hlt =>
      rw [if_pos hlt, if_pos hlt] at hresult
      exact hresult
    next hlt =>
      rw [if_neg hlt, if_neg hlt] at hresult
      exact hresult

theorem select_lane (c : Prop) [Decidable c] (a b : UInt16) :
    (((if c then 0xFFFF else 0) : UInt16) &&& a) |||
      (~~~ ((if c then 0xFFFF else 0) : UInt16) &&& b) = if c then a else b := by
  have hones : (0xFFFF : UInt16) = -1 := rfl
  by_cases hc : c <;> simp [hc, hones]

/-- Every lane searches the states of its residue class. -/
theorem lanes_firstMin (distances : Nat → UInt16) (n : Nat) (hn : 8 * n ≤ 65536) (k : Fin 8) :
    let s := forLoop 0 n (Lanes.step distances)
      ⟨fun k => UInt16.ofNat k.val, U16x8.dup 0xFFFF, U16x8.dup 0⟩
    FirstMin distances (fun i => i < 8 * n ∧ i % 8 = k.val) (s.bestidx k).toNat (s.best k) ∧
      s.idx k = UInt16.ofNat (8 * n + k.val) := by
  intro s
  -- lane k has seen the states below 8 * c that are k modulo 8
  have hinv := @forLoop_induct _ 0 n (Lanes.step distances)
    ⟨fun k => UInt16.ofNat k.val, U16x8.dup 0xFFFF, U16x8.dup 0⟩
    (fun c s => FirstMin distances (fun i => i < 8 * c ∧ i % 8 = k.val) (s.bestidx k).toNat
      (s.best k) ∧ s.idx k = UInt16.ofNat (8 * c + k.val)) (Nat.zero_le _) ?_ ?_
  · exact hinv
  · refine ⟨firstMin_empty fun i h => Nat.not_lt_zero i h.1, by simp⟩
  · rintro c s - hc ⟨hmin, hidx⟩
    have hstep := @firstMin_step _ _ _ _ hmin (8 * c + k.val) (fun j hj => by omega)
    have hset : ∀ i, ((i < 8 * c ∧ i % 8 = k.val) ∨ i = 8 * c + k.val) ↔
        (i < 8 * (c + 1) ∧ i % 8 = k.val) := by
      intro i
      have := k.isLt
      omega
    have hresult := firstMin_congr hset hstep
    have hidxNat : (s.idx k).toNat = 8 * c + k.val := by
      rw [hidx, UInt16.toNat_ofNat']
      have := k.isLt
      omega
    constructor
    · have hbest : (Lanes.step distances c s).best k =
          if distances (8 * c + k.val) < s.best k then distances (8 * c + k.val) else s.best k := by
        exact select_lane _ _ _
      have hbestidx : (Lanes.step distances c s).bestidx k =
          if distances (8 * c + k.val) < s.best k then s.idx k else s.bestidx k := by
        exact select_lane _ _ _
      rw [hbest, hbestidx]
      by_cases hlt : distances (8 * c + k.val) < s.best k
      · rw [if_pos hlt, if_pos hlt, hidxNat]
        simpa [if_pos hlt] using hresult
      · rw [if_neg hlt, if_neg hlt]
        simpa [if_neg hlt] using hresult
    · change s.idx k + UInt16.ofNat 8 = _
      rw [hidx, ← UInt16.ofNat_add]
      congr 1
      omega

theorem searchNeon_firstMin (numStates : Nat) (hstates : numStates ≤ 65536)
    (hmod : numStates % 8 = 0) (distances : Nat → UInt16) :
    ∃ v, FirstMin distances (fun i => i < numStates) (searchNeon numStates distances) v := by
  have hdiv : 8 * ((numStates + 7) / 8) = numStates := by omega
  have hlanes := lanes_firstMin distances ((numStates + 7) / 8) (by omega)
  simp only [hdiv] at hlanes
  unfold searchNeon
  generalize forLoop 0 ((numStates + 7) / 8) (Lanes.step distances)
    ⟨fun k => UInt16.ofNat k.val, U16x8.dup 0xFFFF, U16x8.dup 0⟩ = s at hlanes ⊢
  have hjoin := @forLoop_induct _ 1 8 (fun k (r : UInt16 × Nat) =>
      if s.best (Fin.ofNat 8 k) < r.1 ∨
          (s.best (Fin.ofNat 8 k) = r.1 ∧ (s.bestidx (Fin.ofNat 8 k)).toNat < r.2) then
        (s.best (Fin.ofNat 8 k), (s.bestidx (Fin.ofNat 8 k)).toNat)
      else r) (s.best (Fin.ofNat 8 0), (s.bestidx (Fin.ofNat 8 0)).toNat)
    (fun k r => FirstMin distances (fun i => i < numStates ∧ i % 8 < k) r.2 r.1) (by omega) ?_ ?_
  · refine ⟨_, firstMin_congr (fun i => ?_) hjoin⟩
    have := Nat.mod_lt i (show 0 < 8 by omega)
    omega
  · refine firstMin_congr (fun i => ?_) (hlanes (Fin.ofNat 8 0)).1
    change (i < numStates ∧ i % 8 = 0) ↔ _
    omega
  · intro k r hk hk' h
    have hval : (Fin.ofNat 8 k).val = k := Nat.mod_eq_of_lt hk'
    have hnext := (hlanes (Fin.ofNat 8 k)).1
    rw [hval] at hnext
    have hresult := @firstMin_congr _ _ (fun i => i < numStates ∧ i % 8 < k + 1) _ _
      (fun i => by omega) (firstMin_join h hnext)
    split
    next hlt =>
      rw [if_pos hlt, if_pos hlt] at hresult
      exact hresult
    next hlt =>
      rw [if_neg hlt, if_neg hlt] at hresult
      exact hresult

/-- Both versions of the search find the same state. -/
theorem search_neon_eq (buf : HistoryBuffer) (hstates : buf.numStates ≤ 65536)
    (distances : Nat → UInt16) (searchEvery : Nat) :
    buf.search true distances searchEvery = buf.search false distances searchEvery := by
  by_cases hneon : searchEvery = 1 ∧ buf.numStates % 8 = 0
  · obtain ⟨rfl, hmod⟩ := hneon
    obtain ⟨v, hmin⟩ := searchNeon_firstMin buf.numStates hstates hmod distances
    have hscalar := @searchScalar_firstMin buf.numStates distances 1 (by omega)
    have hset : ∀ i, searched buf.numStates 1 i ↔ i < buf.numStates := by
      intro i
      simp [searched]
    simp only [search, hmod, and_self, if_true, Bool.false_eq_true, false_and, if_false]
    exact firstMin_unique hmin (firstMin_congr hset hscalar)
  · simp only [search, hneon, and_false, if_false]

end HistoryBuffer

end RyFi.Conv
