import Mathlib.Data.Finset.Card
import Mathlib.Data.Finset.Image
import Mathlib.Data.Finset.Range
import Mathlib.Data.Finset.Union

/-! # Shift registers and Hamming distance

A register of `w` bits into which symbols of `m` bits are shifted from the right.  While a
word is shifted in, the register holds a mixture of its old content and the head of the
word; `hamming_window` bounds how far such a mixture is from the mixture of two nearby words.
-/

namespace ShiftRegister

variable {w m : Nat}

/-! ## Hamming distance -/

/-- The bits in which two words differ. -/
def disagree (a b : BitVec w) : Finset Nat :=
  (Finset.range w).filter fun i => a.getLsbD i ≠ b.getLsbD i

def hamming (a b : BitVec w) : Nat := (disagree a b).card

theorem mem_disagree {a b : BitVec w} {i : Nat} :
    i ∈ disagree a b ↔ i < w ∧ a.getLsbD i ≠ b.getLsbD i := by
  simp [disagree]

@[simp] theorem hamming_self (a : BitVec w) : hamming a a = 0 := by
  simp [hamming, disagree]

theorem hamming_comm (a b : BitVec w) : hamming a b = hamming b a := by
  simp only [hamming, disagree, ne_comm]

theorem hamming_triangle (a b c : BitVec w) : hamming a c ≤ hamming a b + hamming b c := by
  have hsub : disagree a c ⊆ disagree a b ∪ disagree b c := by
    intro i hi
    rw [Finset.mem_union, mem_disagree, mem_disagree]
    rw [mem_disagree] at hi
    by_cases hab : a.getLsbD i = b.getLsbD i
    · exact Or.inr ⟨hi.1, fun hbc => hi.2 (hab.trans hbc)⟩
    · exact Or.inl ⟨hi.1, hab⟩
  exact Nat.le_trans (Finset.card_le_card hsub) (Finset.card_union_le _ _)

/-! ## Shifting symbols in -/

def shiftIn (reg : BitVec w) (sym : BitVec m) : BitVec w := (reg <<< m) ||| sym.setWidth w

def shiftAll (reg : BitVec w) (syms : List (BitVec m)) : BitVec w := syms.foldl shiftIn reg

theorem shiftAll_append (reg : BitVec w) (syms syms' : List (BitVec m)) :
    shiftAll reg (syms ++ syms') = shiftAll (shiftAll reg syms) syms' :=
  List.foldl_append

theorem getLsbD_shiftIn_new (reg : BitVec w) (sym : BitVec m) {i : Nat} (h : i < m) :
    (shiftIn reg sym).getLsbD i = (decide (i < w) && sym.getLsbD i) := by
  simp [shiftIn, BitVec.getLsbD_shiftLeft, h]

theorem getLsbD_shiftIn_old (reg : BitVec w) (sym : BitVec m) {i : Nat} (h : i + m < w) :
    (shiftIn reg sym).getLsbD (i + m) = reg.getLsbD i := by
  have hsym : sym.getLsbD (i + m) = false := BitVec.getLsbD_of_ge _ _ (by omega)
  have hlow : ¬ i + m < m := by omega
  simp only [shiftIn, BitVec.getLsbD_or, BitVec.getLsbD_shiftLeft, BitVec.getLsbD_setWidth, hsym,
    h, hlow, decide_true, decide_false, Bool.not_false, Bool.true_and, Bool.and_false,
    Bool.or_false, Nat.add_sub_cancel]

/-- The old bits move up. -/
theorem getLsbD_shiftAll_old (reg : BitVec w) (syms : List (BitVec m)) {i : Nat}
    (h : i + m * syms.length < w) :
    (shiftAll reg syms).getLsbD (i + m * syms.length) = reg.getLsbD i := by
  induction syms generalizing reg i with
  | nil => simp [shiftAll]
  | cons sym syms ih =>
    have hlen : m * (sym :: syms).length = m + m * syms.length := by
      rw [List.length_cons, Nat.mul_succ, Nat.add_comm]
    rw [hlen] at h ⊢
    rw [← Nat.add_assoc, show shiftAll reg (sym :: syms) = shiftAll (shiftIn reg sym) syms from rfl,
      ih _ (by omega), getLsbD_shiftIn_old _ _ (by omega)]

/-- The new bits do not depend on what the register held. -/
theorem getLsbD_shiftAll_new (reg reg' : BitVec w) (syms : List (BitVec m)) {i : Nat}
    (h : i < m * syms.length) :
    (shiftAll reg syms).getLsbD i = (shiftAll reg' syms).getLsbD i := by
  induction syms generalizing reg reg' with
  | nil => simp at h
  | cons sym syms ih =>
    change (shiftAll (shiftIn reg sym) syms).getLsbD i =
      (shiftAll (shiftIn reg' sym) syms).getLsbD i
    by_cases hi : i < m * syms.length
    · exact ih _ _ hi
    · obtain ⟨j, rfl⟩ : ∃ j, i = j + m * syms.length := ⟨i - m * syms.length, by omega⟩
      rw [List.length_cons, Nat.mul_succ] at h
      by_cases hw : j + m * syms.length < w
      · rw [getLsbD_shiftAll_old _ _ hw, getLsbD_shiftAll_old _ _ hw,
          getLsbD_shiftIn_new _ _ (by omega), getLsbD_shiftIn_new _ _ (by omega)]
      · rw [BitVec.getLsbD_of_ge _ _ (by omega), BitVec.getLsbD_of_ge _ _ (by omega)]

/-- A whole word replaces the register. -/
theorem shiftAll_full (reg reg' : BitVec w) {syms : List (BitVec m)}
    (h : m * syms.length = w) : shiftAll reg syms = shiftAll reg' syms := by
  apply BitVec.eq_of_getLsbD_eq
  intro i hi
  exact getLsbD_shiftAll_new _ _ _ (by omega)

/-- The bits of the head of a word, while it is shifted in. -/
theorem getLsbD_shiftAll_take (reg reg' : BitVec w) {syms : List (BitVec m)} {k i : Nat}
    (hw : m * syms.length = w) (hk : k ≤ syms.length) (hi : i < m * k) :
    (shiftAll reg (syms.take k)).getLsbD i =
      (shiftAll reg' syms).getLsbD (i + m * (syms.length - k)) := by
  have hlen : (syms.take k).length = k := by rw [List.length_take]; omega
  have hdrop : (syms.drop k).length = syms.length - k := List.length_drop
  have hsum : m * k + m * (syms.length - k) = w := by
    rw [← Nat.mul_add, ← hw]
    congr 1
    omega
  rw [getLsbD_shiftAll_new reg reg' (syms.take k) (by rw [hlen]; exact hi)]
  calc (shiftAll reg' (syms.take k)).getLsbD i
      = (shiftAll (shiftAll reg' (syms.take k)) (syms.drop k)).getLsbD
          (i + m * (syms.drop k).length) :=
        (getLsbD_shiftAll_old _ _ (by rw [hdrop]; omega)).symm
    _ = (shiftAll reg' syms).getLsbD (i + m * (syms.length - k)) := by
        rw [← shiftAll_append, List.take_append_drop, hdrop]

/-- While a word near `shiftAll b syms'` is shifted into a register near `b`, the register
    stays near what it would hold without errors. -/
theorem hamming_window (a b reg : BitVec w) {syms syms' : List (BitVec m)} {k : Nat}
    (hw : m * syms.length = w) (hw' : m * syms'.length = w) (hk : k ≤ syms.length)
    (hk' : k ≤ syms'.length) :
    hamming (shiftAll a (syms.take k)) (shiftAll b (syms'.take k)) ≤
      hamming a b + hamming (shiftAll reg syms) (shiftAll reg syms') := by
  have hlen : (syms.take k).length = k := by rw [List.length_take]; omega
  have hlen' : (syms'.take k).length = k := by rw [List.length_take]; omega
  have hshift : m * (syms.length - k) = m * (syms'.length - k) := by
    rw [Nat.mul_sub, Nat.mul_sub, hw, hw']
  have hle : m * k ≤ w := by rw [← hw]; exact Nat.mul_le_mul_left m hk
  have hsplit : m * (syms.length - k) = w - m * k := by rw [Nat.mul_sub, hw]
  have hsub : disagree (shiftAll a (syms.take k)) (shiftAll b (syms'.take k)) ⊆
      (disagree a b).image (· + m * k) ∪
        (disagree (shiftAll reg syms) (shiftAll reg syms')).image
          (· - m * (syms.length - k)) := by
    intro i hi
    rw [mem_disagree] at hi
    rw [Finset.mem_union, Finset.mem_image, Finset.mem_image]
    -- the low bits are the symbols shifted in, the others were there before
    by_cases hnew : i < m * k
    · refine Or.inr ⟨i + m * (syms.length - k), mem_disagree.mpr ⟨by omega, ?_⟩, by omega⟩
      rw [getLsbD_shiftAll_take a reg hw hk hnew, getLsbD_shiftAll_take b reg hw' hk' hnew,
        ← hshift] at hi
      exact hi.2
    · obtain ⟨j, rfl⟩ : ∃ j, i = j + m * k := ⟨i - m * k, by omega⟩
      have hold := @getLsbD_shiftAll_old _ _ a (syms.take k) j (by rw [hlen]; exact hi.1)
      have hold' := @getLsbD_shiftAll_old _ _ b (syms'.take k) j (by rw [hlen']; exact hi.1)
      rw [hlen] at hold
      rw [hlen'] at hold'
      rw [hold, hold'] at hi
      exact Or.inl ⟨j, mem_disagree.mpr ⟨by omega, hi.2⟩, rfl⟩
  calc hamming (shiftAll a (syms.take k)) (shiftAll b (syms'.take k))
      ≤ _ := Finset.card_le_card hsub
    _ ≤ _ := Finset.card_union_le _ _
    _ ≤ _ := Nat.add_le_add Finset.card_image_le Finset.card_image_le

end ShiftRegister
