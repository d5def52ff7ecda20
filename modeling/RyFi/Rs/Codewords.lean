import RyFi.Rs.Corrections

/-! # Code words

What the encoder makes has no syndromes, and a word without syndromes is determined by its
message.  A block that decodes is therefore corrected to the code word of the message that
is returned, whatever was received (`decode_codeword`).
-/

namespace RyFi.Rs

open CLoop Polynomial PolynomialT KeyEquation

/-- All syndromes of a word are zero. -/
def Codeword (word : Nat → UInt8) : Prop := ∀ i, i < 32 → syndrome word i = 0

theorem received_reverse (coeff : Nat → UInt8) :
    received (fun j => coeff (254 - j)) = poly 255 coeff :=
  poly_congr fun i hi => congrArg coeff (by omega)

theorem received_congr {a b : Nat → UInt8} (h : ∀ j, j < 255 → a j = b j) :
    received a = received b :=
  poly_congr fun i hi => h (254 - i) (by omega)

theorem codeword_congr {a b : Nat → UInt8} (h : ∀ j, j < 255 → a j = b j) :
    Codeword a ↔ Codeword b := by
  rw [Codeword, Codeword]
  refine forall₂_congr fun i _ => ?_
  rw [syndrome, syndrome, received_congr h]

/-- The syndromes as power sums over the bytes of the block. -/
theorem syndrome_eq_sum (word : Nat → UInt8) (i : Nat) :
    syndrome word i = ∑ j ∈ Finset.range 255, el (word j) * (α ^ (254 - j)) ^ (i + 1) := by
  rw [syndrome, received, eval_poly, ← Finset.sum_range_reflect]
  refine Finset.sum_congr rfl fun j hj => ?_
  have hlt := Finset.mem_range.mp hj
  rw [show 254 - (255 - 1 - j) = j by omega, show 255 - 1 - j = 254 - j by omega, ← pow_mul,
    ← pow_mul, Nat.mul_comm]

theorem codeword_zero : Codeword fun _ => 0 := fun i _ => by
  rw [syndrome_eq_sum]
  exact Finset.sum_eq_zero fun j _ => by rw [el_zero, zero_mul]

theorem injOn_powers {t : Finset Nat} (h : ∀ j ∈ t, j < 255) :
    Set.InjOn (fun j => α ^ (254 - j)) t := by
  intro i hi k hk hik
  have hi' := h i hi
  have hk' := h k hk
  have hmod := α_pow_inj.mp hik
  omega

/-- Words with the same syndromes that differ in at most 32 places are the same. -/
theorem eq_of_syndromes_eq {a b : Nat → UInt8}
    (hsyndrome : ∀ i, i < 32 → syndrome a i = syndrome b i) {t : Finset Nat} (ht : t.card ≤ 32)
    (h : ∀ j, j < 255 → j ∉ t → a j = b j) {j : Nat} (hj : j < 255) : a j = b j := by
  classical
  set s := (Finset.range 255).filter fun j => a j ≠ b j with hs
  have hlt : ∀ j ∈ s, j < 255 := fun j hj => Finset.mem_range.mp (Finset.mem_filter.mp hj).1
  have hcard : s.card ≤ 32 := (Finset.card_le_card fun j hj => by
    by_contra hmem
    exact (Finset.mem_filter.mp hj).2 (h j (hlt j hj) hmem)).trans ht
  have hsums : ∀ k, k < 32 →
      ∑ j ∈ s, (el (a j) + el (b j)) * α ^ (254 - j) * (α ^ (254 - j)) ^ k = 0 := by
    intro k hk
    have hdiff := CharTwo.add_eq_zero.mpr (hsyndrome k hk)
    rw [syndrome_eq_sum, syndrome_eq_sum, ← Finset.sum_add_distrib] at hdiff
    rw [← hdiff, hs, Finset.sum_filter]
    refine Finset.sum_congr rfl fun j _ => ?_
    split
    next => ring
    next heq =>
      rw [not_not.mp heq, CharTwo.add_self_eq_zero]
  by_contra hne
  have hzero := eq_zero_of_power_sums (injOn_powers hlt) (fun j _ => α_pow_ne (254 - j)) hsums hcard
    j (Finset.mem_filter.mpr ⟨Finset.mem_range.mpr hj, hne⟩)
  rcases mul_eq_zero.mp hzero with hsum | hpow
  · exact hne (el_injective (CharTwo.add_eq_zero.mp hsum))
  · exact α_pow_ne (254 - j) hpow

/-- A code word is determined by its message. -/
theorem Codeword.ext {a b : Nat → UInt8} (ha : Codeword a) (hb : Codeword b)
    (h : ∀ j, j < 223 → a j = b j) {j : Nat} (hj : j < 255) : a j = b j :=
  eq_of_syndromes_eq (fun i hi => (ha i hi).trans (hb i hi).symm)
    (t := Finset.Ico 223 255) (by simp) (fun k hk hmem => h k (by
      rw [Finset.mem_Ico] at hmem
      omega)) hj

namespace ReedSolomon

variable {rs : ReedSolomon}

/-! ## The encoder -/

/-- The message as the polynomial that is divided. -/
def messagePolynomial (rs : ReedSolomon) (msg : Nat → UInt8) : PolynomialT :=
  ⟨setRange (setRange (forLoop 0 223 (fun i coeff =>
      Function.update coeff (254 - (i + 0)) (msg i)) rs.encodedPolynomial.coeff) 255 0 0) 0 0 32,
    254⟩

theorem messagePolynomial_low (rs : ReedSolomon) (msg : Nat → UInt8) {i : Nat} (hi : i < 32) :
    (rs.messagePolynomial msg).coeff i = 0 :=
  setRange_inside (Nat.zero_le i) hi

theorem messagePolynomial_high (rs : ReedSolomon) (msg : Nat → UInt8) {j : Nat} (hj : j < 223) :
    (rs.messagePolynomial msg).coeff (254 - j) = msg j := by
  rw [messagePolynomial]
  simp only
  rw [setRange_above (by omega), setRange, if_neg (by omega)]
  exact forLoop_store (p := fun i => 254 - (i + 0)) (fun i k hi hk h => by omega) msg _ hj

/-- The remainder the encoder appends. -/
def messageRemainder (rs : ReedSolomon) (msg : Nat → UInt8) : PolynomialT :=
  PolynomialT.mod ccsdsField (rs.messagePolynomial msg) rs.generator rs.encodedRemainder

theorem encode_eq (h : Usable rs) (msg encoded : Nat → UInt8) :
    (rs.encode msg 223 encoded).2 = (some 255,
      forLoop 0 32 (fun i encoded => Function.update encoded (223 + i)
        ((rs.messageRemainder msg).coeff (32 - (i + 1))))
        (forLoop 0 223 (fun i encoded => Function.update encoded i
          ((rs.messagePolynomial msg).coeff (254 - (i + 0)))) encoded)) := by
  have hmsg : rs.messageLength = 223 := h.1.messageLength_eq
  have hmin : rs.minDistance = 32 := h.1.minDistance_eq
  have hblock : rs.blockLength = 255 := h.1.blockLength_eq
  have hfield : rs.field = ccsdsField := h.1.field_eq
  have horder : rs.encodedPolynomial.order = 254 := h.1.encodedOrder_eq
  rw [encode, hmsg, if_neg (Nat.lt_irrefl 223)]
  simp only [hmin, hblock, hfield, horder]
  rfl

theorem encode_message (h : Usable rs) (msg encoded : Nat → UInt8) {j : Nat} (hj : j < 223) :
    (rs.encode msg 223 encoded).2.2 j = msg j := by
  rw [encode_eq h]
  simp only
  rw [forLoop_store_other (p := fun i => 223 + i) (fun i _ => by omega), forLoop_update,
    if_pos ⟨Nat.zero_le j, hj⟩]
  exact messagePolynomial_high rs msg hj

theorem encode_parity (h : Usable rs) (msg encoded : Nat → UInt8) {i : Nat} (hi : i < 32) :
    (rs.encode msg 223 encoded).2.2 (254 - i) = (rs.messageRemainder msg).coeff i := by
  rw [encode_eq h]
  simp only
  rw [show 254 - i = 223 + (31 - i) by omega,
    forLoop_store (p := fun i => 223 + i) (fun i k _ _ h => by omega) _ _
      (show 31 - i < 32 by omega)]
  congr 1
  omega

theorem received_encode (h : Usable rs) (msg encoded : Nat → UInt8) :
    received (rs.encode msg 223 encoded).2.2 =
      (rs.messagePolynomial msg).toPoly + poly 32 (rs.messageRemainder msg).coeff := by
  refine poly_of_coeff (fun i hi => ?_) fun i hi => ?_
  · rw [coeff_add, toPoly, coeff_poly, coeff_poly, if_neg (by simp only [messagePolynomial]; omega),
      if_neg (by omega), add_zero]
  · rw [coeff_add, toPoly, coeff_poly, coeff_poly, if_pos (by simp only [messagePolynomial]; omega)]
    by_cases hlow : i < 32
    · rw [encode_parity h msg encoded hlow, messagePolynomial_low rs msg hlow, if_pos hlow, el_zero,
        zero_add]
    · rw [encode_message h msg encoded (show 254 - i < 223 by omega), if_neg hlow, add_zero,
        ← messagePolynomial_high rs msg (show 254 - i < 223 by omega)]
      congr 2
      omega

/-- The encoder makes code words. -/
theorem codeword_encode (h : Usable rs) (msg encoded : Nat → UInt8) :
    Codeword (rs.encode msg 223 encoded).2.2 := by
  have horder : rs.generator.order = 32 := h.1.generator_order
  have hlead : rs.generator.coeff 32 = 1 := h.1.generator_leading
  have hres : rs.encodedRemainder.order = 254 := h.1.remainderOrder_eq
  have hdividend : (rs.messagePolynomial msg).order = 254 := rfl
  obtain ⟨q, hq⟩ := @mod_spec (rs.messagePolynomial msg) rs.generator rs.encodedRemainder
    (by omega) (by omega) (by rw [horder, hlead]; decide) (by omega)
  rw [horder] at hq
  intro i hi
  have hroot : rs.generator.toPoly.eval (α ^ (i + 1)) = 0 := by
    rw [show rs.generator.toPoly = rootsPoly 32 rs.generatorRoots from h.1.generator_eq,
      eval_rootsPoly_eq_zero_iff]
    exact ⟨i, hi, (h.1.roots_eq i hi).symm⟩
  rw [syndrome, received_encode h, hq, messageRemainder, add_assoc, CharTwo.add_self_eq_zero,
    add_zero, eval_mul, hroot, mul_zero]

/-! ## What a decode call leaves -/

variable {block : Nat → UInt8}

/-- A locator of order 0 is that of no errors. -/
theorem located_order_pos (h : Usable rs) (hsearch : rs.allZero block 255 = false) :
    0 < (rs.located block 255).errorLocator.order := by
  by_contra hzero
  have hregister := register_located h block
  rw [Nat.eq_zero_of_not_pos hzero] at hregister
  have hone : (rs.located block 255).errorLocator.toPoly = 1 := by
    rw [eq_C_of_natDegree_le_zero hregister.natDegree_le, hregister.coeff_zero, map_one]
  have hall : rs.allZero block 255 = true := by
    refine (allZero_iff h block).mpr fun i hi => ?_
    have := hregister.silent i (Nat.zero_le i) hi
    rwa [hone, one_mul, coeff_syndromePoly block hi] at this
  rw [hsearch] at hall
  exact Bool.false_ne_true hall

theorem searched_located (h : Usable rs) (hsearch : rs.allZero block 255 = false)
    (horder : (rs.located block 255).errorLocator.order ≤ 31) :
    Searched (rs.located block 255) (syndromePoly block) where
  built := built_located h block 255
  coeff_zero := located_coeff_zero h block
  order_pos := located_order_pos h hsearch
  order_le := horder
  register := register_located h block
  syndromes_eq := poly_syndromes h block

theorem received_located (h : Usable rs) (block : Nat → UInt8) :
    poly 255 (rs.located block 255).receivedPolynomial.coeff = received block := by
  have horder := (built_receive h block 255).receivedOrder
  rw [← toPoly_received h block, toPoly, horder]
  rfl

/-- The corrections take the syndromes away. -/
theorem codeword_corrected (h : Usable rs)
    (hsearched : Searched (rs.located block 255) (syndromePoly block))
    (hfound : (rs.located block 255).ownRoots.1 = true) :
    Codeword fun j => (rs.located block 255).corrected.receivedPolynomial.coeff (254 - j) := by
  intro i hi
  have hf := factored_of_found hsearched hfound
  rw [syndrome, received_reverse, poly_corrected hsearched hf, received_located h, eval_add,
    eval_correction hsearched hf hi, coeff_syndromePoly block hi, syndrome,
    CharTwo.add_self_eq_zero]

/-- What a successful call has in `received_polynomial` is a code word. -/
theorem codeword_decode (h : Usable rs)
    (horder : rs.allZero block 255 = false → (rs.located block 255).errorLocator.order ≤ 31)
    (msg : Nat → UInt8) (at_ : Nat) (hresult : (rs.decode block 255 msg at_).2.1 ≠ none) :
    Codeword fun j => (rs.decode block 255 msg at_).1.receivedPolynomial.coeff (254 - j) := by
  rw [decode_eq rs block msg at_ (Nat.le_of_eq h.1.blockLength_eq.symm)] at hresult ⊢
  cases hzero : rs.allZero block 255 with
  | true =>
    rw [if_pos rfl]
    intro i hi
    have hsyndrome := (allZero_iff h block).mp hzero i hi
    have hpoly := received_located h block
    rw [syndrome, received_reverse]
    exact (congrArg (eval (α ^ (i + 1))) hpoly).trans hsyndrome
  | false =>
    rw [hzero, if_neg Bool.false_ne_true, decodeErrors_eq] at hresult
    rw [if_neg Bool.false_ne_true, decodeErrors_eq]
    split at hresult
    next hfound =>
      rw [if_pos hfound]
      exact codeword_corrected h (searched_located h hzero (horder hzero)) hfound
    next => exact absurd rfl hresult

theorem writeMessage_apply (rs : ReedSolomon) (msg : Nat → UInt8) (at_ : Nat) {n j : Nat}
    (hj : j < n) :
    rs.writeMessage 255 n msg at_ (at_ + j) = rs.receivedPolynomial.coeff (255 - (j + 1)) :=
  forLoop_store (p := fun i => at_ + i) (fun _ _ _ _ h => Nat.add_left_cancel h)
    (fun i => rs.receivedPolynomial.coeff (255 - (i + 1))) msg hj

theorem writeMessage_other (rs : ReedSolomon) (msg : Nat → UInt8) (at_ : Nat) {n j : Nat}
    (hj : j < at_ ∨ at_ + n ≤ j) : rs.writeMessage 255 n msg at_ j = msg j :=
  forLoop_store_other (p := fun i => at_ + i) (fun i hi h => by omega)
    (fun i => rs.receivedPolynomial.coeff (255 - (i + 1))) msg

/-- The message that is returned is the start of the word. -/
theorem decode_message (h : Usable rs) (block msg : Nat → UInt8) (at_ : Nat)
    (hresult : (rs.decode block 255 msg at_).2.1 ≠ none) {j : Nat} (hj : j < 223) :
    (rs.decode block 255 msg at_).2.2 (at_ + j) =
      (rs.decode block 255 msg at_).1.receivedPolynomial.coeff (254 - j) := by
  have hmin : rs.minDistance = 32 := h.1.minDistance_eq
  have hindex : 255 - (j + 1) = 254 - j := by omega
  rw [decode_eq rs block msg at_ (Nat.le_of_eq h.1.blockLength_eq.symm), hmin,
    show 255 - 32 = 223 from rfl] at hresult ⊢
  split at hresult
  next hzero =>
    rw [if_pos hzero]
    simp only
    rw [writeMessage_apply _ msg at_ hj, hindex]
  next hzero =>
    rw [decodeErrors_eq] at hresult
    rw [if_neg hzero, decodeErrors_eq]
    split at hresult
    next hfound =>
      rw [if_pos hfound]
      simp only
      rw [writeMessage_apply _ msg at_ hj, hindex]
    next => exact absurd rfl hresult

theorem decode_other (h : Usable rs) (block msg : Nat → UInt8) (at_ : Nat) {j : Nat}
    (hj : j < at_ ∨ at_ + 223 ≤ j) : (rs.decode block 255 msg at_).2.2 j = msg j := by
  have hmin : rs.minDistance = 32 := h.1.minDistance_eq
  rw [decode_eq rs block msg at_ (Nat.le_of_eq h.1.blockLength_eq.symm), hmin, decodeErrors_eq]
  split
  next => exact writeMessage_other _ msg at_ hj
  next =>
    split
    next => exact writeMessage_other _ msg at_ hj
    next => rfl

/-- Encoding the message that is returned gives the corrected word. -/
theorem encode_decode (h : Usable rs)
    (horder : rs.allZero block 255 = false → (rs.located block 255).errorLocator.order ≤ 31)
    (msg : Nat → UInt8) (at_ : Nat) (hresult : (rs.decode block 255 msg at_).2.1 ≠ none)
    {enc : ReedSolomon} (henc : Usable enc) (encoded : Nat → UInt8) {message : Nat → UInt8}
    (hmessage : ∀ j, j < 223 → message j = (rs.decode block 255 msg at_).2.2 (at_ + j))
    {j : Nat} (hj : j < 255) :
    (enc.encode message 223 encoded).2.2 j =
      (rs.decode block 255 msg at_).1.receivedPolynomial.coeff (254 - j) :=
  (codeword_encode henc message encoded).ext (codeword_decode h horder msg at_ hresult)
    (fun k hk => by rw [encode_message henc message encoded hk, hmessage k hk,
      decode_message h block msg at_ hresult hk]) hj

/-- The corrected block is the code word of a message: the decoder's own syndromes are zero,
    and any encoder makes the block from the message. -/
structure CorrectedTo (rs : ReedSolomon) (message : Nat → UInt8) : Prop where
  syndromes : ∀ i, i < 32 → evalLut rs.field rs.receivedPolynomial (rs.generatorRootExp i) = 0
  encodes : ∀ enc : ReedSolomon, Reachable enc → ∀ encoded : Nat → UInt8,
    (enc.encode message 223 encoded).2.1 = some 255 ∧
      ∀ j, j < 255 → (enc.encode message 223 encoded).2.2 j = rs.receivedPolynomial.coeff (254 - j)

theorem correctedTo_decode (h : Usable rs)
    (horder : rs.allZero block 255 = false → (rs.located block 255).errorLocator.order ≤ 31)
    (msg : Nat → UInt8) (at_ : Nat) (hresult : (rs.decode block 255 msg at_).2.1 ≠ none)
    {message : Nat → UInt8}
    (hmessage : ∀ j, j < 223 → message j = (rs.decode block 255 msg at_).2.2 (at_ + j)) :
    CorrectedTo (rs.decode block 255 msg at_).1 message where
  syndromes := fun i hi => by
    have hbuilt : Built (rs.decode block 255 msg at_).1.config := by
      rw [config_decode rs block (Nat.le_of_eq h.1.blockLength_eq.symm)]
      exact built_prepared h
    have hzero := codeword_decode h horder msg at_ hresult i hi
    generalize (rs.decode block 255 msg at_).1 = rs' at hbuilt hzero
    rw [← el_eq_zero_iff, hbuilt.field,
      el_evalLut (by rw [hbuilt.receivedOrder]; exact hbuilt.rootRow hi), toPoly,
      hbuilt.receivedOrder, ← received_reverse]
    exact hzero
  encodes := fun enc henc encoded =>
    ⟨congrArg Prod.fst (encode_eq henc.usable message encoded), fun _ hj =>
      encode_decode h horder msg at_ hresult henc.usable encoded hmessage hj⟩

end ReedSolomon

end RyFi.Rs
