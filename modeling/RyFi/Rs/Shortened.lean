import RyFi.Rs.FewErrors

/-! # Shortened blocks

A block of fewer than 255 bytes is worked on as one with zeros in front: `receive` takes in the
same polynomial, and the encoder makes the parity of the message with zeros in front.
-/

namespace RyFi.Rs

open CLoop Polynomial PolynomialT KeyEquation

/-- The block `b` behind `k` zeros. -/
def pad (k : Nat) (b : Nat → UInt8) (j : Nat) : UInt8 := if j < k then 0 else b (j - k)

theorem pad_add (k : Nat) (b : Nat → UInt8) (j : Nat) : pad k b (k + j) = b j := by
  rw [pad, if_neg (by omega), Nat.add_sub_cancel_left]

theorem pad_low {k j : Nat} (b : Nat → UInt8) (hj : j < k) : pad k b j = 0 := if_pos hj

theorem pad_congr {k n : Nat} {b c : Nat → UInt8} (h : ∀ j, j < n → b j = c j) {j : Nat}
    (hj : j < k + n) : pad k b j = pad k c j := by
  rw [pad, pad]
  split
  · rfl
  · exact h (j - k) (by omega)

namespace ReedSolomon

variable {rs : ReedSolomon} {n : Nat}

/-! ## The decoder -/

theorem receive_pad (hblock : rs.blockLength = 255) (hn : n ≤ 255) (b : Nat → UInt8) :
    rs.receive b n = rs.receive (pad (255 - n) b) 255 := by
  have hcoeff : (rs.receive b n).receivedPolynomial.coeff =
      (rs.receive (pad (255 - n) b) 255).receivedPolynomial.coeff := by
    funext k
    simp only [receive, hblock, Nat.sub_self, forLoop_self]
    rw [forLoop_update]
    by_cases hhigh : n ≤ k ∧ k < 255
    · obtain ⟨i, rfl⟩ := Nat.exists_eq_add_of_le' hhigh.1
      rw [forLoop_store (p := fun i => i + n) (fun i k _ _ h => Nat.add_right_cancel h) (fun _ => 0)
        _ (show i < 255 - n by omega), if_pos (by omega), pad_low b (by omega)]
    · rw [forLoop_store_other (p := fun i => i + n) (fun i hi => by omega) (fun _ => 0),
        forLoop_update]
      by_cases hlow : k < n
      · rw [if_pos ⟨Nat.zero_le k, hlow⟩, if_pos (by omega),
          show 255 - (k + 1) = 255 - n + (n - (k + 1)) by omega, pad_add]
      · rw [if_neg (by omega), if_neg (by omega)]
  simp only [receive] at hcoeff ⊢
  rw [hcoeff]

theorem writeMessage_at (rs : ReedSolomon) (msg : Nat → UInt8) (at_ n : Nat) {count j : Nat}
    (hj : j < count) :
    rs.writeMessage n count msg at_ (at_ + j) = rs.receivedPolynomial.coeff (n - (j + 1)) :=
  forLoop_store (p := fun i => at_ + i) (fun _ _ _ _ h => Nat.add_left_cancel h)
    (fun i => rs.receivedPolynomial.coeff (n - (i + 1))) msg hj

/-- A short block decodes as the padded one does. -/
theorem decode_pad (h : Usable rs) (hn : n ≤ 255) (b msg : Nat → UInt8) (at_ : Nat) :
    (rs.decode b n msg at_).1 = (rs.decode (pad (255 - n) b) 255 msg at_).1 ∧
      ((rs.decode (pad (255 - n) b) 255 msg at_).2.1 ≠ none →
        (rs.decode b n msg at_).2.1 = some (n - 32) ∧ ∀ j, j < n - 32 →
          (rs.decode b n msg at_).2.2 (at_ + j) =
            (rs.decode b n msg at_).1.receivedPolynomial.coeff (n - (j + 1))) := by
  have hblock : rs.blockLength = 255 := h.1.blockLength_eq
  have hmin : rs.minDistance = 32 := h.1.minDistance_eq
  have hreceive := receive_pad (built_prepared h).blockLength hn b
  have hzero : rs.allZero b n = rs.allZero (pad (255 - n) b) 255 := by
    rw [allZero, hreceive, ← allZero]
  have hafter : rs.afterSyndromes b n = rs.afterSyndromes (pad (255 - n) b) 255 := by
    rw [afterSyndromes, hreceive, ← afterSyndromes]
  have hlocated : rs.located b n = rs.located (pad (255 - n) b) 255 := by
    rw [located, hafter, ← located]
  rw [decode_eq rs b msg at_ (hn.trans (Nat.le_of_eq hblock.symm)),
    decode_eq rs _ msg at_ (Nat.le_of_eq hblock.symm), hzero, hafter, hlocated, hmin]
  split
  · exact ⟨rfl, fun _ => ⟨rfl, fun j hj => writeMessage_at _ msg at_ n hj⟩⟩
  · rw [decodeErrors_eq, decodeErrors_eq]
    split
    · exact ⟨rfl, fun _ => ⟨rfl, fun j hj => writeMessage_at _ msg at_ n hj⟩⟩
    · exact ⟨rfl, fun hnone => absurd rfl hnone⟩

/-- A short block with at most 16 errors decodes to the message of the word. -/
theorem decode_few_errors_pad (h : Usable rs) (hn : n ≤ 255) {b word : Nat → UInt8}
    (hword : Codeword (pad (255 - n) word))
    (hfew : (errorSet (pad (255 - n) b) (pad (255 - n) word)).card ≤ 16) (msg : Nat → UInt8)
    (at_ : Nat) :
    (rs.decode b n msg at_).2.1 = some (n - 32) ∧
      ∀ j, j < n - 32 → (rs.decode b n msg at_).2.2 (at_ + j) = word j := by
  obtain ⟨hsome, hmessage⟩ := decode_few_errors h hword hfew msg at_
  obtain ⟨hsame, hresult⟩ := decode_pad h hn b msg at_
  have hne : (rs.decode (pad (255 - n) b) 255 msg at_).2.1 ≠ none := by
    rw [hsome]
    exact Option.some_ne_none 223
  obtain ⟨hlength, hread⟩ := hresult hne
  refine ⟨hlength, fun j hj => ?_⟩
  have hlong := hmessage (255 - n + j) (by omega)
  rw [decode_message h _ msg at_ hne (by omega), pad_add] at hlong
  rw [hread j hj, hsame, ← hlong]
  congr 1
  omega

/-! ## The encoder -/

variable {m : Nat}

/-- The message as the polynomial that is divided. -/
def shortPolynomial (rs : ReedSolomon) (msg : Nat → UInt8) (m : Nat) : PolynomialT :=
  ⟨setRange (setRange (forLoop 0 m (fun i coeff =>
      Function.update coeff (254 - (i + (223 - m))) (msg i)) rs.encodedPolynomial.coeff)
      (255 - (223 - m)) 0 (223 - m)) 0 0 32, 254⟩

theorem shortPolynomial_high (rs : ReedSolomon) (msg : Nat → UInt8) (hm : m ≤ 223) {j : Nat}
    (hj : j < m) : (rs.shortPolynomial msg m).coeff (254 - (j + (223 - m))) = msg j := by
  rw [shortPolynomial]
  simp only
  rw [setRange_above (by omega), setRange, if_neg (by omega)]
  exact forLoop_store (p := fun i => 254 - (i + (223 - m))) (fun i k hi hk h => by omega) msg _ hj

/-- The polynomial of a short message is that of the padded one. -/
theorem shortPolynomial_pad (rs : ReedSolomon) (msg : Nat → UInt8) (hm : m ≤ 223) :
    rs.shortPolynomial msg m = rs.messagePolynomial (pad (223 - m) msg) := by
  have hcoeff : (rs.shortPolynomial msg m).coeff =
      (rs.messagePolynomial (pad (223 - m) msg)).coeff := by
    funext k
    by_cases hlow : k < 32
    · rw [messagePolynomial_low _ _ hlow]
      exact setRange_inside (Nat.zero_le k) hlow
    by_cases hmid : k < 32 + m
    · have hindex : k = 254 - (254 - (223 - m) - k + (223 - m)) := by omega
      rw [hindex, shortPolynomial_high rs msg hm (by omega),
        messagePolynomial_high rs _ (by omega), Nat.add_comm _ (223 - m), pad_add]
    by_cases hhigh : k < 255
    · have hindex : k = 254 - (254 - k) := by omega
      rw [hindex, messagePolynomial_high rs _ (by omega), pad_low _ (by omega), ← hindex,
        shortPolynomial]
      simp only
      rw [setRange_above (by omega), setRange_inside (by omega) (by omega)]
    · rw [shortPolynomial, messagePolynomial]
      simp only
      rw [setRange_above (by omega), setRange_above (by omega), setRange_above (by omega),
        setRange, if_neg (by omega),
        forLoop_store_other (p := fun i => 254 - (i + (223 - m))) (fun i _ => by omega),
        forLoop_store_other (p := fun i => 254 - (i + 0)) (fun i _ => by omega)]
  exact congrArg (PolynomialT.mk · 254) hcoeff

theorem encode_short (h : Usable rs) (hm : m ≤ 223) (msg encoded : Nat → UInt8) :
    (rs.encode msg m encoded).2 = (some 255,
      forLoop 0 32 (fun i encoded => Function.update encoded (m + i)
        ((rs.messageRemainder (pad (223 - m) msg)).coeff (32 - (i + 1))))
        (forLoop 0 m (fun i encoded => Function.update encoded i
          ((rs.shortPolynomial msg m).coeff (254 - (i + (223 - m))))) encoded)) := by
  have hmsg : rs.messageLength = 223 := h.1.messageLength_eq
  have hmin : rs.minDistance = 32 := h.1.minDistance_eq
  have hblock : rs.blockLength = 255 := h.1.blockLength_eq
  have hfield : rs.field = ccsdsField := h.1.field_eq
  have horder : rs.encodedPolynomial.order = 254 := h.1.encodedOrder_eq
  rw [messageRemainder, ← shortPolynomial_pad rs msg hm, encode, hmsg, if_neg (Nat.not_lt.mpr hm)]
  simp only [hmin, hblock, hfield, horder]
  rfl

theorem encode_short_message (h : Usable rs) (hm : m ≤ 223) (msg encoded : Nat → UInt8) {j : Nat}
    (hj : j < m) : (rs.encode msg m encoded).2.2 j = msg j := by
  rw [encode_short h hm]
  simp only
  rw [forLoop_store_other (p := fun i => m + i) (fun i _ => by omega), forLoop_update,
    if_pos ⟨Nat.zero_le j, hj⟩]
  exact shortPolynomial_high rs msg hm hj

/-- What the encoder makes of a short message is the end of what it makes of the padded one. -/
theorem encode_pad (h : Usable rs) (hm : m ≤ 223) (msg encoded : Nat → UInt8) {j : Nat}
    (hj : j < 255) :
    pad (223 - m) (rs.encode msg m encoded).2.2 j =
      (rs.encode (pad (223 - m) msg) 223 encoded).2.2 j := by
  by_cases hmsg : j < 223
  · rw [encode_message h _ encoded hmsg]
    exact pad_congr (n := m) (fun i hi => encode_short_message h hm msg encoded hi) (by omega)
  · have hindex : j = 254 - (254 - j) := by omega
    have hpad : j = 223 - m + (m + (31 - (254 - j))) := by omega
    rw [hindex, encode_parity h _ encoded (by omega), ← hindex, hpad, pad_add, encode_short h hm]
    simp only
    rw [forLoop_store (p := fun i => m + i) (fun i k _ _ h => Nat.add_left_cancel h) _ _ (by omega)]
    congr 1
    omega

/-- The encoder makes code words of short messages. -/
theorem codeword_encode_pad (h : Usable rs) (hm : m ≤ 223) (msg encoded : Nat → UInt8) :
    Codeword (pad (223 - m) (rs.encode msg m encoded).2.2) :=
  (codeword_congr fun _ hj => encode_pad h hm msg encoded hj).mpr (codeword_encode h _ encoded)

end ReedSolomon

end RyFi.Rs
