import RyFi.Conv.Encoding

/-! # The encoder against the code's bit stream

`codeStream` is the stream of the code itself: one row of parities for every input bit that is
shifted in.  The encoder writes all its whole bytes (`encode_rows`).  Of a last partial byte
`bit_writer_flush_byte` drops the first bit, because `bit_writer_write_1` has already shifted
it once (`bufferBit_flushByte`); `encode_stream_iff` says when that loses anything.
-/

namespace RyFi.Conv

open CLoop

/-! ## A buffer that stores bits -/

/-- The bytes `out` start with `bits`, and their last byte is filled up with zeros. -/
def Stores (bits : List Bool) (out : Nat → UInt8) : Prop :=
  (List.range (8 * ((bits.length + 7) / 8))).map (bufferBit out) =
    bits ++ List.replicate (8 * ((bits.length + 7) / 8) - bits.length) false

instance (bits : List Bool) (out : Nat → UInt8) : Decidable (Stores bits out) :=
  inferInstanceAs (Decidable (_ = _))

theorem getD_append_false (bits : List Bool) {pad k : Nat} :
    (bits ++ List.replicate pad false).getD k false = bits.getD k false := by
  rcases Nat.lt_or_ge k bits.length with hk | hk
  · rw [List.getD_append _ _ _ _ hk]
  · rw [List.getD_append_right _ _ _ _ hk, List.getD_eq_default _ _ hk]
    rcases Nat.lt_or_ge (k - bits.length) pad with hpad | hpad
    · rw [List.getD_replicate _ hpad]
    · rw [List.getD_eq_default _ _ (by rw [List.length_replicate]; exact hpad)]

theorem stores_iff (bits : List Bool) (out : Nat → UInt8) :
    Stores bits out ↔
      ∀ k, k < 8 * ((bits.length + 7) / 8) → bufferBit out k = bits.getD k false := by
  constructor
  · intro h k hk
    rw [← @getD_append_false bits (8 * ((bits.length + 7) / 8) - bits.length) k, ← h,
      List.getD_eq_getElem?_getD, List.getElem?_map, List.getElem?_range hk]
    rfl
  · intro h
    refine List.ext_getElem ?_ fun k hk hk' => ?_
    · simp only [List.length_map, List.length_range, List.length_append, List.length_replicate]
      omega
    · rw [List.length_map, List.length_range] at hk
      rw [List.getElem_map, List.getElem_range, h k hk,
        ← @getD_append_false bits (8 * ((bits.length + 7) / 8) - bits.length) k,
        List.getD_eq_getElem _ _ hk']

/-! ## The flush -/

namespace BitWriter

/-- The current byte is shifted by one place more than it has free bits: of a partial byte
    the first bit is lost. -/
theorem bufferBit_flushByte {out : Nat → UInt8} {bits : List Bool} {w : BitWriter}
    (h : Holds out bits w) {k : Nat} (hk : k < 8 * ((bits.length + 7) / 8)) :
    bufferBit w.flushByte.bytes k =
      bits.getD (if k < 8 * (bits.length / 8) then k else k + 1) false := by
  have hopen := h.currentByteLen
  -- the whole bytes are not touched, and the flush stores one byte behind them
  by_cases hwhole : k < 8 * (bits.length / 8)
  · have hbit := bufferBit_of_holds h hwhole
    have hkept : w.flushByte.bytes (k / 8) = w.bytes (k / 8) := by
      simp only [flushByte]
      split
      · simp only [h.byteIndex]
        rw [Function.update_of_ne (by omega)]
      · rfl
    rw [if_pos hwhole, bufferBit, hkept, List.getD_eq_getElem?_getD, ← hbit]
    rfl
  · have hbyte : w.flushByte.bytes (k / 8) =
        w.currentByte <<< UInt8.ofNat (8 - bits.length % 8) := by
      rw [flushByte, if_pos (by omega)]
      simp only [h.byteIndex, hopen]
      rw [show k / 8 = bits.length / 8 by omega, Function.update_self]
    have hpending := pending_length bits
    have hshift : (w.currentByte <<< UInt8.ofNat (8 - bits.length % 8)).toNat =
        value (bits.drop (8 * (bits.length / 8))) <<< (9 - bits.length % 8) % 2 ^ 8 := by
      rw [UInt8.toNat_shiftLeft, UInt8.toNat_ofNat', h.currentByte,
        show (8 - bits.length % 8) % 2 ^ 8 % 8 = 8 - bits.length % 8 by omega,
        show 9 - bits.length % 8 = 1 + (8 - bits.length % 8) by omega, Nat.shiftLeft_add,
        Nat.shiftLeft_eq _ 1, Nat.pow_one, Nat.mul_comm]
    rw [if_neg hwhole, bufferBit, hbyte, hshift, Nat.testBit_mod_two_pow, Nat.testBit_shiftLeft,
      decide_eq_true (by omega), Bool.true_and]
    by_cases hin : k + 1 < bits.length
    · have hbit := @value_testBit (bits.drop (8 * (bits.length / 8))) (k % 8 + 1) (by omega)
      have hplace : 7 - k % 8 - (9 - bits.length % 8) =
          (bits.drop (8 * (bits.length / 8))).length - 1 - (k % 8 + 1) := by omega
      rw [decide_eq_true (by omega), Bool.true_and, hplace, hbit, List.getElem_drop,
        List.getD_eq_getElem _ _ hin]
      congr 1
      omega
    · rw [decide_eq_false (by omega), Bool.false_and, List.getD_eq_default _ _ (by omega)]

/-- The flush stores the bits exactly when those of the partial byte are zeros. -/
theorem stores_flushByte_iff {out : Nat → UInt8} {bits : List Bool} {w : BitWriter}
    (h : Holds out bits w) :
    Stores bits w.flushByte.bytes ↔
      ∀ k, 8 * (bits.length / 8) ≤ k → bits.getD k false = false := by
  rw [stores_iff]
  constructor
  · intro hstores
    -- from the end of the byte back: every bit equals the next one
    have hback : ∀ d k, 8 * (bits.length / 8) ≤ k → bits.length ≤ k + d →
        bits.getD k false = false := by
      intro d
      induction d with
      | zero => exact fun k _ hend => List.getD_eq_default _ _ hend
      | succ d ih =>
        intro k hk hend
        by_cases hlast : bits.length ≤ k
        · exact List.getD_eq_default _ _ hlast
        · have hbit := hstores k (by omega)
          rw [bufferBit_flushByte h (by omega), if_neg (by omega)] at hbit
          rw [← hbit]
          exact ih (k + 1) (by omega) (by omega)
    exact fun k hk => hback bits.length k hk (by omega)
  · intro hzero k hk
    rw [bufferBit_flushByte h hk]
    by_cases hwhole : k < 8 * (bits.length / 8)
    · rw [if_pos hwhole]
    · rw [if_neg hwhole, hzero k (by omega), hzero (k + 1) (by omega)]

end BitWriter

/-! ## The stream of the code -/

/-- The register once bit `b` is shifted in. -/
def shiftIn (order reg : Nat) (b : Bool) : Nat := (2 * reg + b.toNat) % 2 ^ order

/-- The output of every polynomial on a register, the first one first. -/
def row (rate : Nat) (poly : Nat → Nat) (reg : Nat) : List Bool :=
  (List.range rate).map fun j => parity (poly j) reg

/-- One row for every input bit, from register `reg` on. -/
def codeStream (rate order : Nat) (poly : Nat → Nat) : Nat → List Bool → List Bool
  | _, [] => []
  | reg, b :: bits =>
    row rate poly (shiftIn order reg b) ++ codeStream rate order poly (shiftIn order reg b) bits

/-- What the encoder shifts in: the bits of the message, and then zeros. -/
def inputBits (order : Nat) (msg : Nat → UInt8) (n : Nat) : List Bool :=
  (List.range (8 * n)).map (bufferBit msg) ++ List.replicate (order + 1) false

theorem codeStream_append (rate order : Nat) (poly : Nat → Nat) (reg : Nat)
    (bits more : List Bool) :
    codeStream rate order poly reg (bits ++ more) = codeStream rate order poly reg bits ++
      codeStream rate order poly (bits.foldl (shiftIn order) reg) more := by
  induction bits generalizing reg with
  | nil => rfl
  | cons b bits ih =>
    simp only [List.cons_append, codeStream, List.foldl_cons, List.append_assoc]
    rw [ih]

theorem inputBits_eq (order : Nat) (msg : Nat → UInt8) (n : Nat) :
    inputBits order msg n = (List.range (8 * n + (order + 1))).map (inputBit msg n) := by
  rw [inputBits, List.range_add, List.map_append, List.map_map]
  congr 1
  · refine List.map_congr_left fun i hi => ?_
    rw [inputBit, decide_eq_true (List.mem_range.mp hi), Bool.true_and]
  · refine (List.eq_replicate_iff.mpr ⟨by simp, fun b hb => ?_⟩).symm
    obtain ⟨i, -, rfl⟩ := List.mem_map.mp hb
    simp [inputBit]

namespace Convolutional

variable {rate order : Nat} {poly : Nat → Nat} {conv : Convolutional} {msg encoded : Nat → UInt8}
  {n : Nat}

theorem foldl_shiftIn (order : Nat) (msg : Nat → UInt8) (n t : Nat) :
    ((List.range t).map (inputBit msg n)).foldl (shiftIn order) 0 =
      inputPath msg n t % 2 ^ order := by
  induction t with
  | zero => simp [inputPath]
  | succ t ih =>
    rw [List.range_succ, List.map_append, List.foldl_append, ih]
    simp only [List.map_cons, List.map_nil, List.foldl_cons, List.foldl_nil, shiftIn, inputPath]
    rw [Nat.add_mod, Nat.mul_mod_mod, ← Nat.add_mod]

/-- The rows the encoder looks up are the stream of the code. -/
theorem codeStream_eq (hrate : 0 < rate) (poly : Nat → Nat) (msg : Nat → UInt8) (n t : Nat) :
    codeStream rate order poly 0 ((List.range t).map (inputBit msg n)) =
      codeBits rate order poly (inputPath msg n) t := by
  induction t with
  | zero => rfl
  | succ t ih =>
    rw [List.range_succ, List.map_append, codeStream_append, ih, codeBits_succ hrate,
      foldl_shiftIn]
    simp only [List.map_cons, List.map_nil, codeStream, List.append_nil, row]
    have hregister : shiftIn order (inputPath msg n t % 2 ^ order) (inputBit msg n t) =
        inputPath msg n (t + 1) % 2 ^ order := by
      rw [shiftIn, inputPath, Nat.add_mod, Nat.mul_mod_mod, ← Nat.add_mod]
    rw [hregister]
    refine congrArg _ (List.map_congr_left fun j hj => ?_)
    rw [fillTable_testBit poly _ (List.mem_range.mp hj)]

/-! ## The last rows -/

/-- All message bits have left the register. -/
theorem register_empty (order : Nat) (msg : Nat → UInt8) (n i : Nat) :
    inputPath msg n (8 * n + order + i) % 2 ^ order = 0 := by
  refine Nat.eq_of_testBit_eq fun j => ?_
  rw [Nat.testBit_mod_two_pow, Nat.zero_testBit]
  by_cases hj : j < order
  · have hbit := @inputPath_testBit msg n (8 * n + order + i) (8 * n + order + i - 1 - j) (by omega)
    rw [show 8 * n + order + i - 1 - (8 * n + order + i - 1 - j) = j by omega] at hbit
    rw [decide_eq_true hj, Bool.true_and, hbit, inputBit, decide_eq_false (by omega),
      Bool.false_and]
  · rw [decide_eq_false hj, Bool.false_and]

/-- One step earlier the last message bit is the only one left, at the register's top. -/
theorem register_last (horder : 0 < order) (msg : Nat → UInt8) (hn : 0 < n) :
    inputPath msg n (8 * n + order - 1) % 2 ^ order =
      if bufferBit msg (8 * n - 1) then 2 ^ (order - 1) else 0 := by
  refine Nat.eq_of_testBit_eq fun j => ?_
  rw [Nat.testBit_mod_two_pow]
  by_cases hj : j < order
  · have hbit := @inputPath_testBit msg n (8 * n + order - 1) (8 * n + order - 1 - 1 - j) (by omega)
    rw [show 8 * n + order - 1 - 1 - (8 * n + order - 1 - 1 - j) = j by omega] at hbit
    rw [decide_eq_true hj, Bool.true_and, hbit, inputBit]
    -- the top bit is the message's last one, below it are zeros of the flush
    by_cases htop : j = order - 1
    · rw [decide_eq_true (by omega), Bool.true_and,
        show 8 * n + order - 1 - 1 - j = 8 * n - 1 by omega, htop]
      cases bufferBit msg (8 * n - 1)
      · exact (Nat.zero_testBit _).symm
      · exact Nat.testBit_two_pow_self.symm
    · rw [decide_eq_false (by omega), Bool.false_and]
      split
      · exact (Nat.testBit_two_pow_of_ne (Ne.symm htop)).symm
      · exact (Nat.zero_testBit _).symm
  · rw [decide_eq_false hj, Bool.false_and]
    split
    · exact (Nat.testBit_two_pow_of_ne (by omega)).symm
    · exact (Nat.zero_testBit _).symm

theorem parity_zero (poly : Nat) : parity poly 0 = false := by
  simp [parity, popcount]

/-- A register with one bit set reads one coefficient of the polynomial. -/
theorem parity_two_pow (poly : Nat) {i : Nat} (hi : i < 32) :
    parity poly (2 ^ i) = poly.testBit i := by
  have hone : ∀ k : Fin 32, popcount (2 ^ k.val) = 1 := by decide
  rw [parity, Nat.and_comm, Nat.and_two_pow]
  cases poly.testBit i
  · simp [popcount]
  · rw [Bool.toNat_true, Nat.one_mul, hone ⟨i, hi⟩]
    rfl

/-- The last two rows are zero, and the one before them shows the last bit of the message. -/
theorem codeBit_last (horder : 0 < order) (hle : order ≤ 32) (hn : 0 < n) {t j : Nat}
    (hj : j < rate) (ht : 8 * n + order - 2 ≤ t) :
    codeBit rate order poly (inputPath msg n) (rate * t + j) =
      (decide (t = 8 * n + order - 2) &&
        (bufferBit msg (8 * n - 1) && (poly j).testBit (order - 1))) := by
  rw [codeBit, Nat.mul_add_div (by omega), Nat.div_eq_of_lt hj, Nat.add_zero, Nat.mul_add_mod,
    Nat.mod_eq_of_lt hj, fillTable_testBit _ _ hj]
  by_cases hlast : t = 8 * n + order - 2
  · rw [show t + 1 = 8 * n + order - 1 by omega, register_last horder msg hn,
      decide_eq_true hlast, Bool.true_and]
    cases bufferBit msg (8 * n - 1)
    · exact parity_zero _
    · rw [if_pos rfl, parity_two_pow _ (by omega), Bool.true_and]
  · have hempty := register_empty order msg n (t + 1 - (8 * n + order))
    rw [show 8 * n + order + (t + 1 - (8 * n + order)) = t + 1 by omega] at hempty
    rw [hempty, parity_zero, decide_eq_false hlast, Bool.false_and]

theorem getD_codeBits (path : Nat → Nat) (t k : Nat) :
    (codeBits rate order poly path t).getD k false =
      (decide (k < rate * t) && codeBit rate order poly path k) := by
  rw [codeBits]
  by_cases hk : k < rate * t
  · rw [decide_eq_true hk, Bool.true_and, List.getD_eq_getElem?_getD, List.getElem?_map,
      List.getElem?_range hk]
    rfl
  · rw [decide_eq_false hk, Bool.false_and, List.getD_eq_default]
    rw [List.length_map, List.length_range]
    omega

/-- The partial byte at the end is zero exactly when none of the outputs in it reads the last
    bit of the message. -/
theorem partial_zero_iff (hrate : 2 ≤ rate) (horder : 0 < order) (hle : order ≤ 32) (hn : 0 < n) :
    (∀ k, 8 * (rate * (8 * n + (order + 1)) / 8) ≤ k →
        (codeBits rate order poly (inputPath msg n) (8 * n + (order + 1))).getD k false = false) ↔
      ∀ j, j < rate → 3 * rate ≤ j + rate * (order + 1) % 8 →
        (bufferBit msg (8 * n - 1) && (poly j).testBit (order - 1)) = false := by
  have hlen : rate * (8 * n + (order + 1)) = rate * (8 * n + order - 2) + 3 * rate := by
    rw [show 8 * n + (order + 1) = 8 * n + order - 2 + 3 by omega, Nat.mul_add, Nat.mul_comm rate 3]
  have hpending : rate * (8 * n + (order + 1)) % 8 = rate * (order + 1) % 8 := by
    rw [Nat.mul_add, Nat.mul_left_comm, Nat.mul_add_mod]
  -- the partial byte holds bits of the last three rows only
  have hrows : rate * (order + 1) % 8 ≤ 3 * rate := by
    rcases Nat.lt_or_ge rate 3 with htwo | hthree
    · have : rate = 2 := by omega
      subst this
      omega
    · omega
  constructor
  · intro hzero j hj hin
    have hbit := hzero (rate * (8 * n + order - 2) + j) (by omega)
    rw [getD_codeBits, decide_eq_true (by omega), Bool.true_and,
      codeBit_last horder hle hn hj (Nat.le_refl _), decide_eq_true rfl, Bool.true_and] at hbit
    exact hbit
  · intro hlast k hk
    rw [getD_codeBits]
    by_cases hin : k < rate * (8 * n + (order + 1))
    · have hrow : 8 * n + order - 2 ≤ k / rate := by
        rw [Nat.le_div_iff_mul_le (by omega), Nat.mul_comm]
        omega
      have hmod := Nat.mod_lt k (show 0 < rate by omega)
      have hsplit := Nat.div_add_mod k rate
      rw [← hsplit, codeBit_last horder hle hn hmod hrow]
      by_cases hthird : k / rate = 8 * n + order - 2
      · rw [hlast _ hmod (by rw [hthird] at hsplit; omega), Bool.and_false, Bool.and_false]
      · rw [decide_eq_false hthird, Bool.false_and, Bool.and_false]
    · rw [decide_eq_false hin, Bool.false_and]

/-! ## The encoder's stream -/

/-- The number of bits is the stream's length, and the bytes are the stream. -/
def EmitsStream (rate order : Nat) (poly : Nat → Nat) (msg : Nat → UInt8) (n : Nat)
    (out : (Nat → UInt8) × Nat) : Prop :=
  out.2 = rate * (8 * n + order + 1) ∧
    Stores (codeStream rate order poly 0 (inputBits order msg n)) out.1

instance (rate order : Nat) (poly : Nat → Nat) (msg : Nat → UInt8) (n : Nat)
    (out : (Nat → UInt8) × Nat) : Decidable (EmitsStream rate order poly msg n out) :=
  inferInstanceAs (Decidable (_ ∧ _))

/-- The encoder writes the code's stream, except when the last bit of the message is set and
    read, from the top of the register, by a polynomial whose output falls into the partial
    byte at the end. -/
theorem encode_stream_iff (h : Used rate order poly conv) (hrate : 2 ≤ rate) (hbyte : rate ≤ 8)
    (horder : 2 ≤ order) (hle : order ≤ 16) (hn : 1 ≤ n) :
    EmitsStream rate order poly msg n (conv.encode msg n encoded) ↔
      ∀ j, j < rate → 3 * rate ≤ j + rate * (order + 1) % 8 →
        (bufferBit msg (8 * n - 1) && (poly j).testBit (order - 1)) = false := by
  have hconf := used_configured h
  have hcount : (conv.encode msg n encoded).2 = rate * (8 * n + order + 1) := by
    simp only [encode, encodeLen, hconf.rate_eq, hconf.order_eq, Nat.add_assoc]
  obtain ⟨w, hw, hholds⟩ := encode_rows msg encoded n hconf (by omega) hbyte
  have hstream : codeStream rate order poly 0 (inputBits order msg n) =
      codeBits rate order poly (inputPath msg n) (8 * n + (order + 1)) := by
    rw [inputBits_eq, codeStream_eq (by omega)]
  have hlen : (codeBits rate order poly (inputPath msg n) (8 * n + (order + 1))).length =
      rate * (8 * n + (order + 1)) := by
    rw [codeBits, List.length_map, List.length_range]
  have hzero := BitWriter.stores_flushByte_iff hholds
  rw [hlen, partial_zero_iff hrate (by omega) (by omega) (by omega)] at hzero
  rw [EmitsStream, hw, hstream, hzero]
  exact and_iff_right hcount

/-- `correct_conv_r12_6_polynomial`. -/
def r12_6_polynomial (j : Nat) : Nat := if j = 0 then 0o73 else 0o61

/-- The code of the tests with six pending bits, on a message that ends in a zero bit. -/
theorem encode_stream_even :
    EmitsStream 2 6 r12_6_polynomial (fun _ => 2) 1
      ((initialized 2 6 r12_6_polynomial zeroed).encode (fun _ => 2) 1 fun _ => 0) :=
  (encode_stream_iff (Used.create (show create 2 6 r12_6_polynomial zeroed = some _ from rfl))
    (by decide) (by decide) (by decide) (by decide) (by decide)).mpr (by decide)

/-- On a message that ends in a set bit the same code loses the first of its last six bits. -/
theorem encode_stream_fails :
    ¬ ∀ (rate order : Nat) (poly : Nat → Nat) (conv : Convolutional) (msg encoded : Nat → UInt8)
      (n : Nat), Used rate order poly conv → 2 ≤ rate → rate ≤ 8 → 2 ≤ order → order ≤ 16 →
      1 ≤ n → EmitsStream rate order poly msg n (conv.encode msg n encoded) := by
  intro hclaim
  have hfails : ¬ EmitsStream 2 6 r12_6_polynomial (fun _ => 1) 1
      ((initialized 2 6 r12_6_polynomial zeroed).encode (fun _ => 1) 1 fun _ => 0) := by
    decide +kernel
  exact hfails (hclaim 2 6 r12_6_polynomial _ _ _ 1
    (Used.create (show create 2 6 r12_6_polynomial zeroed = some _ from rfl))
    (by decide) (by decide) (by decide) (by decide) (by decide))

end Convolutional

end RyFi.Conv
