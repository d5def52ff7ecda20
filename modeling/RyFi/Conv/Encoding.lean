import RyFi.Conv.Viterbi
import RyFi.Conv.Instance

/-! # What the encoder writes

`inputPath` is the message as a path of the trellis, followed by zeros.  The encoder's
register is its end, and bit `k` of the output is one bit of a row: `encode_bit`.
-/

namespace RyFi.Conv

open CLoop

/-! ## Bits of bytes -/

/-- Bit `k` of a byte buffer, most significant bits first. -/
def bufferBit (bytes : Nat → UInt8) (k : Nat) : Bool := (bytes (k / 8)).toNat.testBit (7 - k % 8)

theorem value_testBit {bits : List Bool} {j : Nat} (hj : j < bits.length) :
    (value bits).testBit (bits.length - 1 - j) = bits[j] := by
  induction bits using List.reverseRecOn with
  | nil => simp at hj
  | append_singleton bits b ih =>
    have hb := Bool.toNat_lt b
    rw [List.length_append, List.length_singleton] at hj
    rw [value_snoc, List.length_append, List.length_singleton]
    by_cases hlast : j = bits.length
    · subst hlast
      rw [show bits.length + 1 - 1 - bits.length = 0 by omega, Nat.testBit_zero,
        List.getElem_append_right (Nat.le_refl _)]
      cases b <;> simp
    · rw [show bits.length + 1 - 1 - j = bits.length - 1 - j + 1 by omega, Nat.testBit_succ,
        show (2 * value bits + b.toNat) / 2 = value bits by omega, ih (by omega),
        List.getElem_append_left]

/-- The bits a writer holds are the bits of the bytes it has stored. -/
theorem BitWriter.bufferBit_of_holds {msg : Nat → UInt8} {bits : List Bool} {w : BitWriter}
    (h : Holds msg bits w) {k : Nat} (hk : k < 8 * (bits.length / 8)) :
    some (bufferBit w.bytes k) = bits[k]? := by
  have hbyte := h.written (k / 8) (by omega)
  have hlen : ((bits.drop (8 * (k / 8))).take 8).length = 8 := by
    rw [List.length_take, List.length_drop]
    omega
  have hbit := @value_testBit ((bits.drop (8 * (k / 8))).take 8) (k % 8) (by omega)
  have hplace : 7 - k % 8 = ((bits.drop (8 * (k / 8))).take 8).length - 1 - k % 8 := by omega
  rw [bufferBit, hbyte, hplace, hbit, List.getElem_take, List.getElem_drop,
    List.getElem?_eq_getElem (by omega)]
  congr 2
  omega

/-- A byte is its bits. -/
theorem byte_ext {a b : UInt8}
    (h : ∀ j, j < 8 → a.toNat.testBit (7 - j) = b.toNat.testBit (7 - j)) :
    a = b := by
  rw [← UInt8.toNat_inj]
  refine Nat.eq_of_testBit_eq fun i => ?_
  by_cases hi : i < 8
  · have := h (7 - i) (by omega)
    rw [show 7 - (7 - i) = i by omega] at this
    exact this
  · have hpow : 2 ^ 8 ≤ 2 ^ i := Nat.pow_le_pow_right (by omega) (by omega)
    have ha := a.toNat_lt
    have hb := b.toNat_lt
    rw [Nat.testBit_lt_two_pow (by omega), Nat.testBit_lt_two_pow (by omega)]

/-! ## Reading the message -/

namespace BitReader

/-- The reader has read `i` bits of `bytes`. -/
structure Read (bytes : Nat → UInt8) (i : Nat) (r : BitReader) : Prop where
  bytes_eq : r.bytes = bytes
  currentByte_eq : r.currentByte = bytes r.byteIndex
  currentByteLen_le : r.currentByteLen ≤ 8
  position : 8 * r.byteIndex + (8 - r.currentByteLen) = i

theorem takeBits_one {r : BitReader} (hpos : 0 < r.currentByteLen) (hle : r.currentByteLen ≤ 8) :
    r.takeBits 1 = (r.currentByte.toNat.testBit (r.currentByteLen - 1)).toNat := by
  have hmask : ∀ k : Fin 8,
      ((UInt8.ofNat (2 ^ 1 - 1)) <<< UInt8.ofNat k.val).toNat = 2 ^ k.val := by
    decide
  have hshift := hmask ⟨r.currentByteLen - 1, by omega⟩
  simp only at hshift
  rw [takeBits, UInt8.toNat_and, hshift, Nat.and_two_pow, Nat.shiftRight_eq_div_pow,
    Nat.mul_div_cancel _ (Nat.two_pow_pos _)]

theorem reverseByte_bit (b : Bool) :
    (reverseByte (UInt8.ofNat b.toNat) >>> UInt8.ofNat (8 - 1)).toNat = b.toNat := by
  cases b <;> rfl

theorem read_one {bytes : Nat → UInt8} {i : Nat} {r : BitReader} (h : Read bytes i r) :
    (r.read 1).1.toNat = (bufferBit bytes i).toNat ∧ Read bytes (i + 1) (r.read 1).2 := by
  have hpos := h.position
  have hle := h.currentByteLen_le
  by_cases hempty : r.currentByteLen < 1
  · have hzero : r.currentByteLen = 0 := by omega
    simp only [read, hzero]
    rw [if_pos (by omega)]
    have hindex : i / 8 = r.byteIndex + 1 ∧ i % 8 = 0 := by omega
    simp only [Nat.pow_zero, Nat.sub_self, Nat.and_zero, Nat.zero_shiftLeft, Nat.zero_or]
    refine ⟨?_, h.bytes_eq, ?_, ?_, ?_⟩
    · rw [takeBits_one (by simp) (by simp), reverseByte_bit, bufferBit, hindex.1, hindex.2,
        h.bytes_eq]
      rfl
    · rw [h.bytes_eq]
    · simp
    · simp only
      omega
  · simp only [read]
    rw [if_neg hempty]
    have hindex : i / 8 = r.byteIndex ∧ i % 8 = 8 - r.currentByteLen := by omega
    refine ⟨?_, h.bytes_eq, h.currentByte_eq, ?_, ?_⟩
    · rw [takeBits_one (by omega) hle, reverseByte_bit, bufferBit, hindex.1, hindex.2,
        h.currentByte_eq, show 7 - (8 - r.currentByteLen) = r.currentByteLen - 1 by omega]
    · simp only
      omega
    · simp only
      omega

end BitReader

/-! ## Writing the rows -/

theorem BitWriter.holds_write {msg : Nat → UInt8} {bits : List Bool} {w : BitWriter}
    (h : Holds msg bits w) (val : UInt8) (n : Nat) :
    Holds msg (bits ++ (List.range n).map fun j => val.toNat.testBit j) (w.write val n) := by
  have hloop := @forLoop_induct _ 0 n
    (fun _ (s : BitWriter × UInt8) => (s.1.write1 s.2, s.2 >>> 1)) (w, val)
    (fun k s => Holds msg (bits ++ (List.range k).map fun j => val.toNat.testBit j) s.1 ∧
      s.2.toNat = val.toNat / 2 ^ k) (Nat.zero_le _) ?_ ?_
  · exact hloop.1
  · simpa using h
  · rintro k s - - ⟨hs, hval⟩
    have hbit : val.toNat.testBit k = decide (s.2.toNat % 2 = 1) := by
      rw [hval, Nat.testBit_eq_decide_div_mod_eq]
    constructor
    · rw [List.range_succ, List.map_append, ← List.append_assoc, List.map_singleton, hbit]
      exact holds_write1 hs s.2
    · change (s.2 >>> 1).toNat = _
      rw [UInt8.toNat_shiftRight, show (1 : UInt8).toNat % 8 = 1 from rfl,
        Nat.shiftRight_eq_div_pow, hval, Nat.div_div_eq_div_mul, Nat.pow_one, ← Nat.pow_succ]

/-! ## The message as a path -/

section Path

variable (msg : Nat → UInt8) (n : Nat)

/-- Input bit `i` of the encoder: the message, then zeros. -/
def inputBit (i : Nat) : Bool := decide (i < 8 * n) && bufferBit msg i

/-- The first `t` input bits. -/
def inputPath : Nat → Nat
  | 0 => 0
  | t + 1 => 2 * inputPath t + (inputBit msg n t).toNat

theorem inputPath_lt (t : Nat) : inputPath msg n t < 2 ^ t := by
  induction t with
  | zero => simp [inputPath]
  | succ t ih =>
    have hb := Bool.toNat_lt (inputBit msg n t)
    rw [Nat.pow_succ, inputPath]
    omega

theorem inputPath_shift (t k : Nat) : inputPath msg n (t + k) / 2 ^ k = inputPath msg n t := by
  induction k with
  | zero => simp
  | succ k ih =>
    have hb := Bool.toNat_lt (inputBit msg n (t + k))
    rw [Nat.pow_succ', ← Nat.div_div_eq_div_mul, ← Nat.add_assoc, inputPath,
      show (2 * inputPath msg n (t + k) + (inputBit msg n (t + k)).toNat) / 2 =
        inputPath msg n (t + k) by omega, ih]

theorem inputPath_half (t : Nat) : inputPath msg n (t + 1) / 2 = inputPath msg n t := by
  have hshift := inputPath_shift msg n t 1
  rw [Nat.pow_one] at hshift
  exact hshift

theorem inputPath_testBit {t u : Nat} (hu : u < t) :
    (inputPath msg n t).testBit (t - 1 - u) = inputBit msg n u := by
  have hshift := inputPath_shift msg n (u + 1) (t - 1 - u)
  rw [show u + 1 + (t - 1 - u) = t by omega] at hshift
  have hbit := Nat.testBit_div_two_pow (n := t - 1 - u) (inputPath msg n t) 0
  rw [hshift, Nat.zero_add] at hbit
  rw [← hbit, Nat.testBit_zero, inputPath]
  cases inputBit msg n u <;> simp

end Path

/-! ## The encoder -/

namespace Convolutional

variable {rate order : Nat} {poly : Nat → Nat} {conv : Convolutional} {msg encoded : Nat → UInt8}
  {n : Nat}

/-- Code bit `k` of a path of input bits: a row has `rate` of them. -/
def codeBit (rate order : Nat) (poly path : Nat → Nat) (k : Nat) : Bool :=
  (fillTable rate poly (path (k / rate + 1) % 2 ^ order)).testBit (k % rate)

/-- The first `t` rows. -/
def codeBits (rate order : Nat) (poly path : Nat → Nat) (t : Nat) : List Bool :=
  (List.range (rate * t)).map (codeBit rate order poly path)

theorem codeBits_succ (hrate : 0 < rate) (path : Nat → Nat) (t : Nat) :
    codeBits rate order poly path (t + 1) = codeBits rate order poly path t ++
      (List.range rate).map fun j =>
        (fillTable rate poly (path (t + 1) % 2 ^ order)).testBit j := by
  rw [codeBits, codeBits, Nat.mul_succ, List.range_add, List.map_append, List.map_map]
  congr 1
  refine List.map_congr_left fun j hj => ?_
  have hj := List.mem_range.mp hj
  simp only [Function.comp, codeBit]
  rw [Nat.mul_add_div hrate, Nat.div_eq_of_lt hj, Nat.add_zero, Nat.mul_add_mod,
    Nat.mod_eq_of_lt hj]

/-- After `t` rows: the register is the end of the path, and the writer holds the rows. -/
structure Encoded (rate order : Nat) (poly path : Nat → Nat) (encoded : Nat → UInt8) (t : Nat)
    (s : Nat × BitWriter) : Prop where
  register_eq : s.1 = path t % 2 ^ order
  holds : BitWriter.Holds encoded (codeBits rate order poly path t) s.2

theorem encoded_encodeBit (h : Configured rate order poly conv) (hrate : 0 < rate)
    (hbyte : rate ≤ 8) {path : Nat → Nat} {t : Nat} {b : Bool}
    (hpath : path (t + 1) = 2 * path t + b.toNat) {s : Nat × BitWriter}
    (hs : Encoded rate order poly path encoded t s) :
    Encoded rate order poly path encoded (t + 1) (conv.encodeBit b.toNat s) := by
  have hregister : ((s.1 <<< 1) ||| b.toNat) &&& (1 <<< conv.order - 1) =
      path (t + 1) % 2 ^ order := by
    rw [Nat.one_shiftLeft, h.order_eq, Nat.and_two_pow_sub_one_eq_mod, Nat.shiftLeft_eq,
      Nat.pow_one, Nat.mul_comm, BitWriter.two_mul_or _ (Bool.toNat_lt b), hs.register_eq, hpath,
      Nat.add_mod, Nat.mul_mod_mod, ← Nat.add_mod]
  have hlt := fillTable_lt rate poly (path (t + 1) % 2 ^ order)
  have hpow : 2 ^ rate ≤ 2 ^ 8 := Nat.pow_le_pow_right (by omega) hbyte
  refine ⟨hregister, ?_⟩
  have hwrite := BitWriter.holds_write hs.holds
    (UInt8.ofNat (fillTable rate poly (path (t + 1) % 2 ^ order))) rate
  rw [UInt8.toNat_ofNat', Nat.mod_eq_of_lt (by omega), ← codeBits_succ hrate] at hwrite
  simp only [encodeBit, hregister, h.table_eq, h.rate_eq]
  exact hwrite

/-- The rows of the whole message and of the flush. -/
theorem encode_rows (msg encoded : Nat → UInt8) (n : Nat) (h : Configured rate order poly conv)
    (hrate : 0 < rate) (hbyte : rate ≤ 8) :
    ∃ w, (conv.encode msg n encoded).1 = (BitWriter.flushByte w).bytes ∧
      BitWriter.Holds encoded (codeBits rate order poly (inputPath msg n) (8 * n + (order + 1)))
        w := by
  have hmessage := @forLoop_induct _ 0 (8 * n)
    (fun _ (s : (Nat × BitWriter) × BitReader) =>
      (conv.encodeBit (s.2.read 1).1.toNat s.1, (s.2.read 1).2))
    ((0, BitWriter.reconfigure encoded ((conv.encodeLen n + 7) / 8)),
      BitReader.reconfigure msg n)
    (fun t s => Encoded rate order poly (inputPath msg n) encoded t s.1 ∧
      BitReader.Read msg t s.2) (Nat.zero_le _) ?_ ?_
  · have hflush := @forLoop_induct _ 0 (conv.order + 1) (fun _ s => conv.encodeBit 0 s) _
      (fun t s => Encoded rate order poly (inputPath msg n) encoded (8 * n + t) s)
      (Nat.zero_le _) hmessage.1 ?_
    · refine ⟨_, rfl, ?_⟩
      have hholds := hflush.holds
      rw [congrArg (8 * n + ·) (congrArg (· + 1) h.order_eq)] at hholds
      exact hholds
    · intro t s _ _ hs
      have hzero : inputBit msg n (8 * n + t) = false := by
        simp [inputBit]
      refine encoded_encodeBit h hrate hbyte (b := false) ?_ hs
      rw [← hzero]
      rfl
  · refine ⟨⟨by simp [inputPath], ?_⟩, rfl, rfl, Nat.le_refl 8, rfl⟩
    simp only [codeBits, Nat.mul_zero, List.range_zero, List.map_nil]
    exact BitWriter.holds_reconfigure _ _
  · rintro t s - ht ⟨hs, hread⟩
    obtain ⟨hbit, hnext⟩ := BitReader.read_one hread
    have hinput : inputBit msg n t = bufferBit msg t := by
      rw [inputBit, decide_eq_true (by omega), Bool.true_and]
    refine ⟨?_, hnext⟩
    simp only [hbit]
    refine encoded_encodeBit h hrate hbyte ?_ hs
    rw [inputPath, hinput]

/-! ## The code of the modem -/

/-- Code bit `k` of the message. -/
def sentBit (msg : Nat → UInt8) (n k : Nat) : Bool :=
  (codeTable (inputPath msg n (k / 2 + 1) % 128)).testBit (k % 2)

/-- The bytes `correct_convolutional_encode` writes, bit by bit. -/
theorem encode_bit (h : Configured 2 7 r12_7_polynomial conv) {k : Nat}
    (hk : k < 2 * (8 * n + 8)) :
    bufferBit (conv.encode msg n encoded).1 k = sentBit msg n k := by
  obtain ⟨w, hw, hholds⟩ := encode_rows msg encoded n h
    (by omega) (by omega)
  have hlen : (codeBits 2 7 r12_7_polynomial (inputPath msg n) (8 * n + (7 + 1))).length =
      2 * (8 * n + 8) := by
    simp [codeBits]
  have hfull : w.currentByteLen = 0 := by
    rw [hholds.currentByteLen, hlen]
    omega
  have hflush : w.flushByte = w := by
    rw [BitWriter.flushByte, if_neg (by omega)]
  have hbit := BitWriter.bufferBit_of_holds hholds (k := k) (by rw [hlen]; omega)
  rw [codeBits, List.getElem?_map, List.getElem?_range (by omega)] at hbit
  rw [hw, hflush]
  exact Option.some.inj hbit

end Convolutional

end RyFi.Conv
