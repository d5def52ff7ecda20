import RyFi.Conv.Bit
import Mathlib.Data.List.TakeDrop

/-! # What a bit writer holds

`Holds msg bits w` relates a writer to the list of bits written so far, first bit first.
`holds_write1` and `holds_writeBitlistReversed` are the two ways bits get in, and
`writeBitlistReversed_eq_write1` says that the second is the first done in bulk.
-/

namespace RyFi.Conv

open CLoop

/-- A list of bits as a number, first bit highest. -/
def value (bits : List Bool) : Nat := bits.foldl (fun v b => 2 * v + b.toNat) 0

/-- A bit as it is stored in a byte of its own. -/
def ofBool (b : Bool) : UInt8 := if b then 1 else 0

theorem value_snoc (bits : List Bool) (b : Bool) :
    value (bits ++ [b]) = 2 * value bits + b.toNat := by
  simp [value, List.foldl_append]

theorem value_lt (bits : List Bool) : value bits < 2 ^ bits.length := by
  induction bits using List.reverseRecOn with
  | nil => simp [value]
  | append_singleton bits b ih =>
    have hb := Bool.toNat_le b
    rw [value_snoc, List.length_append, List.length_singleton, Nat.pow_succ]
    omega

theorem ofBool_toNat (b : Bool) : (ofBool b).toNat = b.toNat := by
  cases b <;> rfl

theorem shiftLeft_one8 (x : UInt8) : (x <<< 1).toNat = 2 * x.toNat % 2 ^ 8 := by
  rw [UInt8.toNat_shiftLeft, Nat.mul_comm, show (1 : UInt8).toNat % 8 = 1 from rfl,
    Nat.shiftLeft_eq]

theorem shiftLeft_one16 (x : UInt16) : (x <<< 1).toNat = 2 * x.toNat % 2 ^ 16 := by
  rw [UInt16.toNat_shiftLeft, Nat.mul_comm, show (1 : UInt16).toNat % 16 = 1 from rfl,
    Nat.shiftLeft_eq]

theorem shiftRight_one16 (x : UInt16) : (x >>> 1).toNat = x.toNat / 2 := by
  rw [UInt16.toNat_shiftRight]
  rfl

namespace BitWriter

/-- The writer has written `bits` over the memory `msg`. -/
structure Holds (msg : Nat → UInt8) (bits : List Bool) (w : BitWriter) : Prop where
  byteIndex : w.byteIndex = bits.length / 8
  currentByteLen : w.currentByteLen = bits.length % 8
  written : ∀ i, i < bits.length / 8 → (w.bytes i).toNat = value ((bits.drop (8 * i)).take 8)
  kept : ∀ i, bits.length / 8 ≤ i → w.bytes i = msg i
  currentByte : w.currentByte.toNat = 2 * value (bits.drop (8 * (bits.length / 8)))

/-- A writer knows how many bits it holds. -/
theorem length_of_holds {out : Nat → UInt8} {bits bits' : List Bool} {w : BitWriter}
    (h : Holds out bits w) (h' : Holds out bits' w) :
    bits.length = bits'.length := by
  have hindex := h.byteIndex.symm.trans h'.byteIndex
  have hopen := h.currentByteLen.symm.trans h'.currentByteLen
  omega

theorem bytes_of_holds {out out' : Nat → UInt8} {bits : List Bool} {w w' : BitWriter}
    (h : Holds out bits w) (h' : Holds out' bits w') {i : Nat} (hi : i < bits.length / 8) :
    w.bytes i = w'.bytes i :=
  UInt8.toNat_inj.mp ((h.written i hi).trans (h'.written i hi).symm)

theorem holds_reconfigure (msg : Nat → UInt8) (len : Nat) : Holds msg [] (reconfigure msg len) where
  byteIndex := rfl
  currentByteLen := rfl
  written := fun i hi => absurd hi (Nat.not_lt_zero i)
  kept := fun _ _ => rfl
  currentByte := rfl

/-- Two even numbers or'ed with a bit. -/
theorem two_mul_or (v : Nat) {b : Nat} (hb : b < 2) : 2 * v ||| b = 2 * v + b :=
  (Nat.two_pow_add_eq_or_of_lt (i := 1) hb v).symm

/-- The bytes stored so far do not change when bits are added. -/
theorem take_append_byte {bits more : List Bool} {i : Nat} (hi : i < bits.length / 8) :
    ((bits ++ more).drop (8 * i)).take 8 = (bits.drop (8 * i)).take 8 := by
  rw [List.drop_append_of_le_length (by omega), List.take_append_of_le_length]
  rw [List.length_drop]
  omega

/-! ## The current byte -/

theorem pending_length (bits : List Bool) :
    (bits.drop (8 * (bits.length / 8))).length = bits.length % 8 := by
  rw [List.length_drop]
  omega

theorem pending_append (bits more : List Bool) :
    (bits ++ more).drop (8 * (bits.length / 8)) = bits.drop (8 * (bits.length / 8)) ++ more :=
  List.drop_append_of_le_length (by omega)

theorem pending_value_lt (bits more : List Bool) {k : Nat}
    (h : bits.length % 8 + more.length ≤ k) :
    value (bits.drop (8 * (bits.length / 8)) ++ more) < 2 ^ k := by
  refine Nat.lt_of_lt_of_le (value_lt _) (Nat.pow_le_pow_right (by omega) ?_)
  rw [List.length_append, pending_length]
  exact h

/-- More bits that leave the current byte open. -/
theorem Holds.extend {msg : Nat → UInt8} {bits more : List Bool} {w : BitWriter}
    (h : Holds msg bits w) (hroom : bits.length % 8 + more.length < 8) {b : UInt8}
    (hb : b.toNat = 2 * value (bits.drop (8 * (bits.length / 8)) ++ more)) :
    Holds msg (bits ++ more)
      { w with currentByte := b, currentByteLen := bits.length % 8 + more.length } := by
  have hdiv : (bits ++ more).length / 8 = bits.length / 8 := by
    rw [List.length_append]
    omega
  refine ⟨?_, ?_, ?_, ?_, ?_⟩
  · rw [hdiv]
    exact h.byteIndex
  · rw [List.length_append]
    simp only
    omega
  · intro i hi
    rw [hdiv] at hi
    rw [take_append_byte hi]
    exact h.written i hi
  · intro i hi
    rw [hdiv] at hi
    exact h.kept i hi
  · rw [hdiv, pending_append]
    exact hb

/-- The memory once more bits have closed the current byte. -/
theorem Holds.close {msg : Nat → UInt8} {bits more : List Bool} {w : BitWriter}
    (h : Holds msg bits w) (hfull : bits.length % 8 + more.length = 8) {b : UInt8}
    (hb : b.toNat = value (bits.drop (8 * (bits.length / 8)) ++ more)) :
    (∀ i, i < (bits ++ more).length / 8 →
        (Function.update w.bytes w.byteIndex b i).toNat =
          value (((bits ++ more).drop (8 * i)).take 8)) ∧
      ∀ i, (bits ++ more).length / 8 ≤ i → Function.update w.bytes w.byteIndex b i = msg i := by
  have hdiv : (bits ++ more).length / 8 = bits.length / 8 + 1 := by
    rw [List.length_append]
    omega
  have hwhole : (bits.drop (8 * (bits.length / 8)) ++ more).length ≤ 8 := by
    rw [List.length_append, pending_length]
    omega
  rw [hdiv, h.byteIndex]
  constructor
  · intro i hi
    rw [Function.update_apply]
    by_cases hlast : i = bits.length / 8
    · rw [if_pos hlast, hb, hlast, pending_append, List.take_of_length_le hwhole]
    · rw [if_neg hlast, take_append_byte (by omega)]
      exact h.written i (by omega)
  · intro i hi
    rw [Function.update_of_ne (by omega)]
    exact h.kept i (by omega)

theorem holds_write1 {msg : Nat → UInt8} {bits : List Bool} {w : BitWriter}
    (h : Holds msg bits w) (val : UInt8) :
    Holds msg (bits ++ [decide (val.toNat % 2 = 1)]) (w.write1 val) := by
  have hbit : (val &&& 1).toNat = (decide (val.toNat % 2 = 1)).toNat := by
    rw [UInt8.toNat_and]
    change val.toNat &&& 1 = _
    rw [Nat.and_one_is_mod]
    have := Nat.mod_lt val.toNat (show 0 < 2 by omega)
    by_cases hone : val.toNat % 2 = 1
    · simp [hone]
    · simp [show val.toNat % 2 = 0 by omega]
  generalize decide (val.toNat % 2 = 1) = bit at hbit
  have hor : (w.currentByte ||| (val &&& 1)).toNat =
      value (bits.drop (8 * (bits.length / 8)) ++ [bit]) := by
    rw [UInt8.toNat_or, h.currentByte, hbit, two_mul_or _ (Bool.toNat_lt _), value_snoc]
  have hlen := h.currentByteLen
  simp only [write1]
  by_cases hfull : w.currentByteLen + 1 = 8
  · rw [if_pos hfull]
    have hdiv : (bits ++ [bit]).length = 8 * (bits.length / 8 + 1) := by
      rw [List.length_append, List.length_singleton]
      omega
    obtain ⟨hwritten, hkept⟩ := h.close (by rw [List.length_singleton]; omega) hor
    refine ⟨?_, ?_, hwritten, hkept, ?_⟩
    · rw [hdiv, h.byteIndex]
      exact (Nat.mul_div_cancel_left _ (by decide)).symm
    · rw [hdiv]
      exact (Nat.mul_mod_right 8 _).symm
    · rw [List.drop_of_length_le (by omega)]
      rfl
  · rw [if_neg hfull, hlen]
    have hlt := pending_value_lt bits [bit] (k := 7) (by
      rw [List.length_singleton]
      omega)
    refine h.extend (by rw [List.length_singleton]; omega) ?_
    rw [shiftLeft_one8, hor]
    omega

/-! ## Whole lists -/

/-- The entries of `f` below `len`, last one first. -/
def downFrom (f : Nat → Bool) (len : Nat) : List Bool :=
  (List.range len).map fun i => f (len - 1 - i)

@[simp] theorem downFrom_length (f : Nat → Bool) (len : Nat) : (downFrom f len).length = len := by
  simp [downFrom]

theorem downFrom_take (f : Nat → Bool) {len n : Nat} (h : n ≤ len) :
    (downFrom f len).take n = (List.range n).map fun i => f (len - 1 - i) := by
  rw [downFrom, ← List.map_take, List.take_range, Nat.min_eq_left h]

theorem downFrom_drop (f : Nat → Bool) (len n : Nat) :
    (downFrom f len).drop n = downFrom f (len - n) := by
  apply List.ext_getElem
  · simp
  · intro i hi hi'
    simp only [downFrom, List.getElem_drop, List.getElem_map, List.getElem_range]
    congr 1
    omega

theorem pushDown_toNat {l : Nat → UInt8} {f : Nat → Bool} {top n : Nat} {b : UInt16}
    {pre : List Bool} (hb : b.toNat = 2 * value pre)
    (hl : ∀ i, i < n → l (top - i) = ofBool (f (top - i))) (hlen : pre.length + n ≤ 8) :
    (pushDown l top n b).toNat =
      2 * value (pre ++ (List.range n).map fun i => f (top - i)) := by
  refine forLoop_induct (fun i (b : UInt16) => b.toNat =
    2 * value (pre ++ (List.range i).map fun i => f (top - i))) (Nat.zero_le _) ?_ ?_
  · simpa using hb
  · intro i (b : UInt16) _ hi ih
    have hlt := value_lt (pre ++ (List.range (i + 1)).map fun i => f (top - i))
    have hpow : 2 ^ (pre ++ (List.range (i + 1)).map fun i => f (top - i)).length ≤ 2 ^ 8 :=
      Nat.pow_le_pow_right (by omega) (by simp; omega)
    rw [List.range_succ, List.map_append, ← List.append_assoc] at hlt hpow ⊢
    simp only [List.map_cons, List.map_nil] at hlt hpow ⊢
    rw [value_snoc] at hlt ⊢
    rw [shiftLeft_one16, UInt16.toNat_or, ih, hl i hi, UInt8.toNat_toUInt16, ofBool_toNat,
      two_mul_or _ (Bool.toNat_lt _)]
    omega

theorem packDown_toNat {l : Nat → UInt8} {f : Nat → Bool} {top : Nat}
    (hl : ∀ i, i < 8 → l (top - i) = ofBool (f (top - i))) :
    (packDown l top).toNat = value ((List.range 8).map fun i => f (top - i)) := by
  have hbits : ∀ b0 b1 b2 b3 b4 b5 b6 b7 : Bool,
      ((ofBool b0 <<< 7) ||| (ofBool b1 <<< 6) ||| (ofBool b2 <<< 5) ||| (ofBool b3 <<< 4) |||
        (ofBool b4 <<< 3) ||| (ofBool b5 <<< 2) ||| (ofBool b6 <<< 1) ||| ofBool b7).toNat =
      value [b0, b1, b2, b3, b4, b5, b6, b7] := by decide
  have h0 := hl 0 (by omega)
  have hrest := hbits (f top) (f (top - 1)) (f (top - 2)) (f (top - 3)) (f (top - 4))
    (f (top - 5)) (f (top - 6)) (f (top - 7))
  rw [← hl 1 (by omega), ← hl 2 (by omega), ← hl 3 (by omega), ← hl 4 (by omega),
    ← hl 5 (by omega), ← hl 6 (by omega), ← hl 7 (by omega)] at hrest
  rw [Nat.sub_zero] at h0
  rw [← h0] at hrest
  exact hrest

/-- The memory after the whole bytes. -/
theorem written_packDown {msg bytes : Nat → UInt8} {bits : List Bool} {byteIndex len : Nat}
    {l : Nat → UInt8} {f : Nat → Bool} (hmod : bits.length % 8 = 0)
    (hindex : byteIndex = bits.length / 8)
    (hwritten : ∀ i, i < bits.length / 8 → (bytes i).toNat = value ((bits.drop (8 * i)).take 8))
    (hkept : ∀ i, bits.length / 8 ≤ i → bytes i = msg i)
    (hl : ∀ i, i < len → l i = ofBool (f i)) :
    (∀ i, i < bits.length / 8 + len / 8 →
        (forLoop 0 (len / 8) (fun i (m : Nat → UInt8) =>
            Function.update m (byteIndex + i) (packDown l (len - 1 - 8 * i))) bytes i).toNat =
          value (((bits ++ downFrom f len).drop (8 * i)).take 8)) ∧
      ∀ i, bits.length / 8 + len / 8 ≤ i →
        forLoop 0 (len / 8) (fun i (m : Nat → UInt8) =>
          Function.update m (byteIndex + i) (packDown l (len - 1 - 8 * i))) bytes i = msg i := by
  refine forLoop_induct (fun n (m : Nat → UInt8) => (∀ i, i < bits.length / 8 + n →
        (m i).toNat = value (((bits ++ downFrom f len).drop (8 * i)).take 8)) ∧
      ∀ i, bits.length / 8 + n ≤ i → m i = msg i) (Nat.zero_le _) ?_ ?_
  · refine ⟨fun i hi => ?_, fun i hi => hkept i hi⟩
    rw [take_append_byte hi]
    exact hwritten i hi
  · rintro n m - hn ⟨hold, hnew⟩
    constructor
    · intro i hi
      rw [Function.update_apply]
      by_cases hlast : i = byteIndex + n
      · -- the byte just written: eight bits of the list, from its end
        rw [if_pos hlast, packDown_toNat (f := f) fun j _ => hl _ (by omega)]
        rw [hlast, hindex, show 8 * (bits.length / 8 + n) = bits.length + 8 * n by omega,
          ← List.drop_drop, List.drop_left, downFrom_drop, downFrom_take f (by omega)]
        congr 1
        apply List.map_congr_left
        intro j hj
        congr 1
        omega
      · rw [if_neg hlast]
        exact hold i (by omega)
    · intro i hi
      rw [Function.update_of_ne (by omega)]
      exact hnew i (by omega)

/-- The byte that is left open holds the rest of the list. -/
theorem pushDown_rest {l : Nat → UInt8} {f : Nat → Bool} {len : Nat}
    (hl : ∀ i, i < len → l i = ofBool (f i)) :
    (pushDown l (len - 8 * (len / 8) - 1) (len - 8 * (len / 8)) 0).toUInt8.toNat =
      2 * value (downFrom f (len - 8 * (len / 8))) := by
  have hpush := @pushDown_toNat l f (len - 8 * (len / 8) - 1) (len - 8 * (len / 8)) 0 [] rfl
    (fun i hi => hl _ (by omega)) (by simp; omega)
  have hlt := value_lt (downFrom f (len - 8 * (len / 8)))
  have hpow : 2 ^ (downFrom f (len - 8 * (len / 8))).length ≤ 2 ^ 7 :=
    Nat.pow_le_pow_right (by omega) (by rw [downFrom_length]; omega)
  rw [UInt16.toNat_toUInt8, hpush, List.nil_append]
  change 2 * value (downFrom f (len - 8 * (len / 8))) % 2 ^ 8 = _
  omega

theorem holds_writeBytesReversed {msg bytes : Nat → UInt8} {bits : List Bool} {w : BitWriter}
    {byteIndex len : Nat} {l : Nat → UInt8} {f : Nat → Bool} (hmod : bits.length % 8 = 0)
    (hindex : byteIndex = bits.length / 8)
    (hwritten : ∀ i, i < bits.length / 8 → (bytes i).toNat = value ((bits.drop (8 * i)).take 8))
    (hkept : ∀ i, bits.length / 8 ≤ i → bytes i = msg i)
    (hl : ∀ i, i < len → l i = ofBool (f i)) :
    Holds msg (bits ++ downFrom f len) (w.writeBytesReversed bytes byteIndex l len) := by
  have hlen : (bits ++ downFrom f len).length / 8 = bits.length / 8 + len / 8 := by
    rw [List.length_append, downFrom_length]
    omega
  have hdrop : (bits ++ downFrom f len).drop (8 * (bits.length / 8 + len / 8)) =
      downFrom f (len - 8 * (len / 8)) := by
    rw [show 8 * (bits.length / 8 + len / 8) = bits.length + 8 * (len / 8) by omega,
      ← List.drop_drop, List.drop_left, downFrom_drop]
  obtain ⟨hold, hnew⟩ := written_packDown hmod hindex hwritten hkept hl
  refine ⟨?_, ?_, ?_, ?_, ?_⟩
  · rw [hlen]
    simp only [writeBytesReversed, hindex]
  · rw [List.length_append, downFrom_length]
    simp only [writeBytesReversed]
    omega
  · intro i hi
    rw [hlen] at hi
    exact hold i hi
  · intro i hi
    rw [hlen] at hi
    exact hnew i hi
  · rw [hlen, hdrop]
    exact pushDown_rest hl

/-- `bit_writer_write_bitlist_reversed` on a current byte it has to close first. -/
def closeReversed (w : BitWriter) (l : Nat → UInt8) (len : Nat) : BitWriter :=
  let closeLen := min (8 - w.currentByteLen) len
  let b := pushDown l (len - 1) closeLen w.currentByte.toUInt16
  if w.currentByteLen + closeLen = 8 then
    w.writeBytesReversed (Function.update w.bytes w.byteIndex (b >>> 1).toUInt8)
      (w.byteIndex + 1) l (len - closeLen)
  else { w with currentByte := b.toUInt8, currentByteLen := w.currentByteLen + closeLen }

theorem holds_closeReversed {msg : Nat → UInt8} {bits : List Bool} {w : BitWriter}
    (h : Holds msg bits w) {l : Nat → UInt8} {f : Nat → Bool} {len : Nat}
    (hl : ∀ i, i < len → l i = ofBool (f i)) :
    Holds msg (bits ++ downFrom f len) (w.closeReversed l len) := by
  have hcur := h.currentByteLen
  simp only [closeReversed]
  generalize hclose : min (8 - w.currentByteLen) len = closeLen
  have hpending := pending_length bits
  have hpush := @pushDown_toNat l f (len - 1) closeLen w.currentByte.toUInt16
    (bits.drop (8 * (bits.length / 8))) (by rw [UInt8.toNat_toUInt16]; exact h.currentByte)
    (fun i hi => hl _ (by omega)) (by omega)
  rw [← downFrom_take f (by omega)] at hpush
  have hheadLen : ((downFrom f len).take closeLen).length = closeLen := by
    rw [List.length_take, downFrom_length]
    omega
  by_cases hfull : w.currentByteLen + closeLen = 8
  · -- the head of the list closes the byte, the tail starts on a boundary
    rw [if_pos hfull]
    have hlenHead :
        (bits ++ (downFrom f len).take closeLen).length = 8 * (bits.length / 8 + 1) := by
      rw [List.length_append, hheadLen]
      omega
    have hlt := pending_value_lt bits ((downFrom f len).take closeLen) (k := 8)
      (by omega)
    have hbyte : ((pushDown l (len - 1) closeLen w.currentByte.toUInt16 >>> 1).toUInt8).toNat =
        value (bits.drop (8 * (bits.length / 8)) ++ (downFrom f len).take closeLen) := by
      rw [UInt16.toNat_toUInt8, shiftRight_one16, hpush]
      omega
    obtain ⟨hwritten, hkept⟩ := h.close (by omega) hbyte
    have hsplit : bits ++ downFrom f len =
        (bits ++ (downFrom f len).take closeLen) ++ downFrom f (len - closeLen) := by
      rw [List.append_assoc, ← downFrom_drop, List.take_append_drop]
    rw [hsplit]
    refine holds_writeBytesReversed ?_ ?_ hwritten hkept fun i hi => hl i (by omega)
    · omega
    · rw [h.byteIndex]
      omega
  · -- the whole list fits into the byte
    rw [if_neg hfull]
    have hall : closeLen = len := by omega
    have htake : (downFrom f len).take closeLen = downFrom f len := by
      rw [List.take_of_length_le]
      rw [downFrom_length]
      omega
    rw [htake] at hpush hheadLen
    have hlt := pending_value_lt bits (downFrom f len) (k := 7) (by omega)
    rw [hcur, ← hheadLen]
    refine h.extend (by omega) ?_
    rw [UInt16.toNat_toUInt8, hheadLen, hpush]
    omega

/-- The fetched bits come out last one first. -/
theorem holds_writeBitlistReversed {msg : Nat → UInt8} {bits : List Bool} {w : BitWriter}
    (h : Holds msg bits w) {l : Nat → UInt8} {f : Nat → Bool} {len : Nat}
    (hl : ∀ i, i < len → l i = ofBool (f i)) :
    Holds msg (bits ++ downFrom f len) (w.writeBitlistReversed l len) := by
  have hcur := h.currentByteLen
  simp only [writeBitlistReversed]
  by_cases hopen : w.currentByteLen ≠ 0
  · rw [if_pos hopen]
    exact holds_closeReversed h hl
  · rw [if_neg hopen]
    exact holds_writeBytesReversed (by omega) h.byteIndex h.written h.kept hl

/-! ## Bulk writes and bit-by-bit writes -/

/-- A cell that stores a bit. -/
def IsBit (v : UInt8) : Prop := v = 0 ∨ v = 1

instance (v : UInt8) : Decidable (IsBit v) := inferInstanceAs (Decidable (_ ∨ _))

/-- The bit a cell stores. -/
def toBit (v : UInt8) : Bool := decide (v.toNat % 2 = 1)

theorem ofBool_toBit {v : UInt8} (h : IsBit v) : v = ofBool (toBit v) := by
  cases h with
  | inl hzero => rw [hzero]; rfl
  | inr hone => rw [hone]; rfl

/-- The states of a writer over the memory `msg`. -/
inductive Reached (msg : Nat → UInt8) : BitWriter → Prop
  | reconfigure (len : Nat) : Reached msg (BitWriter.reconfigure msg len)
  | write1 {w : BitWriter} (hw : Reached msg w) (val : UInt8) : Reached msg (w.write1 val)
  | bitlist {w : BitWriter} (hw : Reached msg w) {l : Nat → UInt8} {len : Nat}
      (hl : ∀ i, i < len → IsBit (l i)) : Reached msg (w.writeBitlist l len)
  | bitlistReversed {w : BitWriter} (hw : Reached msg w) {l : Nat → UInt8} {len : Nat}
      (hl : ∀ i, i < len → IsBit (l i)) : Reached msg (w.writeBitlistReversed l len)

theorem pushUp_eq_pushDown {l r : Nat → UInt8} {top n : Nat} (hr : ∀ i, i < n → l i = r (top - i))
    (b : UInt16) : pushUp l n b = pushDown r top n b := by
  refine forLoop_congr fun i b _ hi => ?_
  rw [hr i hi]

/-- The forward list is the backward one read from its other end. -/
theorem writeBitlist_eq (w : BitWriter) {l r : Nat → UInt8} {len : Nat}
    (hr : ∀ i, i < len → l i = r (len - 1 - i)) : w.writeBitlist l len = w.closeReversed r len := by
  simp only [writeBitlist, closeReversed, writeBytesReversed]
  generalize hclose : min (8 - w.currentByteLen) len = closeLen
  have hfirst : pushUp l closeLen w.currentByte.toUInt16 =
      pushDown r (len - 1) closeLen w.currentByte.toUInt16 :=
    pushUp_eq_pushDown (fun i hi => hr i (by omega)) _
  have hlast : pushUp (fun j => l (closeLen + 8 * ((len - closeLen) / 8) + j))
        (len - closeLen - 8 * ((len - closeLen) / 8)) 0 =
      pushDown r (len - closeLen - 8 * ((len - closeLen) / 8) - 1)
        (len - closeLen - 8 * ((len - closeLen) / 8)) 0 := by
    refine pushUp_eq_pushDown (fun i hi => ?_) 0
    rw [hr _ (by omega)]
    congr 1
    omega
  have hpack : ∀ i, i < (len - closeLen) / 8 →
      (packUp fun j => l (closeLen + 8 * i + j)) = packDown r (len - closeLen - 1 - 8 * i) := by
    intro i hi
    have hcell : ∀ j, j < 8 → l (closeLen + 8 * i + j) = r (len - closeLen - 1 - 8 * i - j) := by
      intro j hj
      rw [hr _ (by omega)]
      congr 1
      omega
    simp only [packUp, packDown]
    rw [hcell 0 (by omega), hcell 1 (by omega), hcell 2 (by omega), hcell 3 (by omega),
      hcell 4 (by omega), hcell 5 (by omega), hcell 6 (by omega), hcell 7 (by omega), Nat.sub_zero]
  rw [hfirst, hlast]
  by_cases hfull : w.currentByteLen + closeLen = 8
  · rw [if_pos hfull, if_pos hfull]
    congr 1
    refine forLoop_congr fun i bytes _ hi => ?_
    rw [hpack i hi]
  · rw [if_neg hfull, if_neg hfull]

/-- Everything that has been written is a list of bits. -/
theorem holds_of_reached {msg : Nat → UInt8} {w : BitWriter} (hw : Reached msg w) :
    ∃ bits, Holds msg bits w := by
  induction hw with
  | reconfigure len => exact ⟨_, holds_reconfigure msg len⟩
  | write1 _ val ih =>
    obtain ⟨bits, hbits⟩ := ih
    exact ⟨_, holds_write1 hbits val⟩
  | @bitlist w _ l len hl ih =>
    obtain ⟨bits, hbits⟩ := ih
    rw [@writeBitlist_eq w l (fun i => l (len - 1 - i)) len fun i hi => by congr 1; omega]
    exact ⟨_, holds_closeReversed hbits fun i hi => ofBool_toBit (hl _ (by omega))⟩
  | bitlistReversed _ hl ih =>
    obtain ⟨bits, hbits⟩ := ih
    exact ⟨_, holds_writeBitlistReversed hbits fun i hi => ofBool_toBit (hl i hi)⟩

/-- Nothing but the bits and the buffer's size is in a writer's state. -/
theorem eq_of_holds {msg : Nat → UInt8} {bits : List Bool} {w w' : BitWriter}
    (h : Holds msg bits w) (h' : Holds msg bits w') (hlen : w.len = w'.len) : w = w' := by
  have hbytes : w.bytes = w'.bytes := by
    funext i
    rcases Nat.lt_or_ge i (bits.length / 8) with hi | hi
    · exact bytes_of_holds h h' hi
    · rw [h.kept i hi, h'.kept i hi]
  have hindex := h.byteIndex.trans h'.byteIndex.symm
  have hopen := h.currentByteLen.trans h'.currentByteLen.symm
  have hcurrent := UInt8.toNat_inj.mp (h.currentByte.trans h'.currentByte.symm)
  cases w
  cases w'
  simp only [BitWriter.mk.injEq]
  exact ⟨hcurrent, hopen, hbytes, hindex, hlen⟩

theorem write1_len (w : BitWriter) (val : UInt8) : (w.write1 val).len = w.len := by
  simp only [write1]
  split <;> rfl

theorem writeBitlistReversed_len (w : BitWriter) (l : Nat → UInt8) (len : Nat) :
    (w.writeBitlistReversed l len).len = w.len := by
  simp only [writeBitlistReversed, writeBytesReversed]
  split
  · split <;> rfl
  · rfl

/-- The bits written one by one, from the last entry of `l` down. -/
theorem holds_write1_downFrom {msg : Nat → UInt8} {bits : List Bool} {w : BitWriter}
    (h : Holds msg bits w) (l : Nat → UInt8) (len : Nat) :
    Holds msg (bits ++ downFrom (fun i => toBit (l i)) len)
        (forLoop 0 len (fun i w => w.write1 (l (len - 1 - i))) w) ∧
      (forLoop 0 len (fun i w => w.write1 (l (len - 1 - i))) w).len = w.len := by
  refine forLoop_induct (fun n (w' : BitWriter) =>
    Holds msg (bits ++ (List.range n).map fun i => toBit (l (len - 1 - i))) w' ∧
      w'.len = w.len) (Nat.zero_le len) ⟨?_, rfl⟩ ?_
  · rw [List.range_zero, List.map_nil, List.append_nil]
    exact h
  · rintro n w' - - ⟨hholds, hlen⟩
    refine ⟨?_, (write1_len w' _).trans hlen⟩
    rw [List.range_succ, List.map_append, ← List.append_assoc]
    exact holds_write1 hholds (l (len - 1 - n))

/-- The bulk write leaves the writer that single bits, from the last to the first, leave. -/
theorem writeBitlistReversed_eq_write1 {msg : Nat → UInt8} {w : BitWriter} (hw : Reached msg w)
    {l : Nat → UInt8} {len : Nat} (hl : ∀ i, i < len → IsBit (l i)) :
    w.writeBitlistReversed l len =
      forLoop 0 len (fun i w => w.write1 (l (len - 1 - i))) w := by
  obtain ⟨bits, hbits⟩ := holds_of_reached hw
  obtain ⟨hsingle, hlen⟩ := holds_write1_downFrom hbits l len
  have hbulk := @holds_writeBitlistReversed msg bits w hbits l (fun i => toBit (l i)) len
    fun i hi => ofBool_toBit (hl i hi)
  exact eq_of_holds hbulk hsingle ((writeBitlistReversed_len w l len).trans hlen.symm)

/-- A list too short to close the byte that one bit has opened. -/
theorem writeBitlistReversed_eq_write1_short :
    ((reconfigure (fun _ => 7) 2).write1 1).writeBitlistReversed
        (fun i => if i = 2 then 1 else 0) 3 =
      forLoop 0 3 (fun i w => w.write1 (if 3 - 1 - i = 2 then 1 else 0))
        ((reconfigure (fun _ => 7) 2).write1 1) :=
  @writeBitlistReversed_eq_write1 _ _ (.write1 (.reconfigure 2) 1)
    (fun i => if i = 2 then 1 else 0) 3 (by decide)

end BitWriter

end RyFi.Conv
