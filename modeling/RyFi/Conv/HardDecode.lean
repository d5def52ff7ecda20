import RyFi.Conv.NoWrap
import RyFi.Conv.FourErrors

/-! # The hard decoder

`correct_convolutional_decode` reads its bits from a stream and measures them with
`metric_distance`.  `Scales` compares an instance in a hard decode with one in a soft decode
that is fully confident in the same bits: the metrics of the second are 255 times those of
the first, and the histories and the outputs are the same.  Every slice keeps that, since no
sum of the soft decoder wraps.
-/

namespace RyFi.Conv

open CLoop

/-! ## Reading bits -/

theorem reverseByte_testBit (b : UInt8) {j : Nat} (hj : j < 8) :
    (reverseByte b).toNat.testBit j = b.toNat.testBit (7 - j) := by
  have hall : ∀ (b : Fin 256) (j : Fin 8),
      (reverseByte (UInt8.ofNat b.val)).toNat.testBit j.val =
        (UInt8.ofNat b.val).toNat.testBit (7 - j.val) := by
    decide +kernel
  have hbyte := hall ⟨b.toNat, b.toNat_lt⟩ ⟨j, hj⟩
  rw [UInt8.ofNat_toNat] at hbyte
  exact hbyte

namespace BitReader

variable {bytes : Nat → UInt8} {i n : Nat} {r : BitReader}

theorem copyMask_toNat {n k : Nat} (h : n + k ≤ 8) :
    ((UInt8.ofNat (2 ^ n - 1)) <<< UInt8.ofNat k).toNat = (2 ^ n - 1) * 2 ^ k := by
  have hall : ∀ n k : Fin 9, n.val + k.val ≤ 8 →
      ((UInt8.ofNat (2 ^ n.val - 1)) <<< UInt8.ofNat k.val).toNat =
        (2 ^ n.val - 1) * 2 ^ k.val := by
    decide
  exact hall ⟨n, by omega⟩ ⟨k, by omega⟩ h

theorem takeBits_testBit (hn : n ≤ r.currentByteLen) (hle : r.currentByteLen ≤ 8) (j : Nat) :
    (r.takeBits n).testBit j =
      (decide (j < n) && r.currentByte.toNat.testBit (r.currentByteLen - n + j)) := by
  rw [takeBits, UInt8.toNat_and, copyMask_toNat (by omega), Nat.testBit_shiftRight,
    Nat.testBit_and, Nat.testBit_mul_two_pow, Nat.testBit_two_pow_sub_one, Nat.add_sub_cancel_left,
    Bool.and_comm]
  simp

/-- The table turns the bits taken around, first one lowest. -/
theorem reversed_testBit {v : Nat} (hn : n ≤ 8) (hv : ∀ j, n ≤ j → v.testBit j = false) (j : Nat) :
    (reverseByte (UInt8.ofNat v) >>> UInt8.ofNat (8 - n)).toNat.testBit j =
      (decide (j < n) && v.testBit (n - 1 - j)) := by
  have hlt : v < 2 ^ 8 := Nat.lt_pow_two_of_testBit v fun j hj => hv j (by omega)
  have hback : (UInt8.ofNat v).toNat = v := by
    rw [UInt8.toNat_ofNat', Nat.mod_eq_of_lt hlt]
  cases n with
  | zero =>
    have hzero : v = 0 := Nat.eq_of_testBit_eq fun j => by
      rw [hv j (Nat.zero_le j), Nat.zero_testBit]
    rw [hzero]
    simp [reverseByte]
  | succ n =>
    rw [UInt8.toNat_shiftRight, UInt8.toNat_ofNat', Nat.mod_mod_of_dvd _ (by decide),
      Nat.mod_eq_of_lt (by omega), Nat.testBit_shiftRight]
    by_cases hj : j < n + 1
    · rw [reverseByte_testBit _ (by omega), hback, decide_eq_true hj, Bool.true_and,
        show 7 - (8 - (n + 1) + j) = n + 1 - 1 - j by omega]
    · have hpow : 2 ^ 8 ≤ 2 ^ (8 - (n + 1) + j) := Nat.pow_le_pow_right (by omega) (by omega)
      have hbyte := (reverseByte (UInt8.ofNat v)).toNat_lt
      rw [decide_eq_false hj, Bool.false_and, Nat.testBit_lt_two_pow (by omega)]

/-- The reader at the first bit of the next byte. -/
def nextByte (r : BitReader) : BitReader :=
  { r with
    byteIndex := r.byteIndex + 1
    currentByte := r.bytes (r.byteIndex + 1)
    currentByteLen := 8 }

/-- The rest of the current byte and the first bits of the next one. -/
theorem straddled_testBit (h : Read bytes i r) (hn : n ≤ 8) (hfew : r.currentByteLen < n) (j : Nat) :
    ((r.currentByte.toNat &&& (2 ^ r.currentByteLen - 1)) <<< (n - r.currentByteLen) |||
        r.nextByte.takeBits (n - r.currentByteLen)).testBit j =
      (decide (j < n) && bufferBit bytes (i + (n - 1 - j))) := by
  have hpos := h.position
  have htake := takeBits_testBit (r := r.nextByte) (n := n - r.currentByteLen)
    (show n - r.currentByteLen ≤ 8 by omega) (Nat.le_refl 8) j
  have hnext : r.nextByte.currentByte = bytes (r.byteIndex + 1) := congrFun h.bytes_eq _
  have hlen : r.nextByte.currentByteLen = 8 := rfl
  rw [Nat.testBit_or, Nat.testBit_shiftLeft, Nat.testBit_and, Nat.testBit_two_pow_sub_one, htake,
    hnext, hlen]
  by_cases hlow : j < n - r.currentByteLen
  · rw [decide_eq_false (by omega), Bool.false_and, Bool.false_or, decide_eq_true hlow,
      decide_eq_true (by omega), Bool.true_and, Bool.true_and, bufferBit,
      show (i + (n - 1 - j)) / 8 = r.byteIndex + 1 by omega]
    congr 1
    omega
  · rw [decide_eq_true (show j ≥ n - r.currentByteLen by omega), Bool.true_and,
      decide_eq_false hlow, Bool.false_and, Bool.or_false]
    by_cases hj : j < n
    · rw [decide_eq_true (by omega), Bool.and_true, decide_eq_true hj, Bool.true_and, bufferBit,
        h.currentByte_eq, show (i + (n - 1 - j)) / 8 = r.byteIndex by omega]
      congr 1
      omega
    · rw [decide_eq_false (by omega), Bool.and_false, decide_eq_false hj, Bool.false_and]

theorem taken_testBit (h : Read bytes i r) (hn : n ≤ r.currentByteLen) (j : Nat) :
    (r.takeBits n).testBit j = (decide (j < n) && bufferBit bytes (i + (n - 1 - j))) := by
  have hpos := h.position
  have hle := h.currentByteLen_le
  rw [takeBits_testBit hn hle]
  by_cases hj : j < n
  · rw [decide_eq_true hj, Bool.true_and, Bool.true_and, bufferBit, h.currentByte_eq,
      show (i + (n - 1 - j)) / 8 = r.byteIndex by omega]
    congr 1
    omega
  · rw [decide_eq_false hj, Bool.false_and, Bool.false_and]

/-- The bits read come out in the order of the stream, first one lowest. -/
theorem reversed_bits {v : Nat} (hn : n ≤ 8)
    (hv : ∀ j, v.testBit j = (decide (j < n) && bufferBit bytes (i + (n - 1 - j)))) (j : Nat) :
    (reverseByte (UInt8.ofNat v) >>> UInt8.ofNat (8 - n)).toNat.testBit j =
      (decide (j < n) && bufferBit bytes (i + j)) := by
  rw [reversed_testBit hn (fun j hj => by rw [hv, decide_eq_false (by omega), Bool.false_and]), hv]
  by_cases hj : j < n
  · rw [decide_eq_true hj, decide_eq_true (show n - 1 - j < n by omega),
      show n - 1 - (n - 1 - j) = j by omega, Bool.true_and]
  · rw [decide_eq_false hj, Bool.false_and, Bool.false_and]

/-- The next `n` bits, also when they are in two bytes. -/
theorem read_bits (h : Read bytes i r) (hn : n ≤ 8) :
    (∀ j, (r.read n).1.toNat.testBit j = (decide (j < n) && bufferBit bytes (i + j))) ∧
      Read bytes (i + n) (r.read n).2 := by
  have hpos := h.position
  have hle := h.currentByteLen_le
  by_cases hfew : r.currentByteLen < n
  · simp only [read, if_pos hfew]
    refine ⟨reversed_bits hn (straddled_testBit h hn hfew), h.bytes_eq, ?_, Nat.sub_le 8 _, ?_⟩
    · rw [h.bytes_eq]
    · simp only
      omega
  · simp only [read, if_neg hfew]
    refine ⟨reversed_bits hn (taken_testBit h (Nat.le_of_not_lt hfew)), h.bytes_eq,
      h.currentByte_eq, Nat.le_trans (Nat.sub_le _ _) hle, ?_⟩
    simp only
    omega

end BitReader

/-! ## Scaled metrics -/

/-- A metric of the hard decoder and one of the soft decoder. -/
def Scaled (a b : UInt16) : Prop := b.toNat = 255 * a.toNat

namespace Scaled

variable {a a' b b' : UInt16}

theorem add (h : Scaled a a') (h' : Scaled b b') (hsum : a'.toNat + b'.toNat ≤ 65535) :
    Scaled (a + b) (a' + b') := by
  simp only [Scaled] at h h' ⊢
  rw [UInt16.toNat_add, UInt16.toNat_add, Nat.mod_eq_of_lt (by omega), Nat.mod_eq_of_lt (by omega)]
  omega

theorem le_iff (h : Scaled a a') (h' : Scaled b b') : a ≤ b ↔ a' ≤ b' := by
  simp only [Scaled] at h h'
  rw [UInt16.le_iff_toNat_le, UInt16.le_iff_toNat_le]
  omega

theorem lt_iff (h : Scaled a a') (h' : Scaled b b') : a < b ↔ a' < b' := by
  simp only [Scaled] at h h'
  rw [UInt16.lt_iff_toNat_lt, UInt16.lt_iff_toNat_lt]
  omega

theorem sub (h : Scaled a a') (h' : Scaled b b') (hle : b' ≤ a') : Scaled (a - b) (a' - b') := by
  have hle' := (h'.le_iff h).mpr hle
  simp only [Scaled] at h h' ⊢
  rw [UInt16.toNat_sub_of_le _ _ hle, UInt16.toNat_sub_of_le _ _ hle']
  omega

theorem select (h : Scaled a a') (h' : Scaled b b') :
    Scaled (Convolutional.select a b).1 (Convolutional.select a' b').1 ∧
      (Convolutional.select a b).2 = (Convolutional.select a' b').2 := by
  simp only [Convolutional.select, ← h.le_iff h']
  split
  · exact ⟨h, rfl⟩
  · exact ⟨h', rfl⟩

/-- The choice of the tail. -/
theorem select_late (h : Scaled a a') (h' : Scaled b b') :
    Scaled (if a < b then (a, (0 : UInt8)) else (b, 1)).1
        (if a' < b' then (a', (0 : UInt8)) else (b', 1)).1 ∧
      (if a < b then (a, (0 : UInt8)) else (b, 1)).2 =
        (if a' < b' then (a', (0 : UInt8)) else (b', 1)).2 := by
  simp only [← h.lt_iff h']
  split
  · exact ⟨h, rfl⟩
  · exact ⟨h', rfl⟩

end Scaled

/-- The soft metric of a fully confident pair of bits. -/
theorem sliceCost_hardSoft (encoded : Nat → UInt8) (t x : Nat) :
    sliceCost (Convolutional.hardSoft encoded) t x =
      255 * ((x.testBit 0 ^^ bufferBit encoded (2 * t)).toNat +
        (x.testBit 1 ^^ bufferBit encoded (2 * t + 1)).toNat) := by
  simp only [sliceCost, Convolutional.hardSoft, bitCost_hard]
  omega

theorem metricDistance_toNat {x y : Nat} (hx : x < 4) (hy : y < 4) :
    (metricDistance x y).toNat =
      (x.testBit 0 ^^ y.testBit 0).toNat + (x.testBit 1 ^^ y.testBit 1).toNat := by
  have hall : ∀ x y : Fin 4, (metricDistance x.val y.val).toNat =
      (x.val.testBit 0 ^^ y.val.testBit 0).toNat + (x.val.testBit 1 ^^ y.val.testBit 1).toNat := by
    decide +kernel
  exact hall ⟨x, hx⟩ ⟨y, hy⟩

/-- `metric_distance` of the two bits read. -/
theorem metricDistance_read {encoded : Nat → UInt8} {r : BitReader} {t x : Nat}
    (h : BitReader.Read encoded (2 * t) r) (hx : x < 4) :
    255 * (metricDistance x (r.read 2).1.toNat).toNat =
      sliceCost (Convolutional.hardSoft encoded) t x := by
  obtain ⟨hbits, -⟩ := BitReader.read_bits h (show 2 ≤ 8 by omega)
  have hlt : (r.read 2).1.toNat < 2 ^ 2 := Nat.lt_pow_two_of_testBit _ fun j hj => by
    rw [hbits, decide_eq_false (by omega), Bool.false_and]
  have hzero := hbits 0
  have hone := hbits 1
  rw [decide_eq_true (by omega), Bool.true_and] at hzero hone
  rw [metricDistance_toNat hx hlt, hzero, hone, sliceCost_hardSoft, Nat.add_zero]

/-! ## The search -/

namespace HistoryBuffer

variable {buf : HistoryBuffer} {d d' : Nat → UInt16} {skip : Nat}

theorem winner_scaled {f f' : Nat → Nat} (h : ∀ s, s < 64 → skip ∣ s → f' s = 255 * f s) :
    winner f' skip = winner f skip := by
  refine Nat.find_congr' fun {p} => ?_
  constructor
  · rintro ⟨hp, hdvd, hleast⟩
    refine ⟨hp, hdvd, fun s hs hs' => ?_⟩
    have hle := hleast s hs hs'
    rw [h p hp hdvd, h s hs hs'] at hle
    omega
  · rintro ⟨hp, hdvd, hleast⟩
    refine ⟨hp, hdvd, fun s hs hs' => ?_⟩
    have hle := hleast s hs hs'
    rw [h p hp hdvd, h s hs hs']
    omega

/-- Both searches find the same state, and it is a least one. -/
theorem search_scaled (hstates : buf.numStates = 64) (neon : Bool) (hskip : 0 < skip)
    (hd : ∀ s, s < 64 → skip ∣ s → Scaled (d s) (d' s))
    (hlt : ∀ s, s < 64 → skip ∣ s → d' s < 0xFFFF) :
    ∃ p, buf.search neon d skip = p ∧ buf.search neon d' skip = p ∧ p < 64 ∧ skip ∣ p ∧
      ∀ s, s < 64 → skip ∣ s → d' p ≤ d' s := by
  have hlt' : ∀ s, s < 64 → skip ∣ s → (d' s).toNat < 65535 := fun s hs hdvd =>
    UInt16.lt_iff_toNat_lt.mp (hlt s hs hdvd)
  have hsoft := search_eq_winner 0 hstates neon hskip (f := fun s => (d' s).toNat)
    fun s hs hdvd => ⟨rfl, hlt' s hs hdvd⟩
  have hhard := search_eq_winner 0 hstates neon hskip (f := fun s => (d s).toNat)
    fun s hs hdvd => ⟨rfl, by
      have hscaled := hd s hs hdvd
      have hbound := hlt' s hs hdvd
      simp only [Scaled] at hscaled
      omega⟩
  obtain ⟨hp, hdvd, hleast⟩ := winner_isLeast (fun s => (d' s).toNat) skip
  rw [← winner_scaled hd] at hhard
  exact ⟨_, hhard, hsoft, hp, hdvd, fun s hs hs' => UInt16.le_iff_toNat_le.mpr (hleast s hs hs')⟩

/-- So both process the slice alike. -/
theorem processSkip_scaled (hstates : buf.numStates = 64) (neon : Bool) (output : BitWriter)
    (hskip : 0 < skip) (hd : ∀ s, s < 64 → skip ∣ s → Scaled (d s) (d' s))
    (hlt : ∀ s, s < 64 → skip ∣ s → d' s < 0xFFFF) :
    let r := buf.processSkip neon d output skip
    let r' := buf.processSkip neon d' output skip
    r.buf = r'.buf ∧ r.output = r'.output ∧
      ∀ s, s < 64 → skip ∣ s → Scaled (r.distances s) (r'.distances s) := by
  intro r r'
  obtain ⟨p, hhard, hsoft, hp, hdvd, hleast⟩ := search_scaled hstates neon hskip hd hlt
  have hprocessed : ∀ s, s < 64 → skip ∣ s →
      Scaled (buf.processedDistances neon d skip s) (buf.processedDistances neon d' skip s) := by
    intro s hs hs'
    simp only [processedDistances, hhard, hsoft]
    split
    · rw [renormalize_apply, renormalize_apply, hstates, if_pos hs, if_pos hs]
      exact (hd s hs hs').sub (hd p hp hdvd) (hleast s hs hs')
    · exact hd s hs hs'
  refine ⟨?_, ?_, ?_⟩
  · simp only [r, r', processSkip_eq, hhard, hsoft]
    split <;> rfl
  · simp only [r, r', processSkip_eq, hhard, hsoft]
    split <;> rfl
  · simp only [r, r', processSkip_distances]
    exact hprocessed

end HistoryBuffer

/-! ## Slices -/

namespace Convolutional

/-- A hard decode and a soft decode that is confident in the bits of `encoded`, both before
    slice `t`: all but the metrics is the same. -/
structure Alike (encoded : Nat → UInt8) (t : Nat) (conv conv' : Convolutional) : Prop where
  config_eq : conv.config = conv'.config
  historyBuffer_eq : conv.historyBuffer = conv'.historyBuffer
  bitWriter_eq : conv.bitWriter = conv'.bitWriter
  index_eq : conv.errors.index = conv'.errors.index
  read_eq : conv.errors.read = conv'.errors.read
  write_eq : conv.errors.write = conv'.errors.write
  reads : BitReader.Read encoded (2 * t) conv.bitReader

/-- And on every `skip`-th state the metrics that are read are scaled. -/
structure Scales (encoded : Nat → UInt8) (skip t : Nat) (conv conv' : Convolutional) : Prop
    extends Alike encoded t conv conv' where
  metrics : ∀ s, s < 64 → skip ∣ s →
    Scaled (conv.errors.readErrors s) (conv'.errors.readErrors s)

variable {encoded : Nat → UInt8} {skip t : Nat} {conv conv' : Convolutional}

theorem scales_fillDistances (h : Scales encoded skip t conv conv') (hof : OfCode conv') :
    Scales encoded skip (t + 1) (conv.fillDistances none t)
        (conv'.fillDistances (some (hardSoft encoded)) t) ∧
      ∀ x, x < 4 → Scaled ((conv.fillDistances none t).distances x)
        ((conv'.fillDistances (some (hardSoft encoded)) t).distances x) := by
  have hrate : conv.rate = 2 := (congrArg Config.rate h.config_eq).trans hof.rate_eq
  refine ⟨⟨⟨?_, h.historyBuffer_eq, h.bitWriter_eq, h.index_eq, h.read_eq, h.write_eq, ?_⟩,
    h.metrics⟩, fun x hx => ?_⟩
  · exact (config_fillDistances none t conv).trans
      (h.config_eq.trans (config_fillDistances (some (hardSoft encoded)) t conv').symm)
  · have hnext := (BitReader.read_bits h.reads (show 2 ≤ 8 by omega)).2
    rw [Nat.mul_add, Nat.mul_one]
    simp only [fillDistances, hrate]
    exact hnext
  · have hdistance := metricDistance_read h.reads hx
    rw [Scaled, fillDistances_toNat hof (hardSoft encoded) t hx, ← hdistance]
    simp only [fillDistances, hrate]
    rw [forLoop_update, if_pos ⟨Nat.zero_le x, hx⟩]

/-- Slices filled alike are processed alike. -/
theorem scales_finishSlice (h : Scales encoded skip t conv conv') (hof : OfCode conv')
    (hsettled : conv'.errors.write = conv'.errors.index) (neon : Bool) {s s' : Slice}
    {skip' : Nat} (hskip : 0 < skip') (hhistory : s.history = s'.history)
    (hfill : ∀ state, state < 64 → skip' ∣ state → Scaled (s.errors state) (s'.errors state))
    (hlt : ∀ state, state < 64 → skip' ∣ state → s'.errors state < 0xFFFF) :
    Scales encoded skip' t (conv.finishSlice neon s skip') (conv'.finishSlice neon s' skip') := by
  have hstates : (conv'.historyBuffer.setSlice s'.history).numStates = 64 := hof.numStates_eq
  obtain ⟨hbuf, houtput, hdistances⟩ := HistoryBuffer.processSkip_scaled hstates neon
    conv'.bitWriter hskip hfill hlt
  have hsettled' : conv.errors.write = conv.errors.index := by
    rw [h.write_eq, h.index_eq, hsettled]
  have hprocess : (conv.historyBuffer.setSlice s.history).processSkip neon s.errors conv.bitWriter
      skip' = (conv'.historyBuffer.setSlice s'.history).processSkip neon s.errors conv'.bitWriter
        skip' := by
    rw [h.historyBuffer_eq, h.bitWriter_eq, hhistory]
  refine ⟨⟨?_, ?_, ?_, ?_, ?_, ?_, h.reads⟩, fun state hs hdvd => ?_⟩
  · exact (config_finishSlice neon s skip' conv).trans
      (h.config_eq.trans (config_finishSlice neon s' skip' conv').symm)
  · simp only [finishSlice, hprocess]
    exact hbuf
  · simp only [finishSlice, hprocess]
    exact houtput
  · simp only [finishSlice, ErrorBuffer.swap, ErrorBuffer.setWriteErrors, h.index_eq]
  · simp only [finishSlice, ErrorBuffer.swap, ErrorBuffer.setWriteErrors, h.index_eq]
  · simp only [finishSlice, ErrorBuffer.swap, ErrorBuffer.setWriteErrors, h.index_eq]
  · simp only [finishSlice, hprocess]
    rw [(ErrorBuffer.swap_settled hsettled' _).1, (ErrorBuffer.swap_settled hsettled _).1]
    exact hdistances state hs hdvd

/-- Add-compare-select of both: the sums scale, and the histories are the same. -/
theorem acs_scaled (neon : Bool) {pairs pairs' : PairLookup}
    (hpairs : PairLookup.For 2 7 codeTable pairs) (hpairs' : PairLookup.For 2 7 codeTable pairs')
    {d d' r r' : Nat → UInt16} (hd : ∀ x, x < 4 → Scaled (d x) (d' x))
    (hr : ∀ s, s < 64 → Scaled (r s) (r' s))
    (hsum : ∀ reg, reg < 128 → (d' (codeTable reg)).toNat + (r' (reg / 2)).toNat ≤ 65535)
    {s s' : Slice} (hhistory : s.history = s'.history) :
    (acs neon (pairs.fillDistance d) 32 r s).history =
        (acs neon (pairs'.fillDistance d') 32 r' s').history ∧
      ∀ state, state < 64 → Scaled ((acs neon (pairs.fillDistance d) 32 r s).errors state)
        ((acs neon (pairs'.fillDistance d') 32 r' s').errors state) := by
  have hregister : ∀ reg, reg < 128 →
      Scaled (d (codeTable reg) + r (reg / 2)) (d' (codeTable reg) + r' (reg / 2)) :=
    fun reg hreg => (hd _ (codeTable_lt reg)).add (hr _ (by omega)) (hsum reg hreg)
  have hentry : ∀ state, state < 64 →
      Scaled (acsEntry (pairs.fillDistance d) 32 r state).1
          (acsEntry (pairs'.fillDistance d') 32 r' state).1 ∧
        (acsEntry (pairs.fillDistance d) 32 r state).2 =
          (acsEntry (pairs'.fillDistance d') 32 r' state).2 := by
    intro state hstate
    have hhigh := hregister (state + 64) (by omega)
    rw [show (state + 64) / 2 = 32 + state / 2 by omega] at hhigh
    rw [show (32 : Nat) = 2 ^ 5 from rfl, acsEntry_fillDistance 5 hpairs codeTable_lt d r hstate,
      acsEntry_fillDistance 5 hpairs' codeTable_lt d' r' hstate]
    exact (hregister state (by omega)).select hhigh
  rw [acs_eq, acs_eq]
  refine ⟨funext fun state => ?_, fun state hstate => ?_⟩
  · simp only [filled, hhistory]
    split
    next hstate => exact (hentry state hstate).2
    next => rfl
  · simp only [filled, if_pos (show state < 2 * 32 from hstate)]
    exact (hentry state hstate).1

/-- Add-compare-select of the tail. -/
theorem tailAcs_scaled {half : Nat} (hhalf : 0 < half) (hdvd : half ∣ 32)
    {d d' r r' : Nat → UInt16} (hd : ∀ x, x < 4 → Scaled (d x) (d' x))
    (hr : ∀ s, s < 64 → half ∣ s → Scaled (r s) (r' s))
    (hsum : ∀ reg s, s < 64 → half ∣ s → (d' (codeTable reg)).toNat + (r' s).toNat ≤ 65535)
    {s s' : Slice} (hhistory : s.history = s'.history) :
    (tailAcs codeTable d r 64 (2 * half) s).history =
        (tailAcs codeTable d' r' 64 (2 * half) s').history ∧
      ∀ state, state < 64 → 2 * half ∣ state →
        Scaled ((tailAcs codeTable d r 64 (2 * half) s).errors state)
          ((tailAcs codeTable d' r' 64 (2 * half) s').errors state) := by
  have hbase : (2 * half) >>> 1 = half := by
    rw [Nat.shiftRight_eq_div_pow, Nat.pow_one, Nat.mul_div_cancel_left _ (by omega)]
  have hregister : ∀ reg s, s < 64 → half ∣ s →
      Scaled (d (codeTable reg) + r s) (d' (codeTable reg) + r' s) :=
    fun reg s hs hs' => (hd _ (codeTable_lt reg)).add (hr s hs hs') (hsum reg s hs hs')
  have hhigh : 64 >>> 1 = 32 := rfl
  have hrun : (tailAcs codeTable d r 64 (2 * half) s).history =
        (tailAcs codeTable d' r' 64 (2 * half) s').history ∧
      ∀ j, j < (64 + 2 * half - 1) / (2 * half) →
        Scaled ((tailAcs codeTable d r 64 (2 * half) s).errors (j * (2 * half)))
          ((tailAcs codeTable d' r' 64 (2 * half) s').errors (j * (2 * half))) := by
    refine forLoop_rel (fun k (s s' : Slice) => s.history = s'.history ∧
      ∀ j, j < k → Scaled (s.errors (j * (2 * half))) (s'.errors (j * (2 * half))))
      (Nat.zero_le _) ⟨hhistory, fun j hj => absurd hj (Nat.not_lt_zero j)⟩ ?_
    rintro k t t' - hk ⟨hsame, hbelow⟩
    have hlt : k * half < 32 := by
      rw [Nat.lt_iff_add_one_le, Nat.le_div_iff_mul_le (by omega), Nat.add_mul, Nat.one_mul,
        Nat.mul_left_comm] at hk
      omega
    simp only [hbase, hhigh]
    obtain ⟨herror, hentry⟩ := (hregister (k * (2 * half)) (k * half) (by omega)
      (Nat.dvd_mul_left half k)).select_late (hregister (64 + k * (2 * half)) (32 + k * half)
        (by omega) ((Nat.dvd_add_right hdvd).mpr (Nat.dvd_mul_left half k)))
    refine ⟨?_, fun j hj => ?_⟩
    · simp only [Slice.store, hsame, hentry]
    · simp only [Slice.store, Function.update_apply]
      by_cases hlast : j = k
      · rw [hlast, if_pos rfl, if_pos rfl]
        exact herror
      · have hne : j * (2 * half) ≠ k * (2 * half) := fun hmul =>
          hlast (Nat.eq_of_mul_eq_mul_right (by omega) hmul)
        rw [if_neg hne, if_neg hne]
        exact hbelow j (by omega)
  refine ⟨hrun.1, ?_⟩
  rintro state hstate ⟨j, rfl⟩
  rw [Nat.mul_comm (2 * half) j] at hstate ⊢
  refine hrun.2 j ?_
  rw [Nat.lt_iff_add_one_le, Nat.le_div_iff_mul_le (by omega), Nat.add_mul, Nat.one_mul]
  omega

/-! ## The run -/

variable {sets n off k : Nat}

/-- One slice of the inner phase of both. -/
theorem scales_innerSlice (h : Scales encoded 1 (6 + n) conv conv')
    (hf : Follows 3060 (trueMetric (hardSoft encoded) sets n) 1 off conv')
    (hindex : sliceIndex sets n = 6 + n) (neon : Bool) :
    Scales encoded 1 (6 + n + 1) (conv.innerSlice neon none (6 + n))
      (conv'.innerSlice neon (some (hardSoft encoded)) (6 + n)) := by
  have hof := hf.ofCode
  have hof' : OfCode conv := h.config_eq.trans hof
  obtain ⟨hscales, hd⟩ := scales_fillDistances h hof
  have hexact := inner_exact hf.toReads neon
  rw [hindex] at hexact
  have hbounds := distances_le hof (hardSoft encoded) (6 + n)
  have hpairs : PairLookup.For 2 7 codeTable (conv.fillDistances none (6 + n)).pairLookup :=
    OfCode.pairs_for ((config_fillDistances none (6 + n) conv).trans hof')
  have hpairs' : PairLookup.For 2 7 codeTable
      (conv'.fillDistances (some (hardSoft encoded)) (6 + n)).pairLookup :=
    OfCode.pairs_for ((config_fillDistances (some (hardSoft encoded)) (6 + n) conv').trans hof)
  have hsums : ∀ reg, reg < 128 →
      ((conv'.fillDistances (some (hardSoft encoded)) (6 + n)).distances (codeTable reg)).toNat +
        (conv'.errors.readErrors (reg / 2)).toNat ≤ 65535 := fun reg hreg =>
    Nat.le_trans (hf.sum_exact (by omega) hbounds reg (s := reg / 2) (by omega) (Nat.one_dvd _)).1
      (by omega)
  have hreadErrors : ∀ s, s < 64 →
      Scaled ((conv.fillDistances none (6 + n)).errors.readErrors s)
        ((conv'.fillDistances (some (hardSoft encoded)) (6 + n)).errors.readErrors s) :=
    fun s hs => hscales.metrics s hs (Nat.one_dvd s)
  have hslice : (conv.fillDistances none (6 + n)).currentSlice.history =
      (conv'.fillDistances (some (hardSoft encoded)) (6 + n)).currentSlice.history :=
    congrArg HistoryBuffer.getSlice hscales.historyBuffer_eq
  obtain ⟨hhistory, hfill⟩ := acs_scaled neon hpairs hpairs' hd hreadErrors hsums hslice
  have hpaired : Scales encoded 1 (6 + n + 1)
      { conv.fillDistances none (6 + n) with
        pairLookup := (conv.fillDistances none (6 + n)).pairLookup.fillDistance
          (conv.fillDistances none (6 + n)).distances }
      (conv'.innerReady (hardSoft encoded) (6 + n)) :=
    ⟨⟨hscales.config_eq, hscales.historyBuffer_eq, hscales.bitWriter_eq, hscales.index_eq,
      hscales.read_eq, hscales.write_eq, hscales.reads⟩, hscales.metrics⟩
  have hready := (reads_ready (hardSoft encoded) hf.toReads (6 + n)).ofCode
  have hslots : 1 <<< (7 - 1) >>> 1 = 32 := rfl
  have hsentinel := hexact.process.sentinel
  rw [innerSlice_eq]
  simp only [innerFilled, hof.order_eq, hslots] at hsentinel ⊢
  simp only [innerSlice, hof'.order_eq, hslots]
  exact scales_finishSlice hpaired hready hf.settled neon Nat.one_pos hhistory
    (fun state hstate _ => hfill state hstate) hsentinel

/-- One slice of the tail of both. -/
theorem scales_tailSlice (h : Scales encoded (2 ^ k) (sets - 6 + k) conv conv')
    (hf : Follows 3060 (trueMetric (hardSoft encoded) sets (sets - 12 + k)) (2 ^ k) off conv')
    (hlarge : 6 ≤ sets) (hk : k < 6) (neon : Bool) :
    Scales encoded (2 ^ (k + 1)) (sets - 6 + k + 1)
      (conv.tailSlice neon sets none (sets - 6 + k))
      (conv'.tailSlice neon sets (some (hardSoft encoded)) (sets - 6 + k)) := by
  have hof := hf.ofCode
  have hof' : OfCode conv := h.config_eq.trans hof
  obtain ⟨hscales, hd⟩ := scales_fillDistances h hof
  have hexact := tail_exact hf.toReads hlarge hk neon
  have hdvd : 2 ^ k ∣ 32 := by
    rw [show (32 : Nat) = 2 ^ 5 from rfl]
    exact Nat.pow_dvd_pow 2 (by omega)
  have hbounds := distances_le hof (hardSoft encoded) (sets - 6 + k)
  have hready := reads_fillDistances (hardSoft encoded) hf.toReads (sets - 6 + k)
  have hsums : ∀ reg s, s < 64 → 2 ^ k ∣ s →
      ((conv'.fillDistances (some (hardSoft encoded)) (sets - 6 + k)).distances
          (codeTable reg)).toNat + (conv'.errors.readErrors s).toNat ≤ 65535 :=
    fun reg s hs hs' => Nat.le_trans (hf.sum_exact (by omega) hbounds reg hs hs').1 (by omega)
  have hslice : (conv.fillDistances none (sets - 6 + k)).currentSlice.history =
      (conv'.fillDistances (some (hardSoft encoded)) (sets - 6 + k)).currentSlice.history :=
    congrArg HistoryBuffer.getSlice hscales.historyBuffer_eq
  obtain ⟨hhistory, hfill⟩ := tailAcs_scaled (Nat.two_pow_pos k) hdvd hd hscales.metrics hsums
    hslice
  have hskip : 1 <<< (7 - (sets - (sets - 6 + k))) = 2 * 2 ^ k := by
    rw [Nat.one_shiftLeft, show 7 - (sets - (sets - 6 + k)) = k + 1 by omega, Nat.pow_succ']
  have htable : (conv.fillDistances none (sets - 6 + k)).table = codeTable := hof'.table_eq
  have horder : (conv.fillDistances none (sets - 6 + k)).order = 7 := hof'.order_eq
  have hhighbit : 1 <<< (7 - 1) = 64 := rfl
  have hsentinel := hexact.process.sentinel
  rw [tailSkip_eq hof hlarge hk] at hsentinel
  rw [tailSlice_eq, tailSkip_eq hof hlarge hk, Nat.pow_succ']
  simp only [tailFilled, tailSkip_eq hof hlarge hk, hof.order_eq, hhighbit,
    hready.ofCode.table_eq] at hsentinel ⊢
  simp only [tailSlice, horder, hof'.order_eq, hskip, hhighbit, htable]
  exact scales_finishSlice hscales hready.ofCode hf.settled neon
    (Nat.mul_pos (by omega) (Nat.two_pow_pos k)) hhistory hfill hsentinel

/-- The phases after the warmup, as two loops and the flush. -/
theorem decodePhases_slices (hof : OfCode conv) (neon : Bool) (soft : Option (Nat → UInt8))
    (hlarge : 12 ≤ sets) (hsets : sets < 2 ^ 32) :
    conv.decodePhases neon sets soft =
      (forLoop (sets - 6) sets (tailSlice neon sets soft)
        (forLoop 6 (sets - 6) (innerSlice neon soft) conv)).flushed := by
  have hend : innerEnd sets 7 = sets - 6 := (innerEnd_eq (by omega) (by omega) hsets).trans rfl
  have horder : (forLoop 6 (sets - 6) (innerSlice neon soft) conv).order = 7 :=
    (congrArg Config.order
      (config_forLoop 6 (sets - 6) (config_innerSlice neon soft) conv)).trans hof.order_eq
  unfold decodePhases
  simp only [hof.order_eq, hend, Nat.reduceSub, horder,
    Nat.mod_eq_of_lt (show sets - 6 < 2 ^ 32 by omega)]
  rfl

/-- What is left of both decodes: all that a caller or the next call sees. -/
structure Agrees (conv conv' : Convolutional) : Prop where
  config_eq : conv.config = conv'.config
  historyBuffer_eq : conv.historyBuffer = conv'.historyBuffer
  bitWriter_eq : conv.bitWriter = conv'.bitWriter

theorem Alike.flushed (h : Alike encoded t conv conv') : Agrees conv.flushed conv'.flushed where
  config_eq := (config_flush conv conv.bitWriter).trans
    (h.config_eq.trans (config_flush conv' conv'.bitWriter).symm)
  historyBuffer_eq := by
    simp only [Convolutional.flushed, h.historyBuffer_eq, h.bitWriter_eq]
  bitWriter_eq := by
    simp only [Convolutional.flushed, h.historyBuffer_eq, h.bitWriter_eq]

/-- Both phases of both decodes. -/
theorem agrees_decodePhases (h : Scales encoded 1 6 conv conv')
    (hf : Follows 3060 (trueMetric (hardSoft encoded) sets 0) 1 0 conv') (hlarge : 12 ≤ sets)
    (hsets : sets < 2 ^ 32) (neon : Bool) :
    Agrees (conv.decodePhases neon sets none)
      (conv'.decodePhases neon sets (some (hardSoft encoded))) := by
  have hinner := forLoop_rel (fun i (c c' : Convolutional) => Scales encoded 1 i c c' ∧
      ∃ off, Follows 3060 (trueMetric (hardSoft encoded) sets (i - 6)) 1 off c')
    (show 6 ≤ sets - 6 by omega) ⟨h, 0, hf⟩ (fun i c c' hlo hi hc => by
      obtain ⟨hscales, off, hfollows⟩ := hc
      obtain ⟨n, rfl⟩ := Nat.exists_eq_add_of_le hlo
      have hindex : sliceIndex sets n = 6 + n := by
        rw [sliceIndex, if_neg (by omega), Nat.min_eq_left (by omega)]
      rw [Nat.add_sub_cancel_left] at hfollows
      have hnext := follows_innerSlice hfollows (by omega) neon
      rw [hindex] at hnext
      rw [Nat.add_assoc, Nat.add_sub_cancel_left]
      exact ⟨scales_innerSlice hscales hfollows hindex neon, _, hnext⟩)
  have htail := forLoop_rel (fun i (c c' : Convolutional) =>
      Scales encoded (2 ^ (i - (sets - 6))) i c c' ∧
        ∃ off, Follows 3060 (trueMetric (hardSoft encoded) sets (i - 6)) (2 ^ (i - (sets - 6)))
          off c')
    (show sets - 6 ≤ sets by omega) (s := forLoop 6 (sets - 6) (innerSlice neon none) conv)
    (t := forLoop 6 (sets - 6) (innerSlice neon (some (hardSoft encoded))) conv')
    (by rw [Nat.sub_self, Nat.pow_zero]; exact hinner) (fun i c c' hlo hi hc => by
      obtain ⟨hscales, off, hfollows⟩ := hc
      obtain ⟨k, rfl⟩ := Nat.exists_eq_add_of_le hlo
      rw [Nat.add_sub_cancel_left] at hscales hfollows
      rw [show sets - 6 + k - 6 = sets - 12 + k by omega] at hfollows
      rw [show sets - 6 + k + 1 - (sets - 6) = k + 1 by omega,
        show sets - 6 + k + 1 - 6 = sets - 12 + (k + 1) by omega]
      exact ⟨scales_tailSlice hscales hfollows (by omega) (by omega) neon,
        follows_tailSlice hfollows (by omega) (by omega) neon⟩)
  rw [decodePhases_slices (h.config_eq.trans hf.ofCode) neon none hlarge hsets,
    decodePhases_slices hf.ofCode neon _ hlarge hsets]
  exact htail.1.toAlike.flushed

/-! ## The warmup -/

/-- In the warmup every metric is scaled, in both arrays. -/
structure Warms (encoded : Nat → UInt8) (t : Nat) (conv conv' : Convolutional) : Prop
    extends Alike encoded t conv conv' where
  read_lt : conv'.errors.read < 2
  arrays : ∀ a s, a < 2 → s < 64 → Scaled (conv.errors.errors a s) (conv'.errors.errors a s)

theorem warms_warmupSlice (h : Warms encoded t conv conv') (hof : OfCode conv') (ht : t < 6)
    (hindex : conv'.errors.index < 2)
    (hexact : WarmupExact (hardSoft encoded) t conv') :
    Warms encoded (t + 1) (conv.warmupSlice none t)
      (conv'.warmupSlice (some (hardSoft encoded)) t) := by
  have hof' : OfCode conv := h.config_eq.trans hof
  have hpow : 2 ^ (t + 1) ≤ 2 ^ 6 := Nat.pow_le_pow_right (by omega) (by omega)
  have hsum : ∀ j, j < 1 <<< (t + 1) →
      Scaled (metricDistance (conv.table j) (conv.bitReader.read conv.rate).1.toNat +
          conv.errors.readErrors (j >>> 1))
        (conv'.softDistance (conv'.table j) (conv'.sliceOf (hardSoft encoded) t) +
          conv'.errors.readErrors (j >>> 1)) := by
    intro j hj
    have hlt : j >>> 1 < 64 := by
      rw [Nat.one_shiftLeft] at hj
      rw [Nat.shiftRight_eq_div_pow]
      omega
    have hdistance := metricDistance_read h.reads (codeTable_lt j)
    refine Scaled.add ?_ ?_ (hexact j hj)
    · rw [Scaled, softDistance_toNat hof, hof.table_eq, hof'.table_eq, hof'.rate_eq, hdistance]
    · rw [ErrorBuffer.readErrors, ErrorBuffer.readErrors, h.read_eq]
      exact h.arrays _ _ h.read_lt hlt
  refine ⟨⟨?_, h.historyBuffer_eq, h.bitWriter_eq, ?_, ?_, ?_, ?_⟩, hindex, fun a s ha hs => ?_⟩
  · exact (config_warmupSlice none t conv).trans
      (h.config_eq.trans (config_warmupSlice (some (hardSoft encoded)) t conv').symm)
  · simp only [warmupSlice, ErrorBuffer.swap, ErrorBuffer.setWriteErrors, h.index_eq]
  · simp only [warmupSlice, ErrorBuffer.swap, ErrorBuffer.setWriteErrors, h.index_eq]
  · simp only [warmupSlice, ErrorBuffer.swap, ErrorBuffer.setWriteErrors, h.index_eq]
  · have hnext := (BitReader.read_bits h.reads (show 2 ≤ 8 by omega)).2
    rw [Nat.mul_add, Nat.mul_one]
    simp only [warmupSlice, hof'.rate_eq]
    exact hnext
  · simp only [warmupSlice, ErrorBuffer.swap, ErrorBuffer.setWriteErrors, h.write_eq]
    rw [Function.update_apply, Function.update_apply]
    split
    next hwrite =>
      rw [forLoop_update, forLoop_update]
      split
      next hj => exact hsum s hj.2
      next =>
        rw [ErrorBuffer.writeErrors, ErrorBuffer.writeErrors, h.write_eq, ← hwrite]
        exact h.arrays a s ha hs
    next => exact h.arrays a s ha hs

/-- The instance that reads its bits from `encoded`. -/
def reading (conv : Convolutional) (encoded : Nat → UInt8) (len : Nat) : Convolutional :=
  { conv with bitReader := BitReader.reconfigure encoded len }

theorem decodeStart_reading (conv : Convolutional) (encoded : Nat → UInt8)
    (len numEncodedBytes : Nat) (msg : Nat → UInt8) :
    (conv.reading encoded len).decodeStart numEncodedBytes msg =
      (conv.decodeStart numEncodedBytes msg).reading encoded len := by
  by_cases hinit : conv.hasInitDecode = true
  · have hinit' : (conv.reading encoded len).hasInitDecode = true := hinit
    simp only [decodeStart, if_pos hinit, if_pos hinit']
    rfl
  · have hinit' : ¬ (conv.reading encoded len).hasInitDecode = true := hinit
    simp only [decodeStart, if_neg hinit, if_neg hinit']
    rfl

/-- The warmup of both decodes. -/
theorem scales_warmup (h : Ready conv) (numEncodedBytes len : Nat) (msg : Nat → UInt8)
    (hlarge : 12 ≤ sets) :
    Scales encoded 1 6
      (((conv.reading encoded len).decodeStart numEncodedBytes msg).warmup sets none)
      (conv.warmed numEncodedBytes msg (hardSoft encoded) sets) := by
  have hcounting := counting_decodeStart h numEncodedBytes msg
  have hzero := zeroFrom_decodeStart h numEncodedBytes msg
  have hfollows : Follows 3060 (trueMetric (hardSoft encoded) sets 0) 1 0
      (conv.warmed numEncodedBytes msg (hardSoft encoded) sets) :=
    follows_warmed h numEncodedBytes msg (hardSoft encoded) (by omega)
  have horder := hcounting.1.order_eq
  have hreading : ((conv.decodeStart numEncodedBytes msg).reading encoded len).order = 7 := horder
  rw [decodeStart_reading]
  simp only [warmed, warmup, horder, hreading, show min (7 - 1) sets = 6 by omega] at hfollows ⊢
  have hbegin : Warms encoded 0 ((conv.decodeStart numEncodedBytes msg).reading encoded len)
      (conv.decodeStart numEncodedBytes msg) := by
    refine ⟨⟨rfl, rfl, rfl, rfl, rfl, rfl, ⟨rfl, rfl, Nat.le_refl 8, rfl⟩⟩, hzero.read_lt,
      fun a s ha hs => ?_⟩
    have hmetric := hzero.zero a s ha (Nat.zero_le s) hs
    simp only [Scaled, reading, hmetric]
    rfl
  have hrun : ∀ i, i ≤ 6 →
      let c := forLoop 0 i (warmupSlice none) ((conv.decodeStart numEncodedBytes msg).reading
        encoded len)
      let c' := forLoop 0 i (warmupSlice (some (hardSoft encoded)))
        (conv.decodeStart numEncodedBytes msg)
      Warms encoded i c c' ∧ c'.errors.index < 2 := by
    intro i hi
    induction i with
    | zero => exact ⟨hbegin, hzero.index_lt⟩
    | succ i ih =>
      obtain ⟨hwarms, hindex⟩ := ih (by omega)
      have hreads := reads_warmup h numEncodedBytes msg (hardSoft encoded) (show i ≤ 6 by omega)
      rw [forLoop_succ (Nat.zero_le i), forLoop_succ (Nat.zero_le i)]
      exact ⟨warms_warmupSlice hwarms hreads.ofCode hi hindex (warmup_exact hi hreads),
        Nat.mod_lt _ (by omega)⟩
  obtain ⟨hwarms, -⟩ := hrun 6 (Nat.le_refl 6)
  refine ⟨hwarms.toAlike, fun s hs _ => ?_⟩
  have hread := hwarms.read_eq
  simp only [ErrorBuffer.readErrors, hread]
  exact hwarms.arrays _ s hwarms.read_lt hs

/-! ## Whole decodes -/

/-- Two results with the same code, and after a decode with the same length and state. -/
def Result.Matches : Result → Result → Prop
  | .error, .error => True
  | .never, .never => True
  | .done conv length, .done conv' length' => length = length' ∧ Agrees conv conv'
  | _, _ => False

theorem ready_reading (h : Ready conv) (encoded : Nat → UInt8) (len : Nat) :
    Ready (conv.reading encoded len) := ready_bitReader h _

theorem decode_eq (conv : Convolutional) (neon : Bool) (encoded msg : Nat → UInt8)
    (numEncodedBits : Nat) :
    conv.decode neon encoded numEncodedBits msg =
      if numEncodedBits % conv.rate ≠ 0 then .error
      else
        match (conv.reading encoded ((numEncodedBits + 7) / 8)).decodeSets neon numEncodedBits
          ((numEncodedBits + 7) / 8) msg none with
        | some (conv, length) => .done conv length
        | none => .never := rfl

theorem decodeSoft_eq (conv : Convolutional) (neon : Bool) (encoded msg : Nat → UInt8)
    (numEncodedBits : Nat) :
    conv.decodeSoft neon encoded numEncodedBits msg =
      if numEncodedBits % conv.rate ≠ 0 then .error
      else
        match conv.decodeSets neon numEncodedBits ((numEncodedBits + 7) / 8) msg (some encoded) with
        | some (conv, length) => .done conv length
        | none => .never := rfl

theorem decodeSets_agrees (h : Ready conv) (neon : Bool) (encoded msg : Nat → UInt8)
    {numEncodedBits : Nat} (numEncodedBytes len : Nat)
    (hlarge : 12 ≤ numEncodedBits / 2 % 2 ^ 32) :
    ∃ hard soft,
      (conv.reading encoded len).decodeSets neon numEncodedBits numEncodedBytes msg none =
        some (hard, hard.bitWriter.length) ∧
      conv.decodeSets neon numEncodedBits numEncodedBytes msg (some (hardSoft encoded)) =
        some (soft, soft.bitWriter.length) ∧ Agrees hard soft := by
  generalize hsets : numEncodedBits / 2 % 2 ^ 32 = sets at hlarge
  have hlt : sets < 2 ^ 32 := by
    rw [← hsets]
    exact Nat.mod_lt _ (Nat.two_pow_pos 32)
  have hscales : Scales encoded 1 6
      (((conv.reading encoded len).decodeStart numEncodedBytes msg).warmup sets none)
      (conv.warmed numEncodedBytes msg (hardSoft encoded) sets) :=
    scales_warmup h numEncodedBytes len msg hlarge
  have hfollows := follows_warmed h numEncodedBytes msg (hardSoft encoded)
    (show 0 < sets by omega)
  have hagrees := agrees_decodePhases hscales hfollows hlarge hlt neon
  have hof := hfollows.ofCode
  have hof' : OfCode _ := hscales.config_eq.trans hof
  have hend : innerEnd sets 7 < 2 ^ 32 := by
    rw [innerEnd_eq (by omega) (by omega) hlt]
    omega
  simp only [warmed] at hof hagrees
  refine ⟨_, _, ?_, ?_, hagrees⟩
  · simp only [decodeSets, (ready_reading h encoded len).configured.rate_eq, hsets]
    rw [hof'.order_eq, if_pos hend]
  · simp only [decodeSets, h.configured.rate_eq, hsets]
    rw [hof.order_eq, if_pos hend]

/-- The hard decoder is the soft one at full confidence, unless the tail goes back to slices
    that the soft decoder has used and the stream has passed. -/
theorem decode_matches (h : Used 2 7 r12_7_polynomial conv) (neon : Bool)
    (encoded msg : Nat → UInt8) {numEncodedBits : Nat}
    (hsets : numEncodedBits / 2 % 2 ^ 32 < 6 ∨ 12 ≤ numEncodedBits / 2 % 2 ^ 32) :
    (conv.decode neon encoded numEncodedBits msg).Matches
      (conv.decodeSoft neon (hardSoft encoded) numEncodedBits msg) := by
  have hready := ready_used h
  have hrate := hready.configured.rate_eq
  rw [decode_eq, decodeSoft_eq, hrate]
  split
  · exact trivial
  · rcases hsets with hfew | hlarge
    · have hreading := ready_reading hready encoded ((numEncodedBits + 7) / 8)
      have hhard := decodeSets_never hreading.configured (by omega) neon numEncodedBits
        ((numEncodedBits + 7) / 8) msg none (by omega)
      have hsoft := decodeSets_never hready.configured (by omega) neon numEncodedBits
        ((numEncodedBits + 7) / 8) msg (some (hardSoft encoded)) (by omega)
      rw [hhard, hsoft]
      exact trivial
    · obtain ⟨hard, soft, hhard, hsoft, hagrees⟩ := decodeSets_agrees hready neon encoded msg
        ((numEncodedBits + 7) / 8) ((numEncodedBits + 7) / 8) hlarge
      rw [hhard, hsoft]
      exact ⟨congrArg BitWriter.length hagrees.bitWriter_eq, hagrees⟩

/-- Twelve slices on a fresh instance. -/
theorem decode_matches_fresh :
    (fresh.decode false (fun _ => 0x5A) 24 (fun _ => 0)).Matches
      (fresh.decodeSoft false (hardSoft fun _ => 0x5A) 24 (fun _ => 0)) :=
  decode_matches (Used.create create_fresh) false (fun _ => 0x5A) (fun _ => 0)
    (Or.inr (by decide))

/-! ## Errors in the bits received -/

variable {msg : Nat → UInt8}

/-- The hard decode of the bits received returns the message. -/
def ReturnsHard (conv : Convolutional) (neon : Bool) (received out msg : Nat → UInt8) (n : Nat) :
    Prop :=
  ∃ conv', conv.decode neon received (2 * slicesOf n) out = .done conv' n ∧
    (∀ i, i < n → conv'.bitWriter.bytes i = msg i) ∧
    ∀ i, n ≤ i → conv'.bitWriter.bytes i = out i

theorem returnsHard_iff (h : Ready conv) (neon : Bool) (received out : Nat → UInt8) (hn : 1 ≤ n)
    (hlt : slicesOf n < 2 ^ 32) :
    ReturnsHard conv neon received out msg n ↔
      Returns conv neon (hardSoft received) out msg n := by
  have hsets : 2 * slicesOf n / 2 % 2 ^ 32 = slicesOf n := by
    rw [Nat.mul_div_cancel_left _ (by omega), Nat.mod_eq_of_lt hlt]
  obtain ⟨hard, soft, hhard, hsoft, hagrees⟩ := decodeSets_agrees h neon received out
    ((2 * slicesOf n + 7) / 8) ((2 * slicesOf n + 7) / 8)
    (show 12 ≤ 2 * slicesOf n / 2 % 2 ^ 32 by rw [hsets, slicesOf]; omega)
  have hdecode : conv.decode neon received (2 * slicesOf n) out =
      .done hard hard.bitWriter.length := by
    rw [decode_eq, h.configured.rate_eq, if_neg (by omega), hhard]
  have hdecodeSoft : conv.decodeSoft neon (hardSoft received) (2 * slicesOf n) out =
      .done soft soft.bitWriter.length := by
    rw [decodeSoft_eq, h.configured.rate_eq, if_neg (by omega), hsoft]
  rw [ReturnsHard, Returns, hdecode, hdecodeSoft]
  constructor
  · rintro ⟨conv', hdone, hbytes, hkept⟩
    obtain ⟨rfl, hlength⟩ := Result.done.inj hdone
    rw [hagrees.bitWriter_eq] at hlength hbytes hkept
    exact ⟨soft, by rw [hlength], hbytes, hkept⟩
  · rintro ⟨conv', hdone, hbytes, hkept⟩
    obtain ⟨rfl, hlength⟩ := Result.done.inj hdone
    rw [← hagrees.bitWriter_eq] at hlength hbytes hkept
    exact ⟨hard, by rw [hlength], hbytes, hkept⟩

/-- Beyond 2^32 slices another length is returned or none. -/
theorem not_returnsHard_of_wrap (h : Ready conv) (neon : Bool) (received out : Nat → UInt8)
    (hge : 2 ^ 32 ≤ slicesOf n) : ¬ ReturnsHard conv neon received out msg n := by
  rintro ⟨conv', hdone, -⟩
  have hreading := ready_reading h received ((2 * slicesOf n + 7) / 8)
  have hsets : (conv.reading received ((2 * slicesOf n + 7) / 8)).decodeSets neon (2 * slicesOf n)
      ((2 * slicesOf n + 7) / 8) out none = some (conv', n) := decode_done hdone
  have hslices : slicesOf n = 8 * n + 8 := rfl
  by_cases hfew : 2 * slicesOf n / 2 % 2 ^ 32 + 1 < 7
  · have hnever := decodeSets_never hreading.configured (by omega) neon (2 * slicesOf n)
      ((2 * slicesOf n + 7) / 8) out none hfew
    rw [hnever] at hsets
    cases hsets
  · obtain ⟨conv'', bits, hcount, hlen, -⟩ := decodeSets_counts hreading.configured (by omega) neon
      (2 * slicesOf n) ((2 * slicesOf n + 7) / 8) out none (by omega)
    rw [hcount] at hsets
    obtain ⟨-, hlength⟩ := Prod.mk.inj (Option.some.inj hsets)
    omega

/-- What `correct_convolutional_encode` writes, received with up to four bits flipped: the hard
    decoder returns the message exactly when the flips do not hit a light word and the number
    of slices fits the 32-bit parameter of the phases. -/
theorem returnsHard_flipped_iff {enc dec : Convolutional}
    (henc : Configured 2 7 r12_7_polynomial enc) (hdec : Used 2 7 r12_7_polynomial dec)
    (neon : Bool) (encoded received out msg : Nat → UInt8) {n : Nat} (hn : 1 ≤ n) {E : Finset Nat}
    (hE : E.card ≤ 4)
    (hreceived : ∀ k, k < 2 * (8 * n + 8) → bufferBit received k =
      (bufferBit (enc.encode msg n encoded).1 k ^^ decide (k ∈ E))) :
    ReturnsHard dec neon received out msg n ↔ 8 * n + 8 < 2 ^ 32 ∧ ¬ Uncorrectable msg n E := by
  have hready := ready_used hdec
  have hflipped : Flipped (hardSoft received) msg n E := by
    intro k hk
    rw [hardSoft, hreceived k hk, encode_bit henc hk]
  constructor
  · intro hreturns
    have hlt : 8 * n + 8 < 2 ^ 32 := by
      by_contra hge
      exact not_returnsHard_of_wrap hready neon received out (Nat.le_of_not_lt hge) hreturns
    refine ⟨hlt, fun huncorrectable => ?_⟩
    exact not_returns_of_uncorrectable hready neon out hflipped hn hlt hE huncorrectable
      ((returnsHard_iff hready neon received out hn hlt).mp hreturns)
  · rintro ⟨hlt, hcorrectable⟩
    refine (returnsHard_iff hready neon received out hn hlt).mpr ?_
    refine (returns_iff hready neon out hn hlt).mpr fun u hu => ?_
    exact decodedBit_of_correctable hflipped hE hcorrectable (by simp only [slicesOf]; omega)

/-- One byte with one bit flipped. -/
theorem returnsHard_flipped_one :
    let sent := (fresh.encode (fun _ => 0x5A) 1 (fun _ => 0)).1
    ReturnsHard fresh false (Function.update sent 0 (sent 0 ^^^ 2)) (fun _ => 0) (fun _ => 0x5A) 1 ↔
      8 * 1 + 8 < 2 ^ 32 ∧ ¬ Uncorrectable (fun _ => 0x5A) 1 {6} := by
  intro sent
  refine returnsHard_flipped_iff (configured_create create_fresh) (Used.create create_fresh) false
    (fun _ => 0) _ (fun _ => 0) (fun _ => 0x5A) (by omega) (by decide) fun k _ => ?_
  rw [bufferBit, bufferBit, Function.update_apply]
  split
  next hfirst =>
    have hbit : ∀ k : Fin 8, Nat.testBit 2 (7 - k.val) = decide (k.val ∈ ({6} : Finset Nat)) := by
      decide
    have hflip := hbit ⟨k, by omega⟩
    rw [UInt8.toNat_xor, Nat.testBit_xor, hfirst, Nat.mod_eq_of_lt (by omega)]
    exact congrArg _ hflip
  next hlater =>
    rw [decide_eq_false (by simp only [Finset.mem_singleton]; omega), Bool.xor_false]

end Convolutional

end RyFi.Conv
