import RyFi.Modem.BlockSizes
import RyFi.Modem.Startup

/-! # Frames over an ideal symbol channel

The channel turns the constellation by a multiple of 90 degrees and adds nothing.  Symbols
stay what they are as pairs of bits (`rotateBy_symbol`), so that a frame is a `NoisyFrame`
without noise; the soft values are on the right side of the middle
(`confident_dataSyms`), and the Reed-Solomon decoder sees the code words that were sent.
-/

namespace RyFi.Modem

open CLoop ShiftRegister RyFi.Conv RyFi.Rs

/-! ## The constellation -/

theorem bitVec_cases (bits : BitVec 2) : bits = 0 ∨ bits = 1 ∨ bits = 2 ∨ bits = 3 := by
  revert bits
  decide

theorem rotateSym_back : ∀ k, k < 4 → ∀ bits : BitVec 2,
    rotateSym^[(4 - k) % 4] (rotateSym^[k] bits) = bits := by
  decide

/-- The sync word in rotation `k`, symbol by symbol. -/
theorem wordSyms_rotated : ∀ k, k < 4 →
    (wordSyms SYNC_WORD).map (rotateSym^[k]) = wordSyms (syncRots k) := by
  decide +kernel

/-- Part of a sync word behind zeros is close to no rotation. -/
theorem zero_far : ∀ k, k < 4 → ∀ j, j < 32 → 1 ≤ j →
    ¬ Deframer.Match (shiftAll 0 ((wordSyms (syncRots k)).take j)) := by
  simp only [Deframer.Match, Deframer.distance_eq]
  decide +kernel

section

variable {F : Type} [SampleType F]

/-- A sample turned by `k` times 90 degrees. -/
def rotateBy (k : Nat) (s : ComplexT F) : ComplexT F :=
  match k with
  | 0 => s
  | 1 => ⟨-s.im, s.re⟩
  | 2 => ⟨-s.re, -s.im⟩
  | _ => ⟨s.im, -s.re⟩

/-- What is assumed of the float arithmetic, at the constellation points. -/
structure ExactSamples (F : Type) [SampleType F] : Prop where
  neg_neg : -(-SampleType.amplitude) = (SampleType.amplitude : F)
  isPos_amplitude : SampleType.isPos (SampleType.amplitude : F) = true
  isPos_neg : SampleType.isPos (-SampleType.amplitude : F) = false
  /-- Rotation by `symRots` is exact. -/
  rotate : ∀ k, k < 4 → ∀ bits,
    (QPSK_SYMBOLS bits : ComplexT F) * symRots k = rotateBy ((4 - k) % 4) (QPSK_SYMBOLS bits)
  quantize_amplitude : quantize (SampleType.amplitude : F) = 136
  quantize_neg : quantize (-SampleType.amplitude : F) = 119

/-- The coordinate that stands for a bit. -/
def coordinate (bit : Bool) : F := if bit then SampleType.amplitude else -SampleType.amplitude

theorem symbol_eq (bits : BitVec 2) :
    (QPSK_SYMBOLS bits : ComplexT F) =
      ⟨coordinate (bits.getLsbD 1), coordinate (bits.getLsbD 0)⟩ := by
  rcases bitVec_cases bits with rfl | rfl | rfl | rfl <;> rfl

/-- The symbols of the data, before and after the channel. -/
def dataSyms (input : Nat → UInt8) : List (ComplexT F) :=
  (List.range FRAME_SYMS).map fun i => QPSK_SYMBOLS (Framer.dataBits input i)

theorem dataBits_bit (input : Nat → UInt8) (i : Nat) {j : Nat} (hj : j < 2) :
    (Framer.dataBits input i).getLsbD (1 - j) = bufferBit input (2 * i + j) := by
  have hshift : i >>> 2 = i / 4 := Nat.shiftRight_eq_div_pow i 2
  have hmask : i &&& 0b11 = i % 4 := Nat.and_two_pow_sub_one_eq_mod i 2
  rw [Framer.dataBits, hshift, hmask, BitVec.getLsbD_setWidth, BitVec.getLsbD_ushiftRight,
    decide_eq_true (show 1 - j < 2 by omega), Bool.true_and, bufferBit,
    show (2 * i + j) / 8 = i / 4 by omega,
    show 7 - (2 * i + j) % 8 = 6 - 2 * (i % 4) + (1 - j) by omega]
  rfl

/-- The samples of a block spell the bits of its bytes. -/
theorem component_dataSyms (input : Nat → UInt8) {k : Nat} (hk : k < FRAME_SYMS * 2) :
    component (fun i => (dataSyms input : List (ComplexT F)).getD i ⟨0, 0⟩) k =
      coordinate (bufferBit input k) := by
  have hget : (dataSyms input : List (ComplexT F)).getD (k / 2) ⟨0, 0⟩ =
      QPSK_SYMBOLS (Framer.dataBits input (k / 2)) := by
    rw [dataSyms, List.getD_eq_getElem?_getD, List.getElem?_map,
      List.getElem?_range (show k / 2 < FRAME_SYMS by omega), Option.map_some, Option.getD_some]
  have heven := dataBits_bit input (k / 2) (j := 0) (by omega)
  have hodd := dataBits_bit input (k / 2) (j := 1) (by omega)
  rw [component, hget, symbol_eq]
  split
  next hk => rw [heven, show 2 * (k / 2) + 0 = k by omega]
  next hk => rw [hodd, show 2 * (k / 2) + 1 = k by omega]

variable (h : ExactSamples F)

include h

theorem neg_coordinate (bit : Bool) : -coordinate bit = (coordinate (!bit) : F) := by
  cases bit with
  | false => exact h.neg_neg
  | true => rfl

theorem isPos_coordinate (bit : Bool) : SampleType.isPos (coordinate bit : F) = bit := by
  cases bit with
  | false => exact h.isPos_neg
  | true => exact h.isPos_amplitude

theorem quantize_coordinate (bit : Bool) :
    quantize (coordinate bit : F) = if bit then 136 else 119 := by
  cases bit with
  | false => exact h.quantize_neg
  | true => exact h.quantize_amplitude

theorem hardSym_symbol (bits : BitVec 2) :
    Deframer.hardSym (QPSK_SYMBOLS bits : ComplexT F) = bits := by
  rw [symbol_eq, Deframer.hardSym, isPos_coordinate h, isPos_coordinate h]
  rcases bitVec_cases bits with rfl | rfl | rfl | rfl <;> rfl

/-- The channel turns symbols into symbols. -/
theorem rotateBy_symbol {k : Nat} (hk : k < 4) (bits : BitVec 2) :
    rotateBy k (QPSK_SYMBOLS bits : ComplexT F) = QPSK_SYMBOLS (rotateSym^[k] bits) := by
  rw [symbol_eq, symbol_eq]
  obtain rfl | rfl | rfl | rfl : k = 0 ∨ k = 1 ∨ k = 2 ∨ k = 3 := by omega
  all_goals
    simp only [rotateBy, neg_coordinate h]
    rcases bitVec_cases bits with rfl | rfl | rfl | rfl <;> rfl

/-- The deframer turns a symbol back. -/
theorem symbol_back {k : Nat} (hk : k < 4) (bits : BitVec 2) :
    rotateBy k (QPSK_SYMBOLS bits : ComplexT F) * symRots k = QPSK_SYMBOLS bits := by
  rw [rotateBy_symbol h hk, h.rotate k hk, rotateBy_symbol h (Nat.mod_lt _ (by omega)),
    rotateSym_back k hk]

/-! ## Frames of the channel -/

theorem hardSyms_sync {k : Nat} (hk : k < 4) :
    Deframer.hardSyms ((Framer.syncSyms : List (ComplexT F)).map (rotateBy k)) =
      wordSyms (syncRots k) := by
  rw [← wordSyms_rotated k hk, Deframer.hardSyms, Framer.syncSyms, List.map_map, List.map_map]
  refine List.map_congr_left fun bits _ => ?_
  rw [Function.comp_apply, Function.comp_apply, rotateBy_symbol h hk, hardSym_symbol h]

/-- A frame of the framer as the channel delivers it. -/
def idealFrame {k : Nat} (hk : k < 4) (input : Nat → UInt8) : NoisyFrame F k where
  sync := (Framer.syncSyms : List (ComplexT F)).map (rotateBy k)
  payload := ((List.range FRAME_SYMS).map fun i =>
    (QPSK_SYMBOLS (Framer.dataBits input i) : ComplexT F)).map (rotateBy k)
  sync_length := by
    rw [List.length_map, Framer.syncSyms, List.length_map, wordSyms, List.length_map,
      List.length_range]
  payload_length := by rw [List.length_map, List.length_map, List.length_range]
  sync_close := by
    have hsync := hardSyms_sync h hk
    rw [Deframer.hardSyms] at hsync
    rw [hsync, shiftAll_wordSyms k hk, Deframer.distance_eq, hamming_self]
    exact Nat.zero_le 5

theorem idealFrame_symbols {k : Nat} (hk : k < 4) (input : Nat → UInt8) :
    (idealFrame h hk input).symbols =
      (Framer.encode input (2 * FRAME_SYMS) : List (ComplexT F)).map (rotateBy k) := by
  rw [NoisyFrame.symbols, Framer.encode, List.map_append,
    Nat.mul_div_cancel_left FRAME_SYMS (show 0 < 2 by omega), idealFrame]

/-- The symbols of the framer come out of the deframer. -/
theorem idealFrame_block {k : Nat} (hk : k < 4) (input : Nat → UInt8) :
    (idealFrame h hk input).block =
      (List.range FRAME_SYMS).map fun i => QPSK_SYMBOLS (Framer.dataBits input i) := by
  rw [NoisyFrame.block, idealFrame, List.map_map, List.map_map]
  exact List.map_congr_left fun i _ => symbol_back h hk _

namespace Deframer

variable {d : Deframer F} {k : Nat} (hk : k < 4)

include hk

/-- Whether a register locks early before a sync word that the channel delivers. -/
theorem premature_sync_iff {register : BitVec 64} :
    Premature register ((Framer.syncSyms : List (ComplexT F)).map (rotateBy k)) ↔
      ∃ j, j < 32 ∧ 1 ≤ j ∧ Match (shiftAll register ((wordSyms (syncRots k)).take j)) := by
  have hlen : ((Framer.syncSyms : List (ComplexT F)).map (rotateBy k)).length = 32 :=
    (idealFrame h hk fun _ => 0).sync_length
  have hhard : ∀ j, hardSyms (((Framer.syncSyms : List (ComplexT F)).map (rotateBy k)).take j) =
      (wordSyms (syncRots k)).take j := by
    intro j
    rw [hardSyms, List.map_take, ← hardSyms, hardSyms_sync h hk]
  simp only [Premature, hhard, hlen]
  constructor
  · rintro ⟨j, hj, hlt, -, hmatch⟩
    exact ⟨j, hlt, hj, hmatch⟩
  · rintro ⟨j, hlt, hj, hmatch⟩
    exact ⟨j, hj, hlt, hlt.le, hmatch⟩

theorem not_premature_zero :
    ¬ Premature 0 ((Framer.syncSyms : List (ComplexT F)).map (rotateBy k)) := by
  rw [premature_sync_iff h hk]
  rintro ⟨j, hlt, hj, hmatch⟩
  exact zero_far k hk j hlt hj hmatch

/-- The first sync word locks, and no window before it. -/
theorem run_first_sync (hrecv : d.recv = 0)
    (hshift : ¬ Premature d.shift ((Framer.syncSyms : List (ComplexT F)).map (rotateBy k)))
    (input : Nat → UInt8) :
    (d.run (idealFrame h hk input).sync).2 = [] ∧
      Reading (idealFrame h hk input) 0 (d.run (idealFrame h hk input).sync).1 := by
  have hlen : (idealFrame h hk input).sync.length = 32 := (idealFrame h hk input).sync_length
  have hhard : hardSyms (idealFrame h hk input).sync = wordSyms (syncRots k) := hardSyms_sync h hk
  obtain ⟨sym, hsym, htake⟩ :=
    take_succ_of_lt (l := (idealFrame h hk input).sync) (k := 31) (by omega)
  rw [List.take_of_length_le (by omega)] at htake
  have hsearch : d.run ((idealFrame h hk input).sync.take 31) =
      ({ d with shift := shiftAll d.shift (hardSyms ((idealFrame h hk input).sync.take 31)) },
        []) := by
    refine run_search hrecv fun j hj hle => ?_
    rw [List.length_take, hlen] at hle
    rw [List.take_take, Nat.min_eq_left (by omega)]
    have hshort : j ≤ (idealFrame h hk input).sync.length := by omega
    exact fun hmatch => hshift ⟨j, hj, by omega, hshort, hmatch⟩
  have hfull : shiftIn (shiftAll d.shift (hardSyms ((idealFrame h hk input).sync.take 31)))
      (hardSym sym) = syncRots k := by
    have hall := shiftAll_wordSyms k hk d.shift
    rw [← hhard, htake, hardSyms, List.map_append, shiftAll_append] at hall
    exact hall
  have hclose : distance (syncRots k) (syncRots k) ≤ 5 := by
    rw [distance_eq, hamming_self]
    exact Nat.zero_le 5
  have hstep := step_of_close hk
    (d := { d with shift := shiftAll d.shift (hardSyms ((idealFrame h hk input).sync.take 31)) })
    hrecv (by rw [hfull]; exact Nat.lt_succ_of_le hclose)
  rw [hfull] at hstep
  rw [htake, run_snoc, hsearch, hstep]
  exact ⟨rfl, rfl, by simp [lock, FRAME_SYMS], rfl, rfl, hclose, rfl⟩

/-- From a register that does not lock early every frame of the channel is received. -/
theorem run_ideal (hrecv : d.recv = 0)
    (hshift : ¬ Premature d.shift ((Framer.syncSyms : List (ComplexT F)).map (rotateBy k)))
    (inputs : List (Nat → UInt8)) :
    (d.run (inputs.flatMap fun input => (idealFrame h hk input).symbols)).2 =
      inputs.map fun input => (idealFrame h hk input).block := by
  cases inputs with
  | nil => rfl
  | cons input inputs =>
    obtain ⟨hnone, hreading⟩ := run_first_sync h hk hrecv hshift input
    obtain ⟨hblock, haligned⟩ := run_payload hreading
    have hlen : ((inputs.map (idealFrame h hk)).flatMap NoisyFrame.symbols).length =
        inputs.length * 8200 := by
      rw [List.length_flatMap, List.map_map]
      exact (List.sum_eq_card_nsmul _ 8200 (by simp [NoisyFrame.symbols_length])).trans (by simp)
    have hrest := run_stream hk haligned (inputs.map (idealFrame h hk)) (List.prefix_refl _)
    rw [hlen, Nat.mul_div_cancel _ (by omega), List.take_of_length_le (by simp),
      List.flatMap_map, List.map_map] at hrest
    simp only [Function.comp_def] at hrest
    rw [List.flatMap_cons, NoisyFrame.symbols, List.append_assoc, run_append, hnone, run_append,
      hblock, hrest, List.nil_append, List.singleton_append, List.map_cons]

end Deframer

/-! ## Soft values -/

/-- Soft values of a block that the channel delivers. -/
theorem confident_dataSyms {enc : Convolutional}
    (henc : Convolutional.Configured 2 7 r12_7_polynomial enc) (d : ConvDecoder)
    (msg out : Nat → UInt8) :
    Confident (d.fillSoft
      (fun i => (dataSyms (enc.encode msg 1020 out).1 : List (ComplexT F)).getD i ⟨0, 0⟩)
      (FRAME_SYMS * 2)) msg 1020 := by
  intro k hk
  have hlt : k < FRAME_SYMS * 2 := hk
  rw [ConvDecoder.fillSoft_apply d _ hlt, component_dataSyms _ hlt, quantize_coordinate h,
    Convolutional.encode_bit henc hk]
  cases Convolutional.sentBit msg 1020 k with
  | false => decide
  | true => decide

/-! ## Frames through both decoders -/

/-- The decoders get a frame out of the encoded bytes. -/
def Carries (F : Type) [SampleType F] (encoded : Nat → UInt8) (frame : List UInt8) : Prop :=
  ∀ d, FecDecoder.Proper d → ∀ neon memory,
    ∃ d', d.step neon (dataSyms encoded : List (ComplexT F)) memory = some (d', some frame)

/-- The convolutional decoder returns the bytes that were encoded. -/
theorem conv_returns {d : FecDecoder} (hd : FecDecoder.Proper d) {enc : Convolutional}
    (henc : Convolutional.Configured 2 7 r12_7_polynomial enc) (msg out : Nat → UInt8)
    (neon : Bool) (memory : Nat → UInt8) :
    ∃ conv' : ConvDecoder, (∀ j, j < 1020 → conv'.writeBuf j = msg j) ∧
      d.conv.decode neon (fun i => (dataSyms (enc.encode msg 1020 out).1 : List (ComplexT F)).getD
        i ⟨0, 0⟩) FRAME_SYMS = some (conv', 1020) ∧
      d.step neon (dataSyms (enc.encode msg 1020 out).1 : List (ComplexT F)) memory =
        (d.rs.run conv'.writeBuf (RS_BLOCK_COUNT * RS_BLOCK_ENC_SIZE) memory).map fun r =>
          (⟨{ conv' with writeBuf := conv'.readBuf, readBuf := scramble conv'.writeBuf }, r.1⟩,
            r.2) := by
  have hconfident := confident_dataSyms h henc d.conv msg out
  generalize (enc.encode msg 1020 out).1 = encoded at hconfident ⊢
  have hlen : (dataSyms encoded : List (ComplexT F)).length = FRAME_SYMS := by
    rw [dataSyms, List.length_map, List.length_range]
  obtain ⟨conv', hdecode, hwrite, hholds, hstep⟩ := FecDecoder.step_block hd neon hlen memory
  rw [hlen] at hdecode
  refine ⟨conv', fun j hj => ?_, hdecode, hstep⟩
  rw [hwrite]
  refine decodedBytes hholds ?_ (fun u hu => ?_) hj
  · rw [decodedBits, List.length_map, List.length_range]
  · rw [decodedBits, List.getElem?_map, List.getElem?_range (by omega), Option.map_some]
    exact congrArg some
      (decodedBit_confident hconfident (by omega) (show u < slicesOf 1020 - 6 by
        simp only [slicesOf]
        omega))

omit h in
/-- The Reed-Solomon decoder sends the frame that was encoded. -/
theorem rs_sends {e : RSEncoder} (he : e.Reachable) {d : RSDecoder} (hd : d.Reachable)
    {frame : List UInt8} (hframe : frame.length = 892) (out block memory : Nat → UInt8)
    {received : Nat → UInt8}
    (hreceived : ∀ j, j < 1020 → received j =
      scramble (e.afterBlocks (fun i => frame.getD i 0) out block RS_BLOCK_COUNT).out j) :
    ∃ d', d.run received (RS_BLOCK_COUNT * RS_BLOCK_ENC_SIZE) memory = some (d', some frame) := by
  have hencode := RSEncoder.encode_frame e (fun i => frame.getD i 0) out block
  generalize scramble (e.afterBlocks (fun i => frame.getD i 0) out block RS_BLOCK_COUNT).out = sent
    at hencode hreceived
  -- no byte differs from what was sent
  have hnone : ∀ i, i < RS_BLOCK_COUNT →
      (errorsIn (fun j => sent j ^^^ received j) i).card ≤ 16 := fun i _ => by
    have hempty : errorsIn (fun j => sent j ^^^ received j) i = ∅ :=
      Finset.filter_eq_empty_iff.mpr fun j hj hne => hne.2 (by
        simp only
        rw [hreceived j (Finset.mem_range.mp hj), UInt8.xor_self])
    rw [hempty, Finset.card_empty]
    exact Nat.zero_le 16
  obtain ⟨e', y, d', hy, hdecode, hbytes⟩ :=
    @repairs_of_few e d (fun i => frame.getD i 0) out block memory _ he hd hnone
  rw [hencode] at hy
  obtain ⟨-, hy⟩ := Prod.mk.inj (Option.some.inj hy)
  obtain ⟨rfl, -⟩ := Prod.mk.inj hy
  have hsame : (fun j => sent j ^^^ (sent j ^^^ received j)) = received := funext fun j => by
    rw [← UInt8.xor_assoc, UInt8.xor_self, UInt8.zero_xor]
  rw [hsame] at hdecode
  have hlist : (List.range (RS_BLOCK_COUNT * RS_BLOCK_DEC_SIZE)).map d'.writeBuf = frame := by
    refine List.ext_getElem (by rw [List.length_map, List.length_range, hframe]; rfl)
      fun i hi hi' => ?_
    rw [List.getElem_map, List.getElem_range, hbytes i (by simpa using hi)]
    exact List.getD_eq_getElem _ _ hi'
  have hrun : d.run received (RS_BLOCK_COUNT * RS_BLOCK_ENC_SIZE) memory =
      some ({ d' with writeBuf := d'.readBuf, readBuf := d'.writeBuf },
        some ((List.range (RS_BLOCK_COUNT * RS_BLOCK_DEC_SIZE)).map d'.writeBuf)) := by
    rw [RSDecoder.run, hdecode]
    exact if_neg (by decide)
  rw [hlist] at hrun
  exact ⟨_, hrun⟩

/-- What the transmitter makes of a frame carries it. -/
theorem send_step {e : FecEncoder} (he : e.Reachable F) {frame : List UInt8}
    (hframe : frame.length = 892) (memory : FecEncoder.Memory) :
    ∃ e' encoded, e.step frame memory =
        some (e', (Framer.encode encoded (2 * FRAME_SYMS) : List (ComplexT F))) ∧
      e'.Reachable F ∧ Carries F encoded frame := by
  obtain ⟨hrs, hconv⟩ := FecEncoder.proper_reachable he
  have hencode := RSEncoder.encode_frame e.rs (fun i => frame.getD i 0) memory.rsWrite memory.block
  have hsends := fun d (hd : RSDecoder.Reachable d) =>
    @rs_sends e.rs hrs d hd frame hframe memory.rsWrite memory.block
  generalize scramble (e.rs.afterBlocks (fun i => frame.getD i 0) memory.rsWrite memory.block
    RS_BLOCK_COUNT).out = sent at hencode hsends
  generalize RSEncoder.mk (e.rs.afterBlocks (fun i => frame.getD i 0) memory.rsWrite memory.block
    RS_BLOCK_COUNT).rs = rs' at hencode
  have hbits : (e.conv.encode sent memory.convWrite 1020).2 = 2 * FRAME_SYMS := by
    change e.conv.conv.rate * (8 * 1020 + (e.conv.conv.order + 1)) = 2 * FRAME_SYMS
    rw [hconv.rate_eq, hconv.order_eq]
    rfl
  have hstep : e.step frame memory = some ({ e with rs := rs' }, (Framer.encode
      (e.conv.encode sent memory.convWrite 1020).1 (2 * FRAME_SYMS) : List (ComplexT F))) := by
    rw [FecEncoder.step, hframe, show 892 = RS_BLOCK_COUNT * RS_BLOCK_DEC_SIZE from rfl, hencode,
      ← hbits]
    rfl
  refine ⟨_, _, hstep, .step he hstep, fun d hd neon mem => ?_⟩
  obtain ⟨conv', hreturned, -, hdecode⟩ := conv_returns h hd hconv sent memory.convWrite neon mem
  obtain ⟨d', hrun⟩ := hsends d.rs hd.rs mem hreturned
  rw [hrun] at hdecode
  exact ⟨_, hdecode⟩

theorem send_run {e : FecEncoder} (he : e.Reachable F)
    (frames : List (List UInt8 × FecEncoder.Memory)) (hframes : ∀ f ∈ frames, f.1.length = 892) :
    ∃ e' encoded, e.run frames = some (e', encoded.flatMap fun bytes =>
        (Framer.encode bytes (2 * FRAME_SYMS) : List (ComplexT F))) ∧
      List.Forall₂ (Carries F) encoded (frames.map Prod.fst) := by
  induction frames generalizing e with
  | nil => exact ⟨e, [], rfl, .nil⟩
  | cons f frames ih =>
    obtain ⟨frame, memory⟩ := f
    obtain ⟨e₁, bytes, hstep, he₁, hcarries⟩ :=
      send_step h he (hframes _ List.mem_cons_self) memory
    obtain ⟨e', encoded, hrun, hall⟩ := ih he₁ fun f hf => hframes f (List.mem_cons_of_mem _ hf)
    refine ⟨e', bytes :: encoded, ?_, .cons hcarries hall⟩
    simp only [FecEncoder.run, hstep, hrun, List.flatMap_cons]

omit h in
theorem receive_run {encoded : List (Nat → UInt8)} {frames : List (List UInt8)}
    (hcarries : List.Forall₂ (Carries F) encoded frames) {d : FecDecoder}
    (hd : FecDecoder.Proper d) (neon : Bool) {blocks : List (List (ComplexT F) × (Nat → UInt8))}
    (hblocks : blocks.map Prod.fst = encoded.map dataSyms) :
    ∃ d', d.run neon blocks = some (d', frames) := by
  induction hcarries generalizing d blocks with
  | nil =>
    rw [List.map_nil, List.map_eq_nil_iff] at hblocks
    exact ⟨d, by rw [hblocks]; rfl⟩
  | @cons bytes frame encoded frames hfirst _ ih =>
    obtain _ | ⟨⟨block, memory⟩, blocks⟩ := blocks
    · cases hblocks
    · rw [List.map_cons, List.map_cons, List.cons.injEq] at hblocks
      obtain ⟨hblock, hblocks⟩ := hblocks
      obtain ⟨d₁, hstep⟩ := hfirst d hd neon memory
      simp only at hblock
      rw [← hblock] at hstep
      obtain ⟨d', hrun⟩ := ih (FecDecoder.proper_step hd hstep) hblocks
      refine ⟨d', ?_⟩
      simp only [FecDecoder.run, hstep, hrun, Option.toList_some, List.singleton_append]

omit h in
/-- Over an ideal symbol channel the chain is the identity on frames: whatever the rotation,
    however the symbols are cut into buffers, and whatever the buffers held before. -/
theorem ideal_channel (hexact : ExactSamples F) {rot : Nat} (hrot : rot < 4) {e : FecEncoder}
    (he : e.Reachable F) {d : FecDecoder} (hd : d.Reachable F) (symRot : ComplexT F)
    (writeBuf readBuf : Nat → ComplexT F) (neon : Bool)
    (frames : List (List UInt8 × FecEncoder.Memory)) (hframes : ∀ f ∈ frames, f.1.length = 892) :
    ∃ e' symbols, e.run frames = some (e', symbols) ∧
      ∀ inputs : List (List (ComplexT F)), inputs.flatten = symbols.map (rotateBy rot) →
        ∀ blocks : List (List (ComplexT F) × (Nat → UInt8)),
          blocks.map Prod.fst =
            ((Deframer.init symRot 0 writeBuf readBuf).runBuffers inputs).2 →
          ∃ d', d.run neon blocks = some (d', frames.map Prod.fst) := by
  obtain ⟨e', encoded, hrun, hcarries⟩ := send_run hexact he frames hframes
  refine ⟨e', _, hrun, fun inputs hinputs blocks hblocks => ?_⟩
  refine receive_run hcarries (FecDecoder.proper_reachable hd) neon (hblocks.trans ?_)
  have hsymbols : inputs.flatten =
      encoded.flatMap fun bytes => (idealFrame hexact hrot bytes).symbols := by
    rw [hinputs, List.map_flatMap]
    simp only [idealFrame_symbols]
  have hdeframed := Deframer.run_ideal hexact hrot
    (d := Deframer.init symRot 0 writeBuf readBuf) rfl (Deframer.not_premature_zero hexact hrot)
    encoded
  rw [Deframer.runBuffers_eq, hsymbols, hdeframed]
  refine List.map_congr_left fun bytes _ => ?_
  rw [idealFrame_block, dataSyms]

end

/-- Exact arithmetic is exact at the constellation points. -/
theorem exactSamples_rat : ExactSamples Rat where
  neg_neg := neg_neg _
  isPos_amplitude := by decide +kernel
  isPos_neg := by decide +kernel
  rotate := by decide +kernel
  quantize_amplitude := by decide +kernel
  quantize_neg := by decide +kernel

/-- One frame, turned by 90 degrees. -/
theorem ideal_channel_frame :
    let e := FecEncoder.init default Convolutional.zeroed
    let d := FecDecoder.init Convolutional.zeroed default (fun _ => 0) (fun _ => 0) (fun _ => 0)
      (fun _ => 0) (fun _ => 0)
    ∃ e' symbols, e.run [(List.replicate 892 0x5A, ⟨fun _ => 0, fun _ => 0, fun _ => 0⟩)] =
        some (e', symbols) ∧
      ∀ inputs : List (List (ComplexT Rat)), inputs.flatten = symbols.map (rotateBy ROT_90_DEG) →
        ∀ blocks : List (List (ComplexT Rat) × (Nat → UInt8)),
          blocks.map Prod.fst = ((Deframer.init ⟨1, 0⟩ 0 (fun _ => ⟨0, 0⟩)
            fun _ => ⟨0, 0⟩).runBuffers inputs).2 →
          ∃ d', d.run false blocks = some (d', [List.replicate 892 0x5A]) :=
  ideal_channel exactSamples_rat (by decide) (.init _ _) (.init _ _ _ _ _ _ _) _ _ _ false _
    fun f hf => by
      obtain rfl := List.mem_singleton.mp hf
      exact List.length_replicate

end RyFi.Modem
