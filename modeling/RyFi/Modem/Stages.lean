import RyFi.Lib.BlockMachine
import RyFi.Modem.IdealChannel

/-! # The blocks of the modem

What `run` of each encoder and decoder does between `read`, `flush` and `swap`, as a machine,
and what one call makes of its block: `RsEncodes`, `ConvEncodes` and `Frames` relate a frame,
the bytes of its four code words, their bits and the symbols that are sent, and the decoders
go the other way.
-/

namespace RyFi.Modem

open CLoop BlockMachine RyFi.Conv RyFi.Rs

/-! ## The machines -/

/-- `RSEncoder::run`; the block of `encode` is uninitialized. -/
def RSEncoder.machine : Machine UInt8 UInt8 where
  State := RSEncoder
  Start e := ∃ raw, e = RSEncoder.init raw
  process count _ w w' outcome := ∃ block e' out' count',
    w.state.encode w.input w.output count block = some (e', out', count') ∧
      w' = ⟨e', w.input, out'⟩ ∧ outcome = .done (some count')

/-- `ConvEncoder::run`; it hands over as many bytes as there are bits. -/
def ConvEncoder.machine : Machine UInt8 UInt8 where
  State := ConvEncoder
  Start e := ∃ raw, e = ConvEncoder.init raw
  process count _ w w' outcome :=
    let r := w.state.encode w.input w.output count
    w' = ⟨w.state, w.input, r.1⟩ ∧ outcome = .done (some r.2)

section

variable (F : Type) [SampleType F]

/-- `Framer::run` -/
def Framer.machine : Machine UInt8 (ComplexT F) where
  State := Unit
  Start _ := True
  process count _ w w' outcome :=
    let symbols := Framer.encode w.input count
    w' = ⟨(), w.input, fun i => symbols.getD i (w.output i)⟩ ∧
      outcome = .done (some symbols.length)

variable {F}

/-- The loop of `Deframer::run` over `fuel` symbols from `next` on, as far as a block is
    complete: the deframer, and the sample to go on at and the size if it is. -/
def Deframer.scan (d : Deframer F) (input : Nat → ComplexT F) :
    (fuel next : Nat) → Deframer F × Option (Nat × Nat)
  | 0, _ => (d, none)
  | fuel + 1, next =>
    match d.step (input next) with
    | (d, some block) => (d, some (block.length, next + 1))
    | (d, none) => scan d input fuel (next + 1)

variable (F)

/-- `Deframer::run`.  `Deframer.step` exchanges the buffers when a block is complete, so that
    the block is then in its read buffer.  The constructor leaves the shift register as it is:
    `register` is what was there. -/
def Deframer.machine (register : BitVec 64) : Machine (ComplexT F) (ComplexT F) where
  State := Deframer F
  Start d := ∃ symRot writeBuf readBuf, d = Deframer.init symRot register writeBuf readBuf
  process count next w w' outcome :=
    let r := { w.state with writeBuf := w.output }.scan w.input (count - next) next
    match r.2 with
    | some (size, next') => w' = ⟨r.1, w.input, r.1.readBuf⟩ ∧ outcome = .emit size next'
    | none => w' = ⟨r.1, w.input, r.1.writeBuf⟩ ∧ outcome = .done none

/-- `ConvDecoder::run` -/
def ConvDecoder.machine (neon : Bool) : Machine (ComplexT F) UInt8 where
  State := ConvDecoder
  Start d := ∃ raw soft writeBuf readBuf, d = ConvDecoder.init raw soft writeBuf readBuf
  process count _ w w' outcome := ∃ (d' : ConvDecoder) (length : Int),
    { w.state with writeBuf := w.output }.decode neon w.input count = some (d', length) ∧
      0 ≤ length ∧ w' = ⟨d', w.input, d'.writeBuf⟩ ∧ outcome = .done (some length.toNat)

end

/-- `RSDecoder::run`, which descrambles its input in place; the block of `decode` is
    uninitialized.  It hands over nothing when a block of the frame cannot be decoded. -/
def RSDecoder.machine : Machine UInt8 UInt8 where
  State := ReedSolomon
  Start rs := ∃ raw, rs = createRs raw
  process count _ w w' outcome := ∃ block d' count',
    (RSDecoder.mk w.state w.output w.output).decode w.input count block = some (d', count') ∧
      w' = ⟨d'.rs, scramble w.input, d'.writeBuf⟩ ∧
      outcome = .done (if count' = 0 then none else some count')

/-! ## What a block carries -/

/-- The bytes are the scrambled and interleaved code words of the frame. -/
def RsEncodes (frame bytes : List UInt8) : Prop :=
  frame.length = 892 ∧ bytes.length = 1020 ∧ ∃ words : Nat → Nat → UInt8,
    (∀ i, i < 4 → Codeword (words i)) ∧
    (∀ i k, i < 4 → k < 255 → scramble (fun j => bytes.getD j 0) (i + 4 * k) = words i k) ∧
    ∀ i j, i < 4 → j < 223 → frame.getD (i * 223 + j) 0 = words i j

/-- The bits are those the encoder makes of the bytes; what else the block holds is left
    over. -/
def ConvEncodes (bytes bits : List UInt8) : Prop :=
  bytes.length = 1020 ∧ bits.length = 2 * FRAME_SYMS ∧ ∃ enc msg out,
    Convolutional.Configured 2 7 r12_7_polynomial enc ∧
    (∀ j, j < 1020 → bytes.getD j 0 = msg j) ∧
    ∀ j, j < 2042 → bits.getD j 0 = (enc.encode msg 1020 out).1 j

theorem getD_block {T : Type} (buf : Nat → T) {size j : Nat} (h : j < size) (a : T) :
    (block buf size).getD j a = buf j := by
  rw [List.getD_eq_getElem?_getD, block_getElem? buf h, Option.getD_some]

theorem block_eq {T : Type} {buf : Nat → T} {l : List T} {size : Nat} (hsize : l.length = size)
    (a : T) (h : ∀ i, i < size → buf i = l.getD i a) : block buf size = l := by
  refine List.ext_getElem ((block_length _ _).trans hsize.symm) fun i hi hi' => ?_
  have hget := block_getElem? buf (hsize ▸ hi')
  rw [List.getElem?_eq_getElem hi, Option.some.injEq] at hget
  rw [hget, h i (hsize ▸ hi'), List.getD_eq_getElem _ _ hi']

/-- A frame is known by its bytes. -/
theorem RsEncodes.frame_eq {frame frame' bytes : List UInt8} (h : RsEncodes frame bytes)
    (h' : RsEncodes frame' bytes) : frame = frame' := by
  obtain ⟨hlen, -, words, -, hwords, hframe⟩ := h
  obtain ⟨hlen', -, words', -, hwords', hframe'⟩ := h'
  refine List.ext_getElem (hlen.trans hlen'.symm) fun i hi hi' => ?_
  have hsplit : i = i / 223 * 223 + i % 223 := by omega
  have hbyte := hframe (i / 223) (i % 223) (by omega) (by omega)
  have hbyte' := hframe' (i / 223) (i % 223) (by omega) (by omega)
  rw [← hsplit, List.getD_eq_getElem _ _ hi] at hbyte
  rw [← hsplit, List.getD_eq_getElem _ _ hi'] at hbyte'
  rw [hbyte, hbyte', ← hwords _ _ (by omega) (by omega), hwords' _ _ (by omega) (by omega)]

/-! ## The encoders -/

theorem scramble_scramble (bytes : Nat → UInt8) {j : Nat} (hj : j < 1020) :
    scramble (scramble bytes) j = bytes j := by
  rw [scramble_apply _ hj, scramble_apply _ hj, UInt8.xor_assoc, UInt8.xor_self, UInt8.xor_zero]

theorem scramble_congr {bytes bytes' : Nat → UInt8} {j : Nat} (hj : j < 1020)
    (h : bytes j = bytes' j) : scramble bytes j = scramble bytes' j := by
  rw [scramble_apply _ hj, scramble_apply _ hj, h]

theorem RsEncodes.of_buffers {frame bytes : Nat → UInt8} (words : Nat → Nat → UInt8)
    (hwords : ∀ i, i < 4 → Codeword (words i))
    (hbytes : ∀ i k, i < 4 → k < 255 → scramble bytes (i + 4 * k) = words i k)
    (hframe : ∀ i j, i < 4 → j < 223 → frame (i * 223 + j) = words i j) :
    RsEncodes (block frame 892) (block bytes 1020) := by
  refine ⟨block_length _ _, block_length _ _, words, hwords, fun i k hi hk => ?_,
    fun i j hi hj => ?_⟩
  · have hlt : i + 4 * k < 1020 := by omega
    have hbyte : (block bytes 1020).getD (i + 4 * k) 0 = bytes (i + 4 * k) := getD_block bytes hlt 0
    rw [← hbytes i k hi hk]
    exact scramble_congr hlt hbyte
  · rw [← hframe i j hi hj]
    exact getD_block frame (by omega) 0

theorem RSEncoder.rsEncodes {e : RSEncoder} (he : e.Reachable) (buf output memory : Nat → UInt8) :
    RsEncodes (block buf 892)
      (block (scramble (e.afterBlocks buf output memory RS_BLOCK_COUNT).out) 1020) := by
  refine .of_buffers (e.word buf output memory) (fun i _ => ?_) (fun i k hi hk => ?_)
    fun i j hi hj => ?_
  · exact codeword_word (reachable_rs he) _ _ _ i
  · rw [scramble_scramble _ (by omega)]
    exact afterBlocks_out e buf output memory (Nat.le_refl 4) hi hk
  · exact (word_message (reachable_rs he) _ _ _ i hj).symm

theorem RSEncoder.oneForOne :
    RSEncoder.machine.OneForOne RSEncoder.Reachable (fun _ => True) RsEncodes where
  start := fun ⟨raw, hraw⟩ => hraw ▸ .init raw
  call := by
    rintro count next e buf output work outcome he - ⟨memory, e', out', count', hcall, hwork, rfl⟩
    obtain ⟨hcount, -, hout, hsize⟩ := encode_eq_some hcall
    have hencodes := rsEncodes he buf output memory
    rw [hwork]
    refine ⟨.encode he hcall, count', rfl, ?_⟩
    rw [hcount, hsize, hout, show RS_BLOCK_COUNT * RS_BLOCK_DEC_SIZE = 892 from rfl,
      show RS_BLOCK_COUNT * RS_BLOCK_ENC_SIZE = 1020 from rfl]
    dsimp only
    exact hencodes

/-- The assert of `encode` holds on a frame. -/
theorem RSEncoder.returning :
    RSEncoder.machine.Returning RSEncoder.Reachable (fun frame => frame.length = 892) := by
  intro count next e buf output _ hlen
  rw [block_length] at hlen
  have hencode := encode_frame e buf output fun _ => 0
  rw [show RS_BLOCK_COUNT * RS_BLOCK_DEC_SIZE = count from hlen.symm] at hencode
  exact ⟨_, _, _, _, _, _, hencode, rfl, rfl⟩

/-- What both constructors create stays as it is. -/
def ConvEncoder.Proper (e : ConvEncoder) : Prop :=
  Convolutional.Configured 2 7 r12_7_polynomial e.conv

theorem ConvEncoder.oneForOne :
    ConvEncoder.machine.OneForOne ConvEncoder.Proper (fun bytes => bytes.length = 1020)
      ConvEncodes where
  start := fun ⟨raw, hraw⟩ => hraw ▸ Convolutional.configured_create (create_createConv raw)
  call := by
    rintro count next e buf output work outcome he hlen ⟨rfl, rfl⟩
    rw [block_length] at hlen
    subst hlen
    have hbits : (e.encode buf output 1020).2 = 2 * FRAME_SYMS := by
      change e.conv.rate * (8 * 1020 + (e.conv.order + 1)) = 2 * FRAME_SYMS
      rw [he.rate_eq, he.order_eq]
      rfl
    refine ⟨he, _, rfl, block_length _ _, (block_length _ _).trans hbits, e.conv, buf, output, he,
      fun j hj => getD_block buf hj 0, fun j hj => ?_⟩
    exact getD_block _ (by rw [hbits, FRAME_SYMS]; omega) 0

/-! ## Symbols -/

section

variable {F : Type} [SampleType F]

theorem dataSyms_congr {input input' : Nat → UInt8} (h : ∀ j, j < 2042 → input j = input' j) :
    (dataSyms input : List (ComplexT F)) = dataSyms input' := by
  refine List.map_congr_left fun i hi => ?_
  have hlt : i < FRAME_SYMS := List.mem_range.mp hi
  have hshift : i >>> 2 = i / 4 := Nat.shiftRight_eq_div_pow i 2
  rw [Framer.dataBits, Framer.dataBits, h _ (by rw [hshift]; simp only [FRAME_SYMS] at hlt; omega)]

/-- The symbols of the bits a block holds. -/
def bitSyms (bits : List UInt8) : List (ComplexT F) := dataSyms fun j => bits.getD j 0

theorem bitSyms_length (bits : List UInt8) : (bitSyms bits : List (ComplexT F)).length = 8168 := by
  rw [bitSyms, dataSyms, List.length_map, List.length_range, FRAME_SYMS]

theorem encode_bitSyms {input : Nat → UInt8} {count : Nat} (h : count = 2 * FRAME_SYMS) :
    (Framer.encode input count : List (ComplexT F)) =
      Framer.syncSyms ++ bitSyms (block input count) := by
  have hhalf : count / 2 = FRAME_SYMS := by
    rw [h]
    exact Nat.mul_div_cancel_left FRAME_SYMS (by omega)
  have hlarge : 2042 ≤ count := by
    rw [h, FRAME_SYMS]
    omega
  rw [Framer.encode, hhalf]
  have hdata : (dataSyms input : List (ComplexT F)) = bitSyms (block input count) :=
    dataSyms_congr fun j hj => (getD_block input (Nat.lt_of_lt_of_le hj hlarge) 0).symm
  rw [← hdata]
  rfl

/-- The framer sends the sync word and the bits. -/
theorem Framer.oneForOne :
    (Framer.machine F).OneForOne (fun _ => True) (fun bits => bits.length = 2 * FRAME_SYMS)
      (fun bits symbols => symbols = Framer.syncSyms ++ bitSyms bits) where
  start := fun _ => trivial
  call := by
    rintro count next e buf output work outcome - hlen ⟨rfl, rfl⟩
    rw [block_length] at hlen
    exact ⟨trivial, _, rfl, (block_getD _ output).trans (encode_bitSyms hlen)⟩

/-! ## The decoders -/

namespace ConvDecoder

variable {d d' : ConvDecoder} {neon : Bool} {input input' : Nat → ComplexT F} {count : Nat}

theorem decode_congr (h : ∀ i, i < count → input i = input' i) :
    d.decode neon input count = d.decode neon input' count := by
  have hsoft : d.fillSoft input (count * 2) = d.fillSoft input' (count * 2) := by
    refine forLoop_congr fun i s _ hi => ?_
    have hsame : input (i / 2) = input' (i / 2) := h _ (by omega)
    rw [component, component, hsame]
  simp only [decode, hsoft]

theorem used_decode {length : Int} (h : Convolutional.Used 2 7 r12_7_polynomial d.conv)
    (hdecode : d.decode neon input count = some (d', length)) :
    Convolutional.Used 2 7 r12_7_polynomial d'.conv := by
  simp only [decode] at hdecode
  split at hdecode
  next hdone =>
    obtain ⟨rfl, -⟩ := Prod.mk.inj (Option.some.inj hdecode)
    exact .decodeSoft h hdone
  next =>
    obtain ⟨rfl, -⟩ := Prod.mk.inj (Option.some.inj hdecode)
    exact h
  next => cases hdecode

/-- Out of the symbols of encoded bytes come the bytes. -/
theorem decode_bitSyms (hexact : ExactSamples F)
    (hd : Convolutional.Used 2 7 r12_7_polynomial d.conv) {bytes bits : List UInt8}
    (h : ConvEncodes bytes bits) (hsymbols : block input count = bitSyms bits) :
    ∃ d', d.decode neon input count = some (d', 1020) ∧ block d'.writeBuf 1020 = bytes := by
  obtain ⟨hbytes, -, enc, msg, out, henc, hmsg, hcode⟩ := h
  have hcount : count = FRAME_SYMS := by
    rw [← block_length input count, hsymbols, bitSyms_length, FRAME_SYMS]
  have hdata : (bitSyms bits : List (ComplexT F)) = dataSyms (enc.encode msg 1020 out).1 :=
    dataSyms_congr hcode
  have hproper : FecDecoder.Proper ⟨d, RSDecoder.init default (fun _ => 0) (fun _ => 0)⟩ :=
    ⟨hd, .init _ _ _⟩
  obtain ⟨d', hreturned, hdecode, -⟩ :=
    conv_returns hexact hproper henc msg out neon fun _ => 0
  refine ⟨d', ?_, block_eq hbytes 0 fun i hi => (hreturned i hi).trans (hmsg i hi).symm⟩
  rw [← hdecode, ← hcount, ← hdata, ← hsymbols]
  exact decode_congr fun i hi => (getD_block input hi _).symm

theorem oneForOne (hexact : ExactSamples F) (neon : Bool) :
    (ConvDecoder.machine F neon).OneForOne
      (fun d => Convolutional.Used 2 7 r12_7_polynomial d.conv)
      (fun symbols => ∃ bytes bits, ConvEncodes bytes bits ∧ symbols = bitSyms bits)
      (fun symbols bytes => ∃ bits, ConvEncodes bytes bits ∧ symbols = bitSyms bits) where
  start := fun ⟨raw, soft, writeBuf, readBuf, hd⟩ => hd ▸ .create (create_createConv raw)
  call := by
    rintro count next d buf output work outcome hd ⟨bytes, bits, hencodes, hsymbols⟩
      ⟨d', length, hdecode, -, rfl, rfl⟩
    obtain ⟨d'', hdecode', hbytes⟩ := decode_bitSyms (d := { d with writeBuf := output })
      hexact hd hencodes hsymbols
    rw [hdecode] at hdecode'
    obtain ⟨rfl, rfl⟩ := Prod.mk.inj (Option.some.inj hdecode')
    refine ⟨used_decode (by exact hd) hdecode, 1020, rfl, bits, ?_, hsymbols⟩
    rw [hbytes]
    exact hencodes

theorem returning (hexact : ExactSamples F) (neon : Bool) :
    (ConvDecoder.machine F neon).Returning
      (fun d => Convolutional.Used 2 7 r12_7_polynomial d.conv)
      (fun symbols => ∃ bytes bits, ConvEncodes bytes bits ∧ symbols = bitSyms bits) := by
  rintro count next d buf output hd ⟨bytes, bits, hbits, hsyms⟩
  obtain ⟨d', hdecode, -⟩ :=
    @decode_bitSyms F _ { d with writeBuf := output } neon _ _ hexact hd _ _ hbits hsyms
  exact ⟨_, _, d', 1020, hdecode, by decide, rfl, rfl⟩

end ConvDecoder

end

namespace RSDecoder

/-- Code words are decoded to their messages. -/
theorem decode_words {d d' : RSDecoder} (hd : ReedSolomon.Reachable d.rs)
    {input memory : Nat → UInt8} {count count' : Nat} {words : Nat → Nat → UInt8}
    (hcode : ∀ i, i < 4 → Codeword (words i))
    (hwords : ∀ i k, i < 4 → k < 255 → scramble input (i + 4 * k) = words i k)
    (hdecode : d.decode input count memory = some (d', count')) :
    count' = 892 ∧ ∀ i j, i < 4 → j < 223 → d'.writeBuf (i * 223 + j) = words i j := by
  obtain ⟨-, hd', hcount'⟩ := decode_eq_some hdecode
  have hempty : ∀ i, i < 4 →
      (errorSet (fun k => scramble input (i + 4 * k)) (words i)).card ≤ 16 := fun i hi => by
    have hnone : errorSet (fun k => scramble input (i + 4 * k)) (words i) = ∅ :=
      Finset.filter_eq_empty_iff.mpr fun k hk hne => hne (hwords i k hi (Finset.mem_range.mp hk))
    rw [hnone, Finset.card_empty]
    exact Nat.zero_le 16
  obtain ⟨hfailed, hout⟩ := @decodes_blocks d input memory hd words hcode hempty RS_BLOCK_COUNT
    (Nat.le_refl RS_BLOCK_COUNT)
  rw [hfailed] at hcount'
  exact ⟨hcount', fun i j hi hj => by rw [hd']; exact hout i j hi hj⟩

theorem reachable_decode {d d' : RSDecoder} (hd : ReedSolomon.Reachable d.rs)
    {input memory : Nat → UInt8} {count count' : Nat}
    (hdecode : d.decode input count memory = some (d', count')) :
    ReedSolomon.Reachable d'.rs := by
  obtain ⟨-, hd', -⟩ := decode_eq_some hdecode
  rw [hd']
  exact afterBlocks_rs hd input memory RS_BLOCK_COUNT

/-- Out of the code words of a frame comes the frame. -/
theorem oneForOne :
    RSDecoder.machine.OneForOne ReedSolomon.Reachable (fun bytes => ∃ frame, RsEncodes frame bytes)
      (fun bytes frame => RsEncodes frame bytes) where
  start := fun ⟨raw, hraw⟩ => hraw ▸ .create raw
  call := by
    rintro count next rs buf output work outcome hrs ⟨frame, -, hlen, words, hcode, hwords, -⟩
      ⟨memory, d', count', hdecode, hwork, houtcome⟩
    have hwords' : ∀ i k, i < 4 → k < 255 → scramble buf (i + 4 * k) = words i k :=
      fun i k hi hk => by
        rw [block_length] at hlen
        have hlt : i + 4 * k < 1020 := by omega
        rw [← hwords i k hi hk]
        exact scramble_congr hlt (getD_block buf (by rw [hlen]; exact hlt) 0).symm
    obtain ⟨hcount, hframe⟩ := decode_words (by exact hrs) hcode hwords' hdecode
    rw [hcount, if_neg (by omega)] at houtcome
    rw [hwork]
    refine ⟨reachable_decode (by exact hrs) hdecode, 892, houtcome, ?_⟩
    rw [block_length] at hlen
    rw [hlen]
    exact .of_buffers words hcode hwords' hframe

theorem returning :
    RSDecoder.machine.Returning ReedSolomon.Reachable
      (fun bytes => ∃ frame, RsEncodes frame bytes) := by
  rintro count next rs buf output - ⟨frame, -, hlen, -⟩
  rw [block_length] at hlen
  have hdecode := decode_frame ⟨rs, output, output⟩ buf fun _ => 0
  rw [show RS_BLOCK_COUNT * RS_BLOCK_ENC_SIZE = count from hlen.symm] at hdecode
  exact ⟨_, _, _, _, _, hdecode, rfl, rfl⟩

end RSDecoder

end RyFi.Modem
