import RyFi.Dsp.Feeding
import RyFi.Modem.DeframerRun
import Mathlib.Data.List.Infix

/-! # The threads of the modem

The blocks that `Transmitter::init` and `Receiver::init` connect, each on its own thread: the
encoders and the framer behind the transmitter's worker, the deframer and the decoders in
front of the receiver's.  The resampler and the demodulator, which work on the waveform, stand
outside: they take the symbols from the framer and give them to the deframer.

In any interleaving of the threads the blocks of symbols are those of the frames in order, but
for one frame for each time a block is stopped (`sends_frames`), and over an ideal symbol
channel the frames come out as they went in, all of them when no thread can go on
(`receives_frames`).
-/

namespace RyFi.Modem

open BlockMachine ProcessChain RyFi.Conv RyFi.Rs RyFi.Dsp

/-! ## The pipelines -/

/-- No thread. -/
def absent (I O : Type) : Machine I O := ⟨Unit, fun _ => True, fun _ _ _ _ _ => False⟩

section

variable (F : Type) [SampleType F]

namespace Transmitter

/-- What `in`, `rs.out`, `conv.out` and `framer.out` carry. -/
def Sample : Nat → Type
  | 0 | 1 | 2 => UInt8
  | _ + 3 => ComplexT F

def blocks : ∀ i, Machine (Sample F i) (Sample F (i + 1))
  | 0 => RSEncoder.machine
  | 1 => ConvEncoder.machine
  | 2 => Framer.machine F
  | _ + 3 => absent _ _

/-- `rs`, `conv` and `framer`. -/
abbrev threads : Chain 3 := pipeline 3 (blocks F)

instance : ∀ i, Nonempty (Sample F i)
  | 0 | 1 | 2 => ⟨(0 : UInt8)⟩
  | _ + 3 => ⟨(⟨0, 0⟩ : ComplexT F)⟩

theorem exists_start : ∃ start : (threads F).State, Initial start :=
  exists_initial fun i => match i with
    | 0 => ⟨_, default, rfl⟩
    | 1 => ⟨_, Convolutional.zeroed, rfl⟩
    | 2 => ⟨(), trivial⟩
    | _ + 3 => ⟨(), trivial⟩

end Transmitter

namespace Receiver

/-- What `doubler.outB`, `deframer.out`, `conv.out` and `rs.out` carry. -/
def Sample : Nat → Type
  | 0 | 1 => ComplexT F
  | _ + 2 => UInt8

def blocks (neon : Bool) (register : BitVec 64) : ∀ i, Machine (Sample F i) (Sample F (i + 1))
  | 0 => Deframer.machine F register
  | 1 => ConvDecoder.machine F neon
  | 2 => RSDecoder.machine
  | _ + 3 => absent _ _

/-- `deframer`, `conv` and `rs`, with what was in the deframer's register. -/
abbrev threads (neon : Bool) (register : BitVec 64) : Chain 3 :=
  pipeline 3 (blocks F neon register)

instance : ∀ i, Nonempty (Sample F i)
  | 0 | 1 => ⟨(⟨0, 0⟩ : ComplexT F)⟩
  | _ + 2 => ⟨(0 : UInt8)⟩

theorem exists_start (neon : Bool) (register : BitVec 64) :
    ∃ start : (threads F neon register).State, Initial start :=
  exists_initial fun i => match i with
    | 0 => ⟨_, ⟨0, 0⟩, fun _ => ⟨0, 0⟩, fun _ => ⟨0, 0⟩, rfl⟩
    | 1 => ⟨_, Convolutional.zeroed, fun _ => 0, fun _ => 0, fun _ => 0, rfl⟩
    | 2 => ⟨_, default, rfl⟩
    | _ + 3 => ⟨(), trivial⟩

end Receiver

end

/-! ## What the symbols of a frame are -/

section

variable {F : Type} [SampleType F]

/-- The bits are those of the frame. -/
def BitsOf (frame bits : List UInt8) : Prop :=
  ∃ bytes, RsEncodes frame bytes ∧ ConvEncodes bytes bits

/-- The framer sends the symbols for the frame. -/
def Transmits (frame : List UInt8) (symbols : List (ComplexT F)) : Prop :=
  ∃ bits, BitsOf frame bits ∧ symbols = Framer.syncSyms ++ bitSyms bits

/-- Bytes are known by the symbols of their bits. -/
theorem ConvEncodes.bytes_eq (hexact : ExactSamples F) {bytes bytes' bits bits' : List UInt8}
    (h : ConvEncodes bytes bits) (h' : ConvEncodes bytes' bits')
    (hsyms : (bitSyms bits : List (ComplexT F)) = bitSyms bits') : bytes = bytes' := by
  let d := ConvDecoder.init Convolutional.zeroed (fun _ => 0) (fun _ => 0) fun _ => 0
  have hd : Convolutional.Used 2 7 r12_7_polynomial d.conv := .create (create_createConv _)
  -- one decoder gets both out of the same symbols
  have hdecodes := fun {bytes' bits' : List UInt8} (h' : ConvEncodes bytes' bits')
      (hsyms : (bitSyms bits : List (ComplexT F)) = bitSyms bits') =>
    @ConvDecoder.decode_bitSyms F _ d false _ _ hexact hd bytes' bits' h'
      ((block_getD (bitSyms bits) fun _ => ⟨0, 0⟩).trans hsyms)
  obtain ⟨d₁, hdecode, hbytes⟩ := hdecodes h rfl
  obtain ⟨d₂, hdecode', hbytes'⟩ := hdecodes h' hsyms
  rw [hdecode] at hdecode'
  obtain ⟨rfl, -⟩ := Prod.mk.inj (Option.some.inj hdecode')
  exact hbytes.symm.trans hbytes'

end

/-! ## The transmitter -/

namespace Transmitter

section

variable {F : Type} [SampleType F]

/-- The encoders and the framer, between their streams. -/
structure Encoding (input : Link UInt8) (rs : Dsp.Worker RSEncoder.machine) (bytes : Link UInt8)
    (conv : Dsp.Worker ConvEncoder.machine) (bits : Link UInt8) (framer : Dsp.Worker (Framer.machine F))
    (symbols : Link (ComplexT F)) : Prop where
  rs : Connected input rs bytes
  conv : Connected bytes conv bits
  framer : Connected bits framer symbols
  input_inv : input.Inv
  bytes_inv : bytes.Inv
  bits_inv : bits.Inv

variable {input bytes bits : Link UInt8} {symbols : Link (ComplexT F)}
  {rs : Dsp.Worker RSEncoder.machine} {conv : Dsp.Worker ConvEncoder.machine}
  {framer : Dsp.Worker (Framer.machine F)} {count next : Nat}
  (h : Encoding input rs bytes conv bits framer symbols)

include h

theorem Encoding.rs_lossy : Lossy RsEncodes rs.stops input.sent bytes.sent :=
  h.rs.lossy RSEncoder.oneForOne h.input_inv fun _ _ => trivial

theorem Encoding.bytes_length : ∀ b ∈ bytes.sent, b.length = 1020 :=
  h.rs_lossy.forall_output (P := fun _ => True) (fun _ _ => trivial) fun _ _ _ h => h.2.1

theorem Encoding.conv_lossy : Lossy ConvEncodes conv.stops bytes.sent bits.sent :=
  h.conv.lossy ConvEncoder.oneForOne h.bytes_inv h.bytes_length

theorem Encoding.bits_length : ∀ b ∈ bits.sent, b.length = 2 * FRAME_SYMS :=
  h.conv_lossy.forall_output (P := fun _ => True) (fun _ _ => trivial) fun _ _ _ h => h.2.1

theorem Encoding.framer_lossy :
    Lossy (fun bits (symbols : List (ComplexT F)) => symbols = Framer.syncSyms ++ bitSyms bits)
      framer.stops bits.sent symbols.sent :=
  h.framer.lossy Framer.oneForOne h.bits_inv h.bits_length

theorem Encoding.symbols_lossy :
    Lossy (Transmits (F := F)) (rs.stops + conv.stops + framer.stops) input.sent symbols.sent := by
  refine ((h.rs_lossy.comp h.conv_lossy).comp h.framer_lossy).imp ?_
  rintro frame - symbols - ⟨bits, hbits, hsymbols⟩
  exact ⟨bits, hbits, hsymbols⟩

/-- The asserts of the encoders hold when the frames have the size of a frame. -/
theorem Encoding.rs_returns (hsize : ∀ frame ∈ input.sent, frame.length = 892)
    (hphase : rs.phase = .processing count next) :
    ∃ work outcome, RSEncoder.machine.process count next
      ⟨rs.state, input.readBuf, bytes.writeBuf⟩ work outcome :=
  h.rs.returns (P := fun frame => frame.length = 892) (RSEncoder.oneForOne.of_imp fun _ _ => trivial)
    RSEncoder.returning h.input_inv hsize hphase

theorem Encoding.conv_returns (hphase : conv.phase = .processing count next) :
    ∃ work outcome, ConvEncoder.machine.process count next
      ⟨conv.state, bytes.readBuf, bits.writeBuf⟩ work outcome :=
  h.conv.returns ConvEncoder.oneForOne (fun _ _ _ => ⟨_, _, rfl, rfl⟩) h.bytes_inv
    h.bytes_length hphase

theorem Encoding.framer_returns (hphase : framer.phase = .processing count next) :
    ∃ work outcome, (Framer.machine F).process count next
      ⟨framer.state, bits.readBuf, symbols.writeBuf⟩ work outcome :=
  h.framer.returns Framer.oneForOne (fun _ _ _ => ⟨_, _, rfl, rfl⟩) h.bits_inv
    h.bits_length hphase

/-- When each of them has made a block of each, every frame was made into symbols. -/
theorem Encoding.symbols_all (hrs : List.Forall₂ RsEncodes input.sent bytes.sent)
    (hconv : List.Forall₂ ConvEncodes bytes.sent bits.sent)
    (hframer : List.Forall₂ (fun bits (symbols : List (ComplexT F)) =>
      symbols = Framer.syncSyms ++ bitSyms bits) bits.sent symbols.sent) :
    List.Forall₂ (Transmits (F := F)) input.sent symbols.sent :=
  h.symbols_lossy.all_of_length
    (hrs.length_eq.trans (hconv.length_eq.trans hframer.length_eq))

end

variable {F : Type} [SampleType F] {start s : (threads F).State} (h : Initial start)
  (hs : (threads F).Reachable start s)

include h hs

theorem encoding : Encoding (s.cell 0) (s.proc 0) (s.cell 1) (s.proc 1) (s.cell 2) (s.proc 2)
    (s.cell 3) :=
  have hholds := holds_reachable h hs
  ⟨hholds.proc 0 (by decide), hholds.proc 1 (by decide), hholds.proc 2 (by decide),
    hholds.cell 0 (by decide), hholds.cell 1 (by decide), hholds.cell 2 (by decide)⟩

theorem symbols_lossy :
    Lossy (Transmits (F := F)) ((s.proc 0).stops + (s.proc 1).stops + (s.proc 2).stops)
      (s.cell 0).sent (s.cell 3).sent :=
  (encoding h hs).symbols_lossy

theorem returns (hsize : ∀ frame ∈ (s.cell 0).sent, frame.length = 892) : Returns s := by
  have hencoding := encoding h hs
  intro i hi count next hphase
  match i with
  | 0 => exact hencoding.rs_returns hsize hphase
  | 1 => exact hencoding.conv_returns hphase
  | 2 => exact hencoding.framer_returns hphase

omit h hs in
theorem advances : ∀ i, i < 3 → Advances (blocks F i)
  | 0, _, _, _, _, _, _, _, ⟨_, _, _, _, _, _, houtcome⟩ => by cases houtcome
  | 1, _, _, _, _, _, _, _, ⟨_, houtcome⟩ => by cases houtcome
  | 2, _, _, _, _, _, _, _, ⟨_, houtcome⟩ => by cases houtcome

/-- When no thread can go on and none was stopped, every frame was made into symbols. -/
theorem symbols_all (hquiet : Quiet s) (hsize : ∀ frame ∈ (s.cell 0).sent, frame.length = 892)
    (hstops : ∀ i, i < 3 → (s.proc i).stops = 0) :
    List.Forall₂ (Transmits (F := F)) (s.cell 0).sent (s.cell 3).sent := by
  have hreturns := returns h hs hsize
  have hencoding := encoding h hs
  have hrs := drained_one h hs hquiet hreturns (i := 0) (by decide) (hstops 0 (by decide))
    RSEncoder.oneForOne fun _ _ => trivial
  have hconv := drained_one h hs hquiet hreturns (i := 1) (by decide) (hstops 1 (by decide))
    ConvEncoder.oneForOne hencoding.bytes_length
  have hframer := drained_one h hs hquiet hreturns (i := 2) (by decide) (hstops 2 (by decide))
    Framer.oneForOne hencoding.bits_length
  exact hencoding.symbols_all hrs hconv hframer

/-- The blocks of symbols are those of the frames, in order; a frame is lost at most once for
    each time a block is stopped, and none is left over when no thread can go on. -/
theorem sends_frames :
    Lossy (Transmits (F := F)) ((s.proc 0).stops + (s.proc 1).stops + (s.proc 2).stops)
      (s.cell 0).sent (s.cell 3).sent ∧
    (Quiet s → (∀ frame ∈ (s.cell 0).sent, frame.length = 892) →
      (∀ i, i < 3 → (s.proc i).stops = 0) →
      List.Forall₂ (Transmits (F := F)) (s.cell 0).sent (s.cell 3).sent) :=
  ⟨symbols_lossy h hs, symbols_all h hs⟩

end Transmitter

/-- Any frames can be sent. -/
theorem Transmitter.exists_sent {F : Type} [SampleType F] (frames : List (List UInt8))
    (hsize : ∀ frame ∈ frames, frame.length = 892) :
    ∃ start s : (threads F).State, Initial start ∧ (threads F).Reachable start s ∧ Quiet s ∧
      (∀ i, (s.proc i).stops = 0) ∧ (s.cell 0).sent = frames := by
  obtain ⟨start, hstart⟩ := exists_start F
  obtain ⟨s, hs⟩ := exists_feed hstart advances frames fun s hreach _ hle =>
    returns hstart hreach fun frame hframe => hsize frame (hle.subset hframe)
  exact ⟨start, s, hstart, hs⟩

def sampleFrame : List UInt8 := List.replicate 892 0x5A

theorem sampleFrame_length : ∀ frame ∈ [sampleFrame], frame.length = 892 := by
  intro frame hframe
  rw [List.mem_singleton.mp hframe, sampleFrame, List.length_replicate]

theorem Transmitter.sends_frames_sampleFrame :
    ∃ s : (threads Rat).State, (s.cell 0).sent = [sampleFrame] ∧
      List.Forall₂ (Transmits (F := Rat)) [sampleFrame] (s.cell 3).sent := by
  obtain ⟨start, s, hstart, hs, hquiet, hstops, hsent⟩ :=
    exists_sent (F := Rat) [sampleFrame] sampleFrame_length
  have hall := (sends_frames hstart hs).2 hquiet (hsent ▸ sampleFrame_length) fun i _ => hstops i
  exact ⟨s, hsent, hsent ▸ hall⟩

/-! ## The receiver -/

section

variable {F : Type} [SampleType F]

/-- The deframed symbols of a frame. -/
def SymbolsOf (frame : List UInt8) (symbols : List (ComplexT F)) : Prop :=
  ∃ bits, BitsOf frame bits ∧ symbols = bitSyms bits

theorem exists_bits {frames : List (List UInt8)} {symbols : List (List (ComplexT F))}
    (h : List.Forall₂ Transmits frames symbols) :
    ∃ bits, List.Forall₂ BitsOf frames bits ∧
      symbols.flatten = bits.flatMap fun b => Framer.syncSyms ++ bitSyms b := by
  induction h with
  | nil => exact ⟨[], .nil, rfl⟩
  | cons hfirst _ ih =>
    obtain ⟨b, hb, rfl⟩ := hfirst
    obtain ⟨bits, hall, hsymbols⟩ := ih
    exact ⟨b :: bits, .cons hb hall, by rw [List.flatten_cons, hsymbols, List.flatMap_cons]⟩

theorem symbols_of_bits {frames bits : List (List UInt8)} (h : List.Forall₂ BitsOf frames bits) :
    List.Forall₂ (SymbolsOf (F := F)) frames (bits.map bitSyms) :=
  List.forall₂_map_right_iff.mpr (h.imp fun _ b hb => ⟨b, hb, rfl⟩)

end

namespace Receiver

variable {F : Type} [SampleType F] {neon : Bool} {register : BitVec 64}
  {start s : (threads F neon register).State} (hexact : ExactSamples F) {rot : Nat} (hrot : rot < 4)
  (hregister : ¬ Deframer.Premature register
    ((Framer.syncSyms : List (ComplexT F)).map (rotateBy rot)))
  (h : Initial start) (hs : (threads F neon register).Reachable start s)
  (hstops : (s.proc 0).stops = 0)
  {frames : List (List UInt8)} {symbols : List (List (ComplexT F))}
  (hframes : List.Forall₂ Transmits frames symbols)
  (hcarried : (s.cell 0).sent.flatten <+: symbols.flatten.map (rotateBy rot))

include hexact hrot hregister h hs hstops hframes hcarried

theorem deframer_lossy : Lossy (SymbolsOf (F := F)) 0 frames (s.cell 1).sent := by
  have hholds := holds_reachable h hs
  obtain ⟨bits, hbits, hsymbols⟩ := exists_bits hframes
  obtain ⟨lost, rest, config, hlost, -, hrun⟩ := (hholds.proc 0 (by decide)).explained
  rw [hstops, Nat.le_zero] at hlost
  rw [hlost] at hrun
  have htaken : (s.cell 0).taken.flatten <+: (s.cell 0).sent.flatten := by
    rcases Link.sent_of_inv (hholds.cell 0 (by decide)) with hall | ⟨b, hlast⟩
    · rw [hall]
    · rw [hlast]
      exact (List.prefix_append _ [b]).flatten
  have hsent := Deframer.segments_initial hexact hrot hregister hrun
    (hsymbols ▸ htaken.trans hcarried)
  exact (Lossy.of_forall₂ (symbols_of_bits hbits)).of_initial ((List.prefix_append _ rest).trans hsent)

theorem decodable : ∀ syms ∈ (s.cell 1).sent, ∃ bytes bits,
    ConvEncodes bytes bits ∧ syms = bitSyms bits := by
  have hlossy := deframer_lossy hexact hrot hregister h hs hstops hframes hcarried
  exact hlossy.forall_output (P := fun _ => True) (fun _ _ => trivial)
    fun _ _ _ ⟨bits, ⟨bytes, _, hbits⟩, hsyms⟩ => ⟨bytes, bits, hbits, hsyms⟩

theorem conv_lossy : Lossy RsEncodes (s.proc 1).stops frames (s.cell 2).sent := by
  have hholds := holds_reachable h hs
  have hconv := (hholds.proc 1 (by decide)).lossy (ConvDecoder.oneForOne hexact neon)
    (hholds.cell 1 (by decide)) (decodable hexact hrot hregister h hs hstops hframes hcarried)
  have hlossy := (deframer_lossy hexact hrot hregister h hs hstops hframes hcarried).comp hconv
  rw [Nat.zero_add] at hlossy
  refine hlossy.imp ?_
  rintro frame - bytes - ⟨syms, ⟨bits, ⟨bytes', hframe, hbits⟩, hsyms⟩, bits', hbits', hsyms'⟩
  rw [hbits'.bytes_eq hexact hbits (hsyms'.symm.trans hsyms)]
  exact hframe

theorem decodable_bytes : ∀ bytes ∈ (s.cell 2).sent, ∃ frame, RsEncodes frame bytes := by
  have hlossy := conv_lossy hexact hrot hregister h hs hstops hframes hcarried
  exact hlossy.forall_output (P := fun _ => True) (fun _ _ => trivial) fun frame _ _ h => ⟨frame, h⟩

theorem frames_lossy :
    Lossy Eq ((s.proc 1).stops + (s.proc 2).stops) frames (s.cell 3).sent := by
  have hholds := holds_reachable h hs
  have hconv := conv_lossy hexact hrot hregister h hs hstops hframes hcarried
  have hrs := (hholds.proc 2 (by decide)).lossy RSDecoder.oneForOne (hholds.cell 2 (by decide))
    (decodable_bytes hexact hrot hregister h hs hstops hframes hcarried)
  refine (hconv.comp hrs).imp ?_
  rintro frame - frame' - ⟨bytes, hframe, hframe'⟩
  exact hframe.frame_eq hframe'

/-- The decoders return on what the channel carries. -/
theorem returns : Returns s := by
  have hholds := holds_reachable h hs
  intro i hi count next hphase
  match i with
  | 0 => exact Deframer.machine_returns count next _
  | 1 =>
    exact (hholds.proc 1 hi).returns (ConvDecoder.oneForOne hexact neon)
      (ConvDecoder.returning hexact neon) (hholds.cell 1 (by decide))
      (decodable hexact hrot hregister h hs hstops hframes hcarried) hphase
  | 2 =>
    exact (hholds.proc 2 hi).returns RSDecoder.oneForOne RSDecoder.returning
      (hholds.cell 2 (by decide))
      (decodable_bytes hexact hrot hregister h hs hstops hframes hcarried) hphase

omit hexact hrot hregister h hs hstops hframes hcarried in
theorem advances : ∀ i, i < 3 → Advances (blocks F neon register i)
  | 0, _, _, _, w, w', _, _, hcall =>
    have hemit := Deframer.machine_emit hcall
    ⟨hemit.1, hemit.2.1⟩
  | 1, _, _, _, _, _, _, _, ⟨_, _, _, _, _, houtcome⟩ => by cases houtcome
  | 2, _, _, _, _, _, _, _, ⟨_, _, _, _, _, houtcome⟩ => by cases houtcome

/-- When no thread can go on and none was stopped, all frames whose symbols came in were handed
    over. -/
theorem frames_all (hquiet : Quiet s) (hconv : (s.proc 1).stops = 0) (hrs : (s.proc 2).stops = 0)
    (hall : (s.cell 0).sent.flatten = symbols.flatten.map (rotateBy rot)) :
    (s.cell 3).taken = frames := by
  have hlossy := frames_lossy hexact hrot hregister h hs hstops hframes hcarried
  have hreturns := returns hexact hrot hregister h hs hstops hframes hcarried
  obtain ⟨bits, hbits, hsymbols⟩ := exists_bits hframes
  obtain ⟨lost, config, hlost, hheld, hrun⟩ :=
    drained_block h hs hquiet hreturns (i := 0) (by decide)
  rw [hstops, Nat.le_zero] at hlost
  rw [hlost, ← drained_link h hs hquiet hreturns (i := 0) (by decide)] at hrun
  have hsegments := Deframer.segments_all hexact hrot hregister hrun hheld (hsymbols ▸ hall)
  have hsent : (s.cell 1).sent.length = bits.length :=
    (congrArg List.length hsegments).trans (List.length_map bitSyms)
  have hbytes := drained_one h hs hquiet hreturns (i := 1) (by decide) hconv
    (ConvDecoder.oneForOne hexact neon)
    (decodable hexact hrot hregister h hs hstops hframes hcarried)
  have hout := drained_one h hs hquiet hreturns (i := 2) (by decide) hrs RSDecoder.oneForOne
    (decodable_bytes hexact hrot hregister h hs hstops hframes hcarried)
  have hlen : frames.length = (s.cell 3).sent.length := by
    rw [← hout.length_eq, ← hbytes.length_eq, hsent, hbits.length_eq]
  rw [← drained_link h hs hquiet hreturns (i := 3) (by decide)]
  exact (List.forall₂_eq_eq_eq ▸ hlossy.all_of_length hlen : frames = _).symm

/-- Over an ideal symbol channel the frames come out of the decoders in order, whatever the
    interleaving and however the symbols are cut into blocks, if the deframer is never stopped
    and what was in its register does not lock early; a frame is lost at most once for each time
    a decoder is stopped, and none is left over when no thread can go on. -/
theorem receives_frames :
    Lossy Eq ((s.proc 1).stops + (s.proc 2).stops) frames (s.cell 3).sent ∧
    (Quiet s → (s.proc 1).stops = 0 → (s.proc 2).stops = 0 →
      (s.cell 0).sent.flatten = symbols.flatten.map (rotateBy rot) →
      (s.cell 3).taken = frames) :=
  ⟨frames_lossy hexact hrot hregister h hs hstops hframes hcarried,
    frames_all hexact hrot hregister h hs hstops hframes hcarried⟩

end Receiver

/-- The symbols of any frames can be received, in any blocks. -/
theorem Receiver.exists_received {F : Type} [SampleType F] (hexact : ExactSamples F) {rot : Nat}
    (hrot : rot < 4) (neon : Bool) {register : BitVec 64}
    (hregister : ¬ Deframer.Premature register
      ((Framer.syncSyms : List (ComplexT F)).map (rotateBy rot)))
    {frames : List (List UInt8)}
    {symbols received : List (List (ComplexT F))} (hframes : List.Forall₂ Transmits frames symbols)
    (hreceived : received.flatten = symbols.flatten.map (rotateBy rot)) :
    ∃ start s : (threads F neon register).State, Initial start ∧
      (threads F neon register).Reachable start s ∧ Quiet s ∧ (∀ i, (s.proc i).stops = 0) ∧
      (s.cell 0).sent = received := by
  obtain ⟨start, hstart⟩ := exists_start F neon register
  obtain ⟨s, hs⟩ := exists_feed hstart advances received fun s hreach hstops hle => by
    exact returns hexact hrot hregister hstart hreach (hstops 0) hframes (hreceived ▸ hle.flatten)
  exact ⟨start, s, hstart, hs⟩

/-- A register of ones does not lock early. -/
theorem not_premature_ones {rot : Nat} (hrot : rot < 4) :
    ¬ Deframer.Premature (BitVec.allOnes 64)
      ((Framer.syncSyms : List (ComplexT Rat)).map (rotateBy rot)) := by
  have hfar : ∀ k, k < 4 → ¬ ∃ j, j < 32 ∧ 1 ≤ j ∧ Deframer.Match
      (ShiftRegister.shiftAll (BitVec.allOnes 64) ((wordSyms (syncRots k)).take j)) := by
    simp only [Deframer.Match, Deframer.distance_eq]
    decide +kernel
  rw [Deframer.premature_sync_iff exactSamples_rat hrot]
  exact hfar rot hrot

/-- The symbols of one frame, turned by 180 degrees, in one block, behind a register of ones. -/
theorem Receiver.receives_frames_sampleFrame :
    ∃ s : (threads Rat false (BitVec.allOnes 64)).State, (s.cell 3).taken = [sampleFrame] := by
  obtain ⟨start, t, hstart, ht, hquiet, hstops, hsent⟩ :=
    Transmitter.exists_sent (F := Rat) [sampleFrame] sampleFrame_length
  have hframes := Transmitter.symbols_all hstart ht hquiet (hsent ▸ sampleFrame_length)
    fun i _ => hstops i
  rw [hsent] at hframes
  have hrot : ROT_180_DEG < 4 := by decide
  obtain ⟨start', s, hstart', hs, hquiet', hstops', hreceived⟩ :=
    exists_received exactSamples_rat hrot false (not_premature_ones hrot) hframes
      List.flatten_singleton
  have hcarried := (congrArg List.flatten hreceived).trans List.flatten_singleton
  exact ⟨s, (receives_frames exactSamples_rat hrot (not_premature_ones hrot) hstart' hs
    (hstops' 0) hframes (hcarried ▸ List.prefix_refl _)).2 hquiet' (hstops' 1) (hstops' 2)
      hcarried⟩

end RyFi.Modem
