import RyFi.Modem.Framing
import RyFi.Modem.RsRepair
import RyFi.Conv.RoundTrip

/-! # The convolutional stage of the modem and the chain of decoders

`ConvEncoder` and `ConvDecoder` (conv_codec.h, conv_codec.cpp), and the two encoders and the
two decoders one after the other as transmitter and receiver connect them.  The block that
`ConvDecoder::run` hands over is descrambled in place by `RSDecoder::decode`.
-/

namespace RyFi.Modem

open CLoop RyFi.Conv

/-- What both constructors create. -/
def createConv (raw : Convolutional) : Convolutional :=
  Convolutional.initialized 2 7 r12_7_polynomial raw

theorem create_createConv (raw : Convolutional) :
    Convolutional.create 2 7 r12_7_polynomial raw = some (createConv raw) := rfl

/-! ## Encoder -/

structure ConvEncoder where
  conv : Convolutional

namespace ConvEncoder

def init (raw : Convolutional) : ConvEncoder := ⟨createConv raw⟩

/-- `ConvEncoder::encode`: the bytes and the number of bits. -/
def encode (e : ConvEncoder) (input out : Nat → UInt8) (count : Nat) : (Nat → UInt8) × Nat :=
  e.conv.encode input count out

end ConvEncoder

/-! ## Decoder -/

section

variable {F : Type} [SampleType F]

/-- `std::clamp<int>(x * 127.0f + 128.0f, 0, 255)`. -/
def quantize (x : F) : UInt8 :=
  UInt8.ofNat (max 0 (min 255 (SampleType.toInt (x * SampleType.scale + SampleType.offset)))).toNat

/-- The samples behind `(const float*)in`. -/
def component (input : Nat → ComplexT F) (i : Nat) : F :=
  if i % 2 = 0 then (input (i / 2)).re else (input (i / 2)).im

end

/-- `ConvDecoder`, with its buffer of soft symbols and the two buffers of its output stream. -/
structure ConvDecoder where
  conv : Convolutional
  soft : Nat → UInt8
  writeBuf : Nat → UInt8
  readBuf : Nat → UInt8

namespace ConvDecoder

def init (raw : Convolutional) (soft writeBuf readBuf : Nat → UInt8) : ConvDecoder :=
  ⟨createConv raw, soft, writeBuf, readBuf⟩

section

variable {F : Type} [SampleType F]

/-- The soft symbols of a block. -/
def fillSoft (d : ConvDecoder) (input : Nat → ComplexT F) (count : Nat) : Nat → UInt8 :=
  forLoop 0 count (fun i soft => Function.update soft i (quantize (component input i))) d.soft

/-- `ConvDecoder::decode`, with the bytes in its write buffer; `none` where the decoder does
    not return. -/
def decode (neon : Bool) (d : ConvDecoder) (input : Nat → ComplexT F) (count : Nat) :
    Option (ConvDecoder × Int) :=
  let count := count * 2
  let d := { d with soft := d.fillSoft input count }
  match d.conv.decodeSoft neon d.soft count d.writeBuf with
  | .done conv length => some ({ d with conv := conv, writeBuf := conv.bitWriter.bytes }, length)
  | .error => some (d, -1)
  | .never => none

/-- `ConvDecoder::run` on one input block: the number of bytes it sends. -/
def run (neon : Bool) (d : ConvDecoder) (input : Nat → ComplexT F) (count : Nat) :
    Option (ConvDecoder × Int) :=
  match d.decode neon input count with
  | none => none
  | some (d, count) => some ({ d with writeBuf := d.readBuf, readBuf := d.writeBuf }, count)

end

end ConvDecoder

/-! ## Chain of encoders -/

structure FecEncoder where
  rs : RSEncoder
  conv : ConvEncoder

namespace FecEncoder

def init (rs : Rs.ReedSolomon) (conv : Convolutional) : FecEncoder :=
  ⟨RSEncoder.init rs, ConvEncoder.init conv⟩

/-- What the two output buffers and the local one of `RSEncoder::encode` hold before. -/
structure Memory where
  rsWrite : Nat → UInt8
  convWrite : Nat → UInt8
  block : Nat → UInt8

variable {F : Type} [SampleType F]

/-- One serialized frame through both encoders and the framer; `none` where the assertion
    fails. -/
def step (e : FecEncoder) (frame : List UInt8) (memory : Memory) :
    Option (FecEncoder × List (ComplexT F)) :=
  match e.rs.encode (fun i => frame.getD i 0) memory.rsWrite frame.length memory.block with
  | none => none
  | some (rs, bytes, count) =>
    let r := e.conv.encode bytes memory.convWrite count
    some ({ e with rs := rs }, Framer.encode r.1 r.2)

/-- A sequence of frames, each with its memory. -/
def run (e : FecEncoder) :
    List (List UInt8 × Memory) → Option (FecEncoder × List (ComplexT F))
  | [] => some (e, [])
  | (frame, memory) :: frames =>
    match e.step frame memory with
    | none => none
    | some (e, symbols) =>
      match run e frames with
      | none => none
      | some (e, rest) => some (e, symbols ++ rest)

/-- What the encoders of a transmitter can have become. -/
inductive Reachable (F : Type) [SampleType F] : FecEncoder → Prop where
  | init (rs : Rs.ReedSolomon) (conv : Convolutional) : Reachable F (init rs conv)
  | step {e e' : FecEncoder} {frame : List UInt8} {memory : Memory}
      {symbols : List (ComplexT F)} (h : Reachable F e)
      (he : e.step frame memory = some (e', symbols)) : Reachable F e'

end FecEncoder

/-! ## Chain of decoders -/

structure FecDecoder where
  conv : ConvDecoder
  rs : RSDecoder

namespace FecDecoder

def init (conv : Convolutional) (rs : Rs.ReedSolomon)
    (soft convWrite convRead rsWrite rsRead : Nat → UInt8) : FecDecoder :=
  ⟨ConvDecoder.init conv soft convWrite convRead, RSDecoder.init rs rsWrite rsRead⟩

variable {F : Type} [SampleType F]

/-- One block of symbols through both decoders, and the frame sent, if any; `none` where a
    decoder does not return.  `memory` is the uninitialized block of `RSDecoder::decode`. -/
def step (neon : Bool) (d : FecDecoder) (block : List (ComplexT F)) (memory : Nat → UInt8) :
    Option (FecDecoder × Option (List UInt8)) :=
  match d.conv.run neon (fun i => block.getD i ⟨0, 0⟩) block.length with
  | none => none
  | some (conv, count) =>
    -- a negative count ends the worker of the next stage
    if count < 0 then none
    else
      match d.rs.run conv.readBuf count.toNat memory with
      | none => none
      | some (rs, sent) => some (⟨{ conv with readBuf := scramble conv.readBuf }, rs⟩, sent)

/-- A sequence of blocks, each with its memory. -/
def run (neon : Bool) (d : FecDecoder) :
    List (List (ComplexT F) × (Nat → UInt8)) → Option (FecDecoder × List (List UInt8))
  | [] => some (d, [])
  | (block, memory) :: blocks =>
    match d.step neon block memory with
    | none => none
    | some (d, sent) =>
      match run neon d blocks with
      | none => none
      | some (d, frames) => some (d, sent.toList ++ frames)

/-- What the decoders of a receiver can have become: new ones, or after blocks of any size. -/
inductive Reachable (F : Type) [SampleType F] : FecDecoder → Prop where
  | init (conv : Convolutional) (rs : Rs.ReedSolomon)
      (soft convWrite convRead rsWrite rsRead : Nat → UInt8) :
      Reachable F (init conv rs soft convWrite convRead rsWrite rsRead)
  | step {neon : Bool} {d d' : FecDecoder} {block : List (ComplexT F)} {memory : Nat → UInt8}
      {sent : Option (List UInt8)} (h : Reachable F d)
      (hd : d.step neon block memory = some (d', sent)) : Reachable F d'

end FecDecoder

end RyFi.Modem
