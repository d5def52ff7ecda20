import RyFi.Modem.Frame
import RyFi.Rs.ReedSolomon

/-! # The Reed-Solomon stage of the modem

`RSEncoder` and `RSDecoder` (rs_codec.h, rs_codec.cpp): four blocks, interleaved byte by
byte, and scrambled.  A failed `assert` is `none`.
-/

namespace RyFi.Modem

open CLoop RyFi.Rs

def RS_SCRAMBLER_SEQ : Array UInt8 := #[
  0x75, 0x05, 0x7C, 0xCE, 0xF1, 0xD0, 0x6C, 0xF6, 0xFA, 0x65, 0xF6, 0xFC, 0xE0, 0x0A, 0x82, 0x17,
  0x6C, 0xBE, 0x76, 0xA0, 0xD6, 0x46, 0x12, 0x2E, 0xDE, 0xB5, 0xF7, 0xAD, 0xCB, 0x51, 0x63, 0x47,
  0x27, 0x30, 0x7E, 0x43, 0xD1, 0xA1, 0xCB, 0x10, 0x08, 0x49, 0xDF, 0x86, 0xD4, 0xC4, 0xD7, 0x3C,
  0x6D, 0x03, 0x07, 0x37, 0x5B, 0xB3, 0xCD, 0x79, 0x6F, 0x1E, 0xBA, 0xC5, 0x6E, 0xC3, 0x8C, 0x7A,
  0x25, 0x99, 0x61, 0x54, 0x5A, 0x96, 0x57, 0x9B, 0xE0, 0x60, 0x5B, 0x09, 0x6D, 0x8B, 0x2D, 0x9D,
  0x15, 0x9D, 0x0E, 0xBF, 0x57, 0xFB, 0x9C, 0x49, 0x82, 0x2C, 0x48, 0x59, 0x92, 0x47, 0x79, 0x17,
  0x16, 0x74, 0xEA, 0xEA, 0xBB, 0xC5, 0x72, 0x32, 0x17, 0xD1, 0xB3, 0xDE, 0xEB, 0x15, 0xC7, 0x55,
  0x8A, 0xF2, 0x88, 0xC2, 0x33, 0xA6, 0x17, 0x8B, 0xD4, 0x77, 0x22, 0x00, 0x63, 0x47, 0x45, 0x5F,
  0x36, 0x35, 0x58, 0x8B, 0x88, 0xEC, 0xCA, 0xC4, 0x60, 0x53, 0x9E, 0xBD, 0xB2, 0xF5, 0x51, 0x46,
  0x34, 0x9A, 0x07, 0x25, 0x3F, 0xF5, 0x65, 0x63, 0x77, 0x3C, 0x5A, 0xFA, 0x4E, 0x0C, 0xF7, 0x1B,
  0x82, 0xAB, 0x73, 0x06, 0x7F, 0xB7, 0xC6, 0x6B, 0xBF, 0xB1, 0x46, 0xF3, 0x01, 0x91, 0xB1, 0xFF,
  0x5C, 0x6F, 0xF9, 0x43, 0x0E, 0x6A, 0x70, 0x89, 0x0B, 0xEA, 0x8C, 0xD4, 0x1B, 0x51, 0x01, 0x31,
  0x71, 0x2E, 0xDF, 0x24, 0xC1, 0xD5, 0xDB, 0x0E, 0xF5, 0xEB, 0x78, 0x79, 0x39, 0x5B, 0xAD, 0xC3,
  0xA9, 0xA6, 0x60, 0x30, 0xA2, 0x9A, 0x7B, 0xA0, 0xF4, 0xAA, 0xC5, 0x57, 0xB3, 0x16, 0xF9, 0xB5,
  0x79, 0x20, 0xC1, 0x88, 0x9A, 0x00, 0x43, 0xB2, 0xC6, 0x84, 0x8D, 0x03, 0xF2, 0xD8, 0x90, 0x7A,
  0x21, 0x37, 0x7E, 0xF7, 0x75, 0xE5, 0xFB, 0xC9, 0xDC, 0xAB, 0x4B, 0xBC, 0x35, 0x38, 0xB9, 0x3A,
  0x53, 0x89, 0x7E, 0xD5, 0x94, 0x12, 0x2D, 0x9B, 0x91, 0x90, 0x1D, 0x4D, 0x0E, 0xE0, 0x93, 0xF3,
  0xC1, 0xA1, 0x9B, 0x73, 0x27, 0x22, 0x41, 0x27, 0xEE, 0x2A, 0xD7, 0x45, 0xBC, 0x8F, 0x9B, 0xA2,
  0x36, 0x11, 0x16, 0x37, 0x1A, 0xF1, 0x2E, 0x71, 0xCF, 0x86, 0x89, 0x83, 0x5A, 0xF1, 0x24, 0x6C,
  0x56, 0x71, 0x53, 0xE4, 0xD2, 0xCB, 0xCA, 0x86, 0x1E, 0xA0, 0xD5, 0x83, 0x3B, 0xEF, 0x09, 0x09,
  0xC2, 0x07, 0x53, 0x86, 0xE6, 0x8A, 0xC6, 0x70, 0xFB, 0x91, 0x43, 0xCB, 0x91, 0x6E, 0xA9, 0xBC,
  0x31, 0x42, 0x61, 0x0C, 0x88, 0xB8, 0x2C, 0xED, 0xD8, 0xE6, 0xA3, 0xEC, 0xAC, 0xB9, 0x45, 0x5E,
  0x2C, 0x73, 0x3F, 0x2E, 0x06, 0xE0, 0xBF, 0x73, 0xDD, 0x2E, 0x45, 0x50, 0x6C, 0x53, 0x55, 0xF0,
  0x7F, 0x6E, 0x61, 0xFA, 0xA0, 0x7A, 0x1C, 0xF0, 0xBD, 0xAC, 0x48, 0x61, 0x03, 0x6B, 0xED, 0x54,
  0x2A, 0x27, 0x94, 0xF6, 0xF9, 0x6A, 0x04, 0x08, 0x0B, 0x3C, 0xC3, 0x30, 0x66, 0x01, 0xFB, 0xDC,
  0xC9, 0x65, 0x03, 0x83, 0x7D, 0x0A, 0xDF, 0xA5, 0x04, 0x14, 0xE4, 0xF2, 0x4C, 0x01, 0xDF, 0x04,
  0xD2, 0x80, 0xB9, 0x9B, 0xD9, 0x5E, 0xF8, 0x2A, 0x93, 0x8D, 0x8C, 0x09, 0x9B, 0x38, 0xEC, 0x3B,
  0xC4, 0x29, 0x90, 0x7C, 0x65, 0x3A, 0xF2, 0x4B, 0x69, 0xD3, 0x63, 0x9B, 0x40, 0x95, 0xC3, 0xFB,
  0x67, 0x54, 0x40, 0x9B, 0x26, 0x9F, 0x52, 0xFE, 0xD8, 0xD0, 0x24, 0x9C, 0x5C, 0xD4, 0xEF, 0xDE,
  0x28, 0x66, 0x75, 0x04, 0xCB, 0xA4, 0xC0, 0xB9, 0x4B, 0xC9, 0x20, 0x4B, 0x56, 0xC7, 0x86, 0xC5,
  0x39, 0x45, 0x18, 0xA7, 0x48, 0x14, 0x1A, 0x51, 0xCA, 0xD0, 0xC0, 0x15, 0xDD, 0xC1, 0x28, 0x4A,
  0x7A, 0xD2, 0x10, 0xEA, 0x83, 0xD3, 0x3A, 0xEF, 0x48, 0x29, 0x41, 0xA4, 0xD4, 0x57, 0xA6, 0x1D,
  0x76, 0x24, 0x93, 0x58, 0x7E, 0xB7, 0xDD, 0x0B, 0xF2, 0xCE, 0x71, 0x55, 0xF5, 0xAB, 0x8C, 0xC8,
  0x70, 0x59, 0x73, 0x69, 0x9D, 0x29, 0x5E, 0x59, 0xF4, 0xB2, 0xC4, 0x97, 0x75, 0xF0, 0x65, 0x1B,
  0x66, 0x5F, 0xA4, 0x33, 0x5C, 0xC7, 0xBF, 0x45, 0xE6, 0x20, 0xC0, 0xBD, 0xAD, 0xAE, 0x9F, 0x97,
  0x05, 0xD8, 0x04, 0x2B, 0x0A, 0x46, 0xE8, 0xB8, 0xCB, 0x00, 0xE2, 0x7C, 0x70, 0x1B, 0x49, 0xDE,
  0x81, 0xEB, 0x24, 0xAC, 0x1B, 0x3E, 0x09, 0xFB, 0xAC, 0xB7, 0xF2, 0xD1, 0xB2, 0x78, 0xF3, 0xAC,
  0xC7, 0x6A, 0xA2, 0x07, 0x4C, 0xED, 0x61, 0xAD, 0x04, 0x7F, 0x45, 0x83, 0x59, 0x31, 0x27, 0xF0,
  0x16, 0x6B, 0x0C, 0xAA, 0xD4, 0xD1, 0xCB, 0x1C, 0x51, 0x41, 0x0D, 0x2F, 0x8F, 0xF9, 0xF9, 0x7F,
  0x22, 0x89, 0x46, 0xF4, 0xB8, 0x93, 0x98, 0x9E, 0x3E, 0x23, 0xF1, 0x6E, 0x64, 0x08, 0xB6, 0xC9,
  0x6E, 0x53, 0x53, 0xED, 0xAD, 0x21, 0xCD, 0x1A, 0xF0, 0x45, 0xFC, 0x14, 0x00, 0xEA, 0xF7, 0x42,
  0xEE, 0xDA, 0x58, 0x0D, 0x85, 0xBC, 0x74, 0xFB, 0x73, 0x78, 0xB5, 0x5E, 0x5E, 0x6F, 0x6F, 0x7E,
  0x39, 0xC2, 0x05, 0x50, 0xDB, 0x3D, 0xB8, 0xF3, 0x8F, 0x80, 0xEC, 0x46, 0x29, 0x39, 0x89, 0xF3,
  0x55, 0x9C, 0x6A, 0x5F, 0x7C, 0xD9, 0x7C, 0x13, 0xE4, 0x56, 0x5E, 0xE9, 0x60, 0x19, 0xE2, 0x7D,
  0xC4, 0x41, 0x92, 0x8D, 0xDA, 0x21, 0x58, 0x20, 0xE9, 0xA8, 0x4C, 0x16, 0x34, 0x99, 0xAC, 0xB7,
  0x30, 0xBD, 0x39, 0x19, 0xAC, 0x9B, 0x4B, 0x27, 0xFA, 0x32, 0xC1, 0x48, 0xA1, 0x80, 0x34, 0x36,
  0x1E, 0xFB, 0x92, 0x43, 0x35, 0x72, 0x2D, 0xEF, 0xD2, 0xF2, 0xFC, 0xC2, 0x85, 0xAB, 0x59, 0x40,
  0x8D, 0x9D, 0x1A, 0x1F, 0xE2, 0x92, 0x87, 0xA2, 0xF9, 0x2C, 0x78, 0xE4, 0xC3, 0x26, 0x56, 0x07,
  0xB3, 0x78, 0xAF, 0x79, 0x3D, 0x88, 0xF4, 0xAD, 0x66, 0x7C, 0x07, 0x58, 0x98, 0x82, 0x1A, 0x26,
  0xF7, 0xFD, 0xCE, 0xFF, 0x75, 0xED, 0xAB, 0xBD, 0xAE, 0x6D, 0x5C, 0x28, 0x91, 0xF3, 0xB7, 0x5C,
  0x27, 0x05, 0xEC, 0x3B, 0xE3, 0xDD, 0x93, 0x24, 0x7F, 0xAD, 0x14, 0xAA, 0x49, 0x61, 0x8F, 0x96,
  0x1F, 0xAA, 0xB2, 0xEE, 0xA8, 0x24, 0x41, 0x7C, 0xDC, 0xF1, 0x28, 0x26, 0xE6, 0x7F, 0x98, 0x20,
  0x50, 0x5F, 0x90, 0x21, 0x8A, 0x09, 0x26, 0x59, 0xD0, 0x07, 0x2F, 0xE1, 0x35, 0x4D, 0x0B, 0x20,
  0xB2, 0xD5, 0xDD, 0xB5, 0xAC, 0x1B, 0xFE, 0xD9, 0xE3, 0x35, 0xF1, 0xB8, 0x3F, 0x3D, 0xFC, 0x0B,
  0x5A, 0x57, 0xA9, 0x92, 0x2B, 0xC8, 0x3E, 0xC2, 0xAA, 0xEF, 0xB9, 0x98, 0x2C, 0xA8, 0xAB, 0xF6,
  0xA1, 0xBF, 0xBC, 0x8D, 0x97, 0xA2, 0x74, 0xD9, 0xE5, 0x99, 0x85, 0x81, 0x15, 0xB0, 0xE7, 0x8B,
  0x48, 0x86, 0xF4, 0x94, 0x9C, 0x62, 0x82, 0xD1, 0x2C, 0x24, 0x4B, 0xAC, 0x7A, 0xB8, 0x4E, 0x4A,
  0xD2, 0xF6, 0xAA, 0xED, 0xE0, 0x9C, 0x98, 0xD2, 0xDF, 0xC1, 0xBC, 0xBF, 0x55, 0x7D, 0x40, 0xB5,
  0xDE, 0xD4, 0x25, 0xBB, 0x81, 0xF4, 0x07, 0x1D, 0xE7, 0x3C, 0xB4, 0x62, 0xC9, 0x55, 0x0A, 0x3A,
  0xD5, 0xCE, 0x97, 0xED, 0x30, 0x76, 0x76, 0x51, 0xBC, 0x8C, 0xE4, 0x54, 0xBE, 0xB7, 0xB5, 0xCD,
  0xF8, 0x76, 0x37, 0x53, 0x2C, 0x9F, 0xE4, 0xC7, 0xEB, 0xF5, 0x8D, 0x23, 0x8A, 0xDA, 0xD1, 0xA9,
  0xD8, 0x4C, 0x53, 0xF3, 0x49, 0xA7, 0x1A, 0x5D, 0xE5, 0x03, 0x49, 0x52, 0xD3, 0xE2, 0x1F, 0xA5,
  0x35, 0x9C, 0xBB, 0x0B, 0xC7, 0x0D, 0xA4, 0x65, 0x54, 0x8B, 0x39, 0xF1, 0x3B, 0x67, 0x21, 0x71,
  0x10, 0xE7, 0x76, 0xC4, 0xA8, 0xC2, 0x9D, 0x93, 0xC6, 0x51, 0xBA, 0x23]

/-- `in[i] ^= RS_SCRAMBLER_SEQ[i]`, over a whole frame. -/
def scramble (bytes : Nat → UInt8) : Nat → UInt8 :=
  forLoop 0 (RS_BLOCK_COUNT * RS_BLOCK_ENC_SIZE) (fun i bytes =>
    Function.update bytes i (bytes i ^^^ RS_SCRAMBLER_SEQ.getD i 0)) bytes

/-- The iterations of `for (int j = i; j < count; j += RS_BLOCK_COUNT)`. -/
def interleaveLen (i count : Nat) : Nat := (count - i + (RS_BLOCK_COUNT - 1)) / RS_BLOCK_COUNT

/-- What both constructors create. -/
def createRs (raw : ReedSolomon) : ReedSolomon :=
  ReedSolomon.create rs_primitive_polynomial_ccsds 1 1 32 raw

/-! ## Encoder -/

structure RSEncoder where
  rs : ReedSolomon

namespace RSEncoder

def init (raw : ReedSolomon) : RSEncoder := ⟨createRs raw⟩

/-- The variables of `encode`. -/
structure Encoding where
  rs : ReedSolomon
  block : Nat → UInt8
  out : Nat → UInt8

/-- One block: encoded and interleaved into the frame. -/
def encodeBlock (input : Nat → UInt8) (i : Nat) (s : Encoding) : Encoding :=
  let r := s.rs.encode (fun j => input (i * RS_BLOCK_DEC_SIZE + j)) RS_BLOCK_DEC_SIZE s.block
  { rs := r.1
    block := r.2.2
    out := forLoop 0 (interleaveLen i (RS_BLOCK_ENC_SIZE * RS_BLOCK_COUNT)) (fun k out =>
      Function.update out (i + RS_BLOCK_COUNT * k) (r.2.2 k)) s.out }

/-- `RSEncoder::encode`: the encoder, the bytes and their number; `block` is the
    uninitialized memory of the local buffer. -/
def encode (e : RSEncoder) (input out : Nat → UInt8) (count : Nat) (block : Nat → UInt8) :
    Option (RSEncoder × (Nat → UInt8) × Nat) :=
  if count = RS_BLOCK_COUNT * RS_BLOCK_DEC_SIZE then
    let s := forLoop 0 RS_BLOCK_COUNT (encodeBlock input) ⟨e.rs, block, out⟩
    some (⟨s.rs⟩, scramble s.out, RS_BLOCK_COUNT * RS_BLOCK_ENC_SIZE)
  else none

/-- What an encoder can have become. -/
inductive Reachable : RSEncoder → Prop where
  | init (raw : ReedSolomon) : Reachable (init raw)
  | encode {e e' : RSEncoder} {input out out' block : Nat → UInt8} {count count' : Nat}
      (h : Reachable e) (he : e.encode input out count block = some (e', out', count')) :
      Reachable e'

end RSEncoder

/-! ## Decoder -/

/-- `RSDecoder`, with the two buffers of its output stream. -/
structure RSDecoder where
  rs : ReedSolomon
  writeBuf : Nat → UInt8
  readBuf : Nat → UInt8

namespace RSDecoder

def init (raw : ReedSolomon) (writeBuf readBuf : Nat → UInt8) : RSDecoder :=
  ⟨createRs raw, writeBuf, readBuf⟩

/-- The variables of `decode`. -/
structure Decoding where
  rs : ReedSolomon
  block : Nat → UInt8
  out : Nat → UInt8
  failed : Bool

/-- One block: taken out of the frame and decoded, unless an earlier one failed. -/
def decodeBlock (input : Nat → UInt8) (count i : Nat) (s : Decoding) : Decoding :=
  if s.failed then s
  else
    let block := forLoop 0 (interleaveLen i count) (fun k block =>
      Function.update block k (input (i + RS_BLOCK_COUNT * k))) s.block
    let r := s.rs.decode block RS_BLOCK_ENC_SIZE s.out (i * RS_BLOCK_DEC_SIZE)
    { rs := r.1, block := block, out := r.2.2, failed := r.2.1.isNone }

/-- The four blocks of a frame. -/
def decodeBlocks (rs : ReedSolomon) (input out : Nat → UInt8) (count : Nat)
    (block : Nat → UInt8) : Decoding :=
  forLoop 0 RS_BLOCK_COUNT (decodeBlock (scramble input) count) ⟨rs, block, out, false⟩

/-- `RSDecoder::decode`: the decoder, with the bytes in its write buffer, and their
    number. -/
def decode (d : RSDecoder) (input : Nat → UInt8) (count : Nat) (block : Nat → UInt8) :
    Option (RSDecoder × Nat) :=
  if count = RS_BLOCK_COUNT * RS_BLOCK_ENC_SIZE then
    let s := decodeBlocks d.rs input d.writeBuf count block
    some ({ d with rs := s.rs, writeBuf := s.out },
      if s.failed then 0 else RS_BLOCK_COUNT * RS_BLOCK_DEC_SIZE)
  else none

/-- `RSDecoder::run` on one input block: the decoder and the block it sends, if any. -/
def run (d : RSDecoder) (input : Nat → UInt8) (count : Nat) (block : Nat → UInt8) :
    Option (RSDecoder × Option (List UInt8)) :=
  match d.decode input count block with
  | none => none
  | some (d, count) =>
    if count = 0 then some (d, none)
    else some ({ d with writeBuf := d.readBuf, readBuf := d.writeBuf },
      some ((List.range count).map d.writeBuf))

/-- What a decoder can have become. -/
inductive Reachable : RSDecoder → Prop where
  | init (raw : ReedSolomon) (writeBuf readBuf : Nat → UInt8) :
      Reachable (init raw writeBuf readBuf)
  | run {d d' : RSDecoder} {input block : Nat → UInt8} {count : Nat}
      {sent : Option (List UInt8)} (h : Reachable d)
      (hd : d.run input count block = some (d', sent)) : Reachable d'

end RSDecoder

end RyFi.Modem
