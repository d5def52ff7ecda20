import RyFi.Lib.Loop
import RyFi.Lib.ShiftRegister
import Mathlib.Algebra.Order.Field.Rat

/-! # Framer and deframer

`Framer` and `Deframer` (framing.h, framing.cpp).  The samples are floats of which only the
operations are given (`SampleType`); no law of arithmetic is assumed.  A buffer exchange
(`stream::swap`) hands over the written block and continues on the other buffer; it fails
only when the writer is being stopped, which ends the worker and is left out.
-/

namespace RyFi.Modem

open CLoop

/-- The float operations the modem uses. -/
class SampleType (F : Type) extends Zero F, One F, Neg F, Add F, Sub F, Mul F where
  /-- `x > 0`. -/
  isPos : F → Bool
  /-- `0.070710678118f`. -/
  amplitude : F
  /-- `127.0f` and `128.0f`. -/
  scale : F
  offset : F
  /-- The conversion to `int`. -/
  toInt : F → Int

/-- `dsp::complex_t`. -/
structure ComplexT (F : Type) where
  re : F
  im : F
deriving DecidableEq

instance {F : Type} [SampleType F] : Mul (ComplexT F) where
  mul a b := ⟨a.re * b.re - a.im * b.im, a.im * b.re + a.re * b.im⟩

/-- Exact samples. -/
instance : SampleType Rat where
  isPos x := decide (0 < x)
  amplitude := 70710678118 / 1000000000000
  scale := 127
  offset := 128
  toInt x := x.num.tdiv x.den

/-! ## Synchronization words -/

def SYNC_WORD : BitVec 64 := 0x341CC540819D8963

def SYNC_BITS : Nat := 64

def SYNC_SYMS : Nat := SYNC_BITS / 2

@[match_pattern] def ROT_0_DEG : Nat := 0

@[match_pattern] def ROT_90_DEG : Nat := 1

@[match_pattern] def ROT_180_DEG : Nat := 2

def ROT_270_DEG : Nat := 3

/-- The symbols of a word, first one first: `(word >> i) & 0b11` for `i = 62, 60, …, 0`. -/
def wordSyms (word : BitVec 64) : List (BitVec 2) :=
  (List.range SYNC_SYMS).map fun k => (word >>> (62 - 2 * k)).setWidth 2

/-- A symbol rotated by 90 degrees. -/
def rotateSym (sym : BitVec 2) : BitVec 2 :=
  match sym.toNat with
  | 0b00 => 0b10
  | 0b01 => 0b00
  | 0b11 => 0b01
  | _ => 0b11

/-- `quad = (quad << 2) | rsym`, 32 times from an uninitialized `quad`. -/
def quadrature (quad : BitVec 64) : BitVec 64 :=
  ShiftRegister.shiftAll quad ((wordSyms SYNC_WORD).map rotateSym)

/-- The sync word in the four rotations, as the constructor computes it. -/
def syncRots (rot : Nat) : BitVec 64 :=
  match rot with
  | ROT_0_DEG => SYNC_WORD
  | ROT_90_DEG => quadrature 0
  | ROT_180_DEG => ~~~ SYNC_WORD
  | _ => ~~~ quadrature 0

/-! ## Framer -/

section

variable {F : Type} [SampleType F]

def QPSK_SYMBOLS (bits : BitVec 2) : ComplexT F :=
  match bits.toNat with
  | 0 => ⟨-SampleType.amplitude, -SampleType.amplitude⟩
  | 1 => ⟨-SampleType.amplitude, SampleType.amplitude⟩
  | 2 => ⟨SampleType.amplitude, -SampleType.amplitude⟩
  | _ => ⟨SampleType.amplitude, SampleType.amplitude⟩

namespace Framer

def syncSyms : List (ComplexT F) := (wordSyms SYNC_WORD).map QPSK_SYMBOLS

/-- Symbol `i` of the data: two bits, high ones first. -/
def dataBits (input : Nat → UInt8) (i : Nat) : BitVec 2 :=
  ((input (i >>> 2)).toBitVec >>> (6 - 2 * (i &&& 0b11))).setWidth 2

/-- The symbols `encode` writes for `count` bits; it returns their number. -/
def encode (input : Nat → UInt8) (count : Nat) : List (ComplexT F) :=
  syncSyms ++ (List.range (count / 2)).map fun i => QPSK_SYMBOLS (dataBits input i)

end Framer

/-! ## Deframer -/

/-- `symRots`. -/
def symRots (rot : Nat) : ComplexT F :=
  match rot with
  | ROT_0_DEG => ⟨1, 0⟩
  | ROT_90_DEG => ⟨0, -1⟩
  | ROT_180_DEG => ⟨-1, 0⟩
  | _ => ⟨0, 1⟩

/-- The number of symbols of a frame after its sync word. -/
def FRAME_SYMS : Nat := 8168

structure Deframer (F : Type) where
  recv : Nat
  outCount : Nat
  knownRot : Nat
  symRot : ComplexT F
  shift : BitVec 64
  writeBuf : Nat → ComplexT F
  readBuf : Nat → ComplexT F

namespace Deframer

/-- A new deframer; what the source does not initialize is arbitrary. -/
def init (symRot : ComplexT F) (shift : BitVec 64) (writeBuf readBuf : Nat → ComplexT F) :
    Deframer F where
  recv := 0
  outCount := 0
  knownRot := 0
  symRot := symRot
  shift := shift
  writeBuf := writeBuf
  readBuf := readBuf

/-- The number of bits in which two words differ. -/
def distance (a b : BitVec 64) : Nat :=
  (forLoop 0 64 (fun _ (s : Nat × BitVec 64 × BitVec 64) =>
    (s.1 + (if (s.2.1 &&& 1) ≠ (s.2.2 &&& 1) then 1 else 0), s.2.1 >>> 1, s.2.2 >>> 1))
    (0, a, b)).1

/-- The raw symbol, decided hard. -/
def hardSym (fsym : ComplexT F) : BitVec 2 :=
  (if SampleType.isPos fsym.re then 0b10 else 0b00) |||
    (if SampleType.isPos fsym.im then 0b01 else 0b00)

/-- Start reading in the symbols of a frame when rotation `(knownRot + i) & 0b11` is close. -/
def testRot (d : Deframer F) (i : Nat) : Deframer F :=
  let testRot := (d.knownRot + i) &&& 0b11
  if distance d.shift (syncRots testRot) < 6 then
    { d with knownRot := testRot, symRot := symRots testRot, recv := FRAME_SYMS, outCount := 0 }
  else d

/-- One symbol, and the block it completes. -/
def step (d : Deframer F) (sym : ComplexT F) : Deframer F × Option (List (ComplexT F)) :=
  if d.recv ≠ 0 then
    -- Copy the symbol to the output and rotate it
    let d := { d with
      writeBuf := Function.update d.writeBuf d.outCount (sym * d.symRot)
      outCount := d.outCount + 1
      recv := d.recv - 1 }
    -- Check if we're done receiving the frame, send it out
    if d.recv = 0 then
      ({ d with writeBuf := d.readBuf, readBuf := d.writeBuf },
        some ((List.range d.outCount).map d.writeBuf))
    else (d, none)
  else
    -- Push the symbol to the shift register, find the rotation starting with the last one
    let d := { d with shift := ShiftRegister.shiftIn d.shift (hardSym sym) }
    (forLoop 0 4 (fun i d => d.testRot i) d, none)

/-- One input buffer, and the blocks sent out. -/
def run (d : Deframer F) (input : List (ComplexT F)) :
    Deframer F × List (List (ComplexT F)) :=
  input.foldl (fun s sym => ((s.1.step sym).1, s.2 ++ (s.1.step sym).2.toList)) (d, [])

/-- A sequence of input buffers. -/
def runBuffers (d : Deframer F) (inputs : List (List (ComplexT F))) :
    Deframer F × List (List (ComplexT F)) :=
  inputs.foldl (fun s input => ((s.1.run input).1, s.2 ++ (s.1.run input).2)) (d, [])

/-- The states a new deframer can reach. -/
def Reachable (d : Deframer F) : Prop :=
  ∃ symRot shift writeBuf readBuf inputs,
    ((init symRot shift writeBuf readBuf).runBuffers inputs).1 = d

end Deframer

end

end RyFi.Modem
