import RyFi.Conv.Lookup
import RyFi.Conv.HistoryBuffer

/-! # The convolutional encoder and decoder

`convolutional.c`, `encode.c` and `decode.c`.  The decoder's `sets` is a `size_t` in
`_convolutional_decode` but an `unsigned int` in the three phases it calls, so the phases
see it modulo 2^32.  Every function that has a NEON version takes the run-time choice
`neon`.
-/

namespace RyFi.Conv

open CLoop

inductive SoftMeasurement where
  | linear
  | quadratic
deriving DecidableEq

structure Convolutional where
  /-- Row `i` for every register `i` of `order` bits. -/
  table : Nat → Nat
  rate : Nat
  order : Nat
  numstates : Nat
  bitWriter : BitWriter
  bitReader : BitReader
  hasInitDecode : Bool
  distances : Nat → UInt16
  pairLookup : PairLookup
  softMeasurement : SoftMeasurement
  historyBuffer : HistoryBuffer
  errors : ErrorBuffer

/-- `correct_conv_r12_7_polynomial`. -/
def r12_7_polynomial (j : Nat) : Nat := if j = 0 then 0o161 else 0o127

namespace Convolutional

/-- What `_correct_convolutional_init` sets.  The parts of the decoder are set up by the
    first decode; until then they hold the memory of `raw`. -/
def initialized (rate order : Nat) (poly : Nat → Nat) (raw : Convolutional) : Convolutional :=
  { raw with
    order := order
    rate := rate
    numstates := 1 <<< order
    table := fillTable rate poly
    bitWriter := ⟨0, 0, fun _ => 0, 0, 0⟩
    bitReader := ⟨0, 0, 0, 0, fun _ => 0⟩
    hasInitDecode := false }

/-- `correct_convolutional_create`; `none` for a rate or an order out of range. -/
def create (rate order : Nat) (poly : Nat → Nat) (raw : Convolutional) : Option Convolutional :=
  if order > 32 then none
  else if rate < 2 then none
  else some (initialized rate order poly raw)

/-- Memory that happens to be zero. -/
def zeroed : Convolutional where
  table := fun _ => 0
  rate := 0
  order := 0
  numstates := 0
  bitWriter := ⟨0, 0, fun _ => 0, 0, 0⟩
  bitReader := ⟨0, 0, 0, 0, fun _ => 0⟩
  hasInitDecode := false
  distances := fun _ => 0
  pairLookup := ⟨fun _ => 0, fun _ => 0, 0, 0, 0, fun _ => 0⟩
  softMeasurement := .linear
  historyBuffer := ⟨0, 0, 0, 0, 0, fun _ _ => 0, 0, 0, fun _ => 0, 0, 0⟩
  errors := ⟨0, fun _ _ => 0, 0, 0, 0⟩

/-! ## Encoder -/

/-- `correct_convolutional_encode_len`. -/
def encodeLen (conv : Convolutional) (msgLen : Nat) : Nat :=
  conv.rate * (8 * msgLen + (conv.order + 1))

/-- One shift of the register and the output of its row. -/
def encodeBit (conv : Convolutional) (bit : Nat) (s : Nat × BitWriter) : Nat × BitWriter :=
  let shiftregister := ((s.1 <<< 1) ||| bit) &&& (1 <<< conv.order - 1)
  (shiftregister, s.2.write (UInt8.ofNat (conv.table shiftregister)) conv.rate)

/-- `correct_convolutional_encode`: the bytes written and the number of bits. -/
def encode (conv : Convolutional) (msg : Nat → UInt8) (msgLen : Nat) (encoded : Nat → UInt8) :
    (Nat → UInt8) × Nat :=
  let reader := BitReader.reconfigure msg msgLen
  let writer := BitWriter.reconfigure encoded ((conv.encodeLen msgLen + 7) / 8)
  let s := forLoop 0 (8 * msgLen) (fun _ (s : (Nat × BitWriter) × BitReader) =>
    (conv.encodeBit (s.2.read 1).1.toNat s.1, (s.2.read 1).2)) ((0, writer), reader)
  -- now flush the shiftregister: the new input is all 0s
  let s := forLoop 0 (conv.order + 1) (fun _ s => conv.encodeBit 0 s) s.1
  (s.2.flushByte.bytes, conv.encodeLen msgLen)

/-! ## Decoder -/

/-- The soft metric the instance is set to. -/
def softDistance (conv : Convolutional) (hardX : Nat) (softY : Nat → UInt8) : UInt16 :=
  match conv.softMeasurement with
  | .linear => metricSoftDistanceLinear hardX softY conv.rate
  | .quadratic => metricSoftDistanceQuadratic hardX softY conv.rate

/-- The input of time slice `i` of a soft decode. -/
def sliceOf (conv : Convolutional) (soft : Nat → UInt8) (i : Nat) : Nat → UInt8 :=
  fun k => soft (i * conv.rate + k)

/-- One time slice of `convolutional_decode_warmup`. -/
def warmupSlice (soft : Option (Nat → UInt8)) (i : Nat) (conv : Convolutional) :
    Convolutional :=
  let (dist, conv) : (Nat → UInt16) × Convolutional :=
    match soft with
    | some soft => (fun j => conv.softDistance (conv.table j) (conv.sliceOf soft i), conv)
    | none =>
      let (out, bitReader) := conv.bitReader.read conv.rate
      (fun j => metricDistance (conv.table j) out.toNat, { conv with bitReader := bitReader })
  let readErrors := conv.errors.readErrors
  -- walk all of the state we have so far
  let writeErrors := forLoop 0 (1 <<< (i + 1)) (fun j writeErrors =>
    Function.update writeErrors j (dist j + readErrors (j >>> 1))) conv.errors.writeErrors
  { conv with errors := (conv.errors.setWriteErrors writeErrors).swap }

/-- `convolutional_decode_warmup`. -/
def warmup (conv : Convolutional) (sets : Nat) (soft : Option (Nat → UInt8)) : Convolutional :=
  forLoop 0 (min (conv.order - 1) sets) (warmupSlice soft) conv

/-- The loop of the inner and the tail phase that fills `distances`. -/
def fillDistances (soft : Option (Nat → UInt8)) (i : Nat) (conv : Convolutional) :
    Convolutional :=
  match soft with
  | some soft =>
    { conv with
      distances := forLoop 0 (1 <<< conv.rate) (fun j distances =>
        Function.update distances j (conv.softDistance j (conv.sliceOf soft i))) conv.distances }
  | none =>
    let (out, bitReader) := conv.bitReader.read conv.rate
    { conv with
      bitReader := bitReader
      distances := forLoop 0 (1 <<< conv.rate) (fun j distances =>
        Function.update distances j (metricDistance j out.toNat)) conv.distances }

/-- The metric of a successor: the smaller of two sums, and whether the high one won. -/
def select (lowError highError : UInt16) : UInt16 × UInt8 :=
  if lowError ≤ highError then (lowError, 0) else (highError, 1)

/-- `write_errors` and `history`, filled together. -/
structure Slice where
  errors : Nat → UInt16
  history : Nat → UInt8

def Slice.store (s : Slice) (state : Nat) (r : UInt16 × UInt8) : Slice :=
  ⟨Function.update s.errors state r.1, Function.update s.history state r.2⟩

/-- The low and the high half of a pair of branch metrics. -/
def lowHalf (pair : UInt32) : UInt16 := (pair &&& 0xFFFF).toUInt16

def highHalf (pair : UInt32) : UInt16 := (pair >>> 16).toUInt16

/-- The scalar version of `convolutional_decode_acs`. -/
def acsScalar (pairs : PairLookup) (highbase : Nat) (readErrors : Nat → UInt16) (s : Slice) :
    Slice :=
  forLoop 0 highbase (fun p s =>
    let lowConcatDist := pairs.distances (pairs.keys p)
    let highConcatDist := pairs.distances (pairs.keys (highbase + p))
    let lowPastError := readErrors p
    let highPastError := readErrors (highbase + p)
    let s := s.store (2 * p)
      (select (lowHalf lowConcatDist + lowPastError) (lowHalf highConcatDist + highPastError))
    s.store (2 * p + 1)
      (select (highHalf lowConcatDist + lowPastError) (highHalf highConcatDist + highPastError)))
    s

/-- The packed pairs as 16-bit words in memory, low half first. -/
def halves (pairs : Nat → UInt32) (i : Nat) : UInt16 :=
  if i % 2 = 0 then lowHalf (pairs (i / 2)) else highHalf (pairs (i / 2))

/-- One iteration of the NEON version, on the successors of `p = 8 * c, …, 8 * c + 7`. -/
def acsLanes (pairs : PairLookup) (highbase : Nat) (readErrors : Nat → UInt16) (c : Nat)
    (s : Slice) : Slice :=
  let p := 8 * c
  let low := U16x8.load2 (halves fun k => pairs.distances (pairs.keys (p + k)))
  let high := U16x8.load2 (halves fun k => pairs.distances (pairs.keys (highbase + p + k)))
  let pastLow := U16x8.load fun k => readErrors (p + k)
  let pastHigh := U16x8.load fun k => readErrors (highbase + p + k)
  let lowEven := U16x8.add low.1 pastLow
  let highEven := U16x8.add high.1 pastHigh
  let lowOdd := U16x8.add low.2 pastLow
  let highOdd := U16x8.add high.2 pastHigh
  let one := U16x8.dup 1
  { errors := store2 s.errors (2 * p) (U16x8.min lowEven highEven) (U16x8.min lowOdd highOdd)
    -- history bit = 1 iff the high predecessor strictly won
    history := store2 s.history (2 * p)
      (U16x8.narrow (U16x8.and (U16x8.lt highEven lowEven) one))
      (U16x8.narrow (U16x8.and (U16x8.lt highOdd lowOdd) one)) }

/-- `convolutional_decode_acs`. -/
def acs (neon : Bool) (pairs : PairLookup) (highbase : Nat) (readErrors : Nat → UInt16)
    (s : Slice) : Slice :=
  if neon ∧ highbase % 8 = 0 then
    forLoop 0 (highbase / 8) (acsLanes pairs highbase readErrors) s
  else acsScalar pairs highbase readErrors s

/-- Hand a filled slice to the history buffer and swap the metrics. -/
def finishSlice (neon : Bool) (s : Slice) (skip : Nat) (conv : Convolutional) : Convolutional :=
  let r := (conv.historyBuffer.setSlice s.history).processSkip neon s.errors conv.bitWriter skip
  { conv with
    historyBuffer := r.buf
    bitWriter := r.output
    errors := (conv.errors.setWriteErrors r.distances).swap }

/-- The slice the next stores go to. -/
def currentSlice (conv : Convolutional) : Slice :=
  ⟨conv.errors.writeErrors, conv.historyBuffer.getSlice⟩

/-- One time slice of `convolutional_decode_inner`. -/
def innerSlice (neon : Bool) (soft : Option (Nat → UInt8)) (i : Nat) (conv : Convolutional) :
    Convolutional :=
  let highbit := 1 <<< (conv.order - 1)
  let conv := conv.fillDistances soft i
  let conv := { conv with pairLookup := conv.pairLookup.fillDistance conv.distances }
  conv.finishSlice neon
    (acs neon conv.pairLookup (highbit >>> 1) conv.errors.readErrors conv.currentSlice) 1

/-- `sets - conv->order + 1`, computed in `size_t`. -/
def innerEnd (sets order : Nat) : Nat := (2 ^ 64 + sets - order + 1) % 2 ^ 64

/-- The add-compare-select loop of the tail: ties select the high predecessor. -/
def tailAcs (table : Nat → Nat) (distances readErrors : Nat → UInt16) (highbit skip : Nat)
    (s : Slice) : Slice :=
  forLoop 0 ((highbit + skip - 1) / skip) (fun k s =>
    let low := k * skip
    let high := highbit + k * skip
    let base := k * (skip >>> 1)
    let lowError := distances (table low) + readErrors base
    let highError := distances (table high) + readErrors ((highbit >>> 1) + base)
    s.store low (if lowError < highError then (lowError, 0) else (highError, 1))) s

/-- One time slice of `convolutional_decode_tail`. -/
def tailSlice (neon : Bool) (sets : Nat) (soft : Option (Nat → UInt8)) (i : Nat)
    (conv : Convolutional) : Convolutional :=
  let highbit := 1 <<< (conv.order - 1)
  let conv := conv.fillDistances soft i
  let skip := 1 <<< (conv.order - (sets - i))
  conv.finishSlice neon
    (tailAcs conv.table conv.distances conv.errors.readErrors highbit skip conv.currentSlice)
    skip

/-- `_convolutional_decode_init`; `fetched` is the uninitialized memory of the history. -/
def decodeInit (minTraceback tracebackLength renormalizeInterval : Nat) (fetched : Nat → UInt8)
    (conv : Convolutional) : Convolutional :=
  { conv with
    hasInitDecode := true
    distances := fun _ => 0
    pairLookup := PairLookup.create conv.rate conv.order conv.table
    softMeasurement := .linear
    historyBuffer := HistoryBuffer.create minTraceback tracebackLength renormalizeInterval
      (conv.numstates / 2) (1 <<< (conv.order - 1)) fetched
    errors := ErrorBuffer.create conv.numstates }

/-- The instance when the phases begin. -/
def decodeStart (conv : Convolutional) (numEncodedBytes : Nat) (msg : Nat → UInt8) :
    Convolutional :=
  let conv :=
    if conv.hasInitDecode then conv
    else
      let renormalizeInterval := 0xFFFF / (conv.rate * 0xFF)
      conv.decodeInit (5 * conv.order) (15 * conv.order) renormalizeInterval
        conv.historyBuffer.fetched
  { conv with
    bitWriter := BitWriter.reconfigure msg numEncodedBytes
    errors := conv.errors.reset
    historyBuffer := conv.historyBuffer.reset }

/-- The inner and the tail phase and the flush. -/
def decodePhases (neon : Bool) (conv : Convolutional) (sets : Nat)
    (soft : Option (Nat → UInt8)) : Convolutional :=
  let conv := forLoop (conv.order - 1) (innerEnd sets conv.order) (innerSlice neon soft) conv
  let conv := forLoop (innerEnd sets conv.order % 2 ^ 32) sets (tailSlice neon sets soft) conv
  let r := conv.historyBuffer.flush conv.bitWriter
  { conv with historyBuffer := r.1, bitWriter := r.2 }

/-- `_convolutional_decode`.  The bound of the inner phase wraps when there are fewer sets
    than warmup slices; its 32-bit counter never gets there and the loop does not end:
    `none`. -/
def decodeSets (neon : Bool) (conv : Convolutional) (numEncodedBits numEncodedBytes : Nat)
    (msg : Nat → UInt8) (soft : Option (Nat → UInt8)) : Option (Convolutional × Nat) :=
  let sets := numEncodedBits / conv.rate % 2 ^ 32
  let conv := (conv.decodeStart numEncodedBytes msg).warmup sets soft
  if innerEnd sets conv.order < 2 ^ 32 then
    let conv := conv.decodePhases neon sets soft
    some (conv, conv.bitWriter.length)
  else none

/-- What a decode call returns: the result code, with the instance afterwards. -/
inductive Result where
  | error
  | never
  | done (conv : Convolutional) (length : Nat)

/-- `correct_convolutional_decode`, the hard decoder. -/
def decode (neon : Bool) (conv : Convolutional) (encoded : Nat → UInt8) (numEncodedBits : Nat)
    (msg : Nat → UInt8) : Result :=
  if numEncodedBits % conv.rate ≠ 0 then .error
  else
    let numEncodedBytes := (numEncodedBits + 7) / 8
    let conv := { conv with bitReader := BitReader.reconfigure encoded numEncodedBytes }
    match conv.decodeSets neon numEncodedBits numEncodedBytes msg none with
    | some (conv, length) => .done conv length
    | none => .never

/-- `correct_convolutional_decode_soft`. -/
def decodeSoft (neon : Bool) (conv : Convolutional) (encoded : Nat → UInt8)
    (numEncodedBits : Nat) (msg : Nat → UInt8) : Result :=
  if numEncodedBits % conv.rate ≠ 0 then .error
  else
    let numEncodedBytes := (numEncodedBits + 7) / 8
    match conv.decodeSets neon numEncodedBits numEncodedBytes msg (some encoded) with
    | some (conv, length) => .done conv length
    | none => .never

end Convolutional

end RyFi.Conv
