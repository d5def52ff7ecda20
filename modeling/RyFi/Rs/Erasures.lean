import RyFi.Rs.ReedSolomon

/-! # The Reed-Solomon decoder with erasures

`correct_reed_solomon_decode_with_erasures` and what it alone uses of `decode.c` and
`polynomial.c`.
-/

namespace RyFi.Rs

open CLoop

/-- `polynomial_init_from_roots`: the polynomial, and what the two stores are left with. -/
def PolynomialT.initFromRoots (f : FieldT) (nroots : Nat) (roots : Nat → UInt8)
    (poly : PolynomialT) (scratch : PolynomialT × PolynomialT) :
    PolynomialT × PolynomialT × PolynomialT :=
  let first : PolynomialT :=
    ⟨Function.update (Function.update scratch.1.coeff 1 1) 0 (roots 0), 1⟩
  let r := forLoop 1 nroots (PolynomialT.rootsStep f roots) (first, scratch.2)
  -- the stores swap with every further factor
  let stores := if nroots % 2 = 1 then r else (r.2, r.1)
  (⟨copyRange poly.coeff 0 r.1.coeff 0 (nroots + 1), nroots⟩,
    { scratch.1 with coeff := stores.1.coeff }, { scratch.2 with coeff := stores.2.coeff })

/-- `correct_reed_solomon` with what the erasure method alone uses. -/
structure ErasureDecoder extends ReedSolomon where
  modifiedSyndromes : Nat → UInt8
  erasureLocator : PolynomialT
  initFromRootsScratch : PolynomialT × PolynomialT
  deriving Inhabited

namespace ErasureDecoder

/-- `correct_reed_solomon_create`. -/
def create (primitivePolynomial : UInt16) (firstConsecutiveRoot generatorRootGap : UInt8)
    (numRoots : Nat) (raw : ErasureDecoder) : ErasureDecoder :=
  { raw with
    toReedSolomon := ReedSolomon.create primitivePolynomial firstConsecutiveRoot generatorRootGap
      numRoots raw.toReedSolomon }

/-- `correct_reed_solomon_decoder_create`. -/
def decoderCreate (d : ErasureDecoder) : ErasureDecoder where
  toReedSolomon := d.toReedSolomon.decoderCreate
  modifiedSyndromes := setRange d.modifiedSyndromes 0 0 (2 * d.minDistance)
  erasureLocator := PolynomialT.create d.minDistance d.erasureLocator
  initFromRootsScratch := (PolynomialT.create d.minDistance d.initFromRootsScratch.1,
    PolynomialT.create d.minDistance d.initFromRootsScratch.2)

/-- `correct_reed_solomon_encode`. -/
def encode (d : ErasureDecoder) (msg : Nat → UInt8) (msgLength : Nat) (encoded : Nat → UInt8) :
    ErasureDecoder × Option Nat × (Nat → UInt8) :=
  let r := d.toReedSolomon.encode msg msgLength encoded
  ({ d with toReedSolomon := r.1 }, r.2)

/-- `correct_reed_solomon_decode`: the first call allocates what the erasure method uses, too. -/
def decode (d : ErasureDecoder) (encoded : Nat → UInt8) (encodedLength : Nat)
    (msg : Nat → UInt8) (at_ : Nat) : ErasureDecoder × Option Nat × (Nat → UInt8) :=
  let r := d.toReedSolomon.decode encoded encodedLength msg at_
  let d := if encodedLength > d.blockLength then d
    else if d.hasInitDecode then d else d.decoderCreate
  ({ d with toReedSolomon := r.1 }, r.2)

/-- The coordinate of an erasure in the received polynomial.  The difference is a `size_t` that
    is cut to a byte. -/
def remap (blockLength padLength : Nat) (location : UInt8) : UInt8 :=
  UInt8.ofNat (blockLength + 2 ^ 64 - (location.toNat + padLength + 1))

/-- `reed_solomon_find_error_roots_from_locations`. -/
def findErrorRootsFromLocations (f : FieldT) (generatorRootGap : UInt8)
    (errorLocations errorRoots : Nat → UInt8) (numErrors : Nat) : Nat → UInt8 :=
  forLoop 0 numErrors (fun i errorRoots => Function.update errorRoots i
    (f.div 1 (f.pow (f.exp (errorLocations i).toNat) generatorRootGap.toNat))) errorRoots

/-- The locations, the roots and the locator of the erasures. -/
def takeErasures (d : ErasureDecoder) (erasureLocations : Nat → UInt8)
    (erasureLength padLength : Nat) : ErasureDecoder :=
  let errorLocations := forLoop 0 erasureLength (fun i errorLocations =>
    Function.update errorLocations i (remap d.blockLength padLength (erasureLocations i)))
    d.errorLocations
  let errorRoots := findErrorRootsFromLocations d.field d.generatorRootGap errorLocations
    d.errorRoots erasureLength
  let init := PolynomialT.initFromRoots d.field erasureLength errorRoots d.erasureLocator
    d.initFromRootsScratch
  { d with
    errorLocations := errorLocations
    errorRoots := errorRoots
    erasureLocator := init.1
    initFromRootsScratch := init.2 }

/-- `reed_solomon_find_modified_syndromes`, and the shift that leaves the erasures out. -/
def modifySyndromes (d : ErasureDecoder) (erasureLength : Nat) : ErasureDecoder :=
  let modified := (PolynomialT.mul d.field d.erasureLocator ⟨d.syndromes, d.minDistance - 1⟩
    ⟨d.modifiedSyndromes, d.minDistance - 1⟩).coeff
  { d with
    modifiedSyndromes := modified
    syndromes := forLoop erasureLength d.minDistance (fun i syndromes =>
      Function.update syndromes (i - erasureLength) (modified i)) d.syndromes }

/-- What follows the search for the locator of the errors that are no erasures: its roots behind
    those of the erasures, then the locations, the values and the corrections of both, by the
    product of the locators and by the syndromes themselves. -/
def decodeErrors (d : ErasureDecoder) (syndromeCopy : Nat → UInt8)
    (encodedLength erasureLength msgLength : Nat) (msg : Nat → UInt8) (at_ : Nat) :
    ErasureDecoder × Option Nat × (Nat → UInt8) :=
  let rs := d.toReedSolomon.takeLogs
  let (found, errorRoots) := ReedSolomon.factorizeErrorLocator rs.field erasureLength
    rs.errorLocatorLog rs.errorRoots rs.elementExp
  let rs := { rs with errorRoots := errorRoots }
  if !found then ({ d with toReedSolomon := rs }, none, msg)
  else
    let placeholder := rs.errorLocator
    let errorLocator := PolynomialT.mul rs.field d.erasureLocator rs.errorLocator
      ⟨fun _ => 0, rs.errorLocator.order + erasureLength⟩
    let rs := { rs with
      errorLocator := errorLocator
      errorLocations := ReedSolomon.findErrorLocations rs.field rs.generatorRootGap rs.errorRoots
        rs.errorLocations errorLocator.order
      syndromes := copyRange rs.syndromes 0 syndromeCopy 0 rs.minDistance }
    let rs := rs.findErrorValues.correct
    let rs := { rs with errorLocator := placeholder }
    ({ d with toReedSolomon := rs }, some msgLength,
      rs.writeMessage encodedLength msgLength msg at_)

/-- `correct_reed_solomon_decode_with_erasures`: the instance, the result and the memory of the
    message, which starts at `at_`.  Below the minimum distance, where `msg_length` wraps in the
    source, the message is empty here. -/
def decodeWithErasures (d : ErasureDecoder) (encoded : Nat → UInt8) (encodedLength : Nat)
    (erasureLocations : Nat → UInt8) (erasureLength : Nat) (msg : Nat → UInt8) (at_ : Nat) :
    ErasureDecoder × Option Nat × (Nat → UInt8) :=
  if erasureLength = 0 then d.decode encoded encodedLength msg at_
  else if encodedLength > d.blockLength then (d, none, msg)
  else if erasureLength > d.minDistance then (d, none, msg)
  else
    let msgLength := encodedLength - d.minDistance
    let d := if d.hasInitDecode then d else d.decoderCreate
    let d := { d with toReedSolomon := d.toReedSolomon.receive encoded encodedLength }
    let d := d.takeErasures erasureLocations erasureLength (d.blockLength - encodedLength)
    let (allZero, syndromes) := ReedSolomon.findSyndromes d.field d.receivedPolynomial
      d.generatorRootExp d.syndromes d.minDistance
    let d := { d with syndromes := syndromes }
    if allZero then
      (d, some msgLength, d.toReedSolomon.writeMessage encodedLength msgLength msg at_)
    else
      let d := d.modifySyndromes erasureLength
      let (rs, order) := d.toReedSolomon.findErrorLocator erasureLength
      let d := { d with
        toReedSolomon := { rs with errorLocator := { rs.errorLocator with order := order } } }
      d.decodeErrors syndromes encodedLength erasureLength msgLength msg at_

/-- What a program can hold: a new instance, or one after any calls. -/
inductive Reachable : ErasureDecoder → Prop where
  | create (raw : ErasureDecoder) : Reachable (create rs_primitive_polynomial_ccsds 1 1 32 raw)
  | encode {d : ErasureDecoder} (h : Reachable d) (msg : Nat → UInt8) (msgLength : Nat)
      (encoded : Nat → UInt8) : Reachable (d.encode msg msgLength encoded).1
  | decode {d : ErasureDecoder} (h : Reachable d) (encoded : Nat → UInt8) (encodedLength : Nat)
      (msg : Nat → UInt8) (at_ : Nat) : Reachable (d.decode encoded encodedLength msg at_).1
  | decodeWithErasures {d : ErasureDecoder} (h : Reachable d) (encoded : Nat → UInt8)
      (encodedLength : Nat) (erasureLocations : Nat → UInt8) (erasureLength : Nat)
      (msg : Nat → UInt8) (at_ : Nat) : Reachable (d.decodeWithErasures encoded encodedLength
        erasureLocations erasureLength msg at_).1

end ErasureDecoder

end RyFi.Rs
