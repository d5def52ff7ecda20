import RyFi.Rs.Polynomial
import Mathlib.Algebra.Group.Nat.Defs

/-! # The Reed-Solomon encoder and decoder

`reed-solomon.c`, `encode.c` and `decode.c`, without the erasures.  An `ssize_t` result is
an `Option`, `none` for -1.
-/

namespace RyFi.Rs

open CLoop

/-- `correct_reed_solomon`, with what the erasure method alone uses left out. -/
structure ReedSolomon where
  blockLength : Nat
  messageLength : Nat
  minDistance : Nat
  firstConsecutiveRoot : UInt8
  generatorRootGap : UInt8
  field : FieldT
  generator : PolynomialT
  generatorRoots : Nat → UInt8
  /-- Row `i` holds the logarithms of the powers of root `i`. -/
  generatorRootExp : Nat → Nat → UInt8
  encodedPolynomial : PolynomialT
  encodedRemainder : PolynomialT
  syndromes : Nat → UInt8
  receivedPolynomial : PolynomialT
  errorLocator : PolynomialT
  errorLocatorLog : PolynomialT
  errorRoots : Nat → UInt8
  errorVals : Nat → UInt8
  errorLocations : Nat → UInt8
  /-- Row `i` holds the logarithms of the powers of element `i`. -/
  elementExp : Nat → Nat → UInt8
  lastErrorLocator : PolynomialT
  errorEvaluator : PolynomialT
  errorLocatorDerivative : PolynomialT
  hasInitDecode : Bool
  deriving Inhabited

namespace ReedSolomon

/-! ## Instances -/

/-- `reed_solomon_build_generator`. -/
def buildGenerator (f : FieldT) (nroots : Nat) (firstConsecutiveRoot rootGap : UInt8)
    (generator : PolynomialT) (roots : Nat → UInt8) : PolynomialT × (Nat → UInt8) :=
  let roots := forLoop 0 nroots (fun i roots => Function.update roots i
    (f.exp (rootGap.toNat * (i + firstConsecutiveRoot.toNat) % 255))) roots
  (PolynomialT.createFromRoots f nroots roots generator, roots)

/-- `correct_reed_solomon_create`.  What it allocates, and what the first decode will
    allocate, holds the memory of `raw`. -/
def create (primitivePolynomial : UInt16) (firstConsecutiveRoot generatorRootGap : UInt8)
    (numRoots : Nat) (raw : ReedSolomon) : ReedSolomon :=
  let field := FieldT.create primitivePolynomial
  let generator := buildGenerator field numRoots firstConsecutiveRoot generatorRootGap
    raw.generator raw.generatorRoots
  { raw with
    field := field
    blockLength := 255
    minDistance := numRoots
    messageLength := 255 - numRoots
    firstConsecutiveRoot := firstConsecutiveRoot
    generatorRootGap := generatorRootGap
    generator := generator.1
    generatorRoots := generator.2
    encodedPolynomial := PolynomialT.create (255 - 1) raw.encodedPolynomial
    encodedRemainder := PolynomialT.create (255 - 1) raw.encodedRemainder
    hasInitDecode := false }

/-- `correct_reed_solomon_decoder_create`. -/
def decoderCreate (rs : ReedSolomon) : ReedSolomon :=
  { rs with
    hasInitDecode := true
    syndromes := setRange rs.syndromes 0 0 rs.minDistance
    receivedPolynomial := PolynomialT.create (rs.blockLength - 1) rs.receivedPolynomial
    errorLocator := PolynomialT.create rs.minDistance rs.errorLocator
    errorLocatorLog := PolynomialT.create rs.minDistance rs.errorLocatorLog
    errorRoots := setRange rs.errorRoots 0 0 (2 * rs.minDistance)
    lastErrorLocator := PolynomialT.create rs.minDistance rs.lastErrorLocator
    errorEvaluator := PolynomialT.create (rs.minDistance - 1) rs.errorEvaluator
    errorLocatorDerivative :=
      PolynomialT.create (rs.minDistance - 1) rs.errorLocatorDerivative
    generatorRootExp := forLoop 0 rs.minDistance (fun i exps =>
      Function.update exps i (PolynomialT.buildExpLut rs.field (rs.generatorRoots i)
        (rs.blockLength - 1) (exps i))) rs.generatorRootExp
    elementExp := forLoop 0 256 (fun i exps =>
      Function.update exps i (PolynomialT.buildExpLut rs.field (UInt8.ofNat i)
        (rs.minDistance - 1) (exps i))) rs.elementExp }

/-! ## Encoder -/

/-- `correct_reed_solomon_encode`: the instance, the result and the block written. -/
def encode (rs : ReedSolomon) (msg : Nat → UInt8) (msgLength : Nat) (encoded : Nat → UInt8) :
    ReedSolomon × Option Nat × (Nat → UInt8) :=
  if msgLength > rs.messageLength then (rs, none, encoded)
  else
    let padLength := rs.messageLength - msgLength
    let order := rs.encodedPolynomial.order
    -- message goes from high order to low order but libcorrect polynomials go low to high
    let coeff := forLoop 0 msgLength (fun i coeff =>
      Function.update coeff (order - (i + padLength)) (msg i)) rs.encodedPolynomial.coeff
    let coeff := setRange coeff (order + 1 - padLength) 0 padLength
    let coeff := setRange coeff 0 0 (order + 1 - rs.messageLength)
    let encodedPolynomial : PolynomialT := ⟨coeff, order⟩
    let encodedRemainder :=
      PolynomialT.mod rs.field encodedPolynomial rs.generator rs.encodedRemainder
    let encoded := forLoop 0 msgLength (fun i encoded =>
      Function.update encoded i (encodedPolynomial.coeff (order - (i + padLength)))) encoded
    let encoded := forLoop 0 rs.minDistance (fun i encoded =>
      Function.update encoded (msgLength + i)
        (encodedRemainder.coeff (rs.minDistance - (i + 1)))) encoded
    ({ rs with encodedPolynomial := encodedPolynomial, encodedRemainder := encodedRemainder },
      some rs.blockLength, encoded)

/-! ## Decoder -/

/-- `reed_solomon_find_syndromes`: whether all are zero, and the syndromes. -/
def findSyndromes (f : FieldT) (msgpoly : PolynomialT) (generatorRootExp : Nat → Nat → UInt8)
    (syndromes : Nat → UInt8) (minDistance : Nat) : Bool × (Nat → UInt8) :=
  forLoop 0 minDistance (fun i s =>
    let eval := PolynomialT.evalLut f msgpoly (generatorRootExp i)
    (if eval ≠ 0 then false else s.1, Function.update s.2 i eval))
    (true, setRange syndromes 0 0 minDistance)

/-- The variables of `reed_solomon_find_error_locator`. -/
structure LocatorSearch where
  errorLocator : PolynomialT
  lastErrorLocator : PolynomialT
  numerrors : Nat
  lastDiscrepancy : UInt8
  delayLength : Nat

namespace LocatorSearch

/-- The discrepancy of syndrome `i`. -/
def discrepancy (f : FieldT) (syndromes : Nat → UInt8) (i : Nat) (s : LocatorSearch) : UInt8 :=
  forLoop 1 (s.numerrors + 1) (fun j discrepancy =>
    FieldT.add discrepancy (f.mul (s.errorLocator.coeff j) (syndromes (i - j)))) (syndromes i)

/-- Coefficient `j` of the last locator, with the discrepancy eliminated. -/
def scaledLast (f : FieldT) (d : UInt8) (s : LocatorSearch) (last : Nat → UInt8) (j : Nat) :
    UInt8 :=
  f.div (f.mul (last j) d) s.lastDiscrepancy

/-- There's a discrepancy, but we still have room for more taps. -/
def lengthen (f : FieldT) (d : UInt8) (i : Nat) (s : LocatorSearch) : LocatorSearch :=
  let lastOrder := s.lastErrorLocator.order
  -- we move down because we're shifting up, and this prevents overwriting
  let last := forDown (lastOrder + 1) (fun j last =>
    Function.update last (j + s.delayLength) (s.scaledLast f d last j))
    s.lastErrorLocator.coeff
  let last := forDown s.delayLength (fun j last => Function.update last j 0) last
  -- locator = locator - last_locator, and last_locator = locator
  let swapped := forLoop 0 (lastOrder + s.delayLength + 1)
    (fun j (p : (Nat → UInt8) × (Nat → UInt8)) =>
      (Function.update p.1 j (FieldT.add (p.1 j) (p.2 j)), Function.update p.2 j (p.1 j)))
    (s.errorLocator.coeff, last)
  { errorLocator := ⟨swapped.1, lastOrder + s.delayLength⟩
    lastErrorLocator := ⟨swapped.2, s.errorLocator.order⟩
    numerrors := i + 1 - s.numerrors
    lastDiscrepancy := d
    delayLength := 1 }

/-- No more taps: the last locator is preserved. -/
def adjust (f : FieldT) (d : UInt8) (s : LocatorSearch) : LocatorSearch :=
  let lastOrder := s.lastErrorLocator.order
  { s with
    errorLocator :=
      { coeff := forDown (lastOrder + 1) (fun j coeff =>
          Function.update coeff (j + s.delayLength) (FieldT.add (coeff (j + s.delayLength))
            (s.scaledLast f d s.lastErrorLocator.coeff j))) s.errorLocator.coeff
        order := if lastOrder + s.delayLength > s.errorLocator.order then
            lastOrder + s.delayLength
          else s.errorLocator.order }
    delayLength := s.delayLength + 1 }

/-- One iteration of the loop of `reed_solomon_find_error_locator`. -/
def step (f : FieldT) (syndromes : Nat → UInt8) (i : Nat) (s : LocatorSearch) :
    LocatorSearch :=
  let d := s.discrepancy f syndromes i
  if d = 0 then { s with delayLength := s.delayLength + 1 }
  else if 2 * s.numerrors ≤ i then s.lengthen f d i
  else s.adjust f d

end LocatorSearch

/-- The locators of the instance as `reed_solomon_find_error_locator` sets them up. -/
def locatorStart (rs : ReedSolomon) : LocatorSearch :=
  let locator := Function.update (setRange rs.errorLocator.coeff 0 0 (rs.minDistance + 1)) 0 1
  { errorLocator := ⟨locator, 0⟩
    lastErrorLocator :=
      ⟨copyRange rs.lastErrorLocator.coeff 0 locator 0 (rs.minDistance + 1), 0⟩
    numerrors := 0
    lastDiscrepancy := 1
    delayLength := 1 }

/-- `reed_solomon_find_error_locator`: the instance and the order of the locator. -/
def findErrorLocator (rs : ReedSolomon) (numErasures : Nat) : ReedSolomon × Nat :=
  let s := forLoop 0 (rs.minDistance - numErasures)
    (LocatorSearch.step rs.field rs.syndromes) rs.locatorStart
  ({ rs with errorLocator := s.errorLocator, lastErrorLocator := s.lastErrorLocator },
    s.errorLocator.order)

/-- `reed_solomon_factorize_error_locator`: whether there are as many roots as the order
    says, and the roots. -/
def factorizeErrorLocator (f : FieldT) (numSkip : Nat) (locatorLog : PolynomialT)
    (roots : Nat → UInt8) (elementExp : Nat → Nat → UInt8) : Bool × (Nat → UInt8) :=
  let s := forLoop 0 256 (fun i (s : Nat × (Nat → UInt8)) =>
    if PolynomialT.evalLogLut f locatorLog (elementExp i) = 0 then
      (s.1 + 1, Function.update s.2 s.1 (UInt8.ofNat i))
    else s) (numSkip, setRange roots numSkip 0 locatorLog.order)
  (s.1 == locatorLog.order + numSkip, s.2)

/-- The location that belongs to a root: its reciprocal's first `generatorRootGap`-th root. -/
def errorLocation (f : FieldT) (generatorRootGap errorRoot : UInt8) : Option UInt8 :=
  let loc := f.div 1 errorRoot
  ((List.range 256).find? fun j => f.pow (UInt8.ofNat j) generatorRootGap.toNat == loc).map
    fun j => f.log j

/-- `reed_solomon_find_error_locations`. -/
def findErrorLocations (f : FieldT) (generatorRootGap : UInt8)
    (errorRoots errorLocations : Nat → UInt8) (numErrors : Nat) : Nat → UInt8 :=
  forLoop 0 numErrors (fun i errorLocations =>
    if errorRoots i = 0 then errorLocations
    else match errorLocation f generatorRootGap (errorRoots i) with
      | some location => Function.update errorLocations i location
      | none => errorLocations) errorLocations

/-- The evaluator and the derivative that `reed_solomon_find_error_values` first builds.
    `order - 1` is `unsigned`. -/
def evaluators (rs : ReedSolomon) : ReedSolomon :=
  let evaluator : PolynomialT :=
    { rs.errorEvaluator with
      coeff := setRange rs.errorEvaluator.coeff 0 0 (rs.errorEvaluator.order + 1) }
  { rs with
    errorEvaluator := PolynomialT.mul rs.field rs.errorLocator
      ⟨rs.syndromes, rs.minDistance - 1⟩ evaluator
    errorLocatorDerivative := PolynomialT.formalDerivative rs.errorLocator
      { rs.errorLocatorDerivative with
        order := (rs.errorLocator.order + (2 ^ 32 - 1)) % 2 ^ 32 } }

/-- The error value at a root of the locator. -/
def errorValue (rs : ReedSolomon) (root : UInt8) : UInt8 :=
  rs.field.mul (rs.field.pow root (rs.firstConsecutiveRoot.toNat - 1))
    (rs.field.div
      (PolynomialT.evalLut rs.field rs.errorEvaluator (rs.elementExp root.toNat))
      (PolynomialT.evalLut rs.field rs.errorLocatorDerivative (rs.elementExp root.toNat)))

/-- `reed_solomon_find_error_values`. -/
def findErrorValues (rs : ReedSolomon) : ReedSolomon :=
  let rs := rs.evaluators
  { rs with
    errorVals := forLoop 0 rs.errorLocator.order (fun i errorVals =>
      if rs.errorRoots i = 0 then errorVals
      else Function.update errorVals i (rs.errorValue (rs.errorRoots i))) rs.errorVals }

/-- What `correct_reed_solomon_decode` receives: the block, highest order first, and 0s. -/
def receive (rs : ReedSolomon) (encoded : Nat → UInt8) (encodedLength : Nat) : ReedSolomon :=
  let coeff := forLoop 0 encodedLength (fun i coeff =>
    Function.update coeff i (encoded (encodedLength - (i + 1)))) rs.receivedPolynomial.coeff
  { rs with
    receivedPolynomial :=
      { rs.receivedPolynomial with
        coeff := forLoop 0 (rs.blockLength - encodedLength) (fun i coeff =>
          Function.update coeff (i + encodedLength) 0) coeff } }

/-- The copy of the message out of the received polynomial. -/
def writeMessage (rs : ReedSolomon) (encodedLength msgLength : Nat) (msg : Nat → UInt8)
    (at_ : Nat) : Nat → UInt8 :=
  forLoop 0 msgLength (fun i msg => Function.update msg (at_ + i)
    (rs.receivedPolynomial.coeff (encodedLength - (i + 1)))) msg

/-- The locator in the form the search for its roots reads. -/
def takeLogs (rs : ReedSolomon) : ReedSolomon :=
  { rs with
    errorLocatorLog :=
      { coeff := forLoop 0 (rs.errorLocator.order + 1) (fun i coeff =>
          Function.update coeff i (rs.field.log (rs.errorLocator.coeff i).toNat))
          rs.errorLocatorLog.coeff
        order := rs.errorLocator.order } }

/-- The corrections of the received polynomial. -/
def correct (rs : ReedSolomon) : ReedSolomon :=
  { rs with
    receivedPolynomial :=
      { rs.receivedPolynomial with
        coeff := forLoop 0 rs.errorLocator.order (fun i coeff =>
          Function.update coeff (rs.errorLocations i).toNat
            (FieldT.sub (coeff (rs.errorLocations i).toNat) (rs.errorVals i)))
          rs.receivedPolynomial.coeff } }

/-- `correct_reed_solomon_decode` once the locator is found: the roots, the locations, the
    values, the corrections and the message. -/
def decodeErrors (rs : ReedSolomon) (encodedLength msgLength : Nat) (msg : Nat → UInt8)
    (at_ : Nat) : ReedSolomon × Option Nat × (Nat → UInt8) :=
  let rs := rs.takeLogs
  let (found, errorRoots) := factorizeErrorLocator rs.field 0 rs.errorLocatorLog rs.errorRoots
    rs.elementExp
  let rs := { rs with errorRoots := errorRoots }
  if !found then (rs, none, msg)
  else
    let rs := { rs with
      errorLocations := findErrorLocations rs.field rs.generatorRootGap rs.errorRoots
        rs.errorLocations rs.errorLocator.order }
    let rs := rs.findErrorValues.correct
    (rs, some msgLength, rs.writeMessage encodedLength msgLength msg at_)

/-- `correct_reed_solomon_decode`: the instance, the result and the memory of the message,
    which starts at `at_`.  Below the minimum distance, where `msg_length` wraps in the source,
    the message is empty here. -/
def decode (rs : ReedSolomon) (encoded : Nat → UInt8) (encodedLength : Nat)
    (msg : Nat → UInt8) (at_ : Nat) : ReedSolomon × Option Nat × (Nat → UInt8) :=
  if encodedLength > rs.blockLength then (rs, none, msg)
  else
    let msgLength := encodedLength - rs.minDistance
    let rs := if rs.hasInitDecode then rs else rs.decoderCreate
    let rs := rs.receive encoded encodedLength
    let (allZero, syndromes) := findSyndromes rs.field rs.receivedPolynomial
      rs.generatorRootExp rs.syndromes rs.minDistance
    let rs := { rs with syndromes := syndromes }
    if allZero then
      (rs, some msgLength, rs.writeMessage encodedLength msgLength msg at_)
    else
      let (rs, order) := rs.findErrorLocator 0
      let rs := { rs with errorLocator := { rs.errorLocator with order := order } }
      rs.decodeErrors encodedLength msgLength msg at_

end ReedSolomon

end RyFi.Rs
