import RyFi.Rs.Decode

/-! # The accesses of a decode call

Every index that `correct_reed_solomon_decode` uses on a buffer, read or written, in the
order of the source, one list for each function.  The tables of the field are left out:
their indices are bytes, and sums of two bytes for the 512 powers.
-/

namespace RyFi.Rs

open CLoop PolynomialT

/-- What is indexed.  The exponent tables are arrays of rows, of which each is allocated on
    its own. -/
inductive Buffer where
  | encoded
  | msg
  | generatorRoots
  | syndromes
  | receivedPolynomial
  | errorLocator
  | lastErrorLocator
  | errorLocatorLog
  | errorRoots
  | errorVals
  | errorLocations
  | errorEvaluator
  | errorLocatorDerivative
  | generatorRootExp (row : Nat)
  | elementExp (row : Nat)

abbrev Access := Buffer × Nat

/-- `b[0]` to `b[n - 1]`. -/
def front (b : Buffer) (n : Nat) : List Access := (List.range n).map fun i => (b, i)

/-- The accesses of a loop. -/
def eachOf (n : Nat) (body : Nat → List Access) : List Access := (List.range n).flatMap body

/-- Every access is below the size of its buffer. -/
def Within (size : Buffer → Nat) (l : List Access) : Prop := ∀ a ∈ l, a.2 < size a.1

/-- `polynomial_eval_lut` and `polynomial_eval_log_lut`. -/
def evalAccesses (coeff : Buffer) (poly : PolynomialT) (row : Buffer) (valExp : Nat → UInt8) :
    List Access :=
  (row, 0) ::
    if valExp 0 = 0 then [(coeff, 0)]
    else eachOf (poly.order + 1) fun i =>
      (coeff, i) :: if poly.coeff i ≠ 0 then [(row, i)] else []

/-- `polynomial_mul`. -/
def mulAccesses (l r res : PolynomialT) (lCoeff rCoeff resCoeff : Buffer) : List Access :=
  front resCoeff (res.order + 1) ++
  eachOf (l.order + 1) fun i =>
    if i > res.order then []
    else eachOf ((if r.order > res.order - i then res.order - i else r.order) + 1) fun j =>
      [(resCoeff, i + j), (lCoeff, i), (rCoeff, j)]

/-- `polynomial_formal_derivative`. -/
def derivativeAccesses (der : PolynomialT) (derCoeff polyCoeff : Buffer) : List Access :=
  front derCoeff (der.order + 1) ++
  eachOf (der.order + 1) fun i => [(derCoeff, i), (polyCoeff, i + 1)]

namespace ReedSolomon

/-- What is allocated, for a block of `encodedLength` bytes. -/
def allocated (rs : ReedSolomon) (encodedLength : Nat) : Buffer → Nat
  | .encoded => encodedLength
  | .msg => encodedLength - rs.minDistance
  | .generatorRoots => rs.minDistance
  | .syndromes => rs.minDistance
  | .receivedPolynomial => rs.blockLength - 1 + 1
  | .errorLocator => rs.minDistance + 1
  | .lastErrorLocator => rs.minDistance + 1
  | .errorLocatorLog => rs.minDistance + 1
  | .errorRoots => 2 * rs.minDistance
  | .errorVals => rs.minDistance
  | .errorLocations => rs.minDistance
  | .errorEvaluator => rs.minDistance - 1 + 1
  | .errorLocatorDerivative => rs.minDistance - 1 + 1
  | .generatorRootExp row => if row < rs.minDistance then rs.blockLength else 0
  | .elementExp row => if row < 256 then rs.minDistance else 0

/-- `correct_reed_solomon_decoder_create`, called once. -/
def decoderCreateAccesses (rs : ReedSolomon) : List Access :=
  eachOf rs.minDistance (fun i =>
    (.generatorRoots, i) :: front (.generatorRootExp i) (rs.blockLength - 1 + 1)) ++
  eachOf 256 fun i => front (.elementExp i) (rs.minDistance - 1 + 1)

/-- The copy of the block and the padding. -/
def receiveAccesses (rs : ReedSolomon) (encodedLength : Nat) : List Access :=
  eachOf encodedLength (fun i =>
    [(.receivedPolynomial, i), (.encoded, encodedLength - (i + 1))]) ++
  eachOf (rs.blockLength - encodedLength) fun i => [(.receivedPolynomial, i + encodedLength)]

/-- `reed_solomon_find_syndromes`. -/
def syndromeAccesses (rs : ReedSolomon) : List Access :=
  front .syndromes rs.minDistance ++
  eachOf rs.minDistance fun i =>
    evalAccesses .receivedPolynomial rs.receivedPolynomial (.generatorRootExp i)
      (rs.generatorRootExp i) ++ [(.syndromes, i)]

namespace LocatorSearch

def discrepancyAccesses (i : Nat) (s : LocatorSearch) : List Access :=
  (.syndromes, i) :: eachOf s.numerrors fun j =>
    [(.errorLocator, j + 1), (.syndromes, i - (j + 1))]

def lengthenAccesses (s : LocatorSearch) : List Access :=
  eachOf (s.lastErrorLocator.order + 1) (fun j =>
    [(.lastErrorLocator, j), (.lastErrorLocator, j + s.delayLength)]) ++
  front .lastErrorLocator s.delayLength ++
  eachOf (s.lastErrorLocator.order + s.delayLength + 1) fun j =>
    [(.errorLocator, j), (.lastErrorLocator, j)]

def adjustAccesses (s : LocatorSearch) : List Access :=
  eachOf (s.lastErrorLocator.order + 1) fun j =>
    [(.lastErrorLocator, j), (.errorLocator, j + s.delayLength)]

def stepAccesses (f : FieldT) (syndromes : Nat → UInt8) (i : Nat) (s : LocatorSearch) :
    List Access :=
  s.discrepancyAccesses i ++
    if s.discrepancy f syndromes i = 0 then []
    else if 2 * s.numerrors ≤ i then s.lengthenAccesses
    else s.adjustAccesses

end LocatorSearch

/-- `reed_solomon_find_error_locator`. -/
def locatorAccesses (rs : ReedSolomon) : List Access :=
  front .errorLocator (rs.minDistance + 1) ++ [(.errorLocator, 0)] ++
  front .lastErrorLocator (rs.minDistance + 1) ++
  eachOf rs.minDistance fun i => LocatorSearch.stepAccesses rs.field rs.syndromes i
    (forLoop 0 i (LocatorSearch.step rs.field rs.syndromes) rs.locatorStart)

/-- The logarithms of the locator. -/
def logAccesses (rs : ReedSolomon) : List Access :=
  eachOf (rs.errorLocator.order + 1) fun i => [(.errorLocator, i), (.errorLocatorLog, i)]

/-- `root` of `reed_solomon_factorize_error_locator` before element `i`. -/
def rootsBefore (f : FieldT) (locatorLog : PolynomialT) (elementExp : Nat → Nat → UInt8)
    (i : Nat) : Nat :=
  forLoop 0 i (fun i root => if evalLogLut f locatorLog (elementExp i) = 0 then root + 1 else root)
    0

/-- `reed_solomon_factorize_error_locator`. -/
def factorizeAccesses (rs : ReedSolomon) : List Access :=
  front .errorRoots rs.errorLocatorLog.order ++
  eachOf 256 fun i =>
    evalAccesses .errorLocatorLog rs.errorLocatorLog (.elementExp i) (rs.elementExp i) ++
    if evalLogLut rs.field rs.errorLocatorLog (rs.elementExp i) = 0 then
      [(.errorRoots, rootsBefore rs.field rs.errorLocatorLog rs.elementExp i)]
    else []

/-- `reed_solomon_find_error_locations`. -/
def locationAccesses (rs : ReedSolomon) : List Access :=
  eachOf rs.errorLocator.order fun i =>
    (.errorRoots, i) ::
      if rs.errorRoots i = 0 then []
      else match errorLocation rs.field rs.generatorRootGap (rs.errorRoots i) with
        | some _ => [(.errorLocations, i)]
        | none => []

/-- `reed_solomon_find_error_values`. -/
def valueAccesses (rs : ReedSolomon) : List Access :=
  front .errorEvaluator (rs.errorEvaluator.order + 1) ++
  mulAccesses rs.errorLocator ⟨rs.syndromes, rs.minDistance - 1⟩ rs.errorEvaluator
    .errorLocator .syndromes .errorEvaluator ++
  derivativeAccesses rs.evaluators.errorLocatorDerivative .errorLocatorDerivative
    .errorLocator ++
  eachOf rs.errorLocator.order fun i =>
    (.errorRoots, i) ::
      if rs.errorRoots i = 0 then []
      else evalAccesses .errorEvaluator rs.evaluators.errorEvaluator
            (.elementExp (rs.errorRoots i).toNat) (rs.elementExp (rs.errorRoots i).toNat) ++
          evalAccesses .errorLocatorDerivative rs.evaluators.errorLocatorDerivative
            (.elementExp (rs.errorRoots i).toNat) (rs.elementExp (rs.errorRoots i).toNat) ++
          [(.errorVals, i)]

/-- The corrections. -/
def correctAccesses (rs : ReedSolomon) : List Access :=
  eachOf rs.errorLocator.order fun i =>
    [(.errorLocations, i), (.receivedPolynomial, (rs.errorLocations i).toNat), (.errorVals, i)]

/-- The copy of the message. -/
def messageAccesses (encodedLength msgLength : Nat) : List Access :=
  eachOf msgLength fun i => [(.msg, i), (.receivedPolynomial, encodedLength - (i + 1))]

/-- `correct_reed_solomon_decode` once the locator is found. -/
def errorAccesses (rs : ReedSolomon) (encodedLength msgLength : Nat) : List Access :=
  let rs := rs.takeLogs
  let (found, errorRoots) := factorizeErrorLocator rs.field 0 rs.errorLocatorLog rs.errorRoots
    rs.elementExp
  rs.logAccesses ++ rs.factorizeAccesses ++
    if !found then []
    else
      let rs := { rs with errorRoots := errorRoots }
      let located := { rs with
        errorLocations := findErrorLocations rs.field rs.generatorRootGap rs.errorRoots
          rs.errorLocations rs.errorLocator.order }
      rs.locationAccesses ++ located.valueAccesses ++ located.findErrorValues.correctAccesses ++
        messageAccesses encodedLength msgLength

/-- `correct_reed_solomon_decode`. -/
def decodeAccesses (rs : ReedSolomon) (encoded : Nat → UInt8) (encodedLength : Nat) :
    List Access :=
  if encodedLength > rs.blockLength then []
  else
    let msgLength := encodedLength - rs.minDistance
    (if rs.hasInitDecode then [] else rs.decoderCreateAccesses) ++
    let rs := (if rs.hasInitDecode then rs else rs.decoderCreate).receive encoded encodedLength
    let (allZero, syndromes) := findSyndromes rs.field rs.receivedPolynomial
      rs.generatorRootExp rs.syndromes rs.minDistance
    rs.receiveAccesses encodedLength ++ rs.syndromeAccesses ++
      let rs := { rs with syndromes := syndromes }
      if allZero then messageAccesses encodedLength msgLength
      else
        rs.locatorAccesses ++ (rs.findErrorLocator 0).1.errorAccesses encodedLength msgLength

/-- Every access of a decode call is within its allocation. -/
def InBounds (rs : ReedSolomon) (encoded : Nat → UInt8) (encodedLength : Nat) : Prop :=
  Within (rs.allocated encodedLength) (rs.decodeAccesses encoded encodedLength)

end ReedSolomon

end RyFi.Rs
