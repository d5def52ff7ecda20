import RyFi.Rs.Field

/-! # Polynomials over the field

`polynomial.c`.  A `polynomial_t` is its buffer and its order; the functions take the
buffers they write as arguments and leave what they do not write as it was.
-/

namespace RyFi.Rs

open CLoop

/-- `polynomial_t`: coefficient `i` belongs to the `i`-th power. -/
structure PolynomialT where
  coeff : Nat → UInt8
  order : Nat
  deriving Inhabited

namespace PolynomialT

/-- `polynomial_create`, in memory that holds `raw`. -/
def create (order : Nat) (raw : PolynomialT) : PolynomialT := { raw with order := order }

/-- The inner loop of `polynomial_mul`. -/
def mulRow (f : FieldT) (l r : PolynomialT) (resOrder i : Nat) (res : Nat → UInt8) :
    Nat → UInt8 :=
  if i > resOrder then res
  else
    let jLimit := if r.order > resOrder - i then resOrder - i else r.order
    forLoop 0 (jLimit + 1) (fun j res => Function.update res (i + j)
      (FieldT.add (res (i + j)) (f.mul (l.coeff i) (r.coeff j)))) res

/-- `polynomial_mul`: the powers up to the order of `res`. -/
def mul (f : FieldT) (l r res : PolynomialT) : PolynomialT :=
  { res with
    coeff := forLoop 0 (l.order + 1) (mulRow f l r res.order)
      (setRange res.coeff 0 0 (res.order + 1)) }

/-- One iteration of the inner loop of `polynomial_mod`. -/
def modEntry (f : FieldT) (divisor : PolynomialT) (qOrder : Nat) (qCoeff : UInt8) (j : Nat)
    (mod : Nat → UInt8) : Nat → UInt8 :=
  if divisor.coeff j = 0 then mod
  else Function.update mod (j + qOrder)
    (FieldT.add (mod (j + qOrder)) (f.mulLogElement (f.log (divisor.coeff j).toNat) qCoeff))

/-- One step of the long division of `polynomial_mod`. -/
def modStep (f : FieldT) (divisor : PolynomialT) (i : Nat) (mod : Nat → UInt8) : Nat → UInt8 :=
  -- the `break`: the later `i` are smaller still
  if i < divisor.order then mod
  else if mod i = 0 then mod
  else
    let divisorLeading := f.log (divisor.coeff divisor.order).toNat
    let qOrder := i - divisor.order
    let qCoeff := FieldT.divLog (f.log (mod i).toNat) divisorLeading
    forLoop 0 (divisor.order + 1) (modEntry f divisor qOrder qCoeff) mod

/-- `polynomial_mod`: the loop runs from the order of the dividend down to 1. -/
def mod (f : FieldT) (dividend divisor res : PolynomialT) : PolynomialT :=
  if res.order < dividend.order then res
  else
    { res with
      coeff := forDown dividend.order (fun i => modStep f divisor (i + 1))
        (copyRange res.coeff 0 dividend.coeff 0 (dividend.order + 1)) }

/-- `polynomial_formal_derivative`. -/
def formalDerivative (poly der : PolynomialT) : PolynomialT :=
  { der with
    coeff := forLoop 0 (der.order + 1) (fun i coeff =>
      Function.update coeff i (FieldT.sum (poly.coeff (i + 1)) (i + 1)))
      (setRange der.coeff 0 0 (der.order + 1)) }

/-- `polynomial_eval_lut`. -/
def evalLut (f : FieldT) (poly : PolynomialT) (valExp : Nat → UInt8) : UInt8 :=
  if valExp 0 = 0 then poly.coeff 0
  else forLoop 0 (poly.order + 1) (fun i res =>
    if poly.coeff i ≠ 0 then
      FieldT.add res (f.mulLogElement (f.log (poly.coeff i).toNat) (valExp i))
    else res) 0

/-- `polynomial_eval_log_lut`: the coefficients are logarithms. -/
def evalLogLut (f : FieldT) (polyLog : PolynomialT) (valExp : Nat → UInt8) : UInt8 :=
  if valExp 0 = 0 then
    if polyLog.coeff 0 = 0 then 0 else f.exp (polyLog.coeff 0).toNat
  else forLoop 0 (polyLog.order + 1) (fun i res =>
    -- using 0 as a sentinel value in log
    if polyLog.coeff i ≠ 0 then
      FieldT.add res (f.mulLogElement (polyLog.coeff i) (valExp i))
    else res) 0

/-- One iteration of `polynomial_build_exp_lut`: the table and `val_exponentiated`. -/
def expLutStep (f : FieldT) (val : UInt8) (i : Nat) (s : (Nat → UInt8) × UInt8) :
    (Nat → UInt8) × UInt8 :=
  if val = 0 then (Function.update s.1 i 0, s.2)
  else (Function.update s.1 i s.2, FieldT.mulLog s.2 (f.log val.toNat))

/-- `polynomial_build_exp_lut`. -/
def buildExpLut (f : FieldT) (val : UInt8) (order : Nat) (valExp : Nat → UInt8) :
    Nat → UInt8 :=
  (forLoop 0 (order + 1) (expLutStep f val) (valExp, f.log 1)).1

/-- One more factor in `polynomial_create_from_roots`: `r[rcoeffres]` and the other store,
    which the product is written to, before they swap. -/
def rootsStep (f : FieldT) (roots : Nat → UInt8) (i : Nat) (r : PolynomialT × PolynomialT) :
    PolynomialT × PolynomialT :=
  let l : PolynomialT := ⟨fun k => if k = 0 then roots i else 1, 1⟩
  (mul f l r.1 { r.2 with order := i + 1 }, r.1)

/-- `polynomial_create_from_roots`. -/
def createFromRoots (f : FieldT) (nroots : Nat) (roots : Nat → UInt8) (raw : PolynomialT) :
    PolynomialT :=
  let first : PolynomialT :=
    ⟨Function.update (Function.update (fun _ => 0) 0 (roots 0)) 1 1, 1⟩
  let r := forLoop 1 nroots (rootsStep f roots) (first, ⟨fun _ => 0, 0⟩)
  ⟨copyRange raw.coeff 0 r.1.coeff 0 (nroots + 1), nroots⟩

end PolynomialT

end RyFi.Rs
