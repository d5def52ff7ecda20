import RyFi.Lib.Loop

/-! # Arithmetic by logarithms

`field.h` of libcorrect.  A `field_element_t` and a `field_logarithm_t` are bytes; the
`uint16_t` indices (`field_operation_t`) never leave the table of 512 powers, so they are
natural numbers here.
-/

namespace RyFi.Rs

open CLoop

/-- `field_t`: 512 powers and 256 logarithms, the latter indexed by the element. -/
structure FieldT where
  exp : Nat → UInt8
  log : Nat → UInt8
  deriving Inhabited

/-- `correct_rs_primitive_polynomial_ccsds`: x^8 + x^7 + x^2 + x + 1. -/
def rs_primitive_polynomial_ccsds : UInt16 := 0x187

namespace FieldT

/-- From one power to the next, in the loop of `field_create`. -/
def nextElement (primitivePoly element : UInt16) : UInt16 :=
  let element := element * 2
  if element > 255 then element ^^^ primitivePoly else element

/-- One iteration of the loop of `field_create`. -/
def createStep (primitivePoly : UInt16) (i : Nat) (s : UInt16 × FieldT) : UInt16 × FieldT :=
  let element := nextElement primitivePoly s.1
  (element,
    { exp := Function.update s.2.exp i element.toUInt8
      log := if i < 256 then Function.update s.2.log element.toNat (UInt8.ofNat i)
        else s.2.log })

/-- `field_create`. -/
def create (primitivePoly : UInt16) : FieldT :=
  (forLoop 1 512 (createStep primitivePoly)
    (1, { exp := Function.update (fun _ => 0) 0 1
          -- really, it's undefined
          log := Function.update (fun _ => 0) 0 0 })).2

variable (f : FieldT)

/-- `field_add`. -/
def add (l r : UInt8) : UInt8 := l ^^^ r

/-- `field_sub`. -/
def sub (l r : UInt8) : UInt8 := l ^^^ r

/-- `field_sum`: `elem` added up `n` times. -/
def sum (elem : UInt8) (n : Nat) : UInt8 := if n % 2 ≠ 0 then elem else 0

/-- `field_mul`. -/
def mul (l r : UInt8) : UInt8 :=
  if l = 0 ∨ r = 0 then 0 else f.exp ((f.log l.toNat).toNat + (f.log r.toNat).toNat)

/-- `field_div`. -/
def div (l r : UInt8) : UInt8 :=
  if l = 0 then 0
  else if r = 0 then 0
  else f.exp (255 + (f.log l.toNat).toNat - (f.log r.toNat).toNat)

/-- `field_mul_log`. -/
def mulLog (l r : UInt8) : UInt8 :=
  let res := l.toNat + r.toNat
  if res > 255 then UInt8.ofNat (res - 255) else UInt8.ofNat res

/-- `field_div_log`. -/
def divLog (l r : UInt8) : UInt8 :=
  let res := 255 + l.toNat - r.toNat
  if res > 255 then UInt8.ofNat (res - 255) else UInt8.ofNat res

/-- `field_mul_log_element`. -/
def mulLogElement (l r : UInt8) : UInt8 := f.exp (l.toNat + r.toNat)

/-- `field_pow`. -/
def pow (elem : UInt8) (pow : Int) : UInt8 :=
  let log := f.log elem.toNat
  let resLog : Int := log.toNat * pow
  let mod := resLog.tmod 255
  let mod := if mod < 0 then mod + 255 else mod
  f.exp mod.toNat

end FieldT

end RyFi.Rs
