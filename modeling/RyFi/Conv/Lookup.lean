import RyFi.Lib.Loop

/-! # Branch metrics and output tables

`metric.h`, `metric.c` and `lookup.c`.  A `distance_t` is 16 bits wide and wraps; tables are
memories.  Soft input starts at the pointer the caller passes.
-/

namespace RyFi.Conv

open CLoop

/-! ## Metrics -/

/-- `popcount` of an `unsigned int`. -/
def popcount (x : Nat) : Nat := ((List.range 32).filter fun i => x.testBit i).length

/-- `metric_distance`. -/
def metricDistance (x y : Nat) : UInt16 := UInt16.ofNat (popcount (x ^^^ y))

/-- The soft value of the lowest bit: 0 or 255. -/
def softX (hardX : Nat) : Int := if hardX % 2 = 1 then 255 else 0

/-- `metric_soft_distance_linear`. -/
def metricSoftDistanceLinear (hardX : Nat) (softY : Nat → UInt8) (len : Nat) : UInt16 :=
  (forLoop 0 len (fun i (s : Nat × UInt16) =>
    let d : Int := (softY i).toNat - softX s.1
    (s.1 >>> 1, s.2 + UInt16.ofNat d.natAbs)) (hardX, 0)).2

/-- `metric_soft_distance_quadratic`. -/
def metricSoftDistanceQuadratic (hardX : Nat) (softY : Nat → UInt8) (len : Nat) : UInt16 :=
  (forLoop 0 len (fun i (s : Nat × UInt16) =>
    let d : Int := (softY i).toNat - softX s.1
    (s.1 >>> 1, s.2 + UInt16.ofNat (d * d).natAbs)) (hardX, 0)).2 >>> 3

/-! ## Tables -/

/-- Row `i` of `fill_table`: one output bit per polynomial, the first one lowest. -/
def fillTable (rate : Nat) (poly : Nat → Nat) (i : Nat) : Nat :=
  (forLoop 0 rate (fun j (s : Nat × Nat) =>
    (s.1 ||| (if popcount (i &&& poly j) % 2 ≠ 0 then s.2 else 0), s.2 <<< 1)) (0, 1)).1

structure PairLookup where
  keys : Nat → Nat
  outputs : Nat → Nat
  outputMask : Nat
  outputWidth : Nat
  outputsLen : Nat
  distances : Nat → UInt32

/-- The variables of the loop of `pair_lookup_create`. -/
structure PairFill where
  keys : Nat → Nat
  outputs : Nat → Nat
  invOutputs : Nat → Nat
  outputCounter : Nat

/-- Assign a key to the outputs of the registers `2 * i` and `2 * i + 1`. -/
def PairFill.assign (rate : Nat) (table : Nat → Nat) (i : Nat) (s : PairFill) : PairFill :=
  let out := (table (i * 2 + 1) <<< rate) ||| table (i * 2)
  let s :=
    if s.invOutputs out = 0 then
      { s with
        invOutputs := Function.update s.invOutputs out s.outputCounter
        outputs := Function.update s.outputs s.outputCounter out
        outputCounter := s.outputCounter + 1 }
    else s
  { s with keys := Function.update s.keys i (s.invOutputs out) }

namespace PairLookup

/-- `pair_lookup_create`. -/
def create (rate order : Nat) (table : Nat → Nat) : PairLookup :=
  let s := forLoop 0 (1 <<< (order - 1)) (PairFill.assign rate table)
    ⟨fun _ => 0, fun _ => 0, fun _ => 0, 1⟩
  { keys := s.keys
    outputs := s.outputs
    outputMask := (1 <<< rate) - 1
    outputWidth := rate
    outputsLen := s.outputCounter
    distances := fun _ => 0 }

/-- `pair_lookup_fill_distance`. -/
def fillDistance (pairs : PairLookup) (distances : Nat → UInt16) : PairLookup :=
  { pairs with
    distances := forLoop 1 pairs.outputsLen (fun i pairDistances =>
      let concatOut := pairs.outputs i
      let i0 := concatOut &&& pairs.outputMask
      let i1 := concatOut >>> pairs.outputWidth
      Function.update pairDistances i
        (((distances i1).toUInt32 <<< 16) ||| (distances i0).toUInt32)) pairs.distances }

end PairLookup

end RyFi.Conv
