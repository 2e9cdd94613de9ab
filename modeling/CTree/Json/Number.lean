/-!
# Numbers of a JSON document

A whole number that fits 64 bits is kept exactly; every other number is the double
that the reader computed for it.
-/
namespace CTree.Json

inductive Number
  | natural (n : Nat)
  /-- The number `-(n + 1)`. -/
  | negative (n : Nat)
  | double (x : Float)
  deriving Repr, BEq

/-- A decimal numeral `significand * 10 ^ exponent` with its sign. -/
structure Numeral where
  negative : Bool
  significand : Nat
  exponent : Int
  deriving Repr, DecidableEq

namespace Numeral

/-- Multiplies a double by a power of ten in one rounding, after steps that bring
an exponent far below zero into the range of the doubles. There is no value past
the largest double. -/
def scale (x : Float) (exponent : Int) : Option Float :=
  if exponent.natAbs ≤ 308 then
    let power := Float.ofScientific 1 false exponent.natAbs
    if 0 ≤ exponent then
      let y := x * power
      if y.isInf then none else some y
    else some (x / power)
  else if x == 0 then some x
  else if 0 ≤ exponent then none
  else scale (x / 1e308) (exponent + 308)
termination_by exponent.natAbs
decreasing_by omega

/-- The double for a numeral that has a point or an exponent, or too many digits. -/
def toDouble? (numeral : Numeral) : Option Float :=
  (scale numeral.significand.toFloat numeral.exponent).map fun x =>
    if numeral.negative then -x else x

/-- The number of a numeral that has neither a point nor an exponent, and whose
digits fit 64 bits. Minus zero is a double, and so is what lies below the signed
integers. -/
def toWhole (numeral : Numeral) : Number :=
  if !numeral.negative then .natural numeral.significand
  else if numeral.significand = 0 then .double (-0.0)
  else if numeral.significand ≤ Nat.pow 2 63 then .negative (numeral.significand - 1)
  else .double (-numeral.significand.toFloat)

end Numeral
end CTree.Json
