import Scopewright.Number.Shortest

/-! # Whole numbers among doubles

The integer part of a double (`Number.truncate`), exact at any size, and the integer that a whole
double is (`Number.whole?`).

A number that comes from outside is a double: it need not be whole, and reckoning with it may
give no number at all.  Comparisons with what is no number fail; `Number.index` and `Number.lower`
say what it counts for. -/

namespace Scopewright
namespace Number

/-- The integer part of a positive double. -/
def Binary.floor (b : Binary) : Nat :=
  if b.exponent < 0 then b.mantissa / twoTo b.exponent.natAbs
  else b.mantissa * twoTo b.exponent.natAbs

/-- The double is below zero. -/
def isNegative (x : Float) : Bool := decide (twoTo 63 ≤ x.toBits.toNat)

/-- The integer part of a double, rounded towards zero. -/
def truncate (x : Float) : Int :=
  if isNegative x then -((Binary.ofFloat x).floor : Int) else (Binary.ofFloat x).floor

/-- The integer that a finite double is. -/
def whole? (x : Float) : Option Int :=
  let b := Binary.ofFloat x
  if x.isFinite && (decide (0 ≤ b.exponent) || decide (b.mantissa % twoTo b.exponent.natAbs = 0)) then
    some (truncate x)
  else none

/-! ### Numbers from outside -/

/-- No number. -/
def undefined : Float := 0.0 / 0.0

/-- The number of units that a double counts: its integer part, zero for negative ones and for no
number. -/
def index (x : Float) : Nat := if x.isNaN then 0 else (truncate x).toNat

/-- The lesser of two numbers, if both are numbers. -/
def lower (x y : Float) : Float :=
  if x.isNaN || y.isNaN then undefined else if y < x then y else x

/-- The number, or zero for a negative one. -/
def notNegative (x : Float) : Float := if x < 0 then 0 else x

/-- The number may count units for a client. -/
def isCount (x : Float) : Bool := decide (0 ≤ x) && decide (x ≤ 2147483647)

end Number
end Scopewright
