/-! Decimal numbers and the doubles nearest to them. -/

namespace PolyProjection

/-- The number `coefficient * 10 ^ exponent` with a sign, which zero has too. -/
structure Decimal where
  negative : Bool
  coefficient : Nat
  exponent : Int
  deriving DecidableEq, Repr

namespace Decimal

/-- Every double lies below `10 ^ 310`, and a number below `10 ^ -330` is nearer to zero than to any other. -/
def exponentBound : Int := 310

/-- The nearest double, infinite if the number is too large. The exponent is looked at first because the power
of ten is written out otherwise. -/
def toFloat (d : Decimal) : Float :=
  let top := d.exponent + (Nat.toDigits 10 d.coefficient).length
  let size : Float :=
    if d.coefficient = 0 ∨ top < -exponentBound - 20 then 0
    else if exponentBound < top then 1.0 / 0.0
    else Float.ofScientific d.coefficient (decide (d.exponent < 0)) d.exponent.natAbs
  if d.negative then -size else size

end Decimal

end PolyProjection
