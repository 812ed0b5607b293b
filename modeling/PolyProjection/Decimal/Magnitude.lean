/-! Finite binary floating point values as exact numbers, and their place among the powers of ten. -/

namespace PolyProjection

/-- The number `mantissa * 2 ^ exponent`. -/
structure Magnitude where
  mantissa : Nat
  exponent : Int
  deriving DecidableEq, Repr

/-- A fraction of natural numbers. -/
structure Fraction where
  num : Nat
  den : Nat
  deriving DecidableEq, Repr

namespace Fraction

/-- The fraction divided by a power of ten, which may be negative. -/
def divPow10 (x : Fraction) (k : Int) : Fraction :=
  ⟨x.num * Nat.pow 10 (-k).toNat, x.den * Nat.pow 10 k.toNat⟩

def floor (x : Fraction) : Nat :=
  x.num / x.den

/-- The nearest natural number, of two equally near ones the even one. -/
def roundEven (x : Fraction) : Nat :=
  let q := x.num / x.den
  let r := x.num % x.den
  if 2 * r < x.den ∨ 2 * r = x.den ∧ q % 2 = 0 then q else q + 1

end Fraction

/-- How many decimal digits `n` has; zero has one. -/
def decimalLength (n : Nat) : Nat :=
  (Nat.toDigits 10 n).length

namespace Magnitude

/-- The least mantissa of a normal number; its leading bit is not stored. -/
def hiddenBit : Nat :=
  Nat.pow 2 52

/-- The value of the exponent and fraction fields of a finite double; the sign is left out. -/
def ofBits (bits : UInt64) : Magnitude :=
  let fraction := bits.toNat % hiddenBit
  let field : Nat := bits.toNat / hiddenBit % 2048
  if field = 0 then ⟨fraction, -1074⟩ else ⟨fraction + hiddenBit, (field : Int) - 1075⟩

def toFraction (x : Magnitude) : Fraction :=
  ⟨x.mantissa * Nat.pow 2 x.exponent.toNat, Nat.pow 2 (-x.exponent).toNat⟩

/-- The least value that reads back as `x` when halves go to the neighbour with even mantissa. Below a power of
two the neighbours lie half as far apart, except at the smallest exponent. -/
def lower (x : Magnitude) : Magnitude :=
  if x.mantissa = hiddenBit ∧ -1074 < x.exponent then ⟨4 * x.mantissa - 1, x.exponent - 2⟩
  else ⟨2 * x.mantissa - 1, x.exponent - 1⟩

/-- The largest value that reads back as `x`. -/
def upper (x : Magnitude) : Magnitude :=
  ⟨2 * x.mantissa + 1, x.exponent - 1⟩

/-- The exponent `e` with `10 ^ e ≤ x < 10 ^ (e + 1)`, for a value that is not zero. -/
def exponent10 (x : Magnitude) : Int :=
  let f := x.toFraction
  let e : Int := (decimalLength f.num : Int) - decimalLength f.den
  let scaled := f.divPow10 e
  if scaled.den ≤ scaled.num then e else e - 1

end Magnitude

end PolyProjection
