import PolyProjection.Decimal.Magnitude

/-! The fewest decimal digits that read back as a given double, and of these the nearest. For each number of
digits the two neighbours of the value on that decimal grid are tried. -/

namespace PolyProjection

/-- The number `coefficient * 10 ^ exponent`. -/
structure Digits where
  coefficient : Nat
  exponent : Int
  deriving DecidableEq, Repr

/-- Which of two equally near neighbours is taken. -/
inductive Tie where
  | even
  | up
  deriving DecidableEq, Repr

namespace Digits

/-- Zeros at the end of the coefficient go to the exponent; each step divides the coefficient by ten. -/
def strip (coefficient : Nat) (exponent : Int) : Digits :=
  if h : coefficient ≠ 0 ∧ coefficient % 10 = 0 then strip (coefficient / 10) (exponent + 1)
  else ⟨coefficient, exponent⟩
  termination_by coefficient
  decreasing_by omega

/-- Whether `c * 10 ^ k` reads back as `x`; the ends of the interval do so for an even mantissa. -/
def readsBack (x : Magnitude) (c : Nat) (k : Int) : Bool :=
  let lo := x.lower.toFraction.divPow10 k
  let hi := x.upper.toFraction.divPow10 k
  if x.mantissa % 2 = 0 then lo.num ≤ c * lo.den && c * hi.den ≤ hi.num
  else lo.num < c * lo.den && c * hi.den < hi.num

/-- The better of the neighbours `c` and `c + 1` of the value on the grid of `10 ^ k`, if one reads back. -/
def onGrid? (x : Magnitude) (tie : Tie) (k : Int) : Option Digits :=
  let scaled := x.toFraction.divPow10 k
  let c := scaled.floor
  let rest := 2 * (scaled.num % scaled.den)
  let down : Bool := rest < scaled.den || rest == scaled.den && tie == .even && c % 2 == 0
  match readsBack x c k, readsBack x (c + 1) k with
  | true, true => some (strip (if down then c else c + 1) k)
  | true, false => some (strip c k)
  | false, true => some (strip (c + 1) k)
  | false, false => none

/-- Seventeen digits tell any two doubles apart. -/
def maxCount : Nat := 17

/-- The shortest digits of a value that is not zero. -/
def shortest (x : Magnitude) (tie : Tie) : Digits :=
  let e := x.exponent10
  match (List.range maxCount).findSome? fun n => onGrid? x tie (e - (n : Nat)) with
  | some d => d
  | none => strip (x.toFraction.divPow10 (e - maxCount)).roundEven (e - maxCount)

/-- The value with `places + 1` significant digits, the rounding of the exact value. -/
def rounded (x : Magnitude) (places : Nat) : Digits :=
  let e := x.exponent10
  let c := (x.toFraction.divPow10 (e - places)).roundEven
  if c < Nat.pow 10 (places + 1) then ⟨c, e - places⟩ else ⟨c / 10, e - places + 1⟩

end Digits

end PolyProjection
