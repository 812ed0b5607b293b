import PolyProjection.Decimal.Shortest

/-! The written forms of a floating point number. -/

namespace PolyProjection

/-- How the shortest digits are written. -/
structure NumberStyle where
  /-- Numbers from `10 ^ plainFrom` up to `10 ^ plainTo` are written without an exponent. -/
  plainFrom : Int
  plainTo : Int
  /-- Whether a nonnegative exponent has a sign. -/
  plusSign : Bool
  zero : String
  tie : Tie

namespace NumberStyle

/-- Stored data: plain from `10 ^ -5` up to `10 ^ 16`, always with a fraction. -/
def stored : NumberStyle := ⟨-5, 16, true, "0.0", .even⟩

/-- Messages: always with an exponent. -/
def scientific : NumberStyle := ⟨0, 0, false, "0e0", .up⟩

end NumberStyle

namespace Digits

/-- The digits of `n`, filled up on the left to the given width. -/
def padded (n width : Nat) : String :=
  let digits := Nat.repr n
  String.ofList (List.replicate (width - digits.length) '0') ++ digits

/-- A digit, a point and the other digits, if there are any, and the exponent. -/
def exponential (d : Digits) (plusSign : Bool) : String :=
  let digits := (Nat.repr d.coefficient).toList
  let e := d.exponent + (digits.length - 1 : Nat)
  let fraction := digits.drop 1
  String.ofList (digits.take 1) ++ (if fraction.isEmpty then "" else "." ++ String.ofList fraction) ++ "e" ++
    (if plusSign && 0 ≤ e then "+" else "") ++ toString e

/-- The digits with a point at its place and at least one digit on either side. -/
def plain (d : Digits) : String :=
  if 0 ≤ d.exponent then Nat.repr (d.coefficient * Nat.pow 10 d.exponent.toNat) ++ ".0"
  else
    let places := (-d.exponent).toNat
    let unit := Nat.pow 10 places
    Nat.repr (d.coefficient / unit) ++ "." ++ padded (d.coefficient % unit) places

end Digits

namespace Decimal

/-- The sign of a number, and the text of its absolute value where that is finite. -/
def signed (x : Float) (text : Magnitude → String) : String :=
  if x.isNaN then "NaN"
  else
    let sign := if x.toBits.toNat < Nat.pow 2 63 then "" else "-"
    if x.isInf then sign ++ "inf" else sign ++ text (Magnitude.ofBits x.toBits)

/-- The shortest digits that read back. -/
def shortest (style : NumberStyle) (x : Float) : String :=
  signed x fun v =>
    if v.mantissa = 0 then style.zero
    else
      let d := Digits.shortest v style.tie
      let e := d.exponent + (decimalLength d.coefficient - 1 : Nat)
      if style.plainFrom ≤ e ∧ e < style.plainTo then d.plain else d.exponential style.plusSign

/-- Scientific form with a fixed number of digits after the point. -/
def scientific (places : Nat) (x : Float) : String :=
  signed x fun v =>
    if v.mantissa = 0 then "0." ++ String.ofList (List.replicate places '0') ++ "e0"
    else (Digits.rounded v places).exponential false

/-- Plain form with a fixed number of digits after the point. -/
def fixed (places : Nat) (x : Float) : String :=
  signed x fun v =>
    let c := (v.toFraction.divPow10 (-places)).roundEven
    let unit := Nat.pow 10 places
    Nat.repr (c / unit) ++ "." ++ Digits.padded (c % unit) places

end Decimal

end PolyProjection
