import PolyProjection.Scalar

/-! Ends of intervals, which may be infinite, and their order among scalars. A scalar that overflowed takes part
in that order as an infinite value, and one without a place in the order lies on no side of anything. -/

namespace PolyProjection

/-- The end of an interval. -/
inductive Bound (α : Type) where
  | negInf
  | finite (value : α)
  | posInf
  deriving DecidableEq, Repr

namespace Bound

variable {α : Type} [Scalar α]

/-- The bound with the value of a scalar. -/
def ofScalar (x : α) : Bound α :=
  if Scalar.isPosInf x then posInf else if Scalar.isNegInf x then negInf else finite x

/-- The value of a finite bound. -/
def value? : Bound α → Option α
  | finite v => some v
  | _ => none

/-- The bound with `f` applied to a finite value. -/
def map (f : α → α) : Bound α → Bound α
  | negInf => negInf
  | finite v => finite (f v)
  | posInf => posInf

def isFinite (b : Bound α) : Bool :=
  b.value?.any Scalar.isFinite

/-- Whether `x` lies below the bound. -/
def exceeds (b : Bound α) (x : α) : Bool :=
  match b with
  | negInf => false
  | finite v => x < v
  | posInf => !Scalar.isNaN x && !Scalar.isPosInf x

/-- Whether `x` lies below the bound or on it. -/
def covers (b : Bound α) (x : α) : Bool :=
  match b with
  | negInf => Scalar.isNegInf x
  | finite v => x ≤ v
  | posInf => !Scalar.isNaN x

/-- Whether `x` lies above the bound. -/
def exceededBy (b : Bound α) (x : α) : Bool :=
  match b with
  | negInf => !Scalar.isNaN x && !Scalar.isNegInf x
  | finite v => v < x
  | posInf => false

/-- Whether `x` lies above the bound or on it. -/
def coveredBy (b : Bound α) (x : α) : Bool :=
  match b with
  | negInf => !Scalar.isNaN x
  | finite v => v ≤ x
  | posInf => Scalar.isPosInf x

/-- Whether the two ends enclose an interval with a point in it: they are in order, and neither end is infinite
on the wrong side. -/
def isInterval (l u : Bound α) : Bool :=
  match l, u with
  | negInf, finite v => !Scalar.isNaN v
  | negInf, posInf => true
  | finite v, finite w => v ≤ w
  | finite v, posInf => !Scalar.isNaN v
  | _, _ => false

/-- Whether the interval is a single point. -/
def isPoint (l u : Bound α) : Bool :=
  match l, u with
  | finite v, finite w => v == w
  | _, _ => false

/-- The point of the interval that is nearest to `x`. -/
def clamp (x : α) (lo hi : Bound α) : α :=
  match lo, hi with
  | finite l, finite h => if x < l then l else if h < x then h else x
  | finite l, _ => if x < l then l else x
  | _, finite h => if h < x then h else x
  | _, _ => x

end Bound

end PolyProjection
