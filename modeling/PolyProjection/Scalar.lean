import PolyProjection.Fault

/-! Scalars. All numeric work is stated over a type with the operations below, so that one definition runs on
binary floating point and is reasoned about over an exact ordered field. -/

namespace PolyProjection

/-- Arithmetic with a decidable order. Infinite values are told apart because floating point reaches them by
overflow; an exact field has none. Floating point divides by every value, an exact field by every one but zero. -/
class Scalar (α : Type) extends Zero α, One α, Add α, Sub α, Mul α, Div α, Neg α, LT α, LE α, BEq α where
  decLt : DecidableLT α
  decLe : DecidableLE α
  abs : α → α
  isPosInf : α → Bool
  isNegInf : α → Bool
  isDivisor : α → Bool

namespace Scalar

variable {α : Type} [Scalar α]

instance : DecidableLT α := decLt

instance : DecidableLE α := decLe

/-- Only a value without a place in the order differs from itself. -/
def isNaN (x : α) : Bool :=
  !(x == x)

def isFinite (x : α) : Bool :=
  x == x && !isPosInf x && !isNegInf x

/-- The larger value, the second one of equals; a value without a place in the order gives way to the other one. -/
def max (a b : α) : α :=
  if a ≤ b ∨ isNaN a then b else a

/-- The smaller value, the second one of equals; a value without a place in the order gives way to the other one. -/
def min (a b : α) : α :=
  if b ≤ a ∨ isNaN a then b else a

/-- The quotient by a value that can be divided by. -/
def quotient (a b : α) : Checked α := do
  require (isDivisor b) .zeroDivisor
  return a / b

end Scalar

instance : Scalar Float where
  zero := 0
  one := 1
  decLt := fun a b => inferInstanceAs (Decidable (a < b))
  decLe := fun a b => inferInstanceAs (Decidable (a ≤ b))
  abs := Float.abs
  isPosInf := fun x => x == 1.0 / 0.0
  isNegInf := fun x => x == -1.0 / 0.0
  isDivisor := fun _ => true

end PolyProjection
