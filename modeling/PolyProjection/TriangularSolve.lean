import PolyProjection.Factor.Basic
import PolyProjection.IndexList

/-! Forward and back substitution over the active rows of a range. Entries of the factor below the range are not
part of the system. Two or three successive columns with the same rows below them are solved together. -/

namespace PolyProjection

/-- How many successive columns are solved together. -/
inductive ChainLength where
  | one
  | two
  | three
  deriving DecidableEq, Repr

namespace LdlFactor

variable {α : Type} [Scalar α]

/-- Whether the rows of column `j` are `k` followed by those of column `k`. -/
def continues (f : LdlFactor α) (j k : Nat) : Checked Bool :=
  return (← f.live j).map Prod.fst == k :: (← f.live k).map Prod.fst

/-- The active row after `j`, none at or after `bottom`. -/
def nextBelow (rows : IndexList) (j bottom : Nat) : Checked (Option Nat) :=
  return (← rows.after j).filter (· < bottom)

/-- The active row before `j`, none before `top`. -/
def prevFrom (rows : IndexList) (j top : Nat) : Checked (Option Nat) :=
  return (← rows.before j).filter (top ≤ ·)

/-- The chain of columns that starts at `j` and ends before `bottom`. -/
def detectChain (f : LdlFactor α) (rows : IndexList) (j bottom : Nat) : Checked ChainLength := do
  match ← nextBelow rows j bottom with
  | none => return .one
  | some j2 =>
    if !(← f.continues j j2) then return .one
    match ← nextBelow rows j2 bottom with
    | none => return .two
    | some j3 => if ← f.continues j2 j3 then return .three else return .two

/-- The entries of a column in the rows before `bottom`. -/
def before (bottom : Nat) (column : List (Nat × α)) : List (Nat × α) :=
  column.takeWhile (·.1 < bottom)

/-- Subtract from `x` the multiples `x1` of a column. -/
def subtractOne (x1 : α) (column : List (Nat × α)) (x : Array α) : Checked (Array α) :=
  column.foldlM (fun x e => adjust x e.1 (· - e.2 * x1)) x

/-- Subtract from `x` the multiples of two columns with common rows. -/
def subtractTwo (x1 x2 : α) (c1 c2 : List (Nat × α)) (x : Array α) : Checked (Array α) :=
  (c1.zip c2).foldlM (fun x (a, b) => adjust x a.1 (· - (a.2 * x1 + b.2 * x2))) x

/-- Subtract from `x` the multiples of three columns with common rows. -/
def subtractThree (x1 x2 x3 : α) (c1 c2 c3 : List (Nat × α)) (x : Array α) : Checked (Array α) :=
  (c1.zip (c2.zip c3)).foldlM (fun x (a, b, c) => adjust x a.1 (· - (a.2 * x1 + b.2 * x2 + c.2 * x3))) x

/-- Solve for the columns that start at `j`, and answer with the last of them. -/
def forwardChain (f : LdlFactor α) (rows : IndexList) (bottom : Nat) (x : Array α) (j : Nat) :
    Checked (Array α × Nat) := do
  let c1 ← f.live j
  let x1 ← fetch x j
  match ← f.detectChain rows j bottom, c1 with
  | .two, (j2, l12) :: rest1 =>
    let c2 ← f.live j2
    let x ← adjust x j2 (· - l12 * x1)
    let x2 ← fetch x j2
    return (← subtractTwo x1 x2 (before bottom rest1) c2 x, j2)
  | .three, (j2, l12) :: (j3, l13) :: rest1 =>
    match ← f.live j2 with
    | (_, l23) :: rest2 =>
      let c3 ← f.live j3
      let x ← adjust x j2 (· - l12 * x1)
      let x2 ← fetch x j2
      let x ← adjust x j3 (· - (l13 * x1 + l23 * x2))
      let x3 ← fetch x j3
      return (← subtractThree x1 x2 x3 (before bottom rest1) rest2 c3 x, j3)
    | [] => .error .wrongState
  | _, _ => return (← subtractOne x1 (before bottom c1) x, j)

/-- Go on from column `j`, with at most the given number of columns left. A column before `mark` only changes
the rows from `mark` on. -/
def forwardFrom (f : LdlFactor α) (rows : IndexList) (bottom mark : Nat) :
    Nat → Array α → Option Nat → Checked (Array α)
  | _, x, none => return x
  | 0, _, some _ => .error .wrongState
  | steps + 1, x, some j => do
    let (x, last) ←
      if j < mark then do
        let x1 ← fetch x j
        pure (← subtractOne x1 (before bottom ((← f.live j).dropWhile (·.1 < mark))) x, j)
      else f.forwardChain rows bottom x j
    forwardFrom f rows bottom mark steps x (← nextBelow rows last bottom)

/-- Solve `L * x = b` in place over the active rows from `top` up to `bottom`. With a mark the entries before it
must be those of the solution already, and only the others are computed. -/
def forwardSolve (f : LdlFactor α) (rows : IndexList) (x : Array α) (top bottom : Nat) (mark : Option Nat) :
    Checked (Array α) := do
  f.forwardFrom rows bottom (mark.getD 0) (rows.next.size + 1) x (← rows.seek top bottom)

/-- The inner product of a column with `u`. -/
def dotOne (column : List (Nat × α)) (u : Array α) : Checked α :=
  column.foldlM (fun s e => return s + e.2 * (← fetch u e.1)) 0

/-- The inner products of two columns with common rows. -/
def dotTwo (c1 c2 : List (Nat × α)) (u : Array α) : Checked (α × α) :=
  (c1.zip c2).foldlM (fun s (a, b) => do
    let v ← fetch u a.1
    return (s.1 + a.2 * v, s.2 + b.2 * v)) (0, 0)

/-- The inner products of three columns with common rows. -/
def dotThree (c1 c2 c3 : List (Nat × α)) (u : Array α) : Checked (α × α × α) :=
  (c1.zip (c2.zip c3)).foldlM (fun s (a, b, c) => do
    let v ← fetch u a.1
    return (s.1 + a.2 * v, s.2.1 + b.2 * v, s.2.2 + c.2 * v)) (0, 0, 0)

/-- The chain that ends at column `j`, with its earlier columns. -/
inductive ChainEnd where
  | one
  | two (j1 : Nat)
  | three (j1 j2 : Nat)

def chainEnding (f : LdlFactor α) (rows : IndexList) (top bottom j : Nat) : Checked ChainEnd := do
  match ← prevFrom rows j top with
  | none => return .one
  | some j2 =>
    match ← prevFrom rows j2 top with
    | some j1 => if (← f.detectChain rows j1 bottom) = .three then return .three j1 j2
    | none => pure ()
    if (← f.detectChain rows j2 bottom) ≠ .one then return .two j2 else return .one

/-- The quotient of the right-hand side and the pivot of row `j`. -/
def scaledEntry (f : LdlFactor α) (y : Array α) (j : Nat) : Checked α := do
  Scalar.quotient (← fetch y j) (← fetch f.diag j)

/-- Solve for the columns that end at `j`, and answer with the first of them. -/
def backChain (f : LdlFactor α) (rows : IndexList) (y : Array α) (top bottom : Nat) (u : Array α) (j : Nat) :
    Checked (Array α × Nat) := do
  let c ← f.live j
  match ← f.chainEnding rows top bottom j with
  | .one =>
    let uj := (← f.scaledEntry y j) - (← dotOne (before bottom c) u)
    return (← store u j uj, j)
  | .two j1 =>
    match ← f.live j1 with
    | (_, l1) :: rest1 =>
      let (s1, s2) ← dotTwo (before bottom rest1) c u
      let uj := (← f.scaledEntry y j) - s2
      let u ← store u j uj
      let u1 := (← f.scaledEntry y j1) - s1 - l1 * uj
      return (← store u j1 u1, j1)
    | [] => .error .wrongState
  | .three j1 j2 =>
    match ← f.live j1, ← f.live j2 with
    | (_, l12) :: (_, l13) :: rest1, (_, l23) :: rest2 =>
      let (s1, s2, s3) ← dotThree (before bottom rest1) rest2 c u
      let uj := (← f.scaledEntry y j) - s3
      let u ← store u j uj
      let u2 := (← f.scaledEntry y j2) - s2 - l23 * uj
      let u ← store u j2 u2
      let u1 := (← f.scaledEntry y j1) - s1 - l12 * u2 - l13 * uj
      return (← store u j1 u1, j1)
    | _, _ => .error .wrongState

/-- Go back from column `j`, with at most the given number of columns left. -/
def backFrom (f : LdlFactor α) (rows : IndexList) (y : Array α) (top bottom : Nat) :
    Nat → Array α → Option Nat → Checked (Array α)
  | _, u, none => return u
  | 0, _, some _ => .error .wrongState
  | steps + 1, u, some j => do
    let (u, first) ← f.backChain rows y top bottom u j
    backFrom f rows y top bottom steps u (← prevFrom rows first top)

/-- The last linked index among the `count` indices from `top` on. -/
def lastLinked (rows : IndexList) (top : Nat) : Nat → Checked (Option Nat)
  | 0 => return none
  | count + 1 => do if ← rows.contains (top + count) then return some (top + count) else lastLinked rows top count

/-- Solve `D * Lᵀ * u = y` over the active rows from `top` up to `bottom`. Other entries of `u` stay. -/
def backSolve (f : LdlFactor α) (rows : IndexList) (y u : Array α) (top bottom : Nat) : Checked (Array α) := do
  f.backFrom rows y top bottom (rows.next.size + 1) u (← lastLinked rows top (bottom - top))

end LdlFactor

end PolyProjection
