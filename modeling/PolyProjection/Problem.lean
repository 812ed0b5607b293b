import PolyProjection.BlockTree
import PolyProjection.Bound
import PolyProjection.Dense
import PolyProjection.Sparse.Format
import PolyProjection.Sparse.Multiply
import PolyProjection.Sparse.Transpose

/-! The projection of a point onto a polyhedron: minimize `1/2 * ‖x - y‖²` subject to `bl ≤ A * x ≤ bu` and
`lo ≤ x ≤ hi`. -/

namespace PolyProjection

/-- What an interval belongs to. -/
inductive BoundKind where
  | row
  | column
  deriving DecidableEq, Repr

def BoundKind.name : BoundKind → String
  | row => "row"
  | column => "column"

/-- Why data do not make a problem. -/
inductive ProblemError where
  | incompatibleDimension
  | sparseFormat (cause : FormatError)
  | badBounds (kind : BoundKind) (index : Nat)
  | nonFinitePoint (index : Nat)
  | dissection (col : Nat)
  deriving DecidableEq, Repr

def ProblemError.message : ProblemError → String
  | incompatibleDimension => "Problem data dimensions are incompatible"
  | sparseFormat e => "Bad constraint matrix: " ++ e.message
  | badBounds kind i => "Lower bound exceeds upper bound or is NaN at " ++ kind.name ++ " index " ++ Nat.repr i
  | nonFinitePoint i => "Projected point has a non-finite entry at index " ++ Nat.repr i
  | dissection j => "Column " ++ Nat.repr j ++ " has a row outside its block and the block's ancestors"

/-- The transpose of the matrix is kept for access by rows. -/
structure Problem (α : Type) where
  a : SparseMatrix α
  aT : SparseMatrix α
  bl : Array (Bound α)
  bu : Array (Bound α)
  lo : Array (Bound α)
  hi : Array (Bound α)
  y : Array α
  tree : BlockTree

namespace Problem

variable {α : Type} [Scalar α]

def nrows (p : Problem α) : Nat :=
  p.a.nrows

def ncols (p : Problem α) : Nat :=
  p.a.ncols

/-- The first index at which the ends enclose nothing. -/
def badInterval? (l u : Array (Bound α)) : Option Nat :=
  (l.zip u).findIdx? fun p => !p.1.isInterval p.2

/-- The problem with all rows and columns in one block. -/
def create (a : SparseMatrix α) (bl bu lo hi : Array (Bound α)) (y : Array α) :
    Checked (Except ProblemError (Problem α)) := do
  let m := a.nrows
  let n := a.ncols
  if bl.size ≠ m ∨ bu.size ≠ m ∨ lo.size ≠ n ∨ hi.size ≠ n ∨ y.size ≠ n then return .error .incompatibleDimension
  match a.check with
  | .error e => return .error (.sparseFormat e)
  | .ok () =>
    match badInterval? bl bu, badInterval? lo hi, y.findIdx? (!Scalar.isFinite ·) with
    | some i, _, _ => return .error (.badBounds .row i)
    | none, some j, _ => return .error (.badBounds .column j)
    | none, none, some j => return .error (.nonFinitePoint j)
    | none, none, none => return .ok ⟨a, ← a.transpose, bl, bu, lo, hi, y, .single m n⟩

/-- Whether each row of column `j` belongs to the block of the column or to an ancestor of it. -/
def isDissected (a : SparseMatrix α) (tree : BlockTree) (j : Nat) : Checked Bool := do
  (← a.column j).toList.allM fun e => tree.isAncestorOrSelf (tree.blockOfRow e.1) (tree.blockOfCol j)

/-- The problem with its rows and columns in the blocks of a tree. -/
def withBlockTree (p : Problem α) (tree : BlockTree) : Checked (Except ProblemError (Problem α)) := do
  if tree.nrows ≠ p.nrows ∨ tree.ncols ≠ p.ncols then return .error .incompatibleDimension
  match ← (List.range p.ncols).filterM fun j => return !(← isDissected p.a tree j) with
  | j :: _ => return .error (.dissection j)
  | [] => return .ok { p with tree := tree }

/-- Whether both bounds of a row are the same. -/
def isEquality (p : Problem α) (row : Nat) : Checked Bool :=
  return (← fetch p.bl row).isPoint (← fetch p.bu row)

/-- The inner product of row `i` and `x`. -/
def rowDot (p : Problem α) (i : Nat) (x : Array α) : Checked α := do
  (← p.aT.column i).foldlM (fun s e => return s + e.2 * (← fetch x e.1)) 0

/-- `y + Aᵀ * lambda`. -/
def shifted (p : Problem α) (lambda : Array α) : Checked (Array α) :=
  p.a.mulVecTransposed p.y lambda 1 1

/-- The nearest point to `x` within the bounds of the columns. -/
def clip (p : Problem α) (x : Array α) : Checked (Array α) :=
  x.mapIdxM fun j v => return Bound.clamp v (← fetch p.lo j) (← fetch p.hi j)

end Problem

end PolyProjection
