import PolyProjection.Sparse.Matrix
import PolyProjection.Sorted

/-! Well-formed sparse matrices: the arrays fit together, the columns partition the positions, and each column
lists rows of the matrix in ascending order with finite values. -/

namespace PolyProjection

/-- The first condition that a stored matrix breaks. -/
inductive FormatError where
  | incompatibleDimension
  | badColumnStart
  | badRowIndex
  | badRowOrdering
  | nonFinite
  deriving DecidableEq, Repr

def FormatError.message : FormatError → String
  | incompatibleDimension => "Matrix dimension fields and/or array lengths are incompatible"
  | badRowIndex => "Row value exceeds the matrix row dimension"
  | badRowOrdering => "Data is not sorted by row index within each column"
  | badColumnStart => "Bad column pointer values"
  | nonFinite => "Matrix contains a non-finite value"

namespace SparseMatrix

variable {α : Type} [Scalar α]

/-- The stored rows of column `j`. -/
def columnRows (a : SparseMatrix α) (j : Nat) : List Nat :=
  (a.rowIndex.extract (a.colStart.getD j 0) (a.colStart.getD (j + 1) 0)).toList

/-- The conditions in the order in which they are reported. -/
def check (a : SparseMatrix α) : Except FormatError Unit :=
  if a.rowIndex.size ≠ a.values.size then .error .incompatibleDimension
  else if a.colStart.size ≠ a.ncols + 1 ∨ a.colStart[a.ncols]? ≠ some a.rowIndex.size then
    .error .incompatibleDimension
  else if a.colStart[0]? ≠ some 0 ∨ !isNondecreasing a.colStart.toList then .error .badColumnStart
  else if !a.rowIndex.all (· < a.nrows) then .error .badRowIndex
  else if !(List.range a.ncols).all fun j => isAscending (a.columnRows j) then .error .badRowOrdering
  else if !a.values.all Scalar.isFinite then .error .nonFinite
  else .ok ()

end SparseMatrix

end PolyProjection
