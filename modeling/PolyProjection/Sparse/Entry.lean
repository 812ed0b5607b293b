import PolyProjection.Sparse.Matrix
import PolyProjection.Sorted

/-! Single entries of a sparse matrix. -/

namespace PolyProjection.SparseMatrix

variable {α : Type}

/-- The stored value at row `i` of column `j`, none outside the pattern. -/
def entry? (a : SparseMatrix α) (i j : Nat) : Checked (Option α) := do
  require (i < a.nrows && j < a.ncols) .outOfRange
  let col ← a.column j
  return (findSorted (col.map Prod.fst) i).bind fun p => col[p]?.map Prod.snd

end PolyProjection.SparseMatrix
