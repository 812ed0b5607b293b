import PolyProjection.Fault
import PolyProjection.Scalar

/-! Sparse matrices stored by columns. The fields may hold anything; `Sparse.Format` says which matrices are
well formed. -/

namespace PolyProjection

/-- A matrix stored by columns: column `j` has its row indices and values at the positions from `colStart[j]`
up to `colStart[j + 1]`. -/
structure SparseMatrix (α : Type) where
  nrows : Nat
  ncols : Nat
  colStart : Array Nat
  rowIndex : Array Nat
  values : Array α
  deriving DecidableEq, Repr

namespace SparseMatrix

variable {α : Type}

/-- A matrix from its parts, whose lengths must fit together. -/
def ofParts (nrows ncols : Nat) (colStart rowIndex : Array Nat) (values : Array α) :
    Checked (SparseMatrix α) := do
  require (rowIndex.size == values.size) .lengthMismatch
  require (colStart.size == ncols + 1) .lengthMismatch
  require (colStart[ncols]? == some rowIndex.size) .lengthMismatch
  return ⟨nrows, ncols, colStart, rowIndex, values⟩

/-- Room for `nnz` entries, all of them zeros of the first row in the last column. -/
def allocate [Scalar α] (nrows ncols nnz : Nat) : Checked (SparseMatrix α) := do
  requireLength (ncols + 1)
  requireLength nnz
  ofParts nrows ncols ((Array.replicate ncols 0).push nnz) (Array.replicate nnz 0) (Array.replicate nnz 0)

/-- The number of stored entries. -/
def nnz (a : SparseMatrix α) : Checked Nat :=
  fetch a.colStart a.ncols

/-- The row indices and values of column `j`. -/
def column (a : SparseMatrix α) (j : Nat) : Checked (Array (Nat × α)) := do
  let lo ← fetch a.colStart j
  let hi ← fetch a.colStart (j + 1)
  let rows ← slice a.rowIndex lo hi
  let vals ← slice a.values lo hi
  return rows.zip vals

/-- The entries of column `j`, none if its range is inverted. -/
def entries (a : SparseMatrix α) (j : Nat) : Checked (Array (Nat × α)) := do
  let lo ← fetch a.colStart j
  let hi ← fetch a.colStart (j + 1)
  if hi ≤ lo then return #[]
  let rows ← slice a.rowIndex lo hi
  let vals ← slice a.values lo hi
  return rows.zip vals

/-- The largest absolute value of a stored entry, zero if there is none. -/
def maxAbs [Scalar α] (a : SparseMatrix α) : α :=
  a.values.foldl (fun top v => Scalar.max top (Scalar.abs v)) 0

end SparseMatrix

end PolyProjection
