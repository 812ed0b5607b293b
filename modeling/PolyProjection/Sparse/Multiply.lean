import PolyProjection.Sparse.Matrix

/-! Products of a sparse matrix and a dense vector. Products with the matrix scatter by columns, products with
the transpose gather by columns. -/

namespace PolyProjection

/-- `b * y`, where the factor zero erases whatever `y` holds. -/
def scaled {α : Type} [Scalar α] (y : Array α) (b : α) : Array α :=
  if b == 0 then y.map fun _ => 0
  else if b != 1 then y.map (· * b)
  else y

namespace SparseMatrix

variable {α : Type} [Scalar α]

/-- `a * A * x + b * y` for the matrix `A`. The vectors have to fit only if `a` is not zero. -/
def mulVec (m : SparseMatrix α) (y x : Array α) (a b : α) : Checked (Array α) := do
  let y := scaled y b
  if a == 0 then return y
  require (x.size == m.ncols) .lengthMismatch
  require (y.size == m.nrows) .lengthMismatch
  (List.range m.ncols).foldlM (fun y j => do
    let ax := a * (← fetch x j)
    (← m.entries j).foldlM (fun y e => adjust y e.1 (· + e.2 * ax)) y) y

/-- The inner product of column `j` and `x`. -/
def columnDot (m : SparseMatrix α) (x : Array α) (j : Nat) : Checked α := do
  (← m.entries j).foldlM (fun s e => return s + e.2 * (← fetch x e.1)) 0

/-- `a * Aᵀ * x + b * y` for the matrix `A`. The vectors have to fit only if `a` is not zero. -/
def mulVecTransposed (m : SparseMatrix α) (y x : Array α) (a b : α) : Checked (Array α) := do
  let y := scaled y b
  if a == 0 then return y
  require (x.size == m.nrows) .lengthMismatch
  require (y.size == m.ncols) .lengthMismatch
  (List.range m.ncols).foldlM (fun y j => do
    let s ← m.columnDot x j
    adjust y j (· + a * s)) y

end SparseMatrix

end PolyProjection
