import PolyProjection.Sparse.Matrix

/-! The stored transpose, by a counting sort: the entries of each row are counted, the rows get consecutive
positions, and the columns are visited in order, so that each row of the result is ascending. -/

namespace PolyProjection.SparseMatrix

variable {α : Type}

/-- How many stored entries each row has. -/
def rowCounts (a : SparseMatrix α) : Checked (Array Nat) :=
  a.rowIndex.foldlM (fun counts r => adjust counts r (· + 1)) (Array.replicate a.nrows 0)

/-- The partial sums of `counts`, beginning with zero. -/
def partialSums (counts : Array Nat) : Array Nat :=
  counts.foldl (fun sums c => sums.push (sums.back?.getD 0 + c)) #[0]

/-- Entries distributed to rows so far, with the next free position of each row. -/
structure Scatter (α : Type) where
  rowIndex : Array Nat
  values : Array α
  next : Array Nat

/-- Put the entry of column `j` with row `e.1` and value `e.2` at the next free position of its row. -/
def Scatter.place (s : Scatter α) (j : Nat) (e : Nat × α) : Checked (Scatter α) := do
  let dest ← fetch s.next e.1
  let rowIndex ← store s.rowIndex dest j
  let values ← store s.values dest e.2
  let next ← store s.next e.1 (dest + 1)
  return ⟨rowIndex, values, next⟩

def transpose [Scalar α] (a : SparseMatrix α) : Checked (SparseMatrix α) := do
  let room ← allocate a.ncols a.nrows (← a.nnz)
  let colStart := partialSums (← a.rowCounts)
  let placed ← (List.range a.ncols).foldlM
    (fun s j => do (← a.entries j).foldlM (fun s e => s.place j e) s)
    (⟨room.rowIndex, room.values, colStart.pop⟩ : Scatter α)
  return { room with colStart := colStart, rowIndex := placed.rowIndex, values := placed.values }

end PolyProjection.SparseMatrix
