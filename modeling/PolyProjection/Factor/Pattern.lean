import PolyProjection.Sparse.Transpose

/-! The fill pattern of the factor of `A * Aᵀ`, found without numbers. Two rows of `A` are coupled if they have
entries in a common column. The elimination tree joins each row to the next one that its elimination reaches,
and the pattern of a row of the factor is made of paths in that tree. -/

namespace PolyProjection.FillPattern

variable {α : Type}

/-- The rows up to `k` that are coupled to row `k`, in ascending order and with `k` itself. -/
def coupled (a aT : SparseMatrix α) (k : Nat) : Checked (List Nat) := do
  let found ← (← aT.column k).foldlM (fun found e => do
    let above := ((← a.column e.1).toList.map Prod.fst).takeWhile (· < k)
    return above.foldl (fun found i => found.insert i) found) [k]
  return found.mergeSort

/-- The parent of each row, the last row whose walk came by, and how many rows came by so far. -/
structure TreeWalk where
  parent : Array (Option Nat)
  visitor : Array (Option Nat)
  count : Array Nat

/-- Go up the tree from row `i` to a row that the walk of row `j` has seen; a row without parent gets `j` as its
parent. A parent comes after its row, so the number of rows bounds the walk. -/
def TreeWalk.climb (j : Nat) : Nat → TreeWalk → Nat → Checked TreeWalk
  | 0, _, _ => .error .wrongState
  | steps + 1, w, i => do
    if (← fetch w.visitor i) == some j then return w
    let up := (← fetch w.parent i).getD j
    let w : TreeWalk := ⟨← store w.parent i (some up), ← store w.visitor i (some j), ← adjust w.count i (· + 1)⟩
    TreeWalk.climb j steps w up

/-- The elimination tree, from the coupled rows of each row, and the number of rows in each column of the factor. -/
def eliminationTree (rows : Array (List Nat)) : Checked (Array (Option Nat) × Array Nat) := do
  let n := rows.size
  let start : TreeWalk := ⟨Array.replicate n none, Array.replicate n none, Array.replicate n 0⟩
  let w ← (List.range n).foldlM (fun w j => do
    let w := { w with visitor := ← store w.visitor j (some j) }
    (← fetch rows j).foldlM (fun w i => w.climb j (n + 1) i) w) start
  return (w.parent, w.count)

/-- Add to `row` the rows from `i` up the tree that come before `k` and are not in it yet. -/
def addPath (parent : Array (Option Nat)) (k : Nat) : Nat → List Nat → Nat → Checked (List Nat)
  | 0, _, _ => .error .wrongState
  | steps + 1, row, i => do
    let row := row ++ [i]
    match ← fetch parent i with
    | none => return row
    | some p => if k ≤ p || row.contains p then return row else addPath parent k steps row p

/-- The columns with an entry in row `k` of the factor, left of the diagonal, in ascending order. -/
def rowOf (parent : Array (Option Nat)) (k : Nat) (coupledRows : List Nat) : Checked (List Nat) := do
  let row ← coupledRows.foldlM (fun row i =>
    if i == k || row.contains i then return row else addPath parent k parent.size row i) []
  return row.mergeSort

/-- The columns so far, one after the other, with the next free position of each. -/
structure ColumnFill where
  rowIndex : Array Nat
  next : Array Nat

/-- Put row `k` at the next free position of column `j`. -/
def ColumnFill.place (k : Nat) (s : ColumnFill) (j : Nat) : Checked ColumnFill := do
  let dest ← fetch s.next j
  return ⟨← store s.rowIndex dest k, ← store s.next j (dest + 1)⟩

/-- The rows with an entry in each column, in ascending order, from the number of them and the columns of each
row. -/
def columnsOf (counts : Array Nat) (rows : Array (List Nat)) : Checked (Array (List Nat)) := do
  let colStart := SparseMatrix.partialSums counts
  let room := Array.replicate (colStart.back?.getD 0) 0
  let s ← (List.range rows.size).foldlM (fun s k => do (← fetch rows k).foldlM (ColumnFill.place k) s)
    (⟨room, colStart.pop⟩ : ColumnFill)
  let columns ← (List.range rows.size).mapM fun j => do
    return (← slice s.rowIndex (← fetch colStart j) (← fetch colStart (j + 1))).toList
  return columns.toArray

/-- The columns of each row of the factor, and the number of rows in each column. -/
def rowPatterns (a aT : SparseMatrix α) : Checked (Array (List Nat) × Array Nat) := do
  let rows ← (List.range a.nrows).mapM (coupled a aT)
  let (parent, counts) ← eliminationTree rows.toArray
  let patterns ← rows.zipIdx.mapM fun (row, k) => rowOf parent k row
  return (patterns.toArray, counts)

end PolyProjection.FillPattern
