import PolyProjection.Factor.Numeric

/-! Changes of a finished factor: a column of `A` enters or leaves, a row becomes active or inactive. All of them
come down to the addition of a multiple of `w * wᵀ`, which changes only the columns on the path that leads from
the first row of `w` to the first active row of each column. What becomes of a pivot is a parameter `floor`; it is
lifted to the regularization. -/

namespace PolyProjection.LdlFactor

variable {α : Type} [Scalar α]

/-- Change the entries of one column and the rest of `w` for a multiple of `w * wᵀ`. -/
def sweepColumn (pivot gamma : α) : List (Nat × α) → Array α → Checked (List (Nat × α) × Array α)
  | [], w => return ([], w)
  | (i, l) :: rest, w => do
    let wi := (← fetch w i) - pivot * l
    let (rest, w) ← sweepColumn pivot gamma rest (← store w i wi)
    return ((i, l + gamma * wi) :: rest, w)

/-- Add `alpha * w * wᵀ` to the matrix, from column `j` on; `w` is taken out of `work`. The rows of a column
come after it, so the number of rows bounds the path. -/
def rankOneFrom (floor : α → α) : Nat → LdlFactor α → Nat → α → Nat → Checked (LdlFactor α × Nat)
  | 0, _, _, _, _ => .error .wrongState
  | steps + 1, f, j, alpha, flops => do
    let p ← fetch f.work j
    let f := { f with work := ← store f.work j 0 }
    let column ← fetch f.columns j
    let (f, alpha, flops) ←
      if p != 0 then do
        let d ← fetch f.diag j
        let lifted := floor (d + alpha * p * p)
        let gamma ← Scalar.quotient (p * alpha) lifted
        let (live, work) ← sweepColumn p gamma column.live f.work
        let f := { f with
          diag := ← store f.diag j lifted
          columns := ← store f.columns j { column with live := live }
          work := work }
        pure (f, ← Scalar.quotient (alpha * d) lifted, flops + 4 * column.live.length + 6)
      else pure (f, alpha, flops)
    match column.live with
    | [] => return (f, flops)
    | (next, _) :: _ => rankOneFrom floor steps f next alpha flops

/-- Add `alpha * w * wᵀ` for the vector `w` in `work`, whose first row is `start`. -/
def rankOne (floor : α → α) (f : LdlFactor α) (start : Nat) (alpha : α) : Checked (LdlFactor α × Nat) :=
  rankOneFrom floor (f.size + 1) f start alpha 0

/-- Put the active part of column `col` of `A` into `work`. Answers with the first active row. -/
def scatterColumn (f : LdlFactor α) (a : SparseMatrix α) (col : Nat) : Checked (LdlFactor α × Option Nat) := do
  let (work, first) ← (← a.column col).foldlM (fun (work, first) (i, v) => do
    if !(← fetch f.active i) then return (work, first)
    return (← store work i v, first.or (some i))) (f.work, none)
  return ({ f with work := work }, first)

/-- Add `alpha` times column `col` of `A` and its transpose. -/
def addColumn (floor : α → α) (f : LdlFactor α) (a : SparseMatrix α) (col : Nat) (alpha : α) :
    Checked (LdlFactor α × Nat) := do
  match ← f.scatterColumn a col with
  | (f, some start) => f.rankOne floor start alpha
  | (f, none) => return (f, 0)

/-- Column `col` of `A` becomes free. -/
def update (f : LdlFactor α) (a : SparseMatrix α) (col : Nat) : Checked (LdlFactor α × Nat) :=
  f.addColumn (lift f.sigma) a col 1

/-- Column `col` of `A` is no longer free. -/
def downdate (f : LdlFactor α) (a : SparseMatrix α) (col : Nat) : Checked (LdlFactor α × Nat) :=
  f.addColumn (lift f.sigma) a col (-1)

/-- Add the values of column `k` of the factor to the multiple `alpha` of their outer product. -/
def addLiveColumn (floor : α → α) (f : LdlFactor α) (k : Nat) (alpha : α) : Checked (LdlFactor α × Nat) := do
  match ← f.live k with
  | [] => return (f, 0)
  | (first, v) :: rest =>
    let work ← ((first, v) :: rest).foldlM (fun w e => store w e.1 e.2) f.work
    rankOne floor { f with work := work } first alpha

/-- Add to `y` row `k` of the normal matrix over the active rows. -/
def gatherFullRow (a aT : SparseMatrix α) (free active : Array Bool) (k : Nat) (y : Array α) :
    Checked (Array α × Nat) := do
  (← aT.column k).foldlM (fun (y, flops) (j, akj) => do
    if !(← fetch free j) then return (y, flops)
    let column ← a.column j
    let y ← column.foldlM (fun y (i, aij) => do
      if ← fetch active i then adjust y i (· + aij * akj) else return y) y
    return (y, flops + 2 * column.size)) (y, 0)

/-- Eliminate the entry of the new row `k` in column `j`; what the rows below `k` lose is gathered in `work2`. -/
def eliminateNew (k : Nat) (s : RowState α) (j : Nat) : Checked (RowState α) := do
  let f := s.factor
  if !(← fetch f.active j) then return s
  let z ← fetch f.work j
  let work ← store f.work j 0
  let column ← fetch f.columns j
  let (work, work2) ← column.live.foldlM (fun (w, w2) e => do
    if e.1 < k then return (← adjust w e.1 (· - e.2 * z), w2)
    else if k < e.1 then return (w, ← adjust w2 e.1 (· + e.2 * z))
    else return (w, w2)) (work, f.work2)
  let l ← Scalar.quotient z (← fetch f.diag j)
  let columns ← store f.columns j (← column.setValue k l)
  return ⟨{ f with work := work, work2 := work2, columns := columns }, s.pivot - z * l,
    s.flops + 2 * column.live.length⟩

/-- The values of the new column `k`, whose rows are cleared in both work vectors. -/
def fillColumn (pivot : α) : List (Nat × α) → Array α → Array α → Checked (List (Nat × α) × Array α × Array α)
  | [], w, w2 => return ([], w, w2)
  | (i, _) :: rest, w, w2 => do
    let v ← Scalar.quotient ((← fetch w i) - (← fetch w2 i)) pivot
    let (rest, w, w2) ← fillColumn pivot rest (← store w i 0) (← store w2 i 0)
    return ((i, v) :: rest, w, w2)

/-- The inactive row `k` becomes active, with pivots as `floor` makes them. -/
def addRowWith (floor : α → α) (f : LdlFactor α) (a aT : SparseMatrix α) (free : Array Bool) (k : Nat) :
    Checked (LdlFactor α × Nat) := do
  require (!(← fetch f.active k)) .wrongState
  let f := { f with active := ← store f.active k true }
  let pattern ← fetch f.rowPattern k
  let f ← pattern.foldlM (fun f j => f.changeColumn j (·.revive k)) f
  let (work, gathered) ← gatherFullRow a aT free f.active k f.work
  let pivot := (← fetch work k) + f.sigma
  let row ← pattern.foldlM (eliminateNew k) ⟨{ f with work := ← store work k 0 }, pivot, gathered⟩
  let f := row.factor
  let d := floor row.pivot
  let column ← fetch f.columns k
  let (live, work, work2) ← fillColumn d column.live f.work f.work2
  let f := { f with
    diag := ← store f.diag k d
    columns := ← store f.columns k { column with live := live }
    work := work
    work2 := work2 }
  let (f, flops) ← f.addLiveColumn floor k (-d)
  return (f, row.flops + 3 * live.length + flops)

/-- The inactive row `k` becomes active. -/
def addRow (f : LdlFactor α) (a aT : SparseMatrix α) (free : Array Bool) (k : Nat) :
    Checked (LdlFactor α × Nat) :=
  f.addRowWith (lift f.sigma) a aT free k

/-- The active row `k` becomes inactive, with pivots as `floor` makes them. -/
def deleteRowWith (floor : α → α) (f : LdlFactor α) (k : Nat) : Checked (LdlFactor α × Nat) := do
  require (← fetch f.active k) .wrongState
  let (f, flops) ← f.addLiveColumn floor k (← fetch f.diag k)
  let f ← f.changeColumn k fun c => return { c with live := c.live.map fun e => (e.1, 0) }
  let f := { f with diag := ← store f.diag k 1, active := ← store f.active k false }
  let pattern ← fetch f.rowPattern k
  let f ← pattern.foldlM (fun f j => f.changeColumn j (·.kill k)) f
  return (f, flops + pattern.length)

/-- The active row `k` becomes inactive. -/
def deleteRow (f : LdlFactor α) (k : Nat) : Checked (LdlFactor α × Nat) :=
  f.deleteRowWith (lift f.sigma) k

end PolyProjection.LdlFactor
