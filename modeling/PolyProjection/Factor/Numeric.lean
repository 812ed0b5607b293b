import PolyProjection.Factor.Basic

/-! The numeric factorization from scratch, row by row: each row of `L` is the solution of a triangular system
with the rows above it. -/

namespace PolyProjection

/-- Flops of a factorization: of forming the normal matrix and of the elimination. -/
structure FlopCount where
  aat : Nat
  numeric : Nat
  deriving DecidableEq, Repr

namespace LdlFactor

variable {α : Type} [Scalar α]

/-- The column with its rows sorted into active and inactive ones; a row that was inactive gets the value zero. -/
def splitColumn (active : Array Bool) (c : FactorColumn α) : Checked (FactorColumn α) := do
  let entries := (c.live ++ c.dead.map fun r => (r, (0 : α))).mergeSort fun a b => decide (a.1 ≤ b.1)
  let live ← entries.filterM fun e => fetch active e.1
  let dead ← (entries.map Prod.fst).filterM fun r => return !(← fetch active r)
  return ⟨live, dead⟩

/-- Sort the pattern of each column again after rows became active or inactive. Answers with the flops too, as
do all operations that change the factor. -/
def resymbol (f : LdlFactor α) : Checked (LdlFactor α × Nat) := do
  let columns ← f.columns.mapM (splitColumn f.active)
  let diag := f.diag.mapIdx fun k d => if f.active.getD k true then d else 1
  return ({ f with columns := columns, diag := diag }, columns.foldl (fun n c => n + c.capacity) 0)

/-- Add to `y` the part up to the diagonal of row `k` of the normal matrix, over the active rows. -/
def gatherRow (a aT : SparseMatrix α) (free active : Array Bool) (k : Nat) (y : Array α) :
    Checked (Array α × Nat) := do
  (← aT.column k).foldlM (fun (y, flops) (j, akj) => do
    if !(← fetch free j) then return (y, flops)
    ((← a.column j).toList.takeWhile (·.1 ≤ k)).foldlM (fun (y, flops) (i, aij) => do
      if !(← fetch active i) then return (y, flops)
      return (← adjust y i (· + aij * akj), flops + 2)) (y, flops)) (y, 0)

/-- A row in elimination: the factor with its right-hand side in `work`, the pivot so far, and the flops. -/
structure RowState (α : Type) where
  factor : LdlFactor α
  pivot : α
  flops : Nat

/-- Eliminate the entry of row `k` in column `j`. -/
def eliminate (k : Nat) (s : RowState α) (j : Nat) : Checked (RowState α) := do
  let f := s.factor
  if !(← fetch f.active j) then return s
  let yj ← fetch f.work j
  let work ← store f.work j 0
  let column ← fetch f.columns j
  let above := column.live.takeWhile (·.1 < k)
  let work ← above.foldlM (fun w e => adjust w e.1 (· - e.2 * yj)) work
  let l ← Scalar.quotient yj (← fetch f.diag j)
  let column ← column.setValue k l
  return ⟨{ f with work := work, columns := ← store f.columns j column }, s.pivot - yj * l,
    s.flops + 2 * above.length + 3⟩

/-- Compute row `k` of the factor if it is active. The pivot becomes what `floor` makes of it. -/
def factorizeRow (floor : α → α) (a aT : SparseMatrix α) (free : Array Bool) (s : LdlFactor α × FlopCount)
    (k : Nat) : Checked (LdlFactor α × FlopCount) := do
  let (f, flops) := s
  if !(← fetch f.active k) then return s
  let (work, aat) ← gatherRow a aT free f.active k f.work
  let pivot := (← fetch work k) + f.sigma
  let f := { f with work := ← store work k 0 }
  let row ← (← fetch f.rowPattern k).foldlM (eliminate k) ⟨f, pivot, 0⟩
  let f := row.factor
  return ({ f with diag := ← store f.diag k (floor row.pivot) }, ⟨flops.aat + aat, flops.numeric + row.flops⟩)

/-- The factor for the given free columns, active rows and regularization, with pivots as `floor` makes them. -/
def factorizeWith (floor : α → α) (f : LdlFactor α) (a aT : SparseMatrix α) (free active : Array Bool) (sigma : α) :
    Checked (LdlFactor α × FlopCount) := do
  require (active.size == f.size) .lengthMismatch
  require (free.size == a.ncols) .lengthMismatch
  let (f, _) ← resymbol { f with sigma := sigma, active := active }
  let f := { f with
    columns := f.columns.map fun c => { c with live := c.live.map fun e => (e.1, 0) }
    diag := f.diag.map fun _ => 1 }
  (List.range f.size).foldlM (factorizeRow floor a aT free) (f, ⟨0, 0⟩)

/-- The factor for the given free columns, active rows and regularization. -/
def factorize (f : LdlFactor α) (a aT : SparseMatrix α) (free active : Array Bool) (sigma : α) :
    Checked (LdlFactor α × FlopCount) :=
  f.factorizeWith (lift sigma) a aT free active sigma

end LdlFactor

end PolyProjection
