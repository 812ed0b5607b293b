import PolyProjection.Factor.Pattern
import PolyProjection.Sparse.Format

/-! The factor `L * D * Lᵀ` of the matrix `A_F * A_Fᵀ + σ * I` over the active rows, where `F` are the free
columns. Inactive rows are those of the identity. Each column of `L` has room for the fill pattern of all rows;
the rows of the pattern that are active carry values. -/

namespace PolyProjection

/-- Why a matrix has no factor. -/
inductive FactorError where
  | incompatibleDimension
  | sparseFormat (cause : FormatError)
  deriving DecidableEq, Repr

def FactorError.message : FactorError → String
  | incompatibleDimension => "Matrix dimension fields are incompatible"
  | sparseFormat e => "Bad sparse matrix format: " ++ e.message

/-- One column below the diagonal: the active rows of its pattern with their values, and the inactive rows,
both in ascending order. -/
structure FactorColumn (α : Type) where
  live : List (Nat × α)
  dead : List Nat
  deriving Repr

namespace FactorColumn

variable {α : Type}

/-- The number of rows in the pattern. -/
def capacity (c : FactorColumn α) : Nat :=
  c.live.length + c.dead.length

def liveRows (c : FactorColumn α) : List Nat :=
  c.live.map Prod.fst

/-- The value in row `i`, none outside the active rows of the pattern. -/
def value? (c : FactorColumn α) (i : Nat) : Option α :=
  (c.live.find? (·.1 == i)).map Prod.snd

/-- Row `k` becomes inactive and loses its value. -/
def kill (c : FactorColumn α) (k : Nat) : Checked (FactorColumn α) := do
  require (c.liveRows.contains k) .wrongState
  return ⟨c.live.filter (·.1 != k), c.dead.filter (· < k) ++ k :: c.dead.filter (k < ·)⟩

/-- Row `k` becomes active with the value zero. -/
def revive [Scalar α] (c : FactorColumn α) (k : Nat) : Checked (FactorColumn α) := do
  require (c.dead.contains k) .wrongState
  return ⟨c.live.filter (·.1 < k) ++ (k, 0) :: c.live.filter (k < ·.1), c.dead.filter (· != k)⟩

/-- Give row `k`, which must be active, the value `v`. -/
def setValue (c : FactorColumn α) (k : Nat) (v : α) : Checked (FactorColumn α) := do
  require (c.liveRows.contains k) .wrongState
  return { c with live := c.live.map fun e => if e.1 == k then (k, v) else e }

end FactorColumn

/-- The entries of `work` and `work2` are zero between operations as long as the columns that are added and
removed fit the pattern. -/
structure LdlFactor (α : Type) where
  columns : Array (FactorColumn α)
  diag : Array α
  /-- For each row the columns that have it in their pattern, in ascending order. -/
  rowPattern : Array (List Nat)
  active : Array Bool
  /-- The regularization of the last factorization; no diagonal entry is made smaller. -/
  sigma : α
  work : Array α
  work2 : Array α
  deriving Repr

namespace LdlFactor

variable {α : Type} [Scalar α]

/-- The factor of a matrix given with its transpose. Every row is inactive. -/
def ofMatrix (a aT : SparseMatrix α) : Checked (Except FactorError (LdlFactor α)) := do
  match a.check with
  | .error e => return .error (.sparseFormat e)
  | .ok () =>
    if aT.nrows ≠ a.ncols ∨ aT.ncols ≠ a.nrows then return .error .incompatibleDimension
    if (← aT.nnz) ≠ (← a.nnz) then return .error .incompatibleDimension
    let n := a.nrows
    let (rows, counts) ← FillPattern.rowPatterns a aT
    let cols ← FillPattern.columnsOf counts rows
    return .ok
      { columns := cols.map fun dead => ⟨[], dead⟩
        diag := Array.replicate n 1
        rowPattern := rows
        active := Array.replicate n false
        sigma := 0
        work := Array.replicate n 0
        work2 := Array.replicate n 0 }

/-- The number of rows. -/
def size (f : LdlFactor α) : Nat :=
  f.columns.size

/-- The active rows of column `j` with their values. -/
def live (f : LdlFactor α) (j : Nat) : Checked (List (Nat × α)) :=
  return (← fetch f.columns j).live

/-- The entry in row `i` of column `j` below the diagonal, zero outside the active rows of the pattern. -/
def entry (f : LdlFactor α) (i j : Nat) : Checked α :=
  return ((← fetch f.columns j).value? i).getD 0

/-- The active rows in ascending order. -/
def activeRows (f : LdlFactor α) : List Nat :=
  (List.range f.active.size).filter fun i => f.active.getD i false

/-- The smallest diagonal entry of an active row. -/
def minActiveDiagonal (f : LdlFactor α) : Option α :=
  (f.diag.zip f.active).foldl (fun least p =>
    if p.2 then some (match least with
      | none => p.1
      | some v => Scalar.min v p.1)
    else least) none

/-- The nonzeros of the active rows and columns, with the diagonal. -/
def liveNnz (f : LdlFactor α) : Nat :=
  (f.columns.zip f.active).foldl (fun n p => if p.2 then n + (p.1.live.length + 1) else n) 0

/-- Whether each column lists its active and its inactive rows in order and in the right place. -/
def isPartitioned (f : LdlFactor α) : Bool :=
  f.columns.all fun c =>
    isAscending c.liveRows && isAscending c.dead && c.liveRows.all (fun r => f.active.getD r false) &&
      c.dead.all fun r => !f.active.getD r true

/-- A pivot, lifted to the regularization. -/
def lift (sigma d : α) : α :=
  if d < sigma then sigma else d

/-- Apply a change to column `j`. -/
def changeColumn (f : LdlFactor α) (j : Nat) (change : FactorColumn α → Checked (FactorColumn α)) :
    Checked (LdlFactor α) := do
  let c ← change (← fetch f.columns j)
  return { f with columns := ← store f.columns j c }

end LdlFactor

end PolyProjection
