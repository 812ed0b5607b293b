import PolyProjection.Projection.Basic

/-! Between two rounds the active set is brought in line with the point: columns are bound and freed by where
`y + Aᵀ * λ` lies, and violated rows are added. -/

namespace PolyProjection

/-- What becomes of a column. -/
inductive ColumnMove where
  | stay
  | bind (side : Side)
  | free
  deriving DecidableEq, Repr

/-- The move of a column whose value without bounds is `z`. A bound column leaves its bound once `z` lies inside,
and goes over to the other bound once `z` reaches that. -/
def columnMove {α : Type} [Scalar α] (status : ColumnStatus) (lo hi : Bound α) (z : α) : ColumnMove :=
  match status with
  | .free => if lo.exceeds z then .bind .lower else if hi.exceededBy z then .bind .upper else .stay
  | .atLower => if hi.coveredBy z then .bind .upper else if lo.exceededBy z then .free else .stay
  | .atUpper => if lo.covers z then .bind .lower else if hi.exceeds z then .free else .stay

/-- The side at which a row of value `r` is violated by more than the tolerance. -/
def violatedSide? {α : Type} [Scalar α] (bl bu : Bound α) (tol r : α) : Option Side :=
  if (bl.map (· - tol)).exceeds r then some .lower
  else if (bu.map (· + tol)).exceededBy r then some .upper
  else none

namespace Projection

variable {α σ : Type} [Scalar α]

/-- Hold a column at a bound that `y` lies on or beyond. -/
def startColumn (e : Engine α) (j : Nat) : Checked (Engine α) := do
  let y ← fetch e.problem.y j
  if (← fetch e.problem.lo j).covers y then return (← e.bindColumn j .lower).2
  else if (← fetch e.problem.hi j).coveredBy y then return (← e.bindColumn j .upper).2
  else return e

/-- The first active set: the equality rows, and the columns with a bound that `y` lies on or beyond. -/
def start (s : Projection α σ) : Checked (Projection α σ) := do
  let p := s.engine.problem
  let equalities ← (List.range p.nrows).filterM p.isEquality
  let e ← equalities.foldlM (fun e i => return (← e.addRow i .lower).2) s.engine
  let e ← (List.range p.ncols).foldlM startColumn e
  return { s with engine := e, initialized := true, rowsAdded := equalities.length }

/-- Move a column. Answers whether the request for it was met. -/
def moveColumn (e : Engine α) (j : Nat) (z : α) : Checked (Bool × Engine α) := do
  match columnMove (← fetch e.set.colStatus j) (← fetch e.problem.lo j) (← fetch e.problem.hi j) z with
  | .stay => return (false, e)
  | .bind side => e.bindColumn j side
  | .free => e.freeColumn j

/-- Add row `i` if it is dropped and violated at `x`. Answers whether it was added. -/
def addViolated (x : Array α) (e : Engine α) (i : Nat) : Checked (Bool × Engine α) := do
  if ← e.set.isRowActive i then return (false, e)
  let r ← e.problem.rowDot i x
  match violatedSide? (← fetch e.problem.bl i) (← fetch e.problem.bu i) e.settings.tolFeas r with
  | none => return (false, e)
  | some side => e.addRow i side

/-- Count how often `act` answers with true over the items. -/
def countMet {ι : Type} (act : Engine α → ι → Checked (Bool × Engine α)) (e : Engine α) (items : List ι) :
    Checked (Nat × Engine α) :=
  items.foldlM (fun (n, e) item => do
    let (met, e) ← act e item
    return (if met then n + 1 else n, e)) (0, e)

/-- Bring the active set in line with the point. Answers whether anything changed. -/
def reconcile (s : Projection α σ) : Checked (Bool × Projection α σ) := do
  let p := s.engine.problem
  let z ← p.shifted s.engine.lambda
  let (moved, e) ← countMet (fun e j => do moveColumn e j (← fetch z j)) s.engine (List.range p.ncols)
  let (added, e) ← countMet (addViolated s.solution.x) e (List.range p.nrows)
  return (0 < moved || 0 < added, { s with engine := e, rowsAdded := added })

/-- Whether every active row is at its bound within the tolerance. -/
def isFeasible (s : Projection α σ) : Checked Bool := do
  let e := s.engine
  (← e.set.rows.toList).allM fun i => do
    let r ← e.problem.rowDot i s.solution.x
    return Scalar.abs (r - (← e.rowBound i)) ≤ e.settings.tolFeas

end Projection

end PolyProjection
