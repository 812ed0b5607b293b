import PolyProjection.ActiveSet
import PolyProjection.BreakHeap
import PolyProjection.Event
import PolyProjection.Factor.Update
import PolyProjection.FlopHistory
import PolyProjection.Problem
import PolyProjection.Report
import PolyProjection.Schedule

/-! The state of the dual active set engine. For the active rows it maximizes the dual of the projection with the
proximal term `-σ/2 * ‖λ - λ₀‖²`, where `λ₀` are the multipliers at the start of a run. Within a run the
multipliers are `λ + dλ`. The point of given multipliers is `y + Aᵀ * λ` on free columns and the bound on bound
columns. -/

namespace PolyProjection

/-- Why no engine can be set up. -/
inductive EngineError where
  | settings (cause : SettingsError)
  | factor (cause : FactorError)
  deriving DecidableEq, Repr

def EngineError.message : EngineError → String
  | settings e => "Bad settings: " ++ e.message
  | factor e => "Factorization setup failed: " ++ e.message

/-- The vectors of a run. Per column, `reference` is the base value of a free column and the bound of a bound
one, `c` is what a free column has moved from there, `cold` the part of `c` that the increments of active rows
do not account for, and `pa` the direction. Per row, `rhs` is the right-hand side of the Newton system, `fwd` and
`u` are its half and full solution, and `t` is the direction. -/
structure Workspace (α : Type) where
  reference : Array α
  c : Array α
  cold : Array α
  pa : Array α
  rhs : Array α
  fwd : Array α
  u : Array α
  t : Array α

def Workspace.zero {α : Type} [Scalar α] (m n : Nat) : Workspace α :=
  let rows := Array.replicate m 0
  let cols := Array.replicate n 0
  ⟨cols, cols, cols, cols, rows, rows, rows, rows⟩

/-- Changes of the active set that the factor does not know of yet, in the order in which they were made. -/
structure ModificationLog where
  rowsAdded : Array Nat
  rowsDeleted : Array Nat
  colsFreed : Array Nat
  colsBound : Array Nat
  deriving DecidableEq, Repr

namespace ModificationLog

def empty : ModificationLog :=
  ⟨#[], #[], #[], #[]⟩

def size (l : ModificationLog) : Nat :=
  l.rowsAdded.size + l.rowsDeleted.size + l.colsFreed.size + l.colsBound.size

end ModificationLog

/-- `inFactor` marks the columns that count as free in the factor, and `sigma` is the regularization in use. -/
structure Engine (α : Type) where
  problem : Problem α
  settings : Settings α
  sigma : α
  set : ActiveSet
  factor : LdlFactor α
  inFactor : Array Bool
  lambda : Array α
  dlambda : Array α
  /-- The point at the end of the last run. -/
  x : Array α
  work : Workspace α
  heap : BreakHeap α
  log : ModificationLog
  flops : FlopHistory
  schedule : Schedule
  stats : Statistics
  timers : Timers
  /-- The end of the last run. -/
  status : Option Status
  output : Output α
  events : Array (Event α)

namespace Engine

variable {α : Type} [Scalar α]

/-- The regularization, scaled by the square of the largest entry of the matrix if that is asked for. -/
def scaledSigma (a : SparseMatrix α) (s : Settings α) : α :=
  let top := a.maxAbs
  if s.scaleSigma && 0 < top then s.sigma * top * top else s.sigma

/-- An engine with every row dropped and every column free. -/
def create (p : Problem α) (s : Settings α) : Checked (Except EngineError (Engine α)) := do
  match s.validate with
  | .error e => return .error (.settings e)
  | .ok () =>
    match ← LdlFactor.ofMatrix p.a p.aT with
    | .error e => return .error (.factor e)
    | .ok factor =>
      let m := p.nrows
      let n := p.ncols
      return .ok
        { problem := p
          settings := s
          sigma := scaledSigma p.a s
          set := .empty m n
          factor := factor
          inFactor := Array.replicate n true
          lambda := Array.replicate m 0
          dlambda := Array.replicate m 0
          x := p.y
          work := .zero m n
          heap := .empty (n + m)
          log := .empty
          flops := .empty
          schedule := .empty p.tree
          stats := .zero
          timers := .empty
          status := none
          output := .initial
          events := #[] }

/-- Tell of an event. -/
def tell (e : Engine α) (event : Event α) : Engine α :=
  { e with events := e.events.push event }

/-- Print a report, if reports of that detail are asked for. -/
def print (e : Engine α) (detail : Nat) (r : Report α) : Engine α :=
  if e.settings.verbose && detail ≤ e.settings.printLevel then { e with output := e.output.print r } else e

/-- Do something under a timer. -/
def timed {β : Type} (e : Engine α) (key : String) (act : Engine α → Checked (β × Engine α)) :
    Checked (β × Engine α) := do
  let (result, e) ← act { e with timers := e.timers.start key }
  return (result, { e with timers := e.timers.stop })

/-- A bound that must be finite. -/
def finiteBound (b : Bound α) : Checked α :=
  match b.value? with
  | some v => .ok v
  | none => .error .wrongState

/-- The bound of a row at its side; a dropped row counts as one at zero. -/
def rowBound (e : Engine α) (i : Nat) : Checked α := do
  match ← fetch e.set.rowStatus i with
  | .equality => finiteBound (← fetch e.problem.bl i)
  | .atLower => finiteBound (← fetch e.problem.bl i)
  | .atUpper => finiteBound (← fetch e.problem.bu i)
  | .dropped => return 0

/-- The bound that a column is held at, none if it is free. -/
def columnBound? (e : Engine α) (j : Nat) : Checked (Option α) := do
  match ← fetch e.set.colStatus j with
  | .free => return none
  | .atLower => return some (← finiteBound (← fetch e.problem.lo j))
  | .atUpper => return some (← finiteBound (← fetch e.problem.hi j))

/-- The active rows of a range in ascending order. -/
def activeIn (e : Engine α) (range : IndexRange) : Checked (List Nat) := do
  let start ← e.set.rows.seek range.start range.stop
  return (← e.set.rows.listFrom start).takeWhile (· < range.stop)

end Engine

end PolyProjection
