import PolyProjection.Engine.Commit
import PolyProjection.Engine.LineSearch
import PolyProjection.TriangularSolve

/-! Runs of the engine. A run works on the blocks of the tree from the leaves to the root; each job solves the
Newton system of its rows and searches along the direction. -/

namespace PolyProjection.Engine

variable {α : Type} [Scalar α]

/-- Fold the increments into the multipliers; those of dropped rows become zero. -/
def foldIncrements (e : Engine α) : Checked (Engine α) := do
  let lambda ← (List.range e.problem.nrows).foldlM (fun l i => do
    if ← e.set.isRowActive i then
      let d ← fetch e.dlambda i
      adjust l i (· + d)
    else store l i 0) e.lambda
  return { e with lambda := lambda, dlambda := e.dlambda.map fun _ => 0 }

/-- Start values of column `j`, whose unbounded value is `z`. -/
def rebaseColumn (e : Engine α) (w : Workspace α) (j : Nat) : Checked (Workspace α) := do
  let z ← fetch w.reference j
  let (base, moved) ← match ← e.columnBound? j with
    | none => pure (z, 0)
    | some b => pure (b, z - b)
  return { w with
    reference := ← store w.reference j base
    c := ← store w.c j moved
    cold := ← store w.cold j moved
    pa := ← store w.pa j 0 }

/-- The right-hand side of row `i`, zero for a dropped row. -/
def rhsEntry (e : Engine α) (reference : Array α) (i : Nat) : Checked α := do
  if ← e.set.isRowActive i then return (← e.rowBound i) - (← e.problem.rowDot i reference)
  else return 0

/-- Compute all vectors anew from the multipliers. -/
def rebase (e : Engine α) : Checked (Engine α) := do
  let e ← e.foldIncrements
  let reference ← e.problem.shifted e.lambda
  let w ← (List.range e.problem.ncols).foldlM e.rebaseColumn { e.work with reference := reference }
  let rhs ← (List.range e.problem.nrows).foldlM (fun rhs i => do
    store rhs i (← e.rhsEntry w.reference i)) w.rhs
  return { e with work := { w with rhs := rhs } }

/-- The Newton direction of a job: the solution of the system of its rows, less the increments so far. A job with
a mark keeps the forward solve of the rows before it. -/
def solveJob (e : Engine α) (job : Job) : Checked (Engine α) := do
  let top := job.rows.start
  let bottom := job.rows.stop
  let start := min ((job.mark.map (max · top)).getD top) bottom
  let w := e.work
  let fwd ← (span start bottom).foldlM (fun fwd i => do store fwd i (← fetch w.rhs i)) w.fwd
  let fwd ← e.factor.forwardSolve e.set.rows fwd top bottom job.mark
  let u ← e.factor.backSolve e.set.rows fwd w.u top bottom
  let t ← (span top bottom).foldlM (fun t i => do
    if ← e.set.isRowActive i then store t i ((← fetch u i) - (← fetch e.dlambda i)) else store t i 0) w.t
  return { e with
    work := { w with fwd := fwd, u := u, t := t }
    stats := { e.stats with solves := e.stats.solves + 1 } }

/-- Solve and search over one job, which is returned with what came of it. -/
def processJob (e : Engine α) (job : Job) : Checked (Job × Engine α) := do
  if !(← Schedule.meets e.set.rows job.rows) then return ({ job with changed := false, mark := none }, e)
  let e := { e with stats := { e.stats with jobs := e.stats.jobs + 1 } }
  let (_, e) ← e.timed "solve" fun e => return ((), ← e.solveJob job)
  let (outcome, e) ← e.timed "linesearch" fun e => e.lineSearch job.rows job.cols
  let e := e.tell (.jobDone job.block outcome.step outcome.flag outcome.changed)
  let e := if outcome.flag = .degenerate then e.tell (.degenerateDirection job.block) else e
  return ({ job with changed := outcome.changed, mark := outcome.mark }, e)

/-- Process jobs in order. -/
def processJobs (e : Engine α) : List Job → Checked (List Job × Engine α)
  | [] => return ([], e)
  | job :: rest => do
    let (job, e) ← e.processJob job
    let (rest, e) ← e.processJobs rest
    return (job :: rest, e)

/-- Conditions that hold between the steps of a run: the active set is consistent, and no diagonal entry of the
factor is below the regularization. -/
def checkState (e : Engine α) : Checked Unit := do
  require (← e.set.isConsistent) .wrongState
  require (match e.factor.minActiveDiagonal with
    | none => true
    | some d => e.sigma ≤ d) .wrongState

/-- One sweep over the jobs of the schedule. Answers with a status once the run is over. -/
def sweep (e : Engine α) (number : Nat) : Checked (Option Status × Engine α) := do
  let stats := e.stats
  let e := { e with stats := { stats with sweeps := stats.sweeps + 1 } }
  let (jobs, e) ← e.processJobs e.schedule.jobs
  let e := { e with schedule := { e.schedule with jobs := jobs } }
  let (refactored, e) ← e.commit (!e.schedule.atRoot e.problem.tree)
  e.checkState
  let dropped := e.stats.rowsDropped - stats.rowsDropped
  let freed := e.stats.colsFreed - stats.colsFreed
  let e := e.print 2 (.sweep number jobs.length e.set.activeCount dropped freed refactored)
  let e := e.tell (.sweepDone number jobs.length dropped freed)
  let (status, schedule) ← e.schedule.advance e.problem.tree e.set.rows refactored
  return (status, { e with schedule := schedule })

/-- Sweep until the run is over or the given number of sweeps is used up. Answers with the number of sweeps. -/
def sweepsFrom (done : Nat) : Nat → Engine α → Checked ((Status × Nat) × Engine α)
  | 0, e => return ((.maxIterations, done), e)
  | left + 1, e => do
    match ← e.sweep (done + 1) with
    | (some status, e) => return ((status, done + 1), e)
    | (none, e) => sweepsFrom (done + 1) left e

/-- The sweeps of a run. -/
def runSweeps (e : Engine α) : Checked ((Status × Nat) × Engine α) := do
  let e ← e.rebase
  let (_, e) ← e.commit false
  require (← e.set.isConsistent) .wrongState
  if e.set.activeCount == 0 then return ((.allRowsDropped, 0), e)
  let schedule ← Schedule.seed e.problem.tree e.set.rows
  sweepsFrom 0 e.settings.maxSweeps { e with schedule := schedule }

/-- Fold the increments at the end of a run and keep the point. -/
def finish (e : Engine α) : Checked (Engine α) := do
  let e ← e.rebase
  return { e with x := e.work.reference }

/-- One run over the present active set. -/
def run (e : Engine α) : Checked (Status × Engine α) := do
  let e ←
    if e.stats.runs == 0 then do
      let p := e.problem
      pure (e.print 0 (.configuration p.ncols p.nrows (← p.a.nnz) p.tree.size e.settings e.sigma))
    else pure e
  let e := { e with stats := { e.stats with runs := e.stats.runs + 1 } }
  let e := e.print 2 .runHeader
  let ((status, sweeps), e) ← e.timed "dasa" fun e => do
    let (result, e) ← e.runSweeps
    return (result, ← e.finish)
  let e := { e with status := some status }
  let e := e.print 1 (.runFooter e.stats.runs status sweeps)
  return (status, e.tell (.runDone e.stats.runs status sweeps))

end PolyProjection.Engine
