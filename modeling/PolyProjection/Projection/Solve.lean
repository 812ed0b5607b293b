import PolyProjection.Engine.Run
import PolyProjection.Projection.Reconcile

/-! The rounds of a projection. Each one runs an inner method or the engine on the present active set, computes
the point and brings the active set in line with it. The projection is found once that changes nothing while
every active row is at its bound. -/

namespace PolyProjection.Projection

variable {α σ : Type} [Scalar α]

/-- The inner method's run and its end, none if the engine has to run: because there is no inner method, because
it is not expected to pay, or because it hands over. -/
def runInner (s : Projection α σ) : Checked (Option Status × Projection α σ) := do
  match s.inner with
  | none => return (none, s)
  | some (method, state) =>
    if !s.engine.settings.useCheapInnerMethod then return (none, s)
    let advice ← s.engine.cheapAdvice s.rowsAdded
    if !advice.any then return (none, s)
    let (state, entries, status) := method.run state s.engine advice
    let e := (← s.engine.setDual entries).tell (.innerDone method.name status)
    let s := { s with engine := e, inner := some (method, state) }
    match status with
    | .switchToUpdateDowndate => return (none, s)
    | .nonascent => return (none, s)
    | _ => return (some status, s)

/-- New multipliers for the present active set. -/
def ascend (s : Projection α σ) : Checked (Status × Projection α σ) := do
  match ← s.runInner with
  | (some status, s) => return (status, s)
  | (none, s) => s.withEngine Engine.run

/-- One round, with its number. Answers with a status once the projection is over. -/
def round (s : Projection α σ) (number : Nat) : Checked (Option Status × Projection α σ) := do
  let (status, s) ← ascend { s with solution := { s.solution with rounds := s.solution.rounds + 1 } }
  let (change, s) ← s.updatePoint
  if status = .maxIterations then return (some status, s)
  let (changed, s) ← s.reconcile
  let feasible ← s.isFeasible
  let s := { s with engine := s.engine.tell (.roundDone number status change changed feasible) }
  if changed || !feasible then return (none, s)
  return (some (if s.engine.set.activeCount == 0 then .allRowsDropped else .solutionFound), s)

/-- Rounds from the given number on, until one of them ends the projection or none are left. -/
def roundsFrom (number : Nat) : Nat → Projection α σ → Checked (Status × Projection α σ)
  | 0, s => return (.maxIterations, s)
  | left + 1, s => do
    match ← s.round number with
    | (some status, s) => return (status, s)
    | (none, s) => roundsFrom (number + 1) left s

/-- The rounds of one projection. Without rows the point only has to be clipped. -/
def rounds (s : Projection α σ) : Checked (Status × Projection α σ) := do
  if s.engine.problem.nrows = 0 then return (.allRowsDropped, (← s.updatePoint).2)
  let s ← if s.initialized then pure s else s.start
  roundsFrom 0 s.engine.settings.maxOuterIter s

/-- Project, from the present active set and multipliers. -/
def solve (s : Projection α σ) : Checked (Status × Projection α σ) := do
  let timers := s.engine.timers.start "outer"
  let (status, s) ← rounds { s with engine := { s.engine with timers := timers } }
  let e : Engine α := { s.engine with timers := s.engine.timers.stop }
  let shown ← if 2 ≤ e.settings.printLevel then e.timers.lines else pure []
  let e := e.print 0 (.footer status e.stats shown)
  return (status, { s with engine := e, solution := { s.solution with status := status, lambda := e.lambda } })

end PolyProjection.Projection
