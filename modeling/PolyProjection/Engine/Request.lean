import PolyProjection.Engine.State

/-! Requests that shape the active set between runs. A request that cannot be met leaves the engine as it is and
answers with false. -/

namespace PolyProjection.Engine

variable {α : Type} [Scalar α]

/-- The status that a row enters with at a side, none if its bound there is infinite. Rows whose bounds are equal
have only one. -/
def entryStatus? (p : Problem α) (row : Nat) (side : Side) : Checked (Option RowStatus) := do
  if ← p.isEquality row then return some .equality
  match side with
  | .lower => return if (← fetch p.bl row).isFinite then some .atLower else none
  | .upper => return if (← fetch p.bu row).isFinite then some .atUpper else none

/-- Make a dropped row active at the given side. -/
def addRow (e : Engine α) (row : Nat) (side : Side) : Checked (Bool × Engine α) := do
  if ← e.set.isRowActive row then return (false, e)
  match ← entryStatus? e.problem row side with
  | none => return (false, e)
  | some status =>
    let e := { e with
      set := ← e.set.activate row status
      lambda := ← store e.lambda row 0
      dlambda := ← store e.dlambda row 0
      log := { e.log with rowsAdded := e.log.rowsAdded.push row }
      stats := { e.stats with rowsAdded := e.stats.rowsAdded + 1 } }
    return (true, e.tell (.rowAdded row status))

/-- Hold a column at one of its bounds, whether it is free or held at the other one. -/
def bindColumn (e : Engine α) (col : Nat) (side : Side) : Checked (Bool × Engine α) := do
  let bound ← match side with
    | .lower => fetch e.problem.lo col
    | .upper => fetch e.problem.hi col
  if !bound.isFinite then return (false, e)
  let wasFree ← e.set.isFree col
  let e := { e with set := ← e.set.activateBound col side }
  let e := if wasFree then
      { e with
        log := { e.log with colsBound := e.log.colsBound.push col }
        stats := { e.stats with colsBound := e.stats.colsBound + 1 } }
    else e
  return (true, e.tell (.columnBound col side))

/-- Take a bound column into the free ones and log it. -/
def releaseColumn (e : Engine α) (col : Nat) : Checked (Engine α) :=
  return { e with
    set := ← e.set.release col
    log := { e.log with colsFreed := e.log.colsFreed.push col }
    stats := { e.stats with colsFreed := e.stats.colsFreed + 1 } }

/-- Release a column that is held at a bound. -/
def freeColumn (e : Engine α) (col : Nat) : Checked (Bool × Engine α) := do
  if ← e.set.isFree col then return (false, e)
  return (true, (← e.releaseColumn col).tell (.columnFreed col))

/-- Replace single multipliers. -/
def setDual (e : Engine α) (entries : List (Nat × α)) : Checked (Engine α) :=
  return { e with lambda := ← entries.foldlM (fun l p => store l p.1 p.2) e.lambda }

/-- Whether a cheap inner method is expected to pay after so many rows were added. -/
def cheapAdvice (e : Engine α) (nrowadd : Nat) : Checked CheapAdvice :=
  return e.flops.cheapAdvice e.settings.coorCost e.settings.ssorCost (← e.problem.a.nnz) e.set.activeCount nrowadd

end PolyProjection.Engine
