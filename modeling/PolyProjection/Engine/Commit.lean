import PolyProjection.Engine.State

/-! Changes of the active set reach the factor together, once per sweep: one by one, or by a fresh factorization
where that is expected to be cheaper. -/

namespace PolyProjection.Engine

variable {α : Type} [Scalar α]

/-- Factorize for the present active set. -/
def refactor (e : Engine α) : Checked (Engine α) := do
  let free ← (List.range e.problem.ncols).mapM e.set.isFree
  let active ← (List.range e.problem.nrows).mapM e.set.isRowActive
  let inFactor := free.toArray
  let (factor, count) ← e.factor.factorize e.problem.a e.problem.aT inFactor active.toArray e.sigma
  let flops : FactorFlops := ⟨Float.ofNat count.aat, Float.ofNat count.numeric⟩
  let nnz := factor.liveNnz
  let e := { e with
    inFactor := inFactor
    factor := factor
    flops := e.flops.recordRefactor flops nnz
    stats := { e.stats with factorizations := e.stats.factorizations + 1 } }
  return e.tell (.refactored e.set.activeCount e.set.free.size nnz flops.total)

/-- An engine whose factor is being changed, with the flops and the number of changes so far. -/
structure Replay (α : Type) where
  engine : Engine α
  flops : Nat
  count : Nat

/-- Note a change of the factor. -/
def Replay.record (r : Replay α) (change : LdlFactor α × Nat) : Replay α :=
  ⟨{ r.engine with factor := change.1 }, r.flops + change.2, r.count + 1⟩

/-- A column leaves the factor if it is in it and is not free. -/
def Replay.bindColumn (r : Replay α) (j : Nat) : Checked (Replay α) := do
  let e := r.engine
  if (← fetch e.inFactor j) && !(← e.set.isFree j) then
    let r := r.record (← e.factor.downdate e.problem.a j)
    return { r with engine := { r.engine with inFactor := ← store e.inFactor j false } }
  else return r

/-- A row leaves the factor if it is in it and is not active. -/
def Replay.deleteRow (r : Replay α) (k : Nat) : Checked (Replay α) := do
  let e := r.engine
  if (← fetch e.factor.active k) && !(← e.set.isRowActive k) then return r.record (← e.factor.deleteRow k)
  else return r

/-- A row enters the factor if it is not in it and is active. -/
def Replay.addRow (r : Replay α) (k : Nat) : Checked (Replay α) := do
  let e := r.engine
  if !(← fetch e.factor.active k) && (← e.set.isRowActive k) then
    return r.record (← e.factor.addRow e.problem.a e.problem.aT e.inFactor k)
  else return r

/-- A column enters the factor if it is not in it and is free. -/
def Replay.freeColumn (r : Replay α) (j : Nat) : Checked (Replay α) := do
  let e := r.engine
  if !(← fetch e.inFactor j) && (← e.set.isFree j) then
    let r := r.record (← e.factor.update e.problem.a j)
    return { r with engine := { r.engine with inFactor := ← store e.inFactor j true } }
  else return r

/-- Replay the logged changes. Bound columns leave first, while their rows are still in the factor. -/
def applyUpdates (e : Engine α) (isPartial : Bool) : Checked (Engine α) := do
  let r : Replay α := ⟨e, 0, 0⟩
  let r ← e.log.colsBound.foldlM Replay.bindColumn r
  let r ← e.log.rowsDeleted.foldlM Replay.deleteRow r
  let r ← e.log.rowsAdded.foldlM Replay.addRow r
  let r ← e.log.colsFreed.foldlM Replay.freeColumn r
  let flops := Float.ofNat r.flops
  let e := { r.engine with
    flops := r.engine.flops.recordUpdate flops r.count isPartial
    stats := { r.engine.stats with updates := r.engine.stats.updates + r.count } }
  return e.tell (.updated isPartial r.count flops)

/-- Bring the factor in line with the active set. Answers whether it was computed afresh. -/
def commit (e : Engine α) (isPartial : Bool) : Checked (Bool × Engine α) := do
  let (dropped, set) := e.set.takeDropped
  let e := { e with set := set, log := { e.log with rowsDeleted := e.log.rowsDeleted ++ dropped } }
  if e.log.size == 0 && e.flops.factored then return (false, e)
  let refactored := e.flops.shouldRefactor e.set.activeCount e.log.size
  let (_, e) ←
    if refactored then e.timed "factor" fun e => return ((), ← e.refactor)
    else e.timed "update" fun e => return ((), ← e.applyUpdates isPartial)
  return (refactored, { e with log := .empty })

end PolyProjection.Engine
