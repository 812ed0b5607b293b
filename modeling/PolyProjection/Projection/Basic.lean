import PolyProjection.Engine.Request

/-! The projection of a point: an engine with the solution so far. The multipliers belong to the engine, and the
point of the solution is the nearest one to `y + Aᵀ * λ` within the bounds of the columns. -/

namespace PolyProjection

/-- A cheaper method that may stand in for a run of the engine. It has a state of its own and answers with the
multipliers that it replaces. Those of dropped rows have to stay at zero and those of inequality rows on the side
of their row. It ends with `switchToUpdateDowndate` or `nonascent` to hand over to the engine. -/
structure InnerMethod (α σ : Type) where
  name : String
  run : σ → Engine α → CheapAdvice → σ × List (Nat × α) × Status

structure Solution (α : Type) where
  x : Array α
  lambda : Array α
  status : Status
  /-- Rounds of all projections so far. -/
  rounds : Nat
  deriving DecidableEq, Repr

structure Projection (α σ : Type) where
  engine : Engine α
  /-- The inner method, if there is one, and its state. -/
  inner : Option (InnerMethod α σ × σ)
  solution : Solution α
  initialized : Bool
  /-- Rows that the last round added. -/
  rowsAdded : Nat

namespace Projection

variable {α σ : Type} [Scalar α]

def create (p : Problem α) (s : Settings α) : Checked (Except EngineError (Projection α σ)) := do
  match ← Engine.create p s with
  | .error e => return .error e
  | .ok engine =>
    return .ok
      { engine := engine
        inner := none
        solution := ⟨p.y, Array.replicate p.nrows 0, .maxIterations, 0⟩
        initialized := false
        rowsAdded := 0 }

/-- Do something with the engine. -/
def withEngine {β : Type} (s : Projection α σ) (act : Engine α → Checked (β × Engine α)) :
    Checked (β × Projection α σ) := do
  let (result, engine) ← act s.engine
  return (result, { s with engine := engine })

/-- Compute the point from the multipliers. Answers with the largest change of an entry. -/
def updatePoint (s : Projection α σ) : Checked (α × Projection α σ) := do
  let p := s.engine.problem
  let x ← p.clip (← p.shifted s.engine.lambda)
  return (Dense.distInf x s.solution.x, { s with solution := { s.solution with x := x } })

end Projection

end PolyProjection
