/-! How a run of the engine ends, or of an inner method in its place. No ending is an error: the projection goes on
from each of them. -/

namespace PolyProjection

inductive Status where
  /-- The multipliers are optimal for the active set. -/
  | solutionFound
  /-- An inner method asks for the factorization based engine. -/
  | switchToUpdateDowndate
  /-- No row is active. -/
  | allRowsDropped
  /-- An inner method made no ascent. -/
  | nonascent
  /-- The number of sweeps or of rounds is used up. -/
  | maxIterations
  deriving DecidableEq, Repr

namespace Status

/-- Every status, in the order of its code. -/
def all : List Status :=
  [solutionFound, switchToUpdateDowndate, allRowsDropped, nonascent, maxIterations]

def name : Status → String
  | solutionFound => "SolutionFound"
  | switchToUpdateDowndate => "SwitchToUpdateDowndate"
  | allRowsDropped => "AllRowsDropped"
  | nonascent => "Nonascent"
  | maxIterations => "MaxIterations"

def code (s : Status) : Nat :=
  all.idxOf s

def ofName? (text : String) : Option Status :=
  all.find? fun s => s.name == text

/-- Whether the multipliers can be accepted. -/
def isSolution : Status → Bool
  | solutionFound => true
  | allRowsDropped => true
  | _ => false

theorem ofName?_name (s : Status) : ofName? s.name = some s := by
  cases s <;> decide

end Status

end PolyProjection
