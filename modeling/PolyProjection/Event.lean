import PolyProjection.ActiveSet
import PolyProjection.Decimal.Text
import PolyProjection.Status

/-! What an engine tells about its work, step by step. -/

namespace PolyProjection

/-- How a line search ends. -/
inductive LineFlag where
  /-- Between two break values. -/
  | interior
  /-- At a break value. -/
  | nondifferentiableOptimum
  /-- The curvature is not positive. -/
  | degenerate
  /-- The last piece went beyond the full step, which was taken instead. -/
  | truncated
  /-- A break value beyond the full step ended the search. -/
  | budgetReached
  deriving DecidableEq, Repr

def LineFlag.name : LineFlag → String
  | interior => "Interior"
  | nondifferentiableOptimum => "NondifferentiableOptimum"
  | degenerate => "Degenerate"
  | truncated => "Truncated"
  | budgetReached => "BudgetReached"

inductive Level where
  | trace
  | debug
  deriving DecidableEq, Repr

def Level.name : Level → String
  | trace => "TRACE"
  | debug => "DEBUG"

inductive Event (α : Type) where
  | rowAdded (row : Nat) (status : RowStatus)
  | columnBound (col : Nat) (side : Side)
  | columnFreed (col : Nat)
  | columnFreedInSearch (col : Nat)
  | rowDropped (row : Nat) (step : α)
  | jobDone (block : Nat) (step : α) (flag : LineFlag) (changed : Bool)
  | degenerateDirection (block : Nat)
  | sweepDone (sweep jobs rowsDropped colsFreed : Nat)
  | refactored (activeRows freeCols nnz : Nat) (flops : Float)
  | updated (isPartial : Bool) (count : Nat) (flops : Float)
  | runDone (run : Nat) (status : Status) (sweeps : Nat)
  | innerDone (name : String) (status : Status)
  | roundDone (round : Nat) (status : Status) (change : α) (changed feasible : Bool)

def RowStatus.name : RowStatus → String
  | equality => "Equality"
  | atLower => "AtLower"
  | atUpper => "AtUpper"
  | dropped => "Dropped"

def Side.name : Side → String
  | lower => "Lower"
  | upper => "Upper"

namespace Event

variable {α : Type}

def level : Event α → Level
  | degenerateDirection _ | refactored .. | updated .. | runDone .. | innerDone .. | roundDone .. => .debug
  | _ => .trace

/-- A step length. Its zero has no sign. -/
def stepText (x : Float) : String :=
  if x == 0 then NumberStyle.scientific.zero else Decimal.shortest .scientific x

def flopsText (x : Float) : String :=
  Decimal.scientific 3 x ++ " flops"

def message : Event Float → String
  | rowAdded row status => "row " ++ Nat.repr row ++ " added as " ++ status.name
  | columnBound col side => "column " ++ Nat.repr col ++ " bound at " ++ side.name
  | columnFreed col => "column " ++ Nat.repr col ++ " freed"
  | columnFreedInSearch col => "column " ++ Nat.repr col ++ " freed in line search"
  | rowDropped row step => "row " ++ Nat.repr row ++ " dropped at step " ++ stepText step
  | jobDone block step flag changed =>
    "job " ++ Nat.repr block ++ ": step " ++ stepText step ++ ", " ++ flag.name ++ ", changed = " ++ toString changed
  | degenerateDirection block => "degenerate direction in block " ++ Nat.repr block
  | sweepDone sweep jobs dropped freed =>
    "sweep " ++ Nat.repr sweep ++ ": " ++ Nat.repr jobs ++ " jobs, " ++ Nat.repr dropped ++ " dropped, " ++
      Nat.repr freed ++ " freed"
  | refactored rows cols nnz flops =>
    "refactor: " ++ Nat.repr rows ++ " active rows, " ++ Nat.repr cols ++ " free columns, nnz(L) = " ++
      Nat.repr nnz ++ ", " ++ flopsText flops
  | updated isPartial count flops =>
    (if isPartial then "partial" else "root") ++ " update: " ++ Nat.repr count ++ " modifications, " ++
      flopsText flops
  | runDone run status sweeps =>
    "dasa run " ++ Nat.repr run ++ ": " ++ status.name ++ " after " ++ Nat.repr sweeps ++ " sweeps"
  | innerDone name status => "inner method " ++ name ++ ": " ++ status.name
  | roundDone round status change changed feasible =>
    "outer " ++ Nat.repr round ++ ": " ++ status.name ++ ", |dx| = " ++ Decimal.shortest .scientific change ++
      ", changed = " ++ toString changed ++ ", feasible = " ++ toString feasible

/-- The level and the message. -/
def text (e : Event Float) : String :=
  e.level.name ++ " " ++ e.message

end Event

end PolyProjection
