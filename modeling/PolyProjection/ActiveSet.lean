import PolyProjection.IndexList

/-! The working set of a projection: which rows are active at which side, and which columns are held at a
bound. -/

namespace PolyProjection

/-- The state of a constraint row. -/
inductive RowStatus where
  /-- Both bounds are equal; such a row is never dropped. -/
  | equality
  /-- Active at its lower bound, with a nonnegative multiplier. -/
  | atLower
  /-- Active at its upper bound, with a nonpositive multiplier. -/
  | atUpper
  /-- Not part of the system. -/
  | dropped
  deriving DecidableEq, Repr

def RowStatus.isActive (s : RowStatus) : Bool :=
  s != .dropped

/-- The state of a variable. -/
inductive ColumnStatus where
  | free
  | atLower
  | atUpper
  deriving DecidableEq, Repr

/-- The side of the interval that a variable is held at. -/
def ColumnStatus.sign : ColumnStatus → Int
  | free => 0
  | atLower => -1
  | atUpper => 1

/-- A side of an interval. -/
inductive Side where
  | lower
  | upper
  deriving DecidableEq, Repr

def Side.columnStatus : Side → ColumnStatus
  | lower => .atLower
  | upper => .atUpper

/-- Active rows are linked in ascending order and bound columns in the order in which they were bound. The free
columns are listed without order, with the place of each. -/
structure ActiveSet where
  rowStatus : Array RowStatus
  colStatus : Array ColumnStatus
  rows : IndexList
  bound : IndexList
  free : Array Nat
  freePos : Array (Option Nat)
  /-- Rows deactivated since the last request for them. -/
  dropped : Array Nat
  deriving DecidableEq, Repr

namespace ActiveSet

/-- Every row dropped and every column free. -/
def empty (m n : Nat) : ActiveSet where
  rowStatus := Array.replicate m .dropped
  colStatus := Array.replicate n .free
  rows := .empty m
  bound := .empty n
  free := Array.range n
  freePos := (Array.range n).map some
  dropped := #[]

/-- The empty set of numbers of rows and columns that need not be the sizes of anything. -/
def create (m n : Nat) : Checked ActiveSet := do
  requireLength (m + 1)
  requireLength (n + 1)
  return empty m n

def isRowActive (s : ActiveSet) (i : Nat) : Checked Bool :=
  s.rows.contains i

def isFree (s : ActiveSet) (j : Nat) : Checked Bool :=
  return (← fetch s.colStatus j) == .free

def activeCount (s : ActiveSet) : Nat :=
  s.rows.size

/-- The active row that precedes `row`, found by going down. -/
def predecessor? (s : ActiveSet) (row : Nat) : Option Nat :=
  (List.range row).reverse.find? fun i => s.rows.next[i]?.join.isSome

/-- Make a dropped row active with the given status. -/
def activate (s : ActiveSet) (row : Nat) (status : RowStatus) : Checked ActiveSet := do
  require status.isActive .wrongState
  require (!(← s.rows.contains row)) .wrongState
  let rows ← s.rows.insertAfter (s.predecessor? row) row
  return { s with rows := rows, rowStatus := ← store s.rowStatus row status }

/-- Drop an active row and note it. -/
def deactivate (s : ActiveSet) (row : Nat) : Checked ActiveSet := do
  let rows ← s.rows.unlink row
  return { s with rows := rows, rowStatus := ← store s.rowStatus row .dropped, dropped := s.dropped.push row }

/-- The rows dropped since the last call, and the set without that note. -/
def takeDropped (s : ActiveSet) : Array Nat × ActiveSet :=
  (s.dropped, { s with dropped := #[] })

/-- Take a column out of the free ones; the last of these takes its place. -/
def removeFree (s : ActiveSet) (col : Nat) : Checked ActiveSet := do
  match ← fetch s.freePos col, s.free.back? with
  | some pos, some last =>
    let free ← store s.free pos last
    let freePos ← store (← store s.freePos last (some pos)) col none
    return { s with free := free.pop, freePos := freePos }
  | _, _ => .error .wrongState

/-- Hold a column at one of its bounds; a column that is held already only changes sides. -/
def activateBound (s : ActiveSet) (col : Nat) (side : Side) : Checked ActiveSet := do
  let s ← if ← s.isFree col then
      let s ← s.removeFree col
      pure { s with bound := ← s.bound.pushBack col }
    else pure s
  return { s with colStatus := ← store s.colStatus col side.columnStatus }

/-- Release a column that is held at a bound. -/
def release (s : ActiveSet) (col : Nat) : Checked ActiveSet := do
  let bound ← s.bound.unlink col
  return { s with
    bound := bound
    freePos := ← store s.freePos col (some s.free.size)
    free := s.free.push col
    colStatus := ← store s.colStatus col .free }

/-- Whether lists, places and statuses tell the same. -/
def isConsistent (s : ActiveSet) : Checked Bool := do
  let rows ← s.rows.toList
  let bound ← s.bound.toList
  let rowsAgree ← (List.range s.rowStatus.size).allM fun i =>
    return (← s.rows.contains i) == (← fetch s.rowStatus i).isActive
  let freeAgree ← (List.range s.free.size).allM fun p => do
    let j ← fetch s.free p
    return (← fetch s.freePos j) == some p && (← s.isFree j)
  let boundAgree ← bound.allM fun j => return !(← s.isFree j)
  return (← s.rows.isConsistent) && (← s.bound.isConsistent) && isAscending rows && rowsAgree && freeAgree &&
    boundAgree && s.free.size + bound.length == s.colStatus.size

end ActiveSet

end PolyProjection
