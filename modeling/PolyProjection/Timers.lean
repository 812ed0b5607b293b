import PolyProjection.Fault

/-! Named timers that nest: a timer started while another runs belongs to that one. The durations themselves are
left to the outside; kept are the names, their nesting, and which timers have completed a measurement. -/

namespace PolyProjection

/-- A timer and the timers below it, each with a name of its own. -/
inductive Timer where
  | node (name : String) (completed : Bool) (children : List Timer)
  deriving Repr

namespace Timer

def name : Timer → String
  | node n _ _ => n

def completed : Timer → Bool
  | node _ c _ => c

def children : Timer → List Timer
  | node _ _ cs => cs

/-- Whether the names lead from the given timers downwards. -/
def hasPath : List Timer → List String → Bool
  | _, [] => true
  | ts, key :: rest =>
    match ts.find? (·.name == key) with
    | some t => hasPath t.children rest
    | none => false

/-- Apply `f` to the timers below the one that the names lead to. -/
def atPath (f : List Timer → List Timer) : List String → List Timer → List Timer
  | [], ts => f ts
  | key :: rest, ts => ts.map fun t => if t.name == key then node key t.completed (atPath f rest t.children) else t

/-- Add a timer unless there is one of that name. -/
def add (key : String) (ts : List Timer) : List Timer :=
  if ts.any (·.name == key) then ts else ts ++ [node key false []]

/-- Note that the timer of that name has completed a measurement. -/
def complete (key : String) (ts : List Timer) : List Timer :=
  ts.map fun t => if t.name == key then node key true t.children else t

mutual

/-- Whether a timer of that name, here or further down, has completed a measurement. -/
def hasMeasured (key : String) : Timer → Bool
  | node n c cs => (n == key && c) || anyMeasured key cs

def anyMeasured (key : String) : List Timer → Bool
  | [] => false
  | t :: ts => hasMeasured key t || anyMeasured key ts

end

end Timer

/-- The running timers, outermost first, and all timers since the last reset. -/
structure Timers where
  stack : List String
  roots : List Timer
  deriving Repr

namespace Timers

def empty : Timers :=
  ⟨[], []⟩

def start (t : Timers) (key : String) : Timers :=
  let path := if Timer.hasPath t.roots t.stack then t.stack else []
  ⟨t.stack ++ [key], Timer.atPath (Timer.add key) path t.roots⟩

/-- Stop the innermost running timer, if there is one. -/
def stop (t : Timers) : Timers :=
  match t.stack.getLast? with
  | none => t
  | some key => ⟨t.stack.dropLast, Timer.atPath (Timer.complete key) t.stack.dropLast t.roots⟩

/-- Whether no time was measured under a name. -/
def isUnmeasured (t : Timers) (key : String) : Bool :=
  !Timer.anyMeasured key t.roots

/-- Whether no outermost timer has completed a measurement. -/
def isTotalUnmeasured (t : Timers) : Bool :=
  t.roots.all (!·.completed)

/-- Nesting is counted in eight bits. -/
def maxDepth : Nat := 255

mutual

/-- The names of a timer and those below it with their depths, in alphabetic order at each level. -/
def linesOf (depth : Nat) : Timer → Checked (List (Nat × String))
  | .node name _ children => do
    require (depth < maxDepth) .outOfRange
    let groups ← groupsOf (depth + 1) children
    return (depth, name) :: (groups.mergeSort fun a b => decide (a.1 ≤ b.1)).flatMap (·.2)

/-- The lines of each of the timers, after its name. -/
def groupsOf (depth : Nat) : List Timer → Checked (List (String × List (Nat × String)))
  | [] => return []
  | t :: ts => return (t.name, ← linesOf depth t) :: (← groupsOf depth ts)

end

/-- All names with their depths, a timer before those below it and names in alphabetic order. -/
def lines (t : Timers) : Checked (List (Nat × String)) := do
  let groups ← groupsOf 0 t.roots
  return (groups.mergeSort fun a b => decide (a.1 ≤ b.1)).flatMap (·.2)

/-- A name, indented by four blanks for each timer around it. -/
def indented (line : Nat × String) : String :=
  String.ofList (List.replicate (4 * line.1) ' ') ++ line.2

end Timers

end PolyProjection
