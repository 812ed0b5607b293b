import PolyProjection.Decimal.Text
import PolyProjection.Settings
import PolyProjection.Statistics
import PolyProjection.Status
import PolyProjection.Timers

/-! Printed reports and where they are printed to. -/

namespace PolyProjection

inductive Report (α : Type) where
  | configuration (ncols nrows nnz blocks : Nat) (settings : Settings α) (sigma : α)
  | runHeader
  | sweep (sweep jobs active rowsDropped colsFreed : Nat) (refactored : Bool)
  | runFooter (run : Nat) (status : Status) (sweeps : Nat)
  /-- The end of a projection; the timers have their depths. -/
  | footer (status : Status) (stats : Statistics) (timers : List (Nat × String))

namespace Report

def onOff (b : Bool) : String :=
  if b then "on" else "off"

/-- A number that fills the given width on the right. -/
def aligned (width n : Nat) : String :=
  let digits := Nat.repr n
  String.ofList (List.replicate (width - digits.length) ' ') ++ digits

def ruler : String :=
  String.ofList (List.replicate 47 '-')

/-- The lines of a report. Durations are not kept: each is written as the given text. -/
def lines (duration : String) : Report Float → List String
  | configuration ncols nrows nnz blocks s sigma =>
    ["",
      "problem:",
      "  variables     = " ++ Nat.repr ncols,
      "  constraints   = " ++ Nat.repr nrows,
      "  nnz(A)        = " ++ Nat.repr nnz,
      "  blocks        = " ++ Nat.repr blocks,
      "",
      "settings:",
      "  sigma = " ++ Decimal.scientific 1 s.sigma ++ " (scaled " ++ Decimal.scientific 1 sigma ++
        "), tol_feas = " ++ Decimal.scientific 1 s.tolFeas,
      "  max sweeps = " ++ Nat.repr s.maxSweeps ++ ", max outer iter = " ++ Nat.repr s.maxOuterIter,
      "  cheap inner: " ++ onOff s.useCheapInnerMethod ++ ", coorcost = " ++ Decimal.fixed 3 s.coorCost ++
        ", ssorcost = " ++ Decimal.fixed 3 s.ssorCost,
      ""]
  | runHeader => ["sweep  jobs  active   dropped  freed   refactor", ruler]
  | sweep k jobs active dropped freed refactored =>
    [String.intercalate "  " [aligned 5 k, aligned 4 jobs, aligned 6 active, aligned 8 dropped, aligned 5 freed] ++
      "   " ++ onOff refactored]
  | runFooter run status sweeps =>
    ["dasa run " ++ Nat.repr run ++ ": " ++ status.name ++ " after " ++ Nat.repr sweeps ++ " sweep(s)"]
  | footer status s timers =>
    [ruler,
      "Terminated with status = " ++ status.name,
      "runs = " ++ Nat.repr s.runs ++ ", sweeps = " ++ Nat.repr s.sweeps ++ ", factorizations = " ++
        Nat.repr s.factorizations ++ ", updates = " ++ Nat.repr s.updates,
      "rows added = " ++ Nat.repr s.rowsAdded ++ ", dropped = " ++ Nat.repr s.rowsDropped ++
        "; columns freed = " ++ Nat.repr s.colsFreed ++ ", bound = " ++ Nat.repr s.colsBound,
      "solve time = " ++ duration] ++ timers.map fun t => Timers.indented t ++ " : " ++ duration

end Report

/-- Where reports go. -/
inductive Target where
  | stdout
  | file
  | buffer
  | stream
  | sink
  deriving DecidableEq, Repr

def Target.name : Target → String
  | stdout => "Stdout"
  | file => "File"
  | buffer => "Buffer"
  | stream => "Stream"
  | sink => "Sink"

/-- The present target and the reports that the buffer, the stream and the file hold. -/
structure Output (α : Type) where
  target : Target
  buffer : Array (Report α)
  stream : Array (Report α)
  file : Array (Report α)

namespace Output

variable {α : Type}

/-- Reports go to standard output at first. -/
def initial : Output α :=
  ⟨.stdout, #[], #[], #[]⟩

/-- Print to another target from now on. A buffer and a file begin empty. -/
def redirect (o : Output α) (target : Target) : Output α :=
  match target with
  | .buffer => { o with target := .buffer, buffer := #[] }
  | .file => { o with target := .file, file := #[] }
  | t => { o with target := t }

def print (o : Output α) (r : Report α) : Output α :=
  match o.target with
  | .buffer => { o with buffer := o.buffer.push r }
  | .stream => { o with stream := o.stream.push r }
  | .file => { o with file := o.file.push r }
  | _ => o

/-- The answer to a request for the buffer when reports go elsewhere. -/
def noBufferMessage : String :=
  "Print buffering is not configured."

/-- The reports in the buffer, if that is the target. -/
def buffered? (o : Output α) : Option (Array (Report α)) :=
  if o.target = .buffer then some o.buffer else none

end Output

end PolyProjection
