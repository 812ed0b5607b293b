import PolyProjection.BlockTree
import PolyProjection.Json.Codec
import PolyProjection.Settings
import PolyProjection.Sparse.Matrix
import PolyProjection.Statistics
import PolyProjection.Status

/-! The stored form of matrices, settings, trees, statistics and statuses. -/

namespace PolyProjection.Storage

open Json Json.Codec

def matrix : Codec (SparseMatrix Float) :=
  .record
    [field "m" word64 (·.nrows) fun v a => { a with nrows := v },
      field "n" word64 (·.ncols) fun v a => { a with ncols := v },
      field "colptr" (array word64) (·.colStart) fun v a => { a with colStart := v },
      field "rowval" (array word64) (·.rowIndex) fun v a => { a with rowIndex := v },
      field "nzval" (array float) (·.values) fun v a => { a with values := v }]
    false ⟨0, 0, #[], #[], #[]⟩

/-- Missing settings have their default values. -/
def settings : Codec (Settings Float) :=
  .record
    [field "sigma" float (·.sigma) fun v s => { s with sigma := v },
      field "scale_sigma" bool (·.scaleSigma) fun v s => { s with scaleSigma := v },
      field "max_sweeps" word32 (·.maxSweeps) fun v s => { s with maxSweeps := v },
      field "max_outer_iter" word32 (·.maxOuterIter) fun v s => { s with maxOuterIter := v },
      field "tol_feas" float (·.tolFeas) fun v s => { s with tolFeas := v },
      field "coorcost" float (·.coorCost) fun v s => { s with coorCost := v },
      field "ssorcost" float (·.ssorCost) fun v s => { s with ssorCost := v },
      field "use_cheap_inner_method" bool (·.useCheapInnerMethod) fun v s => { s with useCheapInnerMethod := v },
      field "verbose" bool (·.verbose) fun v s => { s with verbose := v },
      field "print_level" word32 (·.printLevel) fun v s => { s with printLevel := v }]
    true .default

/-- The parent of the root. -/
def noBlock : Nat :=
  UInt64.size - 1

def parentOfWord (p : Nat) : Option Nat :=
  if p = noBlock then none else some p

def parent : Codec (Option Nat) :=
  word64.via (fun p => some (parentOfWord p)) (·.getD noBlock)

/-- What a tree is computed from. -/
structure TreeParts where
  parent : Array (Option Nat)
  rowStart : Array Nat
  colStart : Array Nat

def treeParts : Codec TreeParts :=
  .record
    [field "parent" (array parent) (·.parent) fun v t => { t with parent := v },
      field "row_start" (array word64) (·.rowStart) fun v t => { t with rowStart := v },
      field "col_start" (array word64) (·.colStart) fun v t => { t with colStart := v }]
    false ⟨#[], #[], #[]⟩

def tree : Codec BlockTree :=
  treeParts.via (fun t => (BlockTree.ofParents t.parent t.rowStart t.colStart).toOption)
    fun t => ⟨t.parent, t.rowStart, t.colStart⟩

/-- Counts with the seconds that the phases took. -/
structure TimedStatistics where
  counts : Statistics
  factorTime : Float
  updateTime : Float
  solveTime : Float
  lineSearchTime : Float
  totalTime : Float

def countField (name : String) (c : Codec Nat) (get : Statistics → Nat) (set : Nat → Statistics → Statistics) :
    RecordField TimedStatistics :=
  field name c (fun s => get s.counts) fun v s => { s with counts := set v s.counts }

def statistics : Codec TimedStatistics :=
  .record
    [countField "runs" word32 (·.runs) fun v s => { s with runs := v },
      countField "sweeps" word64 (·.sweeps) fun v s => { s with sweeps := v },
      countField "jobs" word64 (·.jobs) fun v s => { s with jobs := v },
      countField "factorizations" word32 (·.factorizations) fun v s => { s with factorizations := v },
      countField "updates" word64 (·.updates) fun v s => { s with updates := v },
      countField "rows_added" word64 (·.rowsAdded) fun v s => { s with rowsAdded := v },
      countField "rows_dropped" word64 (·.rowsDropped) fun v s => { s with rowsDropped := v },
      countField "cols_freed" word64 (·.colsFreed) fun v s => { s with colsFreed := v },
      countField "cols_bound" word64 (·.colsBound) fun v s => { s with colsBound := v },
      countField "solves" word64 (·.solves) fun v s => { s with solves := v },
      field "factor_time" float (·.factorTime) fun v s => { s with factorTime := v },
      field "update_time" float (·.updateTime) fun v s => { s with updateTime := v },
      field "solve_time" float (·.solveTime) fun v s => { s with solveTime := v },
      field "linesearch_time" float (·.lineSearchTime) fun v s => { s with lineSearchTime := v },
      field "total_time" float (·.totalTime) fun v s => { s with totalTime := v }]
    false ⟨.zero, 0, 0, 0, 0, 0⟩

def statusNamed (text : String) : Except Flaw Status :=
  match Status.ofName? text with
  | some s => .ok s
  | none => .error .malformed

/-- A status is a word, or an object with that word as the name of a null. -/
def status? : Decoder Status
  | .string (some text) => statusNamed text
  | .object [(some text, .null)] none => statusNamed text
  | j => unexpected j

def status : Codec Status :=
  ⟨status?, fun s => ofWord s.name⟩

end PolyProjection.Storage
