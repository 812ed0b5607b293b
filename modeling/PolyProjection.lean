import PolyProjection.ActiveSet
import PolyProjection.BlockTree
import PolyProjection.Bound
import PolyProjection.BreakHeap
import PolyProjection.Decimal.Basic
import PolyProjection.Decimal.Magnitude
import PolyProjection.Decimal.Shortest
import PolyProjection.Decimal.Text
import PolyProjection.Dense
import PolyProjection.Engine.Commit
import PolyProjection.Engine.LineSearch
import PolyProjection.Engine.Request
import PolyProjection.Engine.Run
import PolyProjection.Engine.State
import PolyProjection.Event
import PolyProjection.Factor.Basic
import PolyProjection.Factor.Numeric
import PolyProjection.Factor.Pattern
import PolyProjection.Factor.Update
import PolyProjection.Fault
import PolyProjection.FlopHistory
import PolyProjection.IndexList
import PolyProjection.Json.Codec
import PolyProjection.Json.Decode
import PolyProjection.Json.Lexer
import PolyProjection.Json.Printer
import PolyProjection.Json.Reader
import PolyProjection.Json.Value
import PolyProjection.Problem
import PolyProjection.Projection.Basic
import PolyProjection.Projection.Reconcile
import PolyProjection.Projection.Solve
import PolyProjection.Proofs.Checked
import PolyProjection.Proofs.Exact
import PolyProjection.Report
import PolyProjection.Scalar
import PolyProjection.Schedule
import PolyProjection.Settings
import PolyProjection.Sorted
import PolyProjection.Sparse.Entry
import PolyProjection.Sparse.Format
import PolyProjection.Sparse.Matrix
import PolyProjection.Sparse.Multiply
import PolyProjection.Sparse.Transpose
import PolyProjection.Statistics
import PolyProjection.Status
import PolyProjection.Storage.Problem
import PolyProjection.Storage.Record
import PolyProjection.Timers
import PolyProjection.TriangularSolve
import PolyProjection.Proofs.Sparse.Columns
import PolyProjection.Proofs.Sparse.Transpose
import PolyProjection.Proofs.Sparse.Products
import PolyProjection.Proofs.ActiveSet
import PolyProjection.Proofs.BreakHeap
import PolyProjection.Proofs.Problem
import PolyProjection.Proofs.Engine.Basic
import PolyProjection.Proofs.Engine.Request
import PolyProjection.Proofs.Engine.Events
import PolyProjection.Proofs.Engine.Direction
import PolyProjection.Proofs.Engine.LineSearch
import PolyProjection.Proofs.BlockTree
import PolyProjection.Proofs.Descendants
import PolyProjection.Proofs.Dissection
import PolyProjection.Proofs.Engine.Rebase
import PolyProjection.Proofs.Engine.Setup
import PolyProjection.Proofs.Schedule
import PolyProjection.Proofs.Engine.Commit
import PolyProjection.Proofs.Engine.Run
import PolyProjection.Proofs.Engine.History
import PolyProjection.Proofs.Engine.Balance
import PolyProjection.Proofs.Engine.Following
import PolyProjection.Proofs.TriangularSolve
import PolyProjection.Proofs.Projection.Reconcile
import PolyProjection.Proofs.Projection.Nearest
import PolyProjection.Proofs.Projection.Solve
import PolyProjection.Proofs.Projection.Agree
import PolyProjection.Proofs.Projection.Settle
import PolyProjection.Proofs.Factor.Columns
import PolyProjection.Proofs.Factor.Elimination
import PolyProjection.Proofs.Factor.RankOne
import PolyProjection.Proofs.Factor.Normal
import PolyProjection.Proofs.Factor.Numeric
import PolyProjection.Proofs.Factor.Update
import PolyProjection.Proofs.Factor.Rows
import PolyProjection.Proofs.Factor.NewRow
import PolyProjection.Proofs.Factor.Pattern
import PolyProjection.Proofs.Factor.Steps
import PolyProjection.Proofs.Engine.Sound
import PolyProjection.Proofs.Resolution
import PolyProjection.Proofs.Rollup
import PolyProjection.Proofs.Course
import PolyProjection.Proofs.Consistency
import PolyProjection.Proofs.Window
import PolyProjection.Proofs.Timers
import PolyProjection.Proofs.Engine.Search
import PolyProjection.Proofs.Engine.Shedding
import PolyProjection.Proofs.Engine.Processing
import PolyProjection.Proofs.Engine.Sweeping
import PolyProjection.Proofs.Engine.Calls
import PolyProjection.Proofs.Engine.Bounded
import PolyProjection.Proofs.Projection.Calls
import PolyProjection.Proofs.Engine.Tracking
import PolyProjection.Proofs.Engine.Replay
import PolyProjection.Proofs.IndexList
import PolyProjection.Proofs.Sorted
import PolyProjection.Proofs.Table
import PolyProjection.Proofs.Vector
import PolyProjection.Proofs.Factor.Subsystem
import PolyProjection.Proofs.Engine.Newton
import PolyProjection.Proofs.Engine.Gradient
import PolyProjection.Proofs.Engine.Confinement
import PolyProjection.Proofs.Engine.Marks
import PolyProjection.Proofs.Engine.Converged
import PolyProjection.Proofs.Engine.Stationary
import PolyProjection.Proofs.Engine.Optimal
import PolyProjection.Proofs.Engine.Sides
import PolyProjection.Proofs.Engine.Guard
import PolyProjection.Proofs.Engine.Feasibility
import PolyProjection.Proofs.Engine.Dual
import PolyProjection.Proofs.Engine.Ascent
import PolyProjection.Proofs.Engine.Exactness
import PolyProjection.Proofs.Engine.Ascending
import PolyProjection.Proofs.Layers
import PolyProjection.Proofs.Engine.Upkeep
import PolyProjection.Proofs.Engine.Increments
import PolyProjection.Proofs.Engine.Calm
import PolyProjection.Proofs.Engine.Settling
import PolyProjection.Proofs.Engine.Rerun
import PolyProjection.Proofs.Json.Spelling
import PolyProjection.Proofs.Json.Codec
import PolyProjection.Proofs.Storage.Records
import PolyProjection.Proofs.Task
import PolyProjection.Proofs.Storage.Reload
import PolyProjection.Proofs.Engine.Deed
import PolyProjection.Proofs.Engine.Locality
import PolyProjection.Proofs.Factor.Symbolic
import PolyProjection.Proofs.Engine.Principal
import PolyProjection.Proofs.Substitution
import PolyProjection.Proofs.Engine.Requeued
import PolyProjection.Proofs.Engine.Independent
import PolyProjection.Proofs.Ordered
import PolyProjection.Proofs.Postorder
import PolyProjection.Proofs.WorkingSet
import PolyProjection.Proofs.Extraction
import PolyProjection.Proofs.Factor.Operations
import PolyProjection.Proofs.Factor.Scratch
import PolyProjection.Proofs.Factor.Modification
import PolyProjection.Proofs.Factor.Intact
import PolyProjection.Proofs.Sparse.Involution
import PolyProjection.Proofs.Sparse.Agreement
import PolyProjection.Proofs.Text
import PolyProjection.Proofs.TimerTree
import PolyProjection.Proofs.Nesting
