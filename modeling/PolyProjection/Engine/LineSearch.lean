import PolyProjection.Engine.Request

/-! The line search along the direction of one job. The dual is concave along it and a quadratic between break
values, where a bound column begins to move or the multiplier of an inequality row becomes zero. The search goes
from one break value to the next, frees the column or drops the row, and stops where the slope is no longer
positive or the step is full. -/

namespace PolyProjection

/-- The outcome of a line search. -/
structure LineOutcome (α : Type) where
  flag : LineFlag
  step : α
  /-- Whether a column was freed or a row dropped. -/
  changed : Bool
  /-- The first row whose equation changed. -/
  mark : Option Nat

/-- A search on its way: the step so far, the slope and the curvature there, whether anything changed, and the
first row whose equation changed. -/
structure LineSearch (α : Type) where
  engine : Engine α
  step : α
  slope : α
  curvature : α
  changed : Bool
  mark : Option Nat

namespace Engine

variable {α : Type} [Scalar α]

/-- The inner product of column `j` and the direction over the active rows of a range. -/
def directionEntry (e : Engine α) (rows : IndexRange) (j : Nat) : Checked α := do
  ((← e.problem.a.column j).toList.takeWhile (·.1 < rows.stop)).foldlM (fun s (i, a) => do
    if rows.start ≤ i && (← e.set.isRowActive i) then return s + a * (← fetch e.work.t i) else return s) 0

/-- The directions of the columns of a job. -/
def setDirections (e : Engine α) (rows cols : IndexRange) : Checked (Engine α) := do
  let pa ← (span cols.start cols.stop).foldlM (fun pa j => do
    store pa j (← e.directionEntry rows j)) e.work.pa
  return { e with work := { e.work with pa := pa } }

/-- The slope and the curvature at the start of a search. -/
def startSlope (e : Engine α) (rows cols : IndexRange) : Checked (α × α) := do
  let w := e.work
  let overRows ← (← e.activeIn rows).foldlM (fun (fd, sd) i => do
    let t ← fetch w.t i
    let g := (← fetch w.rhs i) - e.sigma * (← fetch e.dlambda i)
    return (fd + g * t, sd + e.sigma * t * t)) ((0, 0) : α × α)
  (span cols.start cols.stop).foldlM (fun (fd, sd) j => do
    if !(← e.set.isFree j) then return (fd, sd)
    let p ← fetch w.pa j
    let moved := (← fetch w.c j) - (← fetch w.cold j)
    return (fd - moved * p, sd + p * p)) overRows

/-- Whether a column held at a bound moves inwards. -/
def movesInwards (status : ColumnStatus) (p : α) : Bool :=
  match status with
  | .atLower => 0 < p
  | .atUpper => p < 0
  | .free => false

/-- Whether the multiplier of a row moves towards zero. -/
def movesToZero (status : RowStatus) (t : α) : Bool :=
  match status with
  | .atLower => t < 0
  | .atUpper => 0 < t
  | _ => false

/-- Add the bound column `j` to the candidates if it comes to its bound before the full step. -/
def addColumnCandidate (e : Engine α) (heap : BreakHeap α) (j : Nat) : Checked (BreakHeap α) := do
  let p ← fetch e.work.pa j
  let c ← fetch e.work.c j
  if movesInwards (← fetch e.set.colStatus j) p then
    let s ← Scalar.quotient (-c) p
    if s < 1 then heap.insert j s else return heap
  else return heap

/-- Add row `i` to the candidates if its multiplier becomes zero before the full step. -/
def addRowCandidate (e : Engine α) (heap : BreakHeap α) (i : Nat) : Checked (BreakHeap α) := do
  let t ← fetch e.work.t i
  if movesToZero (← fetch e.set.rowStatus i) t then
    let s ← Scalar.quotient (-((← fetch e.lambda i) + (← fetch e.dlambda i))) t
    if s < 1 then heap.insert (e.problem.ncols + i) (Scalar.max 0 s) else return heap
  else return heap

/-- The candidates of a search. Rows are numbered after the columns. -/
def setCandidates (e : Engine α) (rows cols : IndexRange) : Checked (Engine α) := do
  let heap ← e.heap.clear
  let heap ← (span cols.start cols.stop).foldlM e.addColumnCandidate heap
  let heap ← (← e.activeIn rows).foldlM e.addRowCandidate heap
  return { e with heap := heap }

/-- Subtract from the right-hand side the multiple `v` of column `j` over the active rows, and answer with the
first row that changed, among these and `mark`. -/
def shiftRhs (e : Engine α) (j : Nat) (v : α → α) (mark : Option Nat) : Checked (Option Nat × Engine α) := do
  let (rhs, mark) ← (← e.problem.a.column j).foldlM (fun (rhs, mark) (i, a) => do
    if ← e.set.isRowActive i then
      return (← adjust rhs i (· - v a), some ((mark.map (min · i)).getD i))
    else return (rhs, mark)) (e.work.rhs, mark)
  return (mark, { e with work := { e.work with rhs := rhs } })

/-- Take the column `j`, freed or still bound, in or out of the candidates, now that its direction is `p` and `key`
its break value. -/
def placeColumn (e : Engine α) (j : Nat) (p key : α) (status : ColumnStatus) : Checked (Engine α) := do
  let heap ←
    if movesInwards status p && key < 1 then
      if ← e.heap.contains j then e.heap.update j key else e.heap.insert j key
    else if ← e.heap.contains j then e.heap.delete j
    else pure e.heap
  return { e with heap := heap }

/-- Place the column `j`, which is `value` beyond its bound at the present step. A column that has passed its bound is
free at once. The break value is computed for every direction, and only used if that is not zero. -/
def rekeyColumn (e : Engine α) (j : Nat) (step p value : α) (status : ColumnStatus) : Checked (Engine α) :=
  e.placeColumn j p (Scalar.max step (step - value / p)) status

end Engine

namespace LineSearch

variable {α : Type} [Scalar α]

/-- The bound column `j` begins to move. -/
def freeColumn (s : LineSearch α) (j : Nat) : Checked (LineSearch α) := do
  let e := s.engine
  let p ← fetch e.work.pa j
  let cold ← fetch e.work.cold j
  let (mark, e) ← e.shiftRhs j (· * cold) s.mark
  let e ← e.releaseColumn j
  return { s with
    engine := e.tell (.columnFreedInSearch j)
    curvature := s.curvature + p * p
    mark := mark }

/-- The slope that row `k` contributes at the present step, divided by its direction. -/
def rowSlope (s : LineSearch α) (k : Nat) (delta : α) : Checked α := do
  let e := s.engine
  let w := e.work
  (← e.problem.aT.column k).foldlM (fun g (j, a) => do
    if ← e.set.isFree j then
      return g - a * ((← fetch w.c j) + s.step * (← fetch w.pa j) - (← fetch w.cold j))
    else return g) ((← fetch w.rhs k) - e.sigma * delta)

/-- What column `j`, which has the value `a` in row `k`, loses when that row is dropped with direction `t` and
increment `delta`. -/
def loseRow (t delta : α) (s : LineSearch α) (entry : Nat × α) : Checked (LineSearch α) := do
  let (j, a) := entry
  let e := s.engine
  let w := e.work
  let c ← fetch w.c j
  let p ← fetch w.pa j
  let cAtStep := c + s.step * p
  let lost := a * t
  let pNew := p - lost
  let e := { e with work := { w with
    c := ← store w.c j (c + a * s.step * t)
    cold := ← adjust w.cold j (· + a * delta)
    pa := ← store w.pa j pNew } }
  match ← fetch e.set.colStatus j with
  | .free =>
    let (mark, e) ← e.shiftRhs j (fun aij => aij * a * delta) s.mark
    return { s with engine := e, curvature := s.curvature - lost * (p + pNew), mark := mark }
  | status => return { s with engine := ← e.rekeyColumn j s.step pNew cAtStep status }

/-- The multiplier of row `k` has become zero: the row is dropped. -/
def dropRow (s : LineSearch α) (k : Nat) : Checked (LineSearch α) := do
  let e := s.engine
  let t ← fetch e.work.t k
  let delta := (← fetch e.dlambda k) + s.step * t
  let g ← s.rowSlope k delta
  let bound ← e.rowBound k
  let e := { e with
    set := ← e.set.deactivate k
    lambda := ← store e.lambda k 0
    dlambda := ← store e.dlambda k 0
    work := { e.work with rhs := ← adjust e.work.rhs k (· - bound) } }
  let s := { s with
    engine := e
    slope := s.slope - g * t
    curvature := s.curvature - e.sigma * t * t
    mark := some ((s.mark.map (min · k)).getD k) }
  let s ← (← e.problem.aT.column k).foldlM (loseRow t delta) s
  let e := { s.engine with stats := { s.engine.stats with rowsDropped := s.engine.stats.rowsDropped + 1 } }
  return { s with engine := e.tell (.rowDropped k s.step) }

/-- The event of a candidate. -/
def commitCandidate (s : LineSearch α) (id : Nat) : Checked (LineSearch α) := do
  let n := s.engine.problem.ncols
  let s ← if id < n then s.freeColumn id else s.dropRow (id - n)
  return { s with changed := true }

/-- Go from one break value to the next. Each one frees a column or drops a row, so their number bounds the
walk. -/
def walk : Nat → LineSearch α → Checked (LineFlag × LineSearch α)
  | 0, _ => .error .wrongState
  | events + 1, s => do
    if s.curvature ≤ 0 then return (.degenerate, s)
    match ← s.engine.heap.peekMin with
    | none => return (.interior, { s with step := s.step + (← Scalar.quotient s.slope s.curvature) })
    | some (id, key) =>
      let next := Scalar.max 0 key
      if 1 ≤ next then
        let step := s.step + (← Scalar.quotient s.slope s.curvature)
        if 1 < step then return (.budgetReached, { s with step := 1 })
        return (.interior, { s with step := step })
      let slope := s.slope - s.curvature * (next - s.step)
      if slope ≤ 0 then
        let step := s.step + (← Scalar.quotient s.slope (s.slope - slope)) * (next - s.step)
        return (.interior, { s with step := step })
      let (_, heap) ← s.engine.heap.popMin
      let s ← { s with engine := { s.engine with heap := heap }, slope := slope, step := next }.commitCandidate id
      if s.slope ≤ 0 then return (.nondifferentiableOptimum, s)
      walk events s

end LineSearch

namespace Engine

variable {α : Type} [Scalar α]

/-- Advance the increments of the rows and the values of the columns by the given step. -/
def advanceBy (e : Engine α) (rows cols : IndexRange) (step : α) : Checked (Engine α) := do
  let dlambda ← (span rows.start rows.stop).foldlM (fun d i => do
    if ← e.set.isRowActive i then
      let t ← fetch e.work.t i
      adjust d i (· + step * t)
    else return d) e.dlambda
  let c ← (span cols.start cols.stop).foldlM (fun c j => do
    let p ← fetch e.work.pa j
    adjust c j (· + step * p)) e.work.c
  return { e with dlambda := dlambda, work := { e.work with c := c } }

/-- Search along the direction in the workspace over the rows and columns of a job. -/
def lineSearch (e : Engine α) (rows cols : IndexRange) : Checked (LineOutcome α × Engine α) := do
  let e ← e.setDirections rows cols
  let (slope, curvature) ← e.startSlope rows cols
  if slope ≤ 0 then return (⟨.interior, 0, false, none⟩, e)
  let e ← e.setCandidates rows cols
  let start : LineSearch α := ⟨e, 0, slope, curvature, false, none⟩
  let (flag, s) ←
    if e.heap.size == 0 then pure (LineFlag.interior, { start with step := 1 })
    else LineSearch.walk (e.problem.ncols + e.problem.nrows + 1) start
  let (flag, step) := if 1 < s.step then (LineFlag.truncated, 1) else (flag, s.step)
  let e ← s.engine.advanceBy rows cols step
  return (⟨flag, step, s.changed, if s.changed then s.mark else none⟩, e)

end Engine

end PolyProjection
