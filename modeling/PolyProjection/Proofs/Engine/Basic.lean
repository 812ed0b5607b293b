import Mathlib
import PolyProjection.Engine.Request
import PolyProjection.Proofs.ActiveSet
import PolyProjection.Proofs.BreakHeap
import PolyProjection.Proofs.Problem

/-! What holds of an engine at all times. Its problem is well posed, the working set and the candidates are
consistent, and a row or a column is only held at a finite bound. The multipliers are dual feasible if each is on
the side of its row. -/

namespace PolyProjection

set_option linter.unusedSectionVars false

variable {K : Type} [Field K] [LinearOrder K] [IsStrictOrderedRing K]

/-- The multipliers that are on the side of a row. -/
def RowStatus.Admits : RowStatus → K → Prop
  | equality, _ => True
  | atLower, v => 0 ≤ v
  | atUpper, v => v ≤ 0
  | dropped, v => v = 0

/-- The bounds of a row allow it to have the status. -/
def RowStatus.FitsRow (p : Problem K) (i : Nat) : RowStatus → Prop
  | equality => (p.blAt i).isPoint (p.buAt i) = true
  | atLower => (p.blAt i).isPoint (p.buAt i) = false ∧ ∃ v, p.blAt i = .finite v
  | atUpper => (p.blAt i).isPoint (p.buAt i) = false ∧ ∃ v, p.buAt i = .finite v
  | dropped => True

/-- The bounds of a column allow it to have the status. -/
def ColumnStatus.FitsColumn (p : Problem K) (j : Nat) : ColumnStatus → Prop
  | free => True
  | atLower => ∃ v, p.loAt j = .finite v
  | atUpper => ∃ v, p.hiAt j = .finite v

theorem RowStatus.admits_zero (s : RowStatus) : s.Admits (0 : K) := by
  cases s <;> simp [Admits]

namespace Engine

/-- The parts of an engine are consistent. -/
structure Regular (e : Engine K) : Prop where
  problem : e.problem.WellPosed
  set : e.set.RowsAgree e.problem.nrows e.problem.ncols
  rows_fit : ∀ i, (e.set.rowAt i).FitsRow e.problem i
  cols_fit : ∀ j, (e.set.colAt j).FitsColumn e.problem j
  heap : e.heap.Valid (e.problem.ncols + e.problem.nrows)
  size_lambda : e.lambda.size = e.problem.nrows
  size_dlambda : e.dlambda.size = e.problem.nrows

/-- The multipliers with their increments are on the sides of their rows, and dropped rows have neither. -/
structure DualFeasible (e : Engine K) : Prop where
  dropped : ∀ i, e.set.rowAt i = .dropped → coord e.lambda i = 0 ∧ coord e.dlambda i = 0
  on_side : ∀ i, (e.set.rowAt i).Admits (coord e.lambda i + coord e.dlambda i)

/-- Two engines that differ at most in the factor and in what is logged, counted, timed and told. -/
structure SameState (e e' : Engine K) : Prop where
  problem : e'.problem = e.problem
  settings : e'.settings = e.settings
  sigma : e'.sigma = e.sigma
  set : ∃ dropped, e'.set = { e.set with dropped := dropped }
  lambda : e'.lambda = e.lambda
  dlambda : e'.dlambda = e.dlambda
  x : e'.x = e.x
  work : e'.work = e.work
  heap : e'.heap = e.heap
  schedule : e'.schedule = e.schedule

/-- Two engines that differ at most in what is counted, timed and told. -/
def Quiet (e e' : Engine K) : Prop :=
  ∃ stats timers status output events,
    e' = { e with stats := stats, timers := timers, status := status, output := output, events := events }

/-- Two engines that differ at most in what is timed, told and counted, but not in the counts of what was done to the
factor and of what left the working set. -/
structure Aside (e e' : Engine K) : Prop where
  quiet : Quiet e e'
  factorizations : e'.stats.factorizations = e.stats.factorizations
  updates : e'.stats.updates = e.stats.updates
  rowsDropped : e'.stats.rowsDropped = e.stats.rowsDropped
  colsFreed : e'.stats.colsFreed = e.stats.colsFreed

variable {e e' e'' : Engine K} {i j : Nat}

/-- A multiplier of zero is on the side of its row. -/
theorem admits_of_lambda_eq (h : e.lambda = #[0]) (i : Nat) : (e.set.rowAt i).Admits (coord e.lambda i) := by
  rw [h, show (#[0] : Array K) = Array.replicate 1 0 from rfl, coord_replicate]
  exact RowStatus.admits_zero _

theorem SameState.trans (h : SameState e e') (h' : SameState e' e'') : SameState e e'' := by
  refine ⟨h'.problem.trans h.problem, h'.settings.trans h.settings, h'.sigma.trans h.sigma, ?_,
    h'.lambda.trans h.lambda, h'.dlambda.trans h.dlambda, h'.x.trans h.x, h'.work.trans h.work, h'.heap.trans h.heap,
    h'.schedule.trans h.schedule⟩
  obtain ⟨dropped, hset⟩ := h.set
  obtain ⟨dropped', hset'⟩ := h'.set
  exact ⟨dropped', by rw [hset', hset]⟩

theorem SameState.rows (h : SameState e e') : e'.set.rows = e.set.rows := by
  obtain ⟨_, hset⟩ := h.set
  rw [hset]

theorem SameState.rowStatus (h : SameState e e') : e'.set.rowStatus = e.set.rowStatus := by
  obtain ⟨_, hset⟩ := h.set
  rw [hset]

theorem SameState.colStatus (h : SameState e e') : e'.set.colStatus = e.set.colStatus := by
  obtain ⟨_, hset⟩ := h.set
  rw [hset]

theorem SameState.rowAt (h : SameState e e') (i : Nat) : e'.set.rowAt i = e.set.rowAt i := by
  rw [ActiveSet.rowAt, ActiveSet.rowAt, h.rowStatus]

theorem SameState.colAt (h : SameState e e') (j : Nat) : e'.set.colAt j = e.set.colAt j := by
  rw [ActiveSet.colAt, ActiveSet.colAt, h.colStatus]

theorem SameState.regular (h : SameState e e') (hr : e.Regular) : e'.Regular where
  problem := by
    rw [h.problem]
    exact hr.problem
  set := by
    rw [h.problem]
    exact hr.set.of_rows_eq h.rows h.rowStatus (by rw [h.colStatus])
  rows_fit := fun i => by
    rw [h.problem, h.rowAt]
    exact hr.rows_fit i
  cols_fit := fun j => by
    rw [h.problem, h.colAt]
    exact hr.cols_fit j
  heap := by
    rw [h.problem, h.heap]
    exact hr.heap
  size_lambda := by
    rw [h.problem, h.lambda]
    exact hr.size_lambda
  size_dlambda := by
    rw [h.problem, h.dlambda]
    exact hr.size_dlambda

theorem Regular.of_work (h : e.Regular) (w : Workspace K) : Regular { e with work := w } :=
  ⟨h.problem, h.set, h.rows_fit, h.cols_fit, h.heap, h.size_lambda, h.size_dlambda⟩

theorem Regular.of_heap (h : e.Regular) {heap : BreakHeap K}
    (hheap : heap.Valid (e.problem.ncols + e.problem.nrows)) : Regular { e with heap := heap } :=
  ⟨h.problem, h.set, h.rows_fit, h.cols_fit, hheap, h.size_lambda, h.size_dlambda⟩

theorem DualFeasible.of_eq (hd : e.DualFeasible) (hrow : ∀ i, e'.set.rowAt i = e.set.rowAt i)
    (hlambda : e'.lambda = e.lambda) (hdlambda : e'.dlambda = e.dlambda) : e'.DualFeasible where
  dropped := fun i => by
    rw [hrow, hlambda, hdlambda]
    exact hd.dropped i
  on_side := fun i => by
    rw [hrow, hlambda, hdlambda]
    exact hd.on_side i

theorem SameState.dualFeasible (h : SameState e e') (hd : e.DualFeasible) : e'.DualFeasible :=
  hd.of_eq h.rowAt h.lambda h.dlambda

theorem Quiet.refl (e : Engine K) : Quiet e e :=
  ⟨_, _, _, _, _, rfl⟩

theorem Quiet.trans (h : Quiet e e') (h' : Quiet e' e'') : Quiet e e'' := by
  obtain ⟨_, _, _, _, _, rfl⟩ := h
  obtain ⟨_, _, _, _, _, rfl⟩ := h'
  exact ⟨_, _, _, _, _, rfl⟩

theorem Quiet.sameState (h : Quiet e e') : SameState e e' := by
  obtain ⟨_, _, _, _, _, rfl⟩ := h
  exact ⟨rfl, rfl, rfl, ⟨_, rfl⟩, rfl, rfl, rfl, rfl, rfl, rfl⟩

theorem Aside.refl (e : Engine K) : Aside e e :=
  ⟨Quiet.refl e, rfl, rfl, rfl, rfl⟩

theorem Aside.trans (h : Aside e e') (h' : Aside e' e'') : Aside e e'' where
  quiet := h.quiet.trans h'.quiet
  factorizations := h'.factorizations.trans h.factorizations
  updates := h'.updates.trans h.updates
  rowsDropped := h'.rowsDropped.trans h.rowsDropped
  colsFreed := h'.colsFreed.trans h.colsFreed

theorem quiet_tell (e : Engine K) (event : Event K) : Quiet e (e.tell event) :=
  ⟨_, _, _, _, _, rfl⟩

theorem quiet_print (e : Engine K) (detail : Nat) (r : Report K) : Quiet e (e.print detail r) := by
  unfold print
  split
  · exact ⟨_, _, _, _, _, rfl⟩
  · exact Quiet.refl e

theorem aside_tell (e : Engine K) (event : Event K) : Aside e (e.tell event) :=
  ⟨quiet_tell e event, rfl, rfl, rfl, rfl⟩

theorem aside_print (e : Engine K) (detail : Nat) (r : Report K) : Aside e (e.print detail r) := by
  unfold print
  split
  · exact ⟨⟨_, _, _, _, _, rfl⟩, rfl, rfl, rfl, rfl⟩
  · exact Aside.refl e

/-- Something done under a timer is done to an engine with another timer. -/
theorem of_timed {β : Type} {key : String} {act : Engine K → Checked (β × Engine K)} {b : β}
    (h : e.timed key act = .ok (b, e')) : ∃ g, act { e with timers := e.timers.start key } = .ok (b, g) ∧
      e' = { g with timers := g.timers.stop } := by
  unfold timed at h
  simp only [bind_eq_ok_iff, pure_eq_ok_iff, Prod.mk.injEq] at h
  obtain ⟨⟨c, g⟩, hact, rfl, rfl⟩ := h
  exact ⟨g, hact, rfl⟩

theorem Regular.row_lt (h : e.Regular) (hact : (e.set.rowAt i).isActive = true) : i < e.problem.nrows := by
  rw [← h.set.size_rowStatus]
  exact (ActiveSet.mem_activeList.1 (ActiveSet.mem_activeList_iff.2 hact)).1

/-- The bound of an active row. -/
def boundAt (e : Engine K) (i : Nat) : K :=
  match e.set.rowAt i with
  | .equality => ((e.problem.blAt i).value?).getD 0
  | .atLower => ((e.problem.blAt i).value?).getD 0
  | .atUpper => ((e.problem.buAt i).value?).getD 0
  | .dropped => 0

theorem isPoint_iff {l u : Bound K} : l.isPoint u = true ↔ ∃ v, l = .finite v ∧ u = .finite v := by
  cases l <;> cases u <;> simp [Bound.isPoint, BEq.beq, eq_comm]

section RowBounds

variable (h : e.Regular)

include h

theorem Regular.bounds_of_equality (hst : e.set.rowAt i = .equality) :
    e.problem.blAt i = .finite (e.boundAt i) ∧ e.problem.buAt i = .finite (e.boundAt i) := by
  have hfit := h.rows_fit i
  rw [hst] at hfit
  obtain ⟨v, hl, hu⟩ := isPoint_iff.1 hfit
  have hbound : e.boundAt i = v := by
    rw [boundAt, hst, hl]
    rfl
  rw [hbound]
  exact ⟨hl, hu⟩

theorem Regular.bl_of_atLower (hst : e.set.rowAt i = .atLower) : e.problem.blAt i = .finite (e.boundAt i) := by
  have hfit := h.rows_fit i
  rw [hst] at hfit
  obtain ⟨-, v, hl⟩ := hfit
  rw [boundAt, hst, hl]
  rfl

theorem Regular.bu_of_atUpper (hst : e.set.rowAt i = .atUpper) : e.problem.buAt i = .finite (e.boundAt i) := by
  have hfit := h.rows_fit i
  rw [hst] at hfit
  obtain ⟨-, v, hu⟩ := hfit
  rw [boundAt, hst, hu]
  rfl

/-- The bound of a row, which is zero for a dropped one, is found. -/
theorem Regular.rowBound_ok (hi : i < e.problem.nrows) : e.rowBound i = .ok (e.boundAt i) := by
  rw [rowBound, ActiveSet.fetch_rowStatus (by rw [h.set.size_rowStatus]; exact hi), ok_bind,
    h.problem.fetch_bl hi, h.problem.fetch_bu hi]
  cases hst : e.set.rowAt i with
  | equality =>
      simp only [ok_bind, (h.bounds_of_equality hst).1]
      rfl
  | atLower =>
      simp only [ok_bind, h.bl_of_atLower hst]
      rfl
  | atUpper =>
      simp only [ok_bind, h.bu_of_atUpper hst]
      rfl
  | dropped =>
      rw [boundAt, hst]
      rfl

end RowBounds

/-- The bound of a column that is held at one. -/
def columnBoundAt (e : Engine K) (j : Nat) : Option K :=
  match e.set.colAt j with
  | .free => none
  | .atLower => (e.problem.loAt j).value?
  | .atUpper => (e.problem.hiAt j).value?

theorem Regular.columnBound?_ok (h : e.Regular) (hj : j < e.problem.ncols) :
    e.columnBound? j = .ok (e.columnBoundAt j) := by
  have hfit := h.cols_fit j
  rw [columnBound?, ActiveSet.fetch_colStatus (by rw [h.set.size_colStatus]; exact hj), ok_bind, columnBoundAt,
    h.problem.fetch_lo hj, h.problem.fetch_hi hj]
  cases hst : e.set.colAt j with
  | free => rfl
  | atLower =>
      rw [hst] at hfit
      obtain ⟨v, hl⟩ := hfit
      simp only [ok_bind, hl]
      rfl
  | atUpper =>
      rw [hst] at hfit
      obtain ⟨v, hu⟩ := hfit
      simp only [ok_bind, hu]
      rfl

/-- The active rows of a range inside the matrix. -/
theorem Regular.activeIn_ok (h : e.Regular) {range : IndexRange} (hstop : range.stop ≤ e.problem.nrows) :
    e.activeIn range = .ok (e.set.activeBetween range.start range.stop) := by
  obtain ⟨first, rest, hseek, hlist, htake, -⟩ := h.set.seek_listFrom range.start hstop
  rw [activeIn, hseek, ok_bind, hlist, ok_bind, htake]
  rfl

end Engine

end PolyProjection
