import Mathlib
import PolyProjection.Proofs.Engine.Ascent

/-! The line search of a Newton direction. Throughout the walk the slope and the curvature are those of the dual, the
dual rises from one break value to the next, and where the search stops it cannot rise further, unless the full step ends
it before. -/

namespace PolyProjection

set_option linter.unusedSectionVars false

variable {K : Type} [Field K] [LinearOrder K] [IsStrictOrderedRing K]

namespace LineSearch

open Engine

variable {s s' : LineSearch K} {e g : Engine K} {rows cols : IndexRange} {job : Job} {center : ℕ → K} {floor : K}
  {id j k : ℕ} {key delta step : K} {flag : LineFlag}

/-- Between two events the slope and the curvature are those of the dual, which has not fallen below its value at the
start and lies above it once a step has been made. -/
structure Exact (center : ℕ → K) (floor : K) (rows : IndexRange) (s : LineSearch K) : Prop where
  anchored : s.engine.Anchored
  centered : ∀ i, (s.engine.set.rowAt i).isActive = true → center i = coord s.engine.lambda i
  slope : s.slope = s.engine.slopeAfter rows s.step
  curvature : s.curvature = s.engine.curvatureAlong rows
  near : ∀ c v, s.engine.heap.keyAt c = some v → v < 1
  value : floor ≤ s.engine.dualValue center (s.engine.dualAfter rows s.step)
  rises : 0 < s.step → floor < s.engine.dualValue center (s.engine.dualAfter rows s.step)

theorem lt_one_of_rekey? {value p v : K} {st : ColumnStatus} (h : rekey? step value p st = some v) : v < 1 := by
  rw [rekey?] at h
  split_ifs at h with hnear
  rw [Option.some.injEq] at h
  exact h ▸ hnear.2

/-- The break values that an event leaves or makes lie before the full step, like those it finds. -/
theorem Event.near (he : Event s s' id key) (hnear : ∀ c v, s.engine.heap.keyAt c = some v → v < 1) {c : ℕ} {v : K}
    (hv : s'.engine.heap.keyAt c = some v) : v < 1 := by
  obtain ⟨heap, s₁, -, hkeys, hevent, rfl⟩ := he.commit
  have hsub : ∀ c v, heap.keyAt c = some v → v < 1 := fun c v hc => hnear c v (keyAt_of_left hkeys hc).2
  rcases hevent with ⟨-, hf⟩ | ⟨-, delta, hd⟩
  · have hheap : s₁.engine.heap = heap := hf.heap
    exact hsub c v (hheap ▸ hv)
  · have hv : s₁.engine.heap.keyAt c = some v := hv
    rw [hd.keys] at hv
    split_ifs at hv
    · exact lt_one_of_rekey? hv
    · exact hsub c v hv

/-- A quadratic rises as long as its slope is positive. -/
theorem quadratic_pos {h slope curvature : K} (hh : 0 < h) (hslope : 0 < slope)
    (hahead : 0 ≤ slope - curvature * h) : 0 < h * slope - h ^ 2 / 2 * curvature := by
  have heq : h * slope - h ^ 2 / 2 * curvature = h / 2 * (slope + (slope - curvature * h)) := by ring
  rw [heq]
  positivity

section Piece

variable (ho : Orderly e rows cols s) (hx : Exact center floor rows s)

include ho hx

/-- The slope and the curvature are those of the dual at the present step. -/
theorem Exact.derivesAlong : s.engine.DerivesAlong center (s.engine.dualAfter rows s.step) (s.engine.directionAt rows)
    s.slope s.curvature := by
  rw [hx.slope, hx.curvature]
  exact ho.steady.balanced.derivesAlong ho.searching.regular hx.anchored ho.steady.aligned hx.centered s.step

omit ho in
/-- The slope at the step of an event. -/
theorem Exact.slope_goTo (heap : BreakHeap K) : (s.goTo heap step).slope = s.engine.slopeAfter rows step := by
  show s.slope - s.curvature * (step - s.step) = s.engine.slopeAfter rows step
  rw [slopeAfter_sub s.engine rows s.step, hx.slope, hx.curvature]

/-- On a piece between two break values the dual rises. -/
theorem Exact.value_at (hslope : 0 < s.slope) (hfrom : s.step ≤ step)
    (hahead : 0 ≤ s.slope - s.curvature * (step - s.step)) :
    floor ≤ s.engine.dualValue center (s.engine.dualAfter rows step) ∧
      (0 < step → floor < s.engine.dualValue center (s.engine.dualAfter rows step)) := by
  have hvalue := hx.derivesAlong ho (step - s.step)
  rw [dualAfter_add, add_sub_cancel] at hvalue
  rcases hfrom.eq_or_lt with heq | hlt
  · rw [← heq]
    exact ⟨hx.value, hx.rises⟩
  · have hrise := quadratic_pos (sub_pos.2 hlt) hslope hahead
    have hmore : floor < s.engine.dualValue center (s.engine.dualAfter rows step) := by
      rw [hvalue]
      exact hx.value.trans_lt (lt_add_of_pos_right _ hrise)
    exact ⟨hmore.le, fun _ => hmore⟩

/-- A positive slope has a positive curvature. -/
theorem Exact.curvature_pos (hsigma : 0 < s.engine.sigma) (hslope : 0 < s.slope) : 0 < s.curvature := by
  by_contra hflat
  have hzero : ∀ i < s.engine.problem.nrows, s.engine.directionAt rows i = 0 := fun i hi =>
    eq_zero_of_sum_hessianAt hsigma (hx.curvature.symm.trans_le (not_lt.1 hflat)) hi
  have hnone : s.slope = 0 := by
    rw [hx.slope, slopeAfter]
    apply Finset.sum_eq_zero
    intro i hi
    rw [hzero i (Finset.mem_range.1 hi), zero_mul]
  exact hslope.ne' hnone

end Piece

/-- After an event at a step the slope and the curvature are those of the dual there, of which the value is what it
was before. -/
structure KeepsDual (center : ℕ → K) (rows : IndexRange) (step : K) (s s' : LineSearch K) : Prop where
  step_eq : s'.step = step
  slope : s'.slope = s'.engine.slopeAfter rows step
  curvature : s'.curvature = s'.engine.curvatureAlong rows
  value : s'.engine.dualValue center (s'.engine.dualAfter rows step) =
    s.engine.dualValue center (s.engine.dualAfter rows step)

section Event

variable (ho : Orderly e job.rows job.cols s) (hx : Exact center floor job.rows s)
  (hfirst : s.engine.heap.keyAt id = some key) {heap : BreakHeap K} {s₁ : LineSearch K}
  (hr : (s.goTo heap (max 0 key)).engine.Regular)

include ho hx hfirst hr

/-- A column is freed where its bound is its value, so the dual is the same with it free. -/
theorem Exact.keepsDual_of_columnFreed (hid : id < s.engine.problem.ncols)
    (hf : ColumnFreed (s.goTo heap (max 0 key)) s₁ id) : KeepsDual center job.rows (max 0 key) s s₁ := by
  obtain ⟨hin, hheld⟩ := ho.pursues.column_key id hid key hfirst
  have ha : (s.goTo heap (max 0 key)).engine.Aligned job.rows job.cols := ho.steady.aligned
  have hzero : coord s.engine.work.c id + max 0 key * coord s.engine.work.pa id = 0 := ho.guarded.on_bound hid hfirst
  have hbound : s.engine.columnBoundAt id =
      some (s.engine.problem.columnValue id (s.engine.dualAfter job.rows (max 0 key))) := by
    obtain ⟨b, hb, -⟩ := ho.searching.regular.exists_columnBoundAt hheld
    rw [hb, ho.steady.balanced.columnValue_after ho.steady.aligned hid, columnDirectionAt, if_pos hin, hzero, add_zero,
      hx.anchored id hid b hb]
  refine ⟨hf.step, ?_, ?_, ?_⟩
  · rw [hf.slope]
    exact (hx.slope_goTo heap).trans (hf.slopeAfter_eq hr hheld ha hin hzero).symm
  · rw [hf.curvature, hf.curvatureAlong_eq hr hheld ha hin]
    exact congrArg (· + _) hx.curvature
  · rw [hf.dualAfter_eq]
    exact hf.dualValue_eq hr hheld hbound

/-- A row is dropped where its multiplier is zero, so the dual is the same without it. -/
theorem Exact.keepsDual_of_rowDropped (hp : e.problem.Accepted) (hjob : job.Covers e.problem.tree)
    (hid : id = s.engine.problem.ncols + k) (hd : RowDropped (s.goTo heap (max 0 key)) s₁ k delta) :
    KeepsDual center job.rows (max 0 key) s s₁ := by
  subst hid
  obtain ⟨hk, -⟩ := ho.pursues.row_key k key hfirst
  have ha : (s.goTo heap (max 0 key)).engine.Aligned job.rows job.cols := ho.steady.aligned
  have hzero : coord s.engine.lambda k + coord s.engine.dlambda k + max 0 key * coord s.engine.work.t k = 0 := by
    rw [ho.searching.problem] at hfirst
    exact ho.searching.zero_at_drop hfirst
  have houter : ∀ l, ¬(job.cols.start ≤ l ∧ l < job.cols.stop) →
      (s.goTo heap (max 0 key)).engine.problem.a.coeff k l = 0 := by
    intro l hl
    show s.engine.problem.a.coeff k l = 0
    rw [ho.searching.problem]
    exact hp.coeff_eq_zero hjob hk hl
  have hmultiplier : s.engine.dualAfter job.rows (max 0 key) k = 0 := by
    have hown : s.engine.directionAt job.rows k = coord s.engine.work.t k := hd.directionAt_self hk
    rw [dualAfter, hown]
    exact hzero
  have hafter : s₁.engine.dualAfter job.rows (max 0 key) = s.engine.dualAfter job.rows (max 0 key) :=
    hd.dualAfter_eq hr hk hzero
  refine ⟨hd.step, hd.slopeAfter_eq hr hk ha houter (hx.slope_goTo heap),
    hd.curvatureAlong_eq hr hk ha houter hx.curvature, ?_⟩
  rw [hafter]
  exact hd.dualValue_eq hr hk hmultiplier

end Event

/-- An event keeps the slope, the curvature and the value exact. -/
theorem Exact.event (hp : e.problem.Accepted) (hjob : job.Covers e.problem.tree) (ho : Orderly e job.rows job.cols s)
    (hx : Exact center floor job.rows s) (he : Event s s' id key) : Exact center floor job.rows s' := by
  have hnear : ∀ c v, s'.engine.heap.keyAt c = some v → v < 1 := fun c v => he.near hx.near
  have hfrozen := he.frozen ho.searching.regular
  have hcenter : ∀ i, (s'.engine.set.rowAt i).isActive = true → center i = coord s'.engine.lambda i := by
    intro i hi
    obtain ⟨hrow, hlambda⟩ := hfrozen.row i hi
    rw [hlambda]
    exact hx.centered i (hrow ▸ hi)
  obtain ⟨hvalue, hrises⟩ := hx.value_at ho he.slope_pos (ho.searching.ahead id key he.first.1) he.slope_ahead.le
  have hanchored := hfrozen.anchored hx.anchored
  have hfirst := he.first.1
  obtain ⟨heap, s₁, hvalid, -, hevent, rfl⟩ := he.freed_or_dropped
  have hr : (s.goTo heap (max 0 key)).engine.Regular := ho.searching.regular.of_heap hvalid
  have hkeeps : KeepsDual center job.rows (max 0 key) s s₁ := by
    rcases hevent with ⟨hid, hf⟩ | ⟨k, delta, hid, hd⟩
    · exact hx.keepsDual_of_columnFreed ho hfirst hr hid hf
    · exact hx.keepsDual_of_rowDropped ho hfirst hr hp hjob hid hd
  have hstep : s₁.step = max 0 key := hkeeps.step_eq
  exact {
    anchored := hanchored
    centered := hcenter
    slope := hkeeps.slope.trans (by rw [hstep])
    curvature := hkeeps.curvature
    near := hnear
    value := hvalue.trans_eq (by rw [hstep]; exact hkeeps.value.symm)
    rises := fun hpos => (hrises (hstep ▸ hpos)).trans_eq (by rw [hstep]; exact hkeeps.value.symm) }

theorem Exact.walks (hp : e.problem.Accepted) (hjob : job.Covers e.problem.tree) (ho : Orderly e job.rows job.cols s)
    (hx : Exact center floor job.rows s) (hw : Walks s s') : Exact center floor job.rows s' := by
  induction hw with
  | refl => exact hx
  | tail hwalks hstep ih =>
      obtain ⟨id, key, he⟩ := hstep
      exact ih.event hp hjob (ho.walks hp hjob hwalks) he

/-- After the last step the multipliers are those of the search at this step. -/
theorem dual_of_hasAdvanced (ha : s.engine.HasAdvanced rows cols step g) :
    g.dual = s.engine.dualAfter rows step ∧ g.directionAt rows = s.engine.directionAt rows ∧
      ∀ center lambda, g.dualValue center lambda = s.engine.dualValue center lambda := by
  obtain ⟨dlambda, c, rfl, -, hdlambda, -⟩ := ha
  refine ⟨?_, rfl, fun _ _ => rfl⟩
  funext i
  show coord s.engine.lambda i + coord dlambda i = _
  rw [hdlambda, dualAfter, dual, add_assoc]

/-- The derivative after the last step. -/
theorem Exact.derivesAlong_advanced (ho : Orderly e rows cols s) (hx : Exact center floor rows s)
    (ha : s.engine.HasAdvanced rows cols step g) : g.DerivesAlong center g.dual (g.directionAt rows)
      (s.slope - s.curvature * (step - s.step)) s.curvature := by
  obtain ⟨hdual, hdirection, hvalue⟩ := dual_of_hasAdvanced ha
  have hderives := ho.steady.balanced.derivesAlong ho.searching.regular hx.anchored ho.steady.aligned hx.centered step
  rw [slopeAfter_sub s.engine rows s.step, ← hx.slope, ← hx.curvature] at hderives
  intro h
  rw [hdual, hdirection, hvalue, hvalue]
  exact hderives h

end LineSearch

end PolyProjection
