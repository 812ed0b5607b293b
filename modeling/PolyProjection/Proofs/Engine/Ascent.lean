import Mathlib
import PolyProjection.Proofs.Engine.Dual

/-! The walk of a search is exact and ascends. Each event corrects the slope and the curvature by what a column or a row
adds to them; where it happens the column is on its bound or the multiplier of the row is zero, so that neither the dual
nor the derivatives of the other rows jump. -/

namespace PolyProjection

set_option linter.unusedSectionVars false

variable {K : Type} [Field K] [LinearOrder K] [IsStrictOrderedRing K]

namespace LineSearch

open Engine

variable {s s' : LineSearch K} {e : Engine K} {rows cols : IndexRange} {center : ℕ → K} {id i j k : ℕ} {key delta : K}

section ColumnFreed

variable (hf : ColumnFreed s s' j) (hr : s.engine.Regular) (hheld : s.engine.set.colAt j ≠ .free)

include hf

theorem ColumnFreed.dualAfter_eq (step : K) : s'.engine.dualAfter rows step = s.engine.dualAfter rows step := by
  funext i
  rw [dualAfter, dualAfter, hf.directionAt_eq, dual, dual, hf.lambda, hf.dlambda]

include hr hheld

/-- A sum over the free columns gets the summand of the freed one. -/
theorem ColumnFreed.sum_free (x : ℕ → K) : ∑ l ∈ Finset.range s.engine.problem.ncols,
    (if s'.engine.set.colAt l = .free then x l else 0) =
    (∑ l ∈ Finset.range s.engine.problem.ncols, if s.engine.set.colAt l = .free then x l else 0) + x j := by
  have hsplit : ∀ l, (if s'.engine.set.colAt l = .free then x l else 0) =
      (if s.engine.set.colAt l = .free then x l else 0) + if l = j then x l else 0 := by
    intro l
    rw [hf.colAt hr]
    by_cases hl : l = j
    · rw [if_pos hl, if_pos rfl, if_pos hl, hl, if_neg hheld, zero_add]
    · rw [if_neg hl, if_neg hl, add_zero]
  rw [Finset.sum_congr rfl fun l _ => hsplit l, Finset.sum_add_distrib, Finset.sum_ite_eq',
    if_pos (Finset.mem_range.2 hf.lt)]

variable (ha : s.engine.Aligned rows cols) (hin : cols.start ≤ j ∧ j < cols.stop)

include ha hin

/-- The freed column is on its bound, so it adds nothing to the derivative of a row. -/
theorem ColumnFreed.gradientAfter_eq (hzero : coord s.engine.work.c j + s.step * coord s.engine.work.pa j = 0)
    (hact : (s.engine.set.rowAt i).isActive = true) :
    s'.engine.gradientAfter rows s.step i = s.engine.gradientAfter rows s.step i := by
  have hdirection : ∑ k ∈ Finset.range s.engine.problem.nrows,
      s.engine.problem.a.coeff k j * s.engine.directionAt rows k = coord s.engine.work.pa j := by
    rw [← ha j, if_pos hin]
  have hmoved := hf.sum_free hr hheld fun l =>
    s.engine.problem.a.coeff i l * (coord s.engine.work.c l - coord s.engine.work.cold l)
  have hmoves := hf.sum_free hr hheld fun l => s.engine.problem.a.coeff i l *
    ∑ k ∈ Finset.range s.engine.problem.nrows, s.engine.problem.a.coeff k l * s.engine.directionAt rows k
  rw [gradientAfter, gradientAfter, gradientAt, gradientAt, hessianAt, hessianAt, hf.directionAt_eq, hf.problem, hf.sigma,
    hf.dlambda, hf.c, hf.cold, hf.rhs, if_pos hact]
  simp only [mul_ite, mul_zero]
  rw [hmoved, hmoves, hdirection]
  linear_combination (-(s.engine.problem.a.coeff i j)) * hzero

theorem ColumnFreed.slopeAfter_eq (hzero : coord s.engine.work.c j + s.step * coord s.engine.work.pa j = 0) :
    s'.engine.slopeAfter rows s.step = s.engine.slopeAfter rows s.step := by
  rw [slopeAfter, slopeAfter, hf.problem, hf.directionAt_eq]
  apply Finset.sum_congr rfl
  intro i _
  by_cases hact : (s.engine.set.rowAt i).isActive = true
  · rw [hf.gradientAfter_eq hr hheld ha hin hzero hact]
  · rw [directionAt, if_neg fun hall => hact hall.2.2, zero_mul, zero_mul]

theorem ColumnFreed.curvatureAlong_eq : s'.engine.curvatureAlong rows =
    s.engine.curvatureAlong rows + coord s.engine.work.pa j * coord s.engine.work.pa j := by
  have hsum := hf.sum_free hr hheld fun l => (∑ k ∈ Finset.range s.engine.problem.nrows,
    s.engine.problem.a.coeff k l * s.engine.directionAt rows k) ^ 2
  rw [curvatureAlong, curvatureAlong, sum_hessianAt, sum_hessianAt, hf.directionAt_eq, hf.problem, hf.sigma, hsum, ← ha j,
    if_pos hin]
  ring

omit ha hin

/-- The dual does not jump where the column is freed. -/
theorem ColumnFreed.dualValue_eq {lambda : ℕ → K}
    (hbound : s.engine.columnBoundAt j = some (s.engine.problem.columnValue j lambda)) :
    s'.engine.dualValue center lambda = s.engine.dualValue center lambda := by
  have hrows : ∀ i, s'.engine.boundAt i = s.engine.boundAt i := fun i => boundAt_congr hf.problem (hf.rowAt i)
  have hcolumn : ∀ l, s'.engine.columnDual l (s.engine.problem.columnValue l lambda) =
      s.engine.columnDual l (s.engine.problem.columnValue l lambda) := by
    intro l
    by_cases hl : l = j
    · have hfree : s'.engine.columnBoundAt l = none := by
        rw [columnBoundAt, hf.colAt hr, if_pos hl]
      rw [columnDual, columnDual, hfree, hl, hbound, hf.problem]
      dsimp only
      ring
    · have hsame : s'.engine.columnBoundAt l = s.engine.columnBoundAt l :=
        columnBoundAt_congr hf.problem (by rw [hf.colAt hr, if_neg hl])
      rw [columnDual, columnDual, hsame, hf.problem]
  rw [dualValue, dualValue, hf.problem, hf.sigma]
  simp only [hrows, hcolumn]

end ColumnFreed

section RowDropped

variable (hd : RowDropped s s' k delta) (hr : s.engine.Regular) (hk : rows.start ≤ k ∧ k < rows.stop)

include hd hr hk

/-- The columns lose the direction of the dropped row. -/
theorem RowDropped.sum_direction (j : ℕ) : ∑ i ∈ Finset.range s.engine.problem.nrows,
    s.engine.problem.a.coeff i j * s'.engine.directionAt rows i =
    (∑ i ∈ Finset.range s.engine.problem.nrows, s.engine.problem.a.coeff i j * s.engine.directionAt rows i) -
      s.engine.problem.a.coeff k j * coord s.engine.work.t k := by
  simp only [hd.directionAt_eq hr]
  rw [sum_without hd.lt fun i => s.engine.problem.a.coeff i j, hd.directionAt_self hk]

/-- The multiplier of the dropped row is zero at the step and stays so. -/
theorem RowDropped.dualAfter_eq
    (hzero : coord s.engine.lambda k + coord s.engine.dlambda k + s.step * coord s.engine.work.t k = 0) :
    s'.engine.dualAfter rows s.step = s.engine.dualAfter rows s.step := by
  funext i
  rw [dualAfter, dualAfter, hd.directionAt_eq hr, dual, dual, hd.lambda, hd.dlambda]
  split_ifs with hik
  · rw [hik, hd.directionAt_self hk, hzero]
    ring
  · rfl

/-- The derivatives of the other rows do not jump. -/
theorem RowDropped.gradientAfter_eq (hik : i ≠ k) (hact : (s.engine.set.rowAt i).isActive = true) :
    s'.engine.gradientAfter rows s.step i = s.engine.gradientAfter rows s.step i := by
  have hactive : (s'.engine.set.rowAt i).isActive = true := by rwa [hd.rowAt hr, if_neg hik]
  have hcolumns : (∑ j ∈ Finset.range s.engine.problem.ncols, s.engine.problem.a.coeff k j *
        if s.engine.set.colAt j = .free then s.engine.problem.a.coeff i j * delta else 0) +
      (∑ j ∈ Finset.range s.engine.problem.ncols, s.engine.problem.a.coeff i j *
        if s.engine.set.colAt j = .free then coord s'.engine.work.c j - coord s'.engine.work.cold j else 0) +
      s.step * ∑ j ∈ Finset.range s.engine.problem.ncols, s.engine.problem.a.coeff i j *
        (if s.engine.set.colAt j = .free then ∑ l ∈ Finset.range s.engine.problem.nrows,
          s.engine.problem.a.coeff l j * s'.engine.directionAt rows l else 0) =
      (∑ j ∈ Finset.range s.engine.problem.ncols, s.engine.problem.a.coeff i j *
        if s.engine.set.colAt j = .free then coord s.engine.work.c j - coord s.engine.work.cold j else 0) +
      s.step * ∑ j ∈ Finset.range s.engine.problem.ncols, s.engine.problem.a.coeff i j *
        (if s.engine.set.colAt j = .free then ∑ l ∈ Finset.range s.engine.problem.nrows,
          s.engine.problem.a.coeff l j * s.engine.directionAt rows l else 0) := by
    rw [Finset.mul_sum, Finset.mul_sum, ← Finset.sum_add_distrib, ← Finset.sum_add_distrib, ← Finset.sum_add_distrib]
    apply Finset.sum_congr rfl
    intro j _
    rw [hd.sum_direction hr hk, hd.c, hd.cold, hd.delta_eq]
    split_ifs <;> ring
  rw [gradientAfter, gradientAfter, gradientAt, gradientAt, hessianAt, hessianAt, hd.directionAt_eq hr, if_neg hik,
    hd.problem, hd.sigma, hd.rhs, if_neg hik, if_pos hactive, hd.dlambda, if_neg hik]
  simp only [hd.colAt]
  linear_combination (-1 : K) * hcolumns

variable (ha : s.engine.Aligned rows cols)
  (houter : ∀ l, ¬(cols.start ≤ l ∧ l < cols.stop) → s.engine.problem.a.coeff k l = 0)

include ha houter

/-- In the columns of the row the directions are those of the rows of the job. -/
theorem RowDropped.coeff_mul_pa (j : ℕ) : s.engine.problem.a.coeff k j * coord s.engine.work.pa j =
    s.engine.problem.a.coeff k j *
      ∑ i ∈ Finset.range s.engine.problem.nrows, s.engine.problem.a.coeff i j * s.engine.directionAt rows i := by
  by_cases hin : cols.start ≤ j ∧ j < cols.stop
  · rw [← ha j, if_pos hin]
  · rw [houter j hin, zero_mul, zero_mul]

theorem RowDropped.slopeAfter_eq (hslope : s.slope = s.engine.slopeAfter rows s.step) :
    s'.slope = s'.engine.slopeAfter rows s.step := by
  have hsum : s'.engine.slopeAfter rows s.step = s.engine.slopeAfter rows s.step -
      coord s.engine.work.t k * s.engine.gradientAfter rows s.step k := by
    have hrest : s'.engine.slopeAfter rows s.step = ∑ i ∈ Finset.range s.engine.problem.nrows,
        s.engine.gradientAfter rows s.step i * if i = k then 0 else s.engine.directionAt rows i := by
      rw [slopeAfter, hd.problem]
      apply Finset.sum_congr rfl
      intro i _
      rw [hd.directionAt_eq hr]
      split_ifs with hik
      · ring
      · by_cases hact : (s.engine.set.rowAt i).isActive = true
        · rw [hd.gradientAfter_eq hr hk hik hact, mul_comm]
        · rw [directionAt, if_neg fun hall => hact hall.2.2]
          ring
    rw [hrest, sum_without hd.lt, hd.directionAt_self hk, slopeAfter]
    simp only [mul_comm]
  have hrow : s.engine.gradientAfter rows s.step k = coord s.engine.work.rhs k - s.engine.sigma * delta -
      ∑ j ∈ Finset.range s.engine.problem.ncols, s.engine.problem.a.coeff k j *
        if s.engine.set.colAt j = .free then coord s.engine.work.c j + s.step * coord s.engine.work.pa j -
          coord s.engine.work.cold j else 0 := by
    have hcolumns : ∀ j, (s.engine.problem.a.coeff k j * if s.engine.set.colAt j = .free then
        coord s.engine.work.c j + s.step * coord s.engine.work.pa j - coord s.engine.work.cold j else 0) =
        (s.engine.problem.a.coeff k j * if s.engine.set.colAt j = .free then
          coord s.engine.work.c j - coord s.engine.work.cold j else 0) +
        s.step * (s.engine.problem.a.coeff k j * if s.engine.set.colAt j = .free then
          ∑ i ∈ Finset.range s.engine.problem.nrows,
            s.engine.problem.a.coeff i j * s.engine.directionAt rows i else 0) := by
      intro j
      have hpa := hd.coeff_mul_pa hr hk ha houter j
      split_ifs
      · linear_combination s.step * hpa
      · ring
    rw [gradientAfter, gradientAt, hessianAt, hd.directionAt_self hk, hd.delta_eq]
    simp only [hcolumns, Finset.sum_add_distrib, ← Finset.mul_sum]
    ring
  rw [hd.slope, ← hrow, hsum, hslope]
  ring

theorem RowDropped.curvatureAlong_eq (hcurvature : s.curvature = s.engine.curvatureAlong rows) :
    s'.curvature = s'.engine.curvatureAlong rows := by
  have hrows : ∑ i ∈ Finset.range s.engine.problem.nrows, s'.engine.directionAt rows i ^ 2 =
      (∑ i ∈ Finset.range s.engine.problem.nrows, s.engine.directionAt rows i ^ 2) - coord s.engine.work.t k ^ 2 := by
    have hsquare : ∀ i, s'.engine.directionAt rows i ^ 2 =
        1 * if i = k then 0 else s.engine.directionAt rows i ^ 2 := by
      intro i
      rw [hd.directionAt_eq hr]
      split_ifs <;> ring
    simp only [hsquare]
    rw [sum_without hd.lt fun _ => 1, hd.directionAt_self hk]
    simp only [one_mul]
  have hcolumns : (∑ j ∈ Finset.range s.engine.problem.ncols, if s.engine.set.colAt j = .free then
        (∑ i ∈ Finset.range s.engine.problem.nrows, s.engine.problem.a.coeff i j * s'.engine.directionAt rows i) ^ 2
          else 0) =
      (∑ j ∈ Finset.range s.engine.problem.ncols, if s.engine.set.colAt j = .free then
        (∑ i ∈ Finset.range s.engine.problem.nrows, s.engine.problem.a.coeff i j * s.engine.directionAt rows i) ^ 2
          else 0) -
      ∑ j ∈ Finset.range s.engine.problem.ncols, s.engine.problem.a.coeff k j * if s.engine.set.colAt j = .free then
        coord s.engine.work.t k * (2 * coord s.engine.work.pa j -
          s.engine.problem.a.coeff k j * coord s.engine.work.t k) else 0 := by
    rw [← Finset.sum_sub_distrib]
    apply Finset.sum_congr rfl
    intro j _
    have hpa := hd.coeff_mul_pa hr hk ha houter j
    rw [hd.sum_direction hr hk]
    split_ifs
    · linear_combination (2 * coord s.engine.work.t k) * hpa
    · ring
  rw [hd.curvature, hcurvature, curvatureAlong, curvatureAlong, sum_hessianAt, sum_hessianAt, hd.problem, hd.sigma, hrows]
  simp only [hd.colAt]
  rw [hcolumns]
  ring

omit ha houter

/-- The dual does not jump where the row is dropped. -/
theorem RowDropped.dualValue_eq {lambda : ℕ → K} (hzero : lambda k = 0) :
    s'.engine.dualValue center lambda = s.engine.dualValue center lambda := by
  have hrows : ∀ i, s'.engine.boundAt i * lambda i = s.engine.boundAt i * lambda i := by
    intro i
    by_cases hik : i = k
    · rw [hik, hzero, mul_zero, mul_zero]
    · rw [boundAt_congr hd.problem (by rw [hd.rowAt hr, if_neg hik])]
  have hcolumns : ∀ j, s'.engine.columnDual j (s.engine.problem.columnValue j lambda) =
      s.engine.columnDual j (s.engine.problem.columnValue j lambda) := by
    intro j
    rw [columnDual, columnDual, columnBoundAt_congr hd.problem (hd.colAt j), hd.problem]
  rw [dualValue, dualValue, hd.problem, hd.sigma]
  simp only [hrows, hcolumns]

end RowDropped

end LineSearch

end PolyProjection
