import Mathlib
import PolyProjection.Proofs.Engine.Feasibility

/-! The distance that the projection makes small, and its dual with the proximal term. For a fixed active set the dual
is a quadratic along every direction, and the slope and the curvature that a search works with are its derivative and
its negated second derivative. -/

namespace PolyProjection

set_option linter.unusedSectionVars false

variable {K : Type} [Field K] [LinearOrder K] [IsStrictOrderedRing K]

/-- Half the squared distance to the point that is projected. -/
def Problem.distance (p : Problem K) (x : Nat → K) : K :=
  1 / 2 * ∑ j ∈ Finset.range p.ncols, (x j - coord p.y j) ^ 2

namespace Engine

/-- What column `j` adds to the dual if its value without bounds is `z`. -/
def columnDual (e : Engine K) (j : ℕ) (z : K) : K :=
  match e.columnBoundAt j with
  | none => (coord e.problem.y j ^ 2 - z ^ 2) / 2
  | some v => (v ^ 2 + coord e.problem.y j ^ 2) / 2 - z * v

/-- The dual at the multipliers `lambda`, less the proximal term around `center`. -/
def dualValue (e : Engine K) (center lambda : ℕ → K) : K :=
  (∑ i ∈ Finset.range e.problem.nrows, e.boundAt i * lambda i) -
    e.sigma / 2 * (∑ i ∈ Finset.range e.problem.nrows, (lambda i - center i) ^ 2) +
      ∑ j ∈ Finset.range e.problem.ncols, e.columnDual j (e.problem.columnValue j lambda)

/-- From `lambda` along `d` the dual is a quadratic with this derivative and this negated second derivative. -/
def DerivesAlong (e : Engine K) (center lambda d : ℕ → K) (slope curvature : K) : Prop :=
  ∀ h, e.dualValue center (fun i => lambda i + h * d i) =
    e.dualValue center lambda + (h * slope - h ^ 2 / 2 * curvature)

/-- The derivative of the dual at row `i` after a step along the direction. -/
def gradientAfter (e : Engine K) (rows : IndexRange) (step : K) (i : ℕ) : K :=
  e.gradientAt i - step * e.hessianAt (e.directionAt rows) i

/-- The slope along the direction after a step. -/
def slopeAfter (e : Engine K) (rows : IndexRange) (step : K) : K :=
  ∑ i ∈ Finset.range e.problem.nrows, e.directionAt rows i * e.gradientAfter rows step i

/-- The curvature along the direction. -/
def curvatureAlong (e : Engine K) (rows : IndexRange) : K :=
  ∑ i ∈ Finset.range e.problem.nrows, e.directionAt rows i * e.hessianAt (e.directionAt rows) i

variable {e e' : Engine K} {rows cols : IndexRange} {center lambda d : ℕ → K} {slope curvature step : K} {i j : ℕ}

theorem Regular.columnBoundAt_eq_none_iff (hr : e.Regular) : e.columnBoundAt j = none ↔ e.set.colAt j = .free := by
  constructor
  · intro hnone
    by_contra hheld
    obtain ⟨b, hb, -⟩ := hr.exists_columnBoundAt hheld
    rw [hnone] at hb
    cases hb
  · intro hfree
    rw [columnBoundAt, hfree]

/-- A column counts with its value, which is its bound if it is held at one. -/
theorem Regular.columnDual_add (hr : e.Regular) (z h p : K) : e.columnDual j (z + h * p) = e.columnDual j z +
    (h * -(p * (e.columnBoundAt j).getD z) - h ^ 2 / 2 * if e.set.colAt j = .free then p ^ 2 else 0) := by
  by_cases hfree : e.set.colAt j = .free
  · rw [columnDual, columnDual, hr.columnBoundAt_eq_none_iff.2 hfree, if_pos hfree]
    dsimp only [Option.getD_none]
    ring
  · obtain ⟨b, hb, -⟩ := hr.exists_columnBoundAt hfree
    rw [columnDual, columnDual, hb, if_neg hfree]
    dsimp only [Option.getD_some]
    ring

theorem columnValue_add (p : Problem K) (h : K) : p.columnValue j (fun i => lambda i + h * d i) =
    p.columnValue j lambda + h * ∑ i ∈ Finset.range p.nrows, p.a.coeff i j * d i := by
  rw [Problem.columnValue, Problem.columnValue, Finset.mul_sum, add_assoc, ← Finset.sum_add_distrib]
  congr 1
  apply Finset.sum_congr rfl
  intro i _
  ring

/-- The dual along a direction. -/
theorem Regular.derivesAlong (hr : e.Regular) (center lambda d : ℕ → K) : e.DerivesAlong center lambda d
    ((∑ i ∈ Finset.range e.problem.nrows, d i * (e.boundAt i - e.sigma * (lambda i - center i))) -
      ∑ j ∈ Finset.range e.problem.ncols, (∑ i ∈ Finset.range e.problem.nrows, e.problem.a.coeff i j * d i) *
        (e.columnBoundAt j).getD (e.problem.columnValue j lambda))
    (∑ i ∈ Finset.range e.problem.nrows, d i * e.hessianAt d i) := by
  intro h
  have hbound : ∑ i ∈ Finset.range e.problem.nrows, e.boundAt i * (lambda i + h * d i) =
      (∑ i ∈ Finset.range e.problem.nrows, e.boundAt i * lambda i) +
        h * ∑ i ∈ Finset.range e.problem.nrows, d i * e.boundAt i := by
    rw [Finset.mul_sum, ← Finset.sum_add_distrib]
    exact Finset.sum_congr rfl fun i _ => by ring
  have hproximal : ∑ i ∈ Finset.range e.problem.nrows, (lambda i + h * d i - center i) ^ 2 =
      (∑ i ∈ Finset.range e.problem.nrows, (lambda i - center i) ^ 2) +
        (2 * h * (∑ i ∈ Finset.range e.problem.nrows, d i * (lambda i - center i)) +
          h ^ 2 * ∑ i ∈ Finset.range e.problem.nrows, d i ^ 2) := by
    rw [Finset.mul_sum, Finset.mul_sum, ← Finset.sum_add_distrib, ← Finset.sum_add_distrib]
    exact Finset.sum_congr rfl fun i _ => by ring
  have hslope : ∑ i ∈ Finset.range e.problem.nrows, d i * (e.boundAt i - e.sigma * (lambda i - center i)) =
      (∑ i ∈ Finset.range e.problem.nrows, d i * e.boundAt i) -
        e.sigma * ∑ i ∈ Finset.range e.problem.nrows, d i * (lambda i - center i) := by
    rw [Finset.mul_sum, ← Finset.sum_sub_distrib]
    exact Finset.sum_congr rfl fun i _ => by ring
  have hcolumns : ∑ j ∈ Finset.range e.problem.ncols,
      e.columnDual j (e.problem.columnValue j fun i => lambda i + h * d i) =
      (∑ j ∈ Finset.range e.problem.ncols, e.columnDual j (e.problem.columnValue j lambda)) +
        (h * -(∑ j ∈ Finset.range e.problem.ncols, (∑ i ∈ Finset.range e.problem.nrows, e.problem.a.coeff i j * d i) *
          (e.columnBoundAt j).getD (e.problem.columnValue j lambda)) -
        h ^ 2 / 2 * ∑ j ∈ Finset.range e.problem.ncols, if e.set.colAt j = .free then
          (∑ i ∈ Finset.range e.problem.nrows, e.problem.a.coeff i j * d i) ^ 2 else 0) := by
    rw [← Finset.sum_neg_distrib, Finset.mul_sum, Finset.mul_sum, ← Finset.sum_sub_distrib, ← Finset.sum_add_distrib]
    apply Finset.sum_congr rfl
    intro j _
    rw [columnValue_add, hr.columnDual_add]
  rw [dualValue, dualValue, hbound, hproximal, hcolumns, hslope, sum_hessianAt]
  ring

/-- The slope after a longer step. -/
theorem slopeAfter_sub (e : Engine K) (rows : IndexRange) (step next : K) :
    e.slopeAfter rows next = e.slopeAfter rows step - e.curvatureAlong rows * (next - step) := by
  rw [slopeAfter, slopeAfter, curvatureAlong, Finset.sum_mul, ← Finset.sum_sub_distrib]
  apply Finset.sum_congr rfl
  intro i _
  rw [gradientAfter, gradientAfter]
  ring

theorem dualAfter_add (e : Engine K) (rows : IndexRange) (step h : K) :
    (fun i => e.dualAfter rows step i + h * e.directionAt rows i) = e.dualAfter rows (step + h) := by
  funext i
  rw [dualAfter, dualAfter]
  ring

section Vectors

variable (hr : e.Regular) (hb : e.Balanced) (hanchored : e.Anchored) (ha : e.Aligned rows cols)

include hr hb hanchored ha

/-- Where a column is after a step: a bound one at its bound, a free one moved with the direction. -/
theorem Balanced.getD_columnValue_after (hj : j < e.problem.ncols) (step : K) :
    (e.columnBoundAt j).getD (e.problem.columnValue j (e.dualAfter rows step)) = e.pointAt j +
      step * if e.set.colAt j = .free then
        ∑ k ∈ Finset.range e.problem.nrows, e.problem.a.coeff k j * e.directionAt rows k else 0 := by
  by_cases hfree : e.set.colAt j = .free
  · rw [hr.columnBoundAt_eq_none_iff.2 hfree, Option.getD_none, hb.columnValue_after ha hj, if_pos hfree, pointAt,
      if_pos hfree, ← ha j, ← add_assoc]
    rfl
  · obtain ⟨b, hbound, -⟩ := hr.exists_columnBoundAt hfree
    rw [hbound, Option.getD_some, if_neg hfree, pointAt, if_neg hfree, hanchored j hj b hbound]
    ring

/-- The slope and the curvature from the vectors of the workspace are those of the dual. -/
theorem Balanced.derivesAlong (hcenter : ∀ i, (e.set.rowAt i).isActive = true → center i = coord e.lambda i) (step : K) :
    e.DerivesAlong center (e.dualAfter rows step) (e.directionAt rows) (e.slopeAfter rows step)
      (e.curvatureAlong rows) := by
  have hderives := hr.derivesAlong center (e.dualAfter rows step) (e.directionAt rows)
  have hcolumns : ∑ j ∈ Finset.range e.problem.ncols,
      (∑ i ∈ Finset.range e.problem.nrows, e.problem.a.coeff i j * e.directionAt rows i) *
        (e.columnBoundAt j).getD (e.problem.columnValue j (e.dualAfter rows step)) =
      ∑ i ∈ Finset.range e.problem.nrows, e.directionAt rows i * (e.problem.rowValue i e.pointAt +
        step * ∑ j ∈ Finset.range e.problem.ncols, e.problem.a.coeff i j * if e.set.colAt j = .free then
          ∑ k ∈ Finset.range e.problem.nrows, e.problem.a.coeff k j * e.directionAt rows k else 0) := by
    have hplace : ∀ j ∈ Finset.range e.problem.ncols, (∑ i ∈ Finset.range e.problem.nrows,
        e.problem.a.coeff i j * e.directionAt rows i) *
          (e.columnBoundAt j).getD (e.problem.columnValue j (e.dualAfter rows step)) =
        ∑ i ∈ Finset.range e.problem.nrows, e.directionAt rows i * (e.problem.a.coeff i j * e.pointAt j +
          step * (e.problem.a.coeff i j * if e.set.colAt j = .free then
            ∑ k ∈ Finset.range e.problem.nrows, e.problem.a.coeff k j * e.directionAt rows k else 0)) := by
      intro j hj
      rw [hb.getD_columnValue_after hr hanchored ha (Finset.mem_range.1 hj), Finset.sum_mul]
      apply Finset.sum_congr rfl
      intro i _
      ring
    rw [Finset.sum_congr rfl hplace, Finset.sum_comm]
    apply Finset.sum_congr rfl
    intro i _
    rw [← Finset.mul_sum, Finset.sum_add_distrib, ← Finset.mul_sum]
    rfl
  have hslope : (∑ i ∈ Finset.range e.problem.nrows, e.directionAt rows i *
      (e.boundAt i - e.sigma * (e.dualAfter rows step i - center i))) -
      ∑ i ∈ Finset.range e.problem.nrows, e.directionAt rows i * (e.problem.rowValue i e.pointAt +
        step * ∑ j ∈ Finset.range e.problem.ncols, e.problem.a.coeff i j * if e.set.colAt j = .free then
          ∑ k ∈ Finset.range e.problem.nrows, e.problem.a.coeff k j * e.directionAt rows k else 0) =
      e.slopeAfter rows step := by
    rw [slopeAfter, ← Finset.sum_sub_distrib]
    apply Finset.sum_congr rfl
    intro i _
    by_cases hact : (e.set.rowAt i).isActive = true
    · rw [gradientAfter, hb.gradientAt_eq hact, hessianAt, hcenter i hact, dualAfter, dual]
      ring
    · rw [directionAt, if_neg fun hall => hact hall.2.2]
      ring
  rw [hcolumns, hslope] at hderives
  exact hderives

end Vectors

end Engine

end PolyProjection
