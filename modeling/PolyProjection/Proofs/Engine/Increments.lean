import Mathlib
import PolyProjection.Proofs.Engine.Dual
import PolyProjection.Proofs.Engine.Upkeep

/-! The increments of a run in which nothing happens. From the multipliers at its start a run solves for the increments
of one block after the other, with the rows above at rest; as long as the working set stays what it is, these are
determined by the state at the start alone. -/

namespace PolyProjection

set_option linter.unusedSectionVars false

variable {K : Type} [Field K] [LinearOrder K] [IsStrictOrderedRing K]

namespace Engine

/-- The point at the start of a run. -/
def restPoint (e : Engine K) (j : ℕ) : K :=
  (e.columnBoundAt j).getD (e.problem.columnValue j e.startDual)

/-- What a row lacks to its bound at the start of a run. -/
def residualAt (e : Engine K) (i : ℕ) : K :=
  e.boundAt i - e.problem.rowValue i e.restPoint

/-- The increments of the active rows of a set for which the dual with its proximal term is stationary at these rows. -/
structure Increments (e : Engine K) (rows : Set ℕ) (u : ℕ → K) : Prop where
  outside : ∀ i, i ∉ rows ∨ (e.set.rowAt i).isActive = false → u i = 0
  stationary : ∀ i ∈ rows, (e.set.rowAt i).isActive = true → e.hessianAt u i = e.residualAt i

/-- The rows of the blocks below a block. -/
def rowsBelow (e : Engine K) (k : ℕ) : Set ℕ :=
  {i | e.problem.tree.Descends (e.problem.tree.blockOfRow i) k ∧ e.problem.tree.blockOfRow i ≠ k}

/-- The rows of a block and of the blocks below it. -/
def rowsUpTo (e : Engine K) (k : ℕ) : Set ℕ :=
  {i | e.problem.tree.Descends (e.problem.tree.blockOfRow i) k}

/-- Nothing happens on the way from the increments of the blocks below `k` to those with block `k`: no multiplier leaves
the side of its row, and no column that moves inwards comes to its bound. -/
def Uneventful (e : Engine K) (k : ℕ) : Prop :=
  ∀ w u, e.Increments (e.rowsBelow k) w → e.Increments (e.rowsUpTo k) u →
    (∀ i, (e.set.rowAt i).Admits (e.startDual i + u i)) ∧
    ∀ j < e.problem.ncols, movesInwards (e.set.colAt j)
        (∑ i ∈ Finset.range e.problem.nrows, e.problem.a.coeff i j * (u i - w i)) = true →
      (e.set.colAt j).Admits (e.problem.loAt j) (e.problem.hiAt j)
        (e.problem.columnValue j fun i => e.startDual i + u i)

/-- A run from `e` has come to `g` and nothing has happened to the working set. -/
structure Resumes (e g : Engine K) : Prop where
  problem : g.problem = e.problem
  sigma : g.sigma = e.sigma
  untouched : Untouched e g
  healthy : g.Healthy
  anchored : g.Anchored
  centered : ∀ i, (g.set.rowAt i).isActive = true → coord g.lambda i = e.startDual i

variable {e e' g g' : Engine K} {rows : Set ℕ} {u w z : ℕ → K} {job : Job} {i j k : ℕ}

section Hessian

theorem hessianAt_add (e : Engine K) (z w : ℕ → K) (i : ℕ) :
    e.hessianAt (fun k => z k + w k) i = e.hessianAt z i + e.hessianAt w i := by
  have hcolumn : ∀ j, (∑ k ∈ Finset.range e.problem.nrows, e.problem.a.coeff k j * (z k + w k)) =
      (∑ k ∈ Finset.range e.problem.nrows, e.problem.a.coeff k j * z k) +
        ∑ k ∈ Finset.range e.problem.nrows, e.problem.a.coeff k j * w k := by
    intro j
    rw [← Finset.sum_add_distrib]
    exact Finset.sum_congr rfl fun k _ => mul_add _ _ _
  have hrow : ∀ j, (e.problem.a.coeff i j * if e.set.colAt j = .free then
        ∑ k ∈ Finset.range e.problem.nrows, e.problem.a.coeff k j * (z k + w k) else 0) =
      (e.problem.a.coeff i j * if e.set.colAt j = .free then
        ∑ k ∈ Finset.range e.problem.nrows, e.problem.a.coeff k j * z k else 0) +
      e.problem.a.coeff i j * if e.set.colAt j = .free then
        ∑ k ∈ Finset.range e.problem.nrows, e.problem.a.coeff k j * w k else 0 := by
    intro j
    rw [hcolumn]
    split_ifs
    · exact mul_add _ _ _
    · rw [mul_zero, add_zero]
  rw [hessianAt, hessianAt, hessianAt, Finset.sum_congr rfl fun j _ => hrow j, Finset.sum_add_distrib]
  ring

theorem hessianAt_neg (e : Engine K) (z : ℕ → K) (i : ℕ) : e.hessianAt (fun k => -z k) i = -e.hessianAt z i := by
  have hzero : e.hessianAt (fun k => z k + -z k) i = 0 := by
    simp [hessianAt]
  rw [hessianAt_add] at hzero
  linear_combination hzero

/-- The entry of a row sees the other rows through the columns that it meets. -/
theorem hessianAt_congr (hi : z i = w i) (hmeets : ∀ j, e.problem.a.coeff i j ≠ 0 →
    ∑ k ∈ Finset.range e.problem.nrows, e.problem.a.coeff k j * z k =
      ∑ k ∈ Finset.range e.problem.nrows, e.problem.a.coeff k j * w k) : e.hessianAt z i = e.hessianAt w i := by
  rw [hessianAt, hessianAt, hi]
  congr 1
  apply Finset.sum_congr rfl
  intro j _
  by_cases hj : e.problem.a.coeff i j = 0
  · rw [hj, zero_mul, zero_mul]
  · rw [hmeets j hj]

end Hessian

/-- The increments of a set of rows are determined. -/
theorem Increments.unique (hr : e.Regular) (hsigma : 0 < e.sigma) (hu : e.Increments rows u)
    (hw : e.Increments rows w) : u = w := by
  have hzero : ∑ i ∈ Finset.range e.problem.nrows, (u i + -w i) * e.hessianAt (fun k => u k + -w k) i = 0 := by
    apply Finset.sum_eq_zero
    intro i _
    by_cases hin : i ∈ rows ∧ (e.set.rowAt i).isActive = true
    · rw [hessianAt_add, hessianAt_neg, hu.stationary i hin.1 hin.2, hw.stationary i hin.1 hin.2, add_neg_cancel, mul_zero]
    · rw [not_and_or, Bool.not_eq_true] at hin
      rw [hu.outside i hin, hw.outside i hin, neg_zero, add_zero, zero_mul]
  funext i
  by_cases hlt : i < e.problem.nrows
  · exact add_neg_eq_zero.1 (eq_zero_of_sum_hessianAt hsigma hzero.le hlt)
  · have hdropped : (e.set.rowAt i).isActive = false := by
      rw [Bool.eq_false_iff]
      exact fun hact => hlt (hr.row_lt hact)
    rw [hu.outside i (.inr hdropped), hw.outside i (.inr hdropped)]

namespace Resumes

theorem rowAt (h : Resumes e g) (i : ℕ) : g.set.rowAt i = e.set.rowAt i := by
  rw [h.untouched.set]

theorem colAt (h : Resumes e g) (j : ℕ) : g.set.colAt j = e.set.colAt j := by
  rw [h.untouched.set]

theorem lambda (h : Resumes e g) (i : ℕ) : coord g.lambda i = e.startDual i := by
  by_cases hact : (g.set.rowAt i).isActive = true
  · exact h.centered i hact
  · have hdropped := ActiveSet.isActive_eq_false_iff.1 (Bool.eq_false_iff.2 hact)
    rw [(h.healthy.feasible.dropped i hdropped).1, startDual, if_neg (h.rowAt i ▸ hact)]

theorem hessianAt_eq (h : Resumes e g) : g.hessianAt z i = e.hessianAt z i := by
  rw [hessianAt, hessianAt, h.problem, h.sigma]
  simp only [h.colAt]

theorem trans_of_frozen (h : Resumes e g) (hf : Frozen g g') (hu : Untouched g g') (hh : g'.Healthy) : Resumes e g' where
  problem := hf.problem.trans h.problem
  sigma := hf.sigma.trans h.sigma
  untouched := h.untouched.trans hu
  healthy := hh
  anchored := hf.anchored h.anchored
  centered i hact := by
    obtain ⟨hrow, hlambda⟩ := hf.row i hact
    rw [hlambda]
    exact h.centered i (hrow ▸ hact)

/-- The point has moved from the start by the increments. -/
theorem pointAt_eq (h : Resumes e g) (hj : j < e.problem.ncols) : g.pointAt j = e.restPoint j +
    if e.set.colAt j = .free then ∑ i ∈ Finset.range e.problem.nrows, e.problem.a.coeff i j * coord g.dlambda i else 0 := by
  have hj' : j < g.problem.ncols := h.problem.symm ▸ hj
  have hr := h.healthy.sound.regular
  have hbound : g.columnBoundAt j = e.columnBoundAt j := columnBoundAt_congr h.problem (h.colAt j)
  by_cases hfree : g.set.colAt j = .free
  · have hvalue : e.problem.columnValue j (fun i => coord g.lambda i + coord g.dlambda i) =
        e.problem.columnValue j e.startDual +
          1 * ∑ i ∈ Finset.range e.problem.nrows, e.problem.a.coeff i j * coord g.dlambda i := by
      rw [← columnValue_add]
      congr 1
      funext i
      rw [h.lambda, one_mul]
    rw [h.healthy.balanced.pointAt_of_free hj' hfree, h.problem, hvalue, restPoint, ← hbound,
      hr.columnBoundAt_eq_none_iff.2 hfree, Option.getD_none, if_pos (h.colAt j ▸ hfree), one_mul]
  · obtain ⟨b, hb, -⟩ := hr.exists_columnBoundAt hfree
    rw [pointAt, if_neg hfree, h.anchored j hj' b hb, restPoint, ← hbound, hb, Option.getD_some,
      if_neg (h.colAt j ▸ hfree)]

/-- The gradient has moved from the start by the increments. -/
theorem gradientAt_eq (h : Resumes e g) (hact : (e.set.rowAt i).isActive = true) :
    g.gradientAt i = e.residualAt i - e.hessianAt (coord g.dlambda) i := by
  have hvalue : e.problem.rowValue i g.pointAt = e.problem.rowValue i e.restPoint +
      ∑ j ∈ Finset.range e.problem.ncols, e.problem.a.coeff i j * if e.set.colAt j = .free then
        ∑ k ∈ Finset.range e.problem.nrows, e.problem.a.coeff k j * coord g.dlambda k else 0 := by
    rw [Problem.rowValue, Problem.rowValue, ← Finset.sum_add_distrib]
    apply Finset.sum_congr rfl
    intro j hj
    rw [h.pointAt_eq (Finset.mem_range.1 hj), mul_add]
  rw [h.healthy.balanced.gradientAt_eq ((h.rowAt i).symm ▸ hact), boundAt_congr h.problem (h.rowAt i), h.problem, h.sigma,
    hvalue, residualAt, hessianAt]
  ring

end Resumes

end Engine

end PolyProjection
