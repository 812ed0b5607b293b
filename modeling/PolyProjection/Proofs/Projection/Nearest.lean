import Mathlib
import PolyProjection.Proofs.Engine.Dual
import PolyProjection.Proofs.Projection.Reconcile

/-! How near the point of given multipliers is. If each multiplier is on the side of its row and the active rows
are at their bounds up to a tolerance, the point is as near as any feasible one, up to the tolerance times the size
of the multipliers. This is weak duality: the multipliers make the way from the point to a feasible one lead
uphill, except for what the tolerance allows. -/

namespace PolyProjection

set_option linter.unusedSectionVars false

variable {K : Type} [Field K] [LinearOrder K] [IsStrictOrderedRing K]

namespace Problem

/-- Entry `j` of the point that belongs to given multipliers. -/
def pointAt (p : Problem K) (lambda : Nat → K) (j : Nat) : K :=
  Bound.clamp (p.columnValue j lambda) (p.loAt j) (p.hiAt j)

/-- The point is within all bounds. -/
def Feasible (p : Problem K) (x : Nat → K) : Prop :=
  (∀ i < p.nrows, (p.blAt i).IsBelow (p.rowValue i x) ∧ (p.buAt i).IsAbove (p.rowValue i x)) ∧
    ∀ j < p.ncols, (p.loAt j).IsBelow (x j) ∧ (p.hiAt j).IsAbove (x j)

theorem rowWithin_zero {p : Problem K} {i : Nat} {x : Nat → K}
    (h : (p.blAt i).IsBelow (p.rowValue i x) ∧ (p.buAt i).IsAbove (p.rowValue i x)) : p.RowWithin 0 i x := by
  have hmap : ∀ b : Bound K, b.map (· - 0) = b ∧ b.map (· + 0) = b := fun b => by
    cases b <;> simp [Bound.map]
  rwa [RowWithin, (hmap _).1, (hmap _).2]

section Near

variable {p : Problem K} {i : Nat} {x : Nat → K} {v tol : K}
  (hinterval : (p.blAt i).isInterval (p.buAt i) = true) (hx : |p.rowValue i x - v| ≤ tol)

include hinterval hx

theorem rowWithin_of_lower (hl : p.blAt i = .finite v) : p.RowWithin tol i x := by
  obtain ⟨hlow, hhigh⟩ := abs_le.1 hx
  rw [RowWithin]
  rw [hl] at hinterval ⊢
  refine ⟨by simp only [Bound.map, Bound.IsBelow]; linarith, ?_⟩
  cases hu : p.buAt i with
  | negInf => rw [hu] at hinterval; cases hinterval
  | finite w =>
      rw [hu] at hinterval
      have := Bound.isInterval_le hinterval
      simp only [Bound.map, Bound.IsAbove]
      linarith
  | posInf => trivial

theorem rowWithin_of_upper (hu : p.buAt i = .finite v) : p.RowWithin tol i x := by
  obtain ⟨hlow, hhigh⟩ := abs_le.1 hx
  rw [RowWithin]
  rw [hu] at hinterval ⊢
  refine ⟨?_, by simp only [Bound.map, Bound.IsAbove]; linarith⟩
  cases hl : p.blAt i with
  | negInf => trivial
  | finite w =>
      rw [hl] at hinterval
      have := Bound.isInterval_le hinterval
      simp only [Bound.map, Bound.IsBelow]
      linarith
  | posInf => rw [hl] at hinterval; cases hinterval

end Near

end Problem

namespace Engine

variable {e : Engine K} {x x' : Nat → K} {tol : K} {i : Nat}

/-- An active row at its bound, up to the tolerance, is within both of its bounds. -/
theorem Regular.rowWithin_of_active (h : e.Regular) (hact : (e.set.rowAt i).isActive = true)
    (hx : |e.problem.rowValue i x - e.boundAt i| ≤ tol) : e.problem.RowWithin tol i x := by
  have hinterval := h.problem.row_interval i (h.row_lt hact)
  cases hst : e.set.rowAt i with
  | equality => exact Problem.rowWithin_of_lower hinterval hx (h.bounds_of_equality hst).1
  | atLower => exact Problem.rowWithin_of_lower hinterval hx (h.bl_of_atLower hst)
  | atUpper => exact Problem.rowWithin_of_upper hinterval hx (h.bu_of_atUpper hst)
  | dropped => rw [hst] at hact; cases hact

/-- Between a point at the bounds of the active rows and one within all bounds, each up to a tolerance, a row does
not change against the side of its multiplier by more than both tolerances. -/
theorem AtRest.multiplier_gap {tol' : K} (h : e.AtRest)
    (hx : (e.set.rowAt i).isActive = true → |e.problem.rowValue i x - e.boundAt i| ≤ tol)
    (hx' : e.problem.RowWithin tol' i x') :
    -((tol + tol') * |coord e.lambda i|) ≤
      coord e.lambda i * (e.problem.rowValue i x' - e.problem.rowValue i x) := by
  have hside := h.feasible.on_side i
  rw [h.still, add_zero] at hside
  rw [Problem.RowWithin] at hx'
  cases hst : e.set.rowAt i with
  | equality =>
      obtain ⟨hl, hu⟩ := h.regular.bounds_of_equality hst
      rw [hst] at hx
      rw [hl, hu] at hx'
      have hlow : e.boundAt i - tol' ≤ e.problem.rowValue i x' := hx'.1
      have hhigh : e.problem.rowValue i x' ≤ e.boundAt i + tol' := hx'.2
      have habs := abs_le.1 (hx rfl)
      have hdiff : |e.problem.rowValue i x' - e.problem.rowValue i x| ≤ tol + tol' :=
        abs_le.2 ⟨by linarith, by linarith⟩
      calc -((tol + tol') * |coord e.lambda i|)
          ≤ -|coord e.lambda i * (e.problem.rowValue i x' - e.problem.rowValue i x)| := by
            rw [abs_mul, mul_comm (tol + tol')]
            exact neg_le_neg (mul_le_mul_of_nonneg_left hdiff (abs_nonneg _))
        _ ≤ coord e.lambda i * (e.problem.rowValue i x' - e.problem.rowValue i x) := neg_abs_le _
  | atLower =>
      rw [hst] at hx hside
      rw [h.regular.bl_of_atLower hst] at hx'
      have hlow : e.boundAt i - tol' ≤ e.problem.rowValue i x' := hx'.1
      have habs := abs_le.1 (hx rfl)
      have hside : 0 ≤ coord e.lambda i := hside
      rw [abs_of_nonneg hside, neg_mul_eq_neg_mul, mul_comm]
      exact mul_le_mul_of_nonneg_left (by linarith) hside
  | atUpper =>
      rw [hst] at hx hside
      rw [h.regular.bu_of_atUpper hst] at hx'
      have hhigh : e.problem.rowValue i x' ≤ e.boundAt i + tol' := hx'.2
      have habs := abs_le.1 (hx rfl)
      have hside : coord e.lambda i ≤ 0 := hside
      rw [abs_of_nonpos hside, mul_neg, neg_neg, mul_comm]
      exact mul_le_mul_of_nonpos_left (by linarith) hside
  | dropped =>
      rw [hst] at hside
      have hside : coord e.lambda i = 0 := hside
      rw [hside, abs_zero, mul_zero, neg_zero, zero_mul]

/-- The way to a feasible point pairs with the multipliers as with the columns that they move. -/
theorem sum_columnValue (p : Problem K) (lambda d : Nat → K) :
    ∑ j ∈ Finset.range p.ncols, d j * (p.columnValue j lambda - coord p.y j) =
      ∑ i ∈ Finset.range p.nrows, lambda i * p.rowValue i d := by
  simp only [Problem.columnValue, Problem.rowValue, add_sub_cancel_left, Finset.mul_sum]
  rw [Finset.sum_comm]
  exact Finset.sum_congr rfl fun i _ => Finset.sum_congr rfl fun j _ => by ring

/-- The point of multipliers on the sides of their rows is as near as any feasible point, up to the tolerance
with which active rows are at their bounds. -/
theorem AtRest.distance_le (h : e.AtRest) (hx : ∀ j < e.problem.ncols, x j = e.problem.pointAt (coord e.lambda) j)
    (hactive : ∀ i, (e.set.rowAt i).isActive = true → |e.problem.rowValue i x - e.boundAt i| ≤ tol)
    (hx' : e.problem.Feasible x') : e.problem.distance x ≤ e.problem.distance x' +
      tol * ∑ i ∈ Finset.range e.problem.nrows, |coord e.lambda i| := by
  have hobtuse : 0 ≤ ∑ j ∈ Finset.range e.problem.ncols,
      (x' j - x j) * (x j - e.problem.columnValue j (coord e.lambda)) := by
    refine Finset.sum_nonneg fun j hj => ?_
    have hj := Finset.mem_range.1 hj
    rw [hx j hj]
    exact Bound.clamp_obtuse _ (hx'.2 j hj).1 (hx'.2 j hj).2
  have hrows : -(tol * ∑ i ∈ Finset.range e.problem.nrows, |coord e.lambda i|) ≤
      ∑ i ∈ Finset.range e.problem.nrows, coord e.lambda i * e.problem.rowValue i fun j => x' j - x j := by
    rw [Finset.mul_sum, ← Finset.sum_neg_distrib]
    refine Finset.sum_le_sum fun i hi => ?_
    have hi := Finset.mem_range.1 hi
    have hdiff : (e.problem.rowValue i fun j => x' j - x j) =
        e.problem.rowValue i x' - e.problem.rowValue i x := by
      simp only [Problem.rowValue, mul_sub, Finset.sum_sub_distrib]
    rw [hdiff]
    have hgap := h.multiplier_gap (hactive i) (Problem.rowWithin_zero (hx'.1 i hi))
    rwa [add_zero] at hgap
  have hsplit : e.problem.distance x' - e.problem.distance x =
      (∑ j ∈ Finset.range e.problem.ncols, (x' j - x j) * (x j - e.problem.columnValue j (coord e.lambda))) +
      (∑ j ∈ Finset.range e.problem.ncols,
        (x' j - x j) * (e.problem.columnValue j (coord e.lambda) - coord e.problem.y j)) +
      1 / 2 * ∑ j ∈ Finset.range e.problem.ncols, (x' j - x j) ^ 2 := by
    simp only [Problem.distance, Finset.mul_sum, ← Finset.sum_sub_distrib, ← Finset.sum_add_distrib]
    exact Finset.sum_congr rfl fun j _ => by ring
  rw [sum_columnValue] at hsplit
  have hsquare : 0 ≤ ∑ j ∈ Finset.range e.problem.ncols, (x' j - x j) ^ 2 :=
    Finset.sum_nonneg fun j _ => sq_nonneg _
  calc e.problem.distance x
      ≤ e.problem.distance x' -
          ∑ i ∈ Finset.range e.problem.nrows, coord e.lambda i * e.problem.rowValue i fun j => x' j - x j := by
        linarith
    _ ≤ e.problem.distance x' + tol * ∑ i ∈ Finset.range e.problem.nrows, |coord e.lambda i| := by linarith

end Engine

end PolyProjection
