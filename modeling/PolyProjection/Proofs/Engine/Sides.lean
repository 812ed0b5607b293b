import Mathlib
import PolyProjection.Proofs.Engine.Optimal

/-! The sides of the multipliers and of the bound columns. A column that is held at a bound would lie on it or beyond it
if it were free; how far beyond is what the workspace says that it has moved. -/

namespace PolyProjection

set_option linter.unusedSectionVars false

variable {K : Type} [Field K] [LinearOrder K] [IsStrictOrderedRing K]

/-- A column whose value without bounds is `v` above the bound that it is held at does not lie inside of it. -/
def ColumnStatus.Beyond : ColumnStatus → K → Prop
  | free, _ => True
  | atLower, v => v ≤ 0
  | atUpper, v => 0 ≤ v

/-- The values without bounds that keep a column at the bound that it is held at. -/
def ColumnStatus.Admits (lo hi : Bound K) : ColumnStatus → K → Prop
  | free, _ => True
  | atLower, z => lo.IsAbove z
  | atUpper, z => hi.IsBelow z

theorem ColumnStatus.beyond_zero (st : ColumnStatus) : st.Beyond (0 : K) := by
  cases st with
  | free => trivial
  | atLower => exact le_refl (0 : K)
  | atUpper => exact le_refl (0 : K)

namespace Engine

section Movement

variable {st : ColumnStatus} {c p a b : K}

/-- A column that does not move inwards stays beyond its bound. -/
theorem beyond_later (hmoves : movesInwards st p = false) (hab : a ≤ b) (h : st.Beyond (c + a * p)) :
    st.Beyond (c + b * p) := by
  cases st with
  | free => trivial
  | atLower =>
      have hp : p ≤ 0 := not_lt.1 (of_decide_eq_false hmoves)
      have hmul : b * p ≤ a * p := mul_le_mul_of_nonpos_right hab hp
      simp only [ColumnStatus.Beyond] at h ⊢
      linarith
  | atUpper =>
      have hp : 0 ≤ p := not_lt.1 (of_decide_eq_false hmoves)
      have hmul : a * p ≤ b * p := mul_le_mul_of_nonneg_right hab hp
      simp only [ColumnStatus.Beyond] at h ⊢
      linarith

/-- A column that moves inwards was beyond its bound before. -/
theorem beyond_earlier (hmoves : movesInwards st p = true) (hab : a ≤ b) (h : st.Beyond (c + b * p)) :
    st.Beyond (c + a * p) := by
  cases st with
  | free => trivial
  | atLower =>
      have hp : 0 < p := of_decide_eq_true hmoves
      have hmul : a * p ≤ b * p := mul_le_mul_of_nonneg_right hab hp.le
      simp only [ColumnStatus.Beyond] at h ⊢
      linarith
  | atUpper =>
      have hp : p < 0 := of_decide_eq_true hmoves
      have hmul : b * p ≤ a * p := mul_le_mul_of_nonpos_right hab hp.le
      simp only [ColumnStatus.Beyond] at h ⊢
      linarith

/-- A column that moves inwards comes to its bound later. -/
theorem div_nonpos_of_beyond (hmoves : movesInwards st p = true) (h : st.Beyond c) : c / p ≤ 0 := by
  cases st with
  | free => cases hmoves
  | atLower => exact div_nonpos_of_nonpos_of_nonneg h (of_decide_eq_true hmoves : (0 : K) < p).le
  | atUpper => exact div_nonpos_of_nonneg_of_nonpos h (of_decide_eq_true hmoves : p < 0).le

/-- A column that moves inwards and comes to its bound at `v` is beyond it until then. -/
theorem beyond_until {v : K} (hmoves : movesInwards st p = true) (hzero : c + v * p = 0) (hle : a ≤ v) :
    st.Beyond (c + a * p) := by
  apply beyond_earlier hmoves hle
  rw [hzero]
  exact st.beyond_zero

/-- A new break value is where the column comes to its bound. -/
theorem of_rekey? {step v : K} (hstep : 0 ≤ step) (hside : st.Beyond (c + step * p))
    (h : rekey? step (c + step * p) p st = some v) : 0 ≤ v ∧ movesInwards st p = true ∧ c + v * p = 0 := by
  rw [rekey?] at h
  split_ifs at h with hmoves
  rw [Option.some.injEq] at h
  have hlater : step ≤ step - (c + step * p) / p := by
    have hdiv := div_nonpos_of_beyond hmoves.1 hside
    linarith
  rw [max_eq_right hlater] at h
  refine ⟨hstep.trans (hlater.trans_eq h), hmoves.1, ?_⟩
  rw [← h, sub_mul, div_mul_cancel₀ _ (ne_zero_of_movesInwards hmoves.1)]
  ring

/-- Without a new break value the column does not come to its bound before the full step. -/
theorem of_rekey?_none {step : K} (hlt : step < 1)
    (hmoves : movesInwards st p = true) (h : rekey? step (c + step * p) p st = none) : st.Beyond (c + 1 * p) := by
  rw [rekey?] at h
  split_ifs at h with hfar
  have hlate : 1 ≤ step - (c + step * p) / p :=
    (le_max_iff.1 (not_lt.1 fun hnear => hfar ⟨hmoves, hnear⟩)).resolve_left (not_le.2 hlt)
  refine beyond_until hmoves ?_ hlate
  rw [sub_mul, div_mul_cancel₀ _ (ne_zero_of_movesInwards hmoves)]
  ring

end Movement

/-- The multipliers that a run starts with. Those of dropped rows count as zero. -/
def startDual (e : Engine K) (i : ℕ) : K :=
  if (e.set.rowAt i).isActive = true then coord e.lambda i else 0

/-- A row that is not active starts without a multiplier, so that it is on its side. -/
theorem admits_startDual {e : Engine K}
    (hsides : ∀ i, (e.set.rowAt i).isActive = true → (e.set.rowAt i).Admits (e.startDual i)) (i : ℕ) :
    (e.set.rowAt i).Admits (e.startDual i) := by
  by_cases hact : (e.set.rowAt i).isActive = true
  · exact hsides i hact
  · rw [startDual, if_neg hact]
    exact RowStatus.admits_zero _

/-- The multipliers with their increments. -/
def dual (e : Engine K) (i : ℕ) : K :=
  coord e.lambda i + coord e.dlambda i

/-- The multipliers after a step along the direction of a range of rows. -/
def dualAfter (e : Engine K) (rows : IndexRange) (step : K) (i : ℕ) : K :=
  e.dual i + step * e.directionAt rows i

/-- The direction of a column, zero beyond the columns of the range. -/
def columnDirectionAt (e : Engine K) (cols : IndexRange) (j : ℕ) : K :=
  if cols.start ≤ j ∧ j < cols.stop then coord e.work.pa j else 0

/-- The multipliers are on the sides of the active rows and keep each bound column at its bound. -/
structure OnSides (e : Engine K) (lambda : ℕ → K) : Prop where
  row : ∀ i, (e.set.rowAt i).isActive = true → (e.set.rowAt i).Admits (lambda i)
  column : ∀ j < e.problem.ncols,
    (e.set.colAt j).Admits (e.problem.loAt j) (e.problem.hiAt j) (e.problem.columnValue j lambda)

/-- The base values of bound columns are their bounds. -/
def Anchored (e : Engine K) : Prop :=
  ∀ j < e.problem.ncols, ∀ b, e.columnBoundAt j = some b → coord e.work.reference j = b

/-- Bound columns do not lie inside of their bounds. -/
def Outside (e : Engine K) : Prop :=
  ∀ j < e.problem.ncols, (e.set.colAt j).Beyond (coord e.work.c j)

variable {e e' g : Engine K} {rows cols : IndexRange} {i j : ℕ}

theorem columnBoundAt_congr (hproblem : e'.problem = e.problem) (hcol : e'.set.colAt j = e.set.colAt j) :
    e'.columnBoundAt j = e.columnBoundAt j := by
  rw [columnBoundAt, columnBoundAt, hproblem, hcol]

theorem Rebased.anchored (h : Rebased e e') : e'.Anchored := by
  intro j hj b hb
  rw [h.problem_eq] at hj
  rw [columnBoundAt_congr h.problem_eq (by rw [h.set_eq])] at hb
  rw [h.reference j hj, hb, Option.getD_some]

theorem Frozen.anchored (h : Frozen e e') (ha : e.Anchored) : e'.Anchored := by
  intro j hj b hb
  have hheld : e'.set.colAt j ≠ .free := by
    intro hfree
    rw [columnBoundAt, hfree] at hb
    cases hb
  rw [columnBoundAt_congr h.problem (h.column j hheld)] at hb
  rw [h.reference]
  exact ha j (h.problem ▸ hj) b hb

/-- What a bound column has moved is the distance of its value without bounds from the bound. -/
theorem admits_iff_beyond (hr : e.Regular) (ha : e.Anchored) (hj : j < e.problem.ncols) (v : K) :
    (e.set.colAt j).Admits (e.problem.loAt j) (e.problem.hiAt j) (coord e.work.reference j + v) ↔
      (e.set.colAt j).Beyond v := by
  by_cases hfree : e.set.colAt j = .free
  · rw [hfree]
    exact Iff.rfl
  · obtain ⟨b, hb, hlo, hhi⟩ := hr.exists_columnBoundAt hfree
    rw [ha j hj b hb]
    cases hst : e.set.colAt j with
    | free => exact absurd hst hfree
    | atLower =>
        rw [hlo hst]
        exact add_le_iff_nonpos_right b
    | atUpper =>
        rw [hhi hst]
        exact le_add_iff_nonneg_right b

/-- The columns are on their sides exactly if none of them lies inside of its bound. -/
theorem Balanced.outside_iff (hb : e.Balanced) (hr : e.Regular) (ha : e.Anchored) : e.Outside ↔
    ∀ j < e.problem.ncols, (e.set.colAt j).Admits (e.problem.loAt j) (e.problem.hiAt j) (e.problem.columnValue j e.dual) := by
  refine forall₂_congr fun j hj => ?_
  have hvalue : e.problem.columnValue j e.dual = coord e.work.reference j + coord e.work.c j := (hb.column j hj).symm
  rw [hvalue]
  exact (admits_iff_beyond hr ha hj _).symm

/-- With fresh vectors the sides are those at the start of the run. -/
theorem Rebased.outside (hr : e.Regular) (h : Rebased e e') (hstill : ∀ i, coord e.dlambda i = 0)
    (hsides : e.OnSides e.startDual) : e'.Outside := by
  have hr' := h.regular hr
  rw [(h.balanced hr).outside_iff hr' h.anchored]
  intro j hj
  have hdual : e'.dual = e.startDual := by
    funext i
    rw [dual, h.lambda, h.dlambda, add_zero, hstill, add_zero]
    rfl
  rw [h.problem_eq] at hj ⊢
  rw [h.set_eq, hdual]
  exact hsides.column j hj

/-- The direction of the multipliers moves the columns. -/
theorem Balanced.columnValue_after (hb : e.Balanced) (ha : e.Aligned rows cols) (hj : j < e.problem.ncols) (step : K) :
    e.problem.columnValue j (e.dualAfter rows step) =
      coord e.work.reference j + (coord e.work.c j + step * e.columnDirectionAt cols j) := by
  have hsum : ∑ i ∈ Finset.range e.problem.nrows, e.problem.a.coeff i j * e.dualAfter rows step i =
      (∑ i ∈ Finset.range e.problem.nrows, e.problem.a.coeff i j * e.dual i) +
        step * ∑ i ∈ Finset.range e.problem.nrows, e.problem.a.coeff i j * e.directionAt rows i := by
    rw [Finset.mul_sum, ← Finset.sum_add_distrib]
    apply Finset.sum_congr rfl
    intro i _
    rw [dualAfter]
    ring
  calc e.problem.columnValue j (e.dualAfter rows step)
      = e.problem.columnValue j e.dual +
          step * ∑ i ∈ Finset.range e.problem.nrows, e.problem.a.coeff i j * e.directionAt rows i := by
        rw [Problem.columnValue, Problem.columnValue, hsum, add_assoc]
    _ = coord e.work.reference j + (coord e.work.c j + step * e.columnDirectionAt cols j) := by
        rw [← ha j, ← add_assoc, hb.column j hj]
        rfl

theorem Outside.of_eq (h : e.Outside) (hproblem : e'.problem = e.problem)
    (hcol : ∀ j, e'.set.colAt j = e.set.colAt j) (hc : e'.work.c = e.work.c) : e'.Outside := by
  intro j hj
  rw [hcol, hc]
  exact h j (hproblem ▸ hj)

theorem SameState.outside (hs : SameState e e') (h : e.Outside) : e'.Outside :=
  h.of_eq hs.problem hs.colAt (by rw [hs.work])

end Engine

end PolyProjection
