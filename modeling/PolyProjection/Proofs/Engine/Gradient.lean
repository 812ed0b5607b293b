import Mathlib
import PolyProjection.Proofs.Engine.Balance
import PolyProjection.Proofs.Engine.Newton

/-! The gradient of the dual over the active rows. The Newton direction of a job is where the Hessian of its rows takes
the gradient to, so the slope of a search is its curvature, the full step leads to a stationary point of the job, and a
search without an event ends there. -/

namespace PolyProjection

set_option linter.unusedSectionVars false

variable {K : Type} [Field K] [LinearOrder K] [IsStrictOrderedRing K]

namespace Engine

/-- The slope of the dual at row `i`, from the vectors of the workspace. -/
def gradientAt (e : Engine K) (i : ℕ) : K :=
  coord e.work.rhs i - e.sigma * coord e.dlambda i - ∑ j ∈ Finset.range e.problem.ncols,
    e.problem.a.coeff i j * if e.set.colAt j = .free then coord e.work.c j - coord e.work.cold j else 0

/-- Row `i` of the product of the negated Hessian of the dual and `z`. -/
def hessianAt (e : Engine K) (z : ℕ → K) (i : ℕ) : K :=
  e.sigma * z i + ∑ j ∈ Finset.range e.problem.ncols, e.problem.a.coeff i j *
    if e.set.colAt j = .free then ∑ k ∈ Finset.range e.problem.nrows, e.problem.a.coeff k j * z k else 0

/-- The point of the multipliers: a bound column is at its base value, which is its bound. -/
def pointAt (e : Engine K) (j : ℕ) : K :=
  coord e.work.reference j + if e.set.colAt j = .free then coord e.work.c j else 0

variable {e e' : Engine K} {rows cols : IndexRange} {i j : ℕ} {z : ℕ → K}

/-- The slope at an active row is how far the point is from the bound of the row, less the proximal term. -/
theorem Balanced.gradientAt_eq (hb : e.Balanced) (hact : (e.set.rowAt i).isActive = true) :
    e.gradientAt i = e.boundAt i - e.problem.rowValue i e.pointAt - e.sigma * coord e.dlambda i := by
  have hsplit : ∀ j, e.problem.a.coeff i j * e.pointAt j = e.problem.a.coeff i j * coord e.work.reference j +
      (e.problem.a.coeff i j * (if e.set.colAt j = .free then coord e.work.cold j else 0) +
        e.problem.a.coeff i j * if e.set.colAt j = .free then coord e.work.c j - coord e.work.cold j else 0) := by
    intro j
    rw [pointAt]
    split_ifs <;> ring
  rw [gradientAt, hb.rhs i hact, Problem.rowValue, Problem.rowValue]
  simp only [hsplit, Finset.sum_add_distrib]
  ring

theorem Balanced.pointAt_of_free (hb : e.Balanced) (hj : j < e.problem.ncols) (hfree : e.set.colAt j = .free) :
    e.pointAt j = e.problem.columnValue j fun i => coord e.lambda i + coord e.dlambda i := by
  rw [pointAt, if_pos hfree, hb.column j hj]

section Products

/-- The curvature along `z`. -/
theorem sum_hessianAt (e : Engine K) (z : ℕ → K) : ∑ i ∈ Finset.range e.problem.nrows, z i * e.hessianAt z i =
    e.sigma * ∑ i ∈ Finset.range e.problem.nrows, z i ^ 2 + ∑ j ∈ Finset.range e.problem.ncols,
      if e.set.colAt j = .free then (∑ k ∈ Finset.range e.problem.nrows, e.problem.a.coeff k j * z k) ^ 2 else 0 := by
  have hsplit : ∀ i, z i * e.hessianAt z i = e.sigma * z i ^ 2 + ∑ j ∈ Finset.range e.problem.ncols,
      if e.set.colAt j = .free then
        e.problem.a.coeff i j * z i * ∑ k ∈ Finset.range e.problem.nrows, e.problem.a.coeff k j * z k else 0 := by
    intro i
    rw [hessianAt, mul_add, Finset.mul_sum]
    congr 1
    · ring
    · refine Finset.sum_congr rfl fun j _ => ?_
      split_ifs <;> ring
  simp only [hsplit, Finset.sum_add_distrib, ← Finset.mul_sum]
  rw [Finset.sum_comm]
  congr 1
  refine Finset.sum_congr rfl fun j _ => ?_
  split_ifs
  · rw [← Finset.sum_mul, sq]
  · exact Finset.sum_const_zero

/-- Only a direction of zero has no curvature. -/
theorem eq_zero_of_sum_hessianAt (hsigma : 0 < e.sigma)
    (h : ∑ i ∈ Finset.range e.problem.nrows, z i * e.hessianAt z i ≤ 0) (hi : i < e.problem.nrows) : z i = 0 := by
  rw [sum_hessianAt] at h
  have hcols : 0 ≤ ∑ j ∈ Finset.range e.problem.ncols,
      if e.set.colAt j = .free then (∑ k ∈ Finset.range e.problem.nrows, e.problem.a.coeff k j * z k) ^ 2 else 0 :=
    Finset.sum_nonneg fun j _ => by split_ifs <;> positivity
  have hrows : 0 ≤ ∑ i ∈ Finset.range e.problem.nrows, z i ^ 2 := Finset.sum_nonneg fun i _ => sq_nonneg _
  have hzero : ∑ i ∈ Finset.range e.problem.nrows, z i ^ 2 = 0 := by
    by_contra hne
    have := mul_pos hsigma (lt_of_le_of_ne hrows (Ne.symm hne))
    linarith
  exact pow_eq_zero_iff two_ne_zero |>.1
    ((Finset.sum_eq_zero_iff_of_nonneg fun i _ => sq_nonneg _).1 hzero i (Finset.mem_range.2 hi))

theorem hessianAt_eq_zero (hz : ∀ i < e.problem.nrows, z i = 0) (hi : i < e.problem.nrows) : e.hessianAt z i = 0 := by
  rw [hessianAt, hz i hi, mul_zero, zero_add]
  refine Finset.sum_eq_zero fun j _ => ?_
  rw [Finset.sum_eq_zero fun k hk => by rw [hz k (Finset.mem_range.1 hk), mul_zero], ite_self, mul_zero]

end Products

section Search

theorem sum_activeBetween (hstop : rows.stop ≤ e.problem.nrows) (f : ℕ → K) :
    ((e.set.activeBetween rows.start rows.stop).map f).sum = ∑ i ∈ Finset.range e.problem.nrows,
      if rows.start ≤ i ∧ i < rows.stop ∧ (e.set.rowAt i).isActive = true then f i else 0 := by
  rw [← List.sum_toFinset f ((e.set.activeBetween_ascending _ _).imp Nat.ne_of_lt), ← Finset.sum_filter]
  refine Finset.sum_congr (Finset.ext fun i => ?_) fun _ _ => rfl
  rw [List.mem_toFinset, ActiveSet.mem_activeBetween, Finset.mem_filter, Finset.mem_range]
  exact ⟨fun h => ⟨h.2.2.trans_le hstop, h.2.1, h.2.2, h.1⟩, fun h => ⟨h.2.2.2, h.2.1, h.2.2.1⟩⟩

theorem sum_span (hstop : cols.stop ≤ e.problem.ncols) (f : ℕ → K) : ((span cols.start cols.stop).map f).sum =
    ∑ j ∈ Finset.range e.problem.ncols, if cols.start ≤ j ∧ j < cols.stop then f j else 0 := by
  rw [← List.sum_toFinset f (nodup_span _ _), ← Finset.sum_filter]
  refine Finset.sum_congr (Finset.ext fun j => ?_) fun _ _ => rfl
  rw [List.mem_toFinset, mem_span, Finset.mem_filter, Finset.mem_range]
  exact ⟨fun h => ⟨h.2.trans_le hstop, h⟩, fun h => h.2⟩

variable (ha : e.Aligned rows cols) (hrows : rows.stop ≤ e.problem.nrows) (hcols : cols.stop ≤ e.problem.ncols)

include ha hrows hcols

/-- The slope of a search is that of the gradient along the direction. -/
theorem Aligned.slopeAt_eq : e.slopeAt rows cols =
    ∑ i ∈ Finset.range e.problem.nrows, e.directionAt rows i * e.gradientAt i := by
  have hmoved : ∑ j ∈ Finset.range e.problem.ncols, (if cols.start ≤ j ∧ j < cols.stop then
      (if e.set.colAt j = .free then (coord e.work.c j - coord e.work.cold j) * coord e.work.pa j else 0) else 0) =
      ∑ i ∈ Finset.range e.problem.nrows, e.directionAt rows i * ∑ j ∈ Finset.range e.problem.ncols,
        e.problem.a.coeff i j * if e.set.colAt j = .free then coord e.work.c j - coord e.work.cold j else 0 := by
    simp only [Finset.mul_sum]
    rw [Finset.sum_comm]
    refine Finset.sum_congr rfl fun j _ => ?_
    calc _ = (if e.set.colAt j = .free then coord e.work.c j - coord e.work.cold j else 0) *
          (if cols.start ≤ j ∧ j < cols.stop then coord e.work.pa j else 0) := by
          split_ifs <;> ring
      _ = _ := by
          rw [ha j, Finset.mul_sum]
          exact Finset.sum_congr rfl fun i _ => by ring
  rw [slopeAt, sum_activeBetween hrows, sum_span hcols, hmoved, ← Finset.sum_sub_distrib]
  refine Finset.sum_congr rfl fun i _ => ?_
  rw [gradientAt, directionAt]
  split_ifs <;> ring

theorem Aligned.curvatureAt_eq : e.curvatureAt rows cols =
    ∑ i ∈ Finset.range e.problem.nrows, e.directionAt rows i * e.hessianAt (e.directionAt rows) i := by
  rw [curvatureAt, sum_activeBetween hrows, sum_span hcols, sum_hessianAt, Finset.mul_sum]
  congr 1
  · refine Finset.sum_congr rfl fun i _ => ?_
    rw [directionAt]
    split_ifs <;> ring
  · refine Finset.sum_congr rfl fun j _ => ?_
    rw [← ha j]
    split_ifs <;> ring

omit hrows hcols

/-- A step along the direction changes the gradient as the Hessian says. -/
theorem Aligned.gradientAt_advanced {step : K} (h : e.HasAdvanced rows cols step e') (i : ℕ) :
    e'.gradientAt i = e.gradientAt i - step * e.hessianAt (e.directionAt rows) i := by
  obtain ⟨dlambda, c, rfl, -, hdlambda, hc⟩ := h
  have hmove : ∀ j, coord c j =
      coord e.work.c j + step * ∑ k ∈ Finset.range e.problem.nrows, e.problem.a.coeff k j * e.directionAt rows k :=
    fun j => by rw [hc, ← ha j, mul_ite, mul_zero]
  have hcolumn : ∀ j, (if e.set.colAt j = .free then coord c j - coord e.work.cold j else 0) =
      (if e.set.colAt j = .free then coord e.work.c j - coord e.work.cold j else 0) +
        step * if e.set.colAt j = .free then
          ∑ k ∈ Finset.range e.problem.nrows, e.problem.a.coeff k j * e.directionAt rows k else 0 := by
    intro j
    rw [hmove]
    split_ifs <;> ring
  rw [gradientAt, gradientAt, hessianAt]
  simp only [hcolumn, hdlambda, mul_add, Finset.sum_add_distrib, Finset.mul_sum]
  have hswap : ∀ j, e.problem.a.coeff i j * (step * if e.set.colAt j = .free then
      ∑ k ∈ Finset.range e.problem.nrows, e.problem.a.coeff k j * e.directionAt rows k else 0) =
      step * (e.problem.a.coeff i j * if e.set.colAt j = .free then
        ∑ k ∈ Finset.range e.problem.nrows, e.problem.a.coeff k j * e.directionAt rows k else 0) := fun j => by ring
  simp only [hswap]
  ring

end Search

/-- The factor is that of a system with the active rows and the free columns of the job. -/
structure FactorFits (s : Fill) (free act : ℕ → Bool) (e : Engine K) (job : Job) : Prop where
  covers : s.Covers e.problem.a
  sigma_pos : 0 < e.sigma
  factor : e.factor = s.canonical e.problem.a free act e.sigma
  rows : ∀ i, job.rows.start ≤ i → i < job.rows.stop → act i = (e.set.rowAt i).isActive
  cols : ∀ j, job.cols.start ≤ j → j < job.cols.stop → free j = (e.set.colAt j == .free)

section Newton

variable {s : Fill} {free act : ℕ → Bool} {job : Job} (hfits : FactorFits s free act e job) (hp : e.problem.Accepted)
  (hjob : job.Covers e.problem.tree)

include hfits hp hjob

/-- In a row of the job the entries of the system are those of the columns that are free now. -/
theorem FactorFits.normal_eq {k : ℕ} (hi : i ∈ e.jobRows job) (hk : k ∈ e.jobRows job) :
    normal e.problem.a free act e.sigma i k = (∑ j ∈ Finset.range e.problem.ncols,
      e.problem.a.coeff i j * if e.set.colAt j = .free then e.problem.a.coeff k j else 0) +
        if i = k then e.sigma else 0 := by
  obtain ⟨hactive, htop, hbottom⟩ := mem_jobRows.1 hi
  obtain ⟨hactive', htop', hbottom'⟩ := mem_jobRows.1 hk
  rw [normal, (hfits.rows i htop hbottom).trans hactive, (hfits.rows k htop' hbottom').trans hactive', Bool.and_self,
    if_pos rfl]
  congr 1
  refine Finset.sum_congr rfl fun j _ => ?_
  by_cases hj : job.cols.start ≤ j ∧ j < job.cols.stop
  · rw [hfits.cols j hj.1 hj.2]
    simp only [beq_iff_eq, mul_ite, mul_zero]
  · rw [hp.coeff_eq_zero hjob ⟨htop, hbottom⟩ hj, zero_mul, zero_mul, ite_self]

/-- The solve gives the solution of the system of the rows of the job. -/
theorem FactorFits.sum_solution (hbefore : ForwardSolved (normal e.problem.a free act e.sigma) (e.jobRows job)
    (coord e.work.rhs) (coord e.work.fwd) (job.mark.getD 0)) (hi : i ∈ e.jobRows job) :
    ∑ k ∈ e.jobRows job, normal e.problem.a free act e.sigma i k *
      e.solution job (fun j => (s.column j).filter act) (lower (normal e.problem.a free act e.sigma))
        (pivot (normal e.problem.a free act e.sigma)) k = coord e.work.rhs i := by
  have hm : s.Eliminates act (normal e.problem.a free act e.sigma) := hfits.covers.eliminates hfits.sigma_pos
  exact (hp.apart hjob).solution hm.symm (fun l _ => (pivot_normal_pos hfits.sigma_pos l).ne')
    (fun k hk => (mem_jobRows.1 hk).2) (fun k hk l hl hlb hout => lower_of_inactive
      (by rw [hfits.rows l hl hlb]; exact Bool.eq_false_iff.2 fun hact => hout (mem_jobRows.2 ⟨hact, hl, hlb⟩))
      fun hkl => hout (hkl ▸ hk))
    (forwardSolved_halfSolution hm hfits.rows hbefore) (backSolved_solution hm hfits.rows) hi

/-- A row of the system applied to a vector. -/
theorem FactorFits.sum_normal (x : ℕ → K) (hi : i ∈ e.jobRows job) :
    ∑ k ∈ e.jobRows job, normal e.problem.a free act e.sigma i k * x k =
      e.sigma * x i + ∑ j ∈ Finset.range e.problem.ncols, e.problem.a.coeff i j *
        if e.set.colAt j = .free then ∑ k ∈ e.jobRows job, e.problem.a.coeff k j * x k else 0 := by
  calc _ = ∑ k ∈ e.jobRows job, ((∑ j ∈ Finset.range e.problem.ncols, e.problem.a.coeff i j *
          if e.set.colAt j = .free then e.problem.a.coeff k j * x k else 0) + if i = k then e.sigma * x k else 0) := by
        refine Finset.sum_congr rfl fun k hk => ?_
        rw [hfits.normal_eq hp hjob hi hk, add_mul, Finset.sum_mul, ite_mul, zero_mul]
        congr 1
        refine Finset.sum_congr rfl fun j _ => ?_
        split_ifs <;> ring
    _ = _ := by
        rw [Finset.sum_add_distrib, Finset.sum_ite_eq, if_pos hi, Finset.sum_comm, add_comm]
        congr 1
        refine Finset.sum_congr rfl fun j _ => ?_
        rw [← Finset.mul_sum]
        split_ifs
        · rfl
        · rw [Finset.sum_const_zero]

omit hfits hp hjob

theorem directionAt_of_notMem (hi : i ∉ e.jobRows job) : e.directionAt job.rows i = 0 :=
  if_neg fun hall => hi (mem_jobRows.2 ⟨hall.2.2, hall.1, hall.2.1⟩)

/-- The solution that the solve gives is the direction and the increment of the row. -/
theorem directionAt_solved {fill : ℕ → List ℕ} {lower : ℕ → ℕ → K} {diag : ℕ → K} {k : ℕ}
    (hstop : job.rows.stop ≤ e.problem.nrows) (hk : k ∈ e.jobRows job) :
    (e.solved job fill lower diag).directionAt job.rows k + coord e.dlambda k = e.solution job fill lower diag k := by
  obtain ⟨hactive, htop, hbottom⟩ := mem_jobRows.1 hk
  rw [directionAt, if_pos ⟨htop, hbottom, hactive⟩]
  dsimp only [solved]
  rw [coord_table _ (hbottom.trans_le hstop), newtonStep, if_pos ⟨htop, hbottom⟩, if_pos hactive, sub_add_cancel]

/-- What a column has moved is due to the rows of the job, if the rows beyond it that meet it have no increments. -/
theorem Balanced.moved_of_jobRows (hb : e.Balanced) (hf : e.DualFeasible) (hstop : job.rows.stop ≤ e.problem.nrows)
    {j : ℕ} (hj : j < e.problem.ncols) (hrest : ∀ k, ¬(job.rows.start ≤ k ∧ k < job.rows.stop) →
      e.problem.a.coeff k j ≠ 0 → coord e.dlambda k = 0) :
    ∑ k ∈ e.jobRows job, e.problem.a.coeff k j * coord e.dlambda k = coord e.work.c j - coord e.work.cold j := by
  rw [hb.moved j hj]
  refine Finset.sum_subset (jobRows_subset hstop) fun k _ hk => ?_
  by_cases hmeets : e.problem.a.coeff k j = 0
  · rw [hmeets, zero_mul]
  · suffices hzero : coord e.dlambda k = 0 by rw [hzero, mul_zero]
    by_cases hrows : job.rows.start ≤ k ∧ k < job.rows.stop
    · have hdropped : (e.set.rowAt k).isActive = false :=
        Bool.eq_false_iff.2 fun hact => hk (mem_jobRows.2 ⟨hact, hrows⟩)
      exact (hf.dropped k (ActiveSet.isActive_eq_false_iff.1 hdropped)).2
    · exact hrest k hrows hmeets

include hfits hp hjob

/-- The direction of a job solves the Newton equation of its rows, if the rows beyond it have no increments yet. -/
theorem FactorFits.gradientAt_solved (hstop : job.rows.stop ≤ e.problem.nrows) (hb : e.Balanced) (hf : e.DualFeasible)
    (hbefore : ForwardSolved (normal e.problem.a free act e.sigma) (e.jobRows job) (coord e.work.rhs)
      (coord e.work.fwd) (job.mark.getD 0))
    (hrest : ∀ k, ¬(job.rows.start ≤ k ∧ k < job.rows.stop) → ∀ j, job.cols.start ≤ j → j < job.cols.stop →
      e.problem.a.coeff k j ≠ 0 → coord e.dlambda k = 0)
    (he' : e' = e.solved job (fun j => (s.column j).filter act) (lower (normal e.problem.a free act e.sigma))
      (pivot (normal e.problem.a free act e.sigma))) (hi : i ∈ e.jobRows job) :
    e'.gradientAt i = e'.hessianAt (e'.directionAt job.rows) i := by
  set dir := e'.directionAt job.rows with hdir
  have houtside : ∀ k, k ∉ e.jobRows job → dir k = 0 := fun k hk =>
    directionAt_of_notMem (by rw [he']; exact hk)
  have hcolumn : ∀ j < e.problem.ncols, e.problem.a.coeff i j ≠ 0 →
      ∑ k ∈ e.jobRows job, e.problem.a.coeff k j * (dir k + coord e.dlambda k) =
        (∑ k ∈ Finset.range e.problem.nrows, e.problem.a.coeff k j * dir k) +
          (coord e.work.c j - coord e.work.cold j) := by
    intro j hj hne
    have hcols : job.cols.start ≤ j ∧ j < job.cols.stop := by
      by_contra hout
      exact hne (hp.coeff_eq_zero hjob (mem_jobRows.1 hi).2 hout)
    rw [← hb.moved_of_jobRows hf hstop hj fun k hk => hrest k hk j hcols.1 hcols.2,
      ← Finset.sum_subset (jobRows_subset hstop) fun k _ hk => by rw [houtside k hk, mul_zero],
      ← Finset.sum_add_distrib]
    exact Finset.sum_congr rfl fun k _ => mul_add _ _ _
  have hrhs : coord e.work.rhs i = e.sigma * (dir i + coord e.dlambda i) +
      ∑ j ∈ Finset.range e.problem.ncols, e.problem.a.coeff i j * if e.set.colAt j = .free then
        (∑ k ∈ Finset.range e.problem.nrows, e.problem.a.coeff k j * dir k) +
          (coord e.work.c j - coord e.work.cold j) else 0 := by
    calc coord e.work.rhs i
        = ∑ k ∈ e.jobRows job, normal e.problem.a free act e.sigma i k * (dir k + coord e.dlambda k) := by
          rw [← hfits.sum_solution hp hjob hbefore hi]
          exact Finset.sum_congr rfl fun k hk => by rw [hdir, he', directionAt_solved hstop hk]
      _ = e.sigma * (dir i + coord e.dlambda i) + ∑ j ∈ Finset.range e.problem.ncols, e.problem.a.coeff i j *
            if e.set.colAt j = .free then
              ∑ k ∈ e.jobRows job, e.problem.a.coeff k j * (dir k + coord e.dlambda k) else 0 :=
          hfits.sum_normal hp hjob _ hi
      _ = _ := by
          congr 1
          refine Finset.sum_congr rfl fun j hj => ?_
          by_cases hne : e.problem.a.coeff i j = 0
          · rw [hne, zero_mul, zero_mul]
          · rw [hcolumn j (Finset.mem_range.1 hj) hne]
  have hsplit : ∀ j, (e.problem.a.coeff i j * if e.set.colAt j = .free then
      (∑ k ∈ Finset.range e.problem.nrows, e.problem.a.coeff k j * dir k) +
        (coord e.work.c j - coord e.work.cold j) else 0) =
      (e.problem.a.coeff i j * if e.set.colAt j = .free then
        ∑ k ∈ Finset.range e.problem.nrows, e.problem.a.coeff k j * dir k else 0) +
      e.problem.a.coeff i j * if e.set.colAt j = .free then coord e.work.c j - coord e.work.cold j else 0 := fun j => by
    split_ifs <;> ring
  have hgradient : e'.gradientAt i = e.gradientAt i := by rw [he']; rfl
  have hhessian : e'.hessianAt dir i = e.hessianAt dir i := by rw [he']; rfl
  rw [hgradient, hhessian, gradientAt, hessianAt, hrhs, Finset.sum_congr rfl fun j _ => hsplit j,
    Finset.sum_add_distrib, mul_add]
  ring

end Newton

end Engine

namespace LineSearch

variable {s s' : LineSearch K}

/-- Each event is noted as a change. -/
theorem Walks.eq_or_changed (hw : Walks s s') : s' = s ∨ s'.changed = true := by
  cases hw with
  | refl => exact .inl rfl
  | tail _ hstep =>
      obtain ⟨id, key, hevent⟩ := hstep
      obtain ⟨heap, s₁, -, -, -, rfl⟩ := hevent.commit
      exact .inr rfl

/-- A search without an event takes the full step, if its slope is its curvature. -/
theorem Finishes.full_step {flag : LineFlag} (hf : Finishes s flag s') (hslope : 0 < s.slope)
    (hcurvature : s.curvature = s.slope) (hstep : s.step = 0) (hunchanged : s'.changed = false) :
    s'.engine = s.engine ∧ min 1 s'.step = 1 := by
  have hfull : s.step + s.slope / s.curvature = 1 := by rw [hstep, hcurvature, div_self hslope.ne', zero_add]
  cases hf with
  | full _ => exact ⟨rfl, min_self 1⟩
  | walk hwalks hends =>
      rename_i s₁
      have hstart : s₁ = s := by
        refine hwalks.eq_or_changed.resolve_right fun hchanged => ?_
        have hsame : s'.changed = s₁.changed := by cases hends <;> rfl
        rw [← hsame, hunchanged] at hchanged
        cases hchanged
      subst hstart
      cases hends with
      | nondifferentiable hle => exact absurd hslope (not_lt.2 hle)
      | degenerate _ hle => exact absurd (hcurvature ▸ hslope) (not_lt.2 hle)
      | interior _ _ _ =>
          refine ⟨rfl, ?_⟩
          dsimp only
          rw [hfull, min_self]
      | budget _ _ _ _ _ => exact ⟨rfl, min_self 1⟩

end LineSearch

namespace Engine

variable {e e' : Engine K} {job : Job} {out : LineOutcome K} {i : ℕ}

/-- After a search without an event along the Newton direction the job is stationary. -/
theorem Searched.stationary (hp : e.problem.Accepted) (hjob : job.Covers e.problem.tree) (hsigma : 0 < e.sigma)
    (hstop : job.rows.stop ≤ e.problem.nrows) (hcols : job.cols.stop ≤ e.problem.ncols)
    (hnewton : ∀ i ∈ e.jobRows job, e.gradientAt i = e.hessianAt (e.directionAt job.rows) i)
    (h : e.Searched job.rows job.cols out e') (hunchanged : out.changed = false) :
    e'.set = e.set ∧ ∀ i ∈ e.jobRows job, e'.gradientAt i = 0 := by
  have hslope : ∀ e₁, e.HasDirections job.rows job.cols e₁ → e₁.slopeAt job.rows job.cols =
      ∑ i ∈ Finset.range e.problem.nrows, e.directionAt job.rows i * e.hessianAt (e.directionAt job.rows) i ∧
      e₁.curvatureAt job.rows job.cols = e₁.slopeAt job.rows job.cols := by
    intro e₁ hd
    have ha := hd.aligned hp hjob
    obtain ⟨pa, rfl, -⟩ := hd
    have hsum := ha.slopeAt_eq hstop hcols
    have hsum' : Engine.slopeAt { e with work := { e.work with pa := pa } } job.rows job.cols =
        ∑ i ∈ Finset.range e.problem.nrows, e.directionAt job.rows i * e.hessianAt (e.directionAt job.rows) i := by
      refine hsum.trans (Finset.sum_congr rfl fun i _ => ?_)
      by_cases hi : i ∈ e.jobRows job
      · exact congrArg (e.directionAt job.rows i * ·) (hnewton i hi)
      · exact (congrArg (· * _) (directionAt_of_notMem hi)).trans
          ((zero_mul _).trans ((congrArg (· * _) (directionAt_of_notMem hi)).trans (zero_mul _)).symm)
    exact ⟨hsum', (ha.curvatureAt_eq hstop hcols).trans hsum'.symm⟩
  cases h with
  | flat hd hflat =>
      rw [(hslope e' hd).1] at hflat
      have hzero : ∀ i < e.problem.nrows, e.directionAt job.rows i = 0 := fun i hi =>
        eq_zero_of_sum_hessianAt hsigma hflat hi
      obtain ⟨pa, rfl, -⟩ := hd
      refine ⟨rfl, fun i hi => (hnewton i hi).trans (hessianAt_eq_zero hzero ?_)⟩
      exact (mem_jobRows.1 hi).2.2.trans_le hstop
  | moved hd hpos hc hfinishes hadvanced =>
      rename_i e₁ e₂ s flag
      obtain ⟨hengine, hstep⟩ := hfinishes.full_step hpos (hslope e₁ hd).2 rfl hunchanged
      rw [hengine, hstep] at hadvanced
      have ha := (hd.aligned hp hjob).of_hasCandidates hc
      have hgradient := fun i => ha.gradientAt_advanced hadvanced i
      obtain ⟨pa, rfl, -⟩ := hd
      obtain ⟨heap, rfl, -⟩ := hc
      obtain ⟨dlambda, c, rfl, -⟩ := hadvanced
      refine ⟨rfl, fun i hi => ?_⟩
      rw [hgradient i, one_mul, sub_eq_zero]
      exact hnewton i hi

end Engine

end PolyProjection
