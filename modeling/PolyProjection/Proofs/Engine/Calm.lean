import Mathlib
import PolyProjection.Proofs.Engine.Ascending
import PolyProjection.Proofs.Engine.Increments

/-! When nothing happens. A search along a Newton direction has an event exactly if something comes to its break before
the full step, and a job of a run that has changed nothing so far changes nothing exactly if its block is uneventful at
the start of the run. -/

namespace PolyProjection

set_option linter.unusedSectionVars false

variable {K : Type} [Field K] [LinearOrder K] [IsStrictOrderedRing K]

namespace LineSearch

variable {s s' : LineSearch K}

/-- Without candidates there is no event. -/
theorem Walks.eq_of_empty (hw : Walks s s') (hnone : ∀ c, s.engine.heap.keyAt c = none) : s' = s := by
  rcases Relation.ReflTransGen.cases_head hw with rfl | ⟨s₁, ⟨id, key, hevent⟩, -⟩
  · rfl
  · have hfirst := hevent.first.1
    rw [hnone id] at hfirst
    cases hfirst

/-- A search whose slope is its curvature has an event exactly if it has a candidate. -/
theorem Finishes.unchanged_iff {flag : LineFlag} (hf : Finishes s flag s') (hslope : 0 < s.slope)
    (hcurvature : s.curvature = s.slope) (hstep : s.step = 0) (hstart : s.changed = false)
    (hnear : ∀ c v, s.engine.heap.keyAt c = some v → v < 1) :
    s'.changed = false ↔ ∀ c, s.engine.heap.keyAt c = none := by
  have hfull : s.step + s.slope / s.curvature = 1 := by rw [hstep, hcurvature, div_self hslope.ne', zero_add]
  have hless : ∀ c v, s.engine.heap.keyAt c = some v → ¬1 ≤ max 0 v := fun c v hv =>
    not_le.2 (max_lt zero_lt_one (hnear c v hv))
  cases hf with
  | full hnone => exact ⟨fun _ => hnone, fun _ => hstart⟩
  | walk hwalks hends =>
      rename_i s₁
      have hsame : s'.changed = s₁.changed := by cases hends <;> rfl
      constructor
      · intro hunchanged
        obtain rfl : s₁ = s := by
          apply hwalks.eq_or_changed.resolve_right
          rw [← hsame, hunchanged]
          exact Bool.false_ne_true
        intro c
        cases hv : s₁.engine.heap.keyAt c with
        | none => rfl
        | some v =>
            cases hends with
            | nondifferentiable hle => exact absurd hslope (not_lt.2 hle)
            | degenerate _ hle => exact absurd (hcurvature ▸ hslope) (not_lt.2 hle)
            | interior _ _ hahead =>
                rw [hfull] at hahead
                exact absurd ((hahead c v hv).elim id id) (hless c v hv)
            | budget _ _ _ hahead _ => exact absurd (hahead c v hv) (hless c v hv)
      · intro hnone
        rw [hsame, hwalks.eq_of_empty hnone]
        exact hstart

end LineSearch

namespace Engine

variable {e f f' g g' : Engine K} {s : Fill} {free act : ℕ → Bool} {rows cols : IndexRange} {out : LineOutcome K}
  {job job' : Job} {jobs jobs' : List Job} {st : ColumnStatus} {c p : K} {i j : ℕ}

section Candidates

theorem break_lt_one_iff (hmoves : movesInwards st p = true) : -c / p < 1 ↔ ¬st.Beyond (c + p) := by
  cases st with
  | free => cases hmoves
  | atLower =>
      have hp : 0 < p := of_decide_eq_true hmoves
      rw [div_lt_one hp, neg_lt_iff_pos_add, add_comm, ColumnStatus.Beyond, not_le]
  | atUpper =>
      have hp : p < 0 := of_decide_eq_true hmoves
      rw [div_lt_one_of_neg hp, lt_neg_iff_add_neg, add_comm, ColumnStatus.Beyond, not_le]

theorem columnBreak?_eq_none_iff : g.columnBreak? j = none ↔ (movesInwards (g.set.colAt j) (coord g.work.pa j) = true →
    (g.set.colAt j).Beyond (coord g.work.c j + coord g.work.pa j)) := by
  rw [columnBreak?, ite_eq_right_iff]
  constructor
  · intro hnone hmoves
    by_contra hbeyond
    cases hnone ⟨hmoves, (break_lt_one_iff hmoves).2 hbeyond⟩
  · rintro hbeyond ⟨hmoves, hlt⟩
    exact absurd (hbeyond hmoves) ((break_lt_one_iff hmoves).1 hlt)

theorem rowBreak?_eq_none_iff (hact : (g.set.rowAt i).isActive = true) (hside : (g.set.rowAt i).Admits (g.dual i)) :
    g.rowBreak? i = none ↔ (g.set.rowAt i).Admits (g.dual i + coord g.work.t i) := by
  rw [rowBreak?, zeroStep, ite_eq_right_iff, ← dual]
  cases hst : g.set.rowAt i with
  | equality => simp [movesToZero, RowStatus.Admits]
  | atLower =>
      rw [hst] at hside
      replace hside : 0 ≤ g.dual i := hside
      simp only [movesToZero, RowStatus.Admits, decide_eq_true_eq, reduceCtorEq, imp_false, not_and]
      constructor
      · intro hnone
        by_contra hout
        have ht : coord g.work.t i < 0 := by linarith
        exact hnone ht ((div_lt_one_of_neg ht).2 (by linarith))
      · intro hin ht hlt
        rw [div_lt_one_of_neg ht] at hlt
        linarith
  | atUpper =>
      rw [hst] at hside
      replace hside : g.dual i ≤ 0 := hside
      simp only [movesToZero, RowStatus.Admits, decide_eq_true_eq, reduceCtorEq, imp_false, not_and]
      constructor
      · intro hnone
        by_contra hout
        have ht : 0 < coord g.work.t i := by linarith
        exact hnone ht ((div_lt_one ht).2 (by linarith))
      · intro hin ht hlt
        rw [div_lt_one ht] at hlt
        linarith
  | dropped =>
      rw [hst] at hact
      cases hact

/-- There is no candidate exactly if nothing comes to its break before the full step. -/
theorem HasCandidates.none_iff (hc : g.HasCandidates rows cols g') (hcols : cols.stop ≤ g.problem.ncols) :
    (∀ c, g'.heap.keyAt c = none) ↔ (∀ i, rows.start ≤ i ∧ i < rows.stop ∧ (g.set.rowAt i).isActive = true →
      g.rowBreak? i = none) ∧ ∀ j, cols.start ≤ j ∧ j < cols.stop → g.columnBreak? j = none := by
  obtain ⟨heap, rfl, -, hcolumn, hrow⟩ := hc
  dsimp only
  constructor
  · intro hnone
    constructor
    · intro i hi
      rw [← hnone (g.problem.ncols + i), hrow, if_pos hi]
    · intro j hj
      rw [← hnone j, hcolumn j (hj.2.trans_le hcols), if_pos hj]
  · rintro ⟨hrows, hcolumns⟩ c
    by_cases hlt : c < g.problem.ncols
    · rw [hcolumn c hlt]
      split_ifs with hj
      · exact hcolumns c hj
      · rfl
    · obtain ⟨i, rfl⟩ : ∃ i, c = g.problem.ncols + i := ⟨c - g.problem.ncols, by omega⟩
      rw [hrow]
      split_ifs with hi
      · exact hrows i hi
      · rfl

end Candidates

/-- There is no candidate exactly if the full step leaves the multipliers on their sides and the columns that move
inwards beyond their bounds. -/
theorem HasCandidates.none_iff_of_directions (hd : g.HasDirections job.rows job.cols f)
    (hc : f.HasCandidates job.rows job.cols f') (hcols : job.cols.stop ≤ g.problem.ncols) (hf : g.DualFeasible) :
    (∀ c, f'.heap.keyAt c = none) ↔
      (∀ i ∈ g.jobRows job, (g.set.rowAt i).Admits (g.dual i + g.directionAt job.rows i)) ∧
      ∀ j, job.cols.start ≤ j ∧ j < job.cols.stop →
        movesInwards (g.set.colAt j) (∑ i ∈ Finset.range g.problem.nrows, g.problem.a.coeff i j * g.directionAt job.rows i) →
          (g.set.colAt j).Beyond (coord g.work.c j +
            ∑ i ∈ Finset.range g.problem.nrows, g.problem.a.coeff i j * g.directionAt job.rows i) := by
  obtain ⟨pa, rfl, hpa⟩ := hd
  have hrow : ∀ i, (g.set.rowAt i).isActive = true →
      (rowBreak? { g with work := { g.work with pa := pa } } i = none ↔
        (g.set.rowAt i).Admits (g.dual i + coord g.work.t i)) := fun i hact =>
    rowBreak?_eq_none_iff (g := { g with work := { g.work with pa := pa } }) hact (hf.on_side i)
  rw [hc.none_iff hcols]
  refine and_congr ?_ (forall_congr' fun j => forall_congr' fun hj => ?_)
  · constructor
    · intro hnone i hi
      obtain ⟨hact, hin⟩ := mem_jobRows.1 hi
      rw [directionAt, if_pos ⟨hin.1, hin.2, hact⟩]
      exact (hrow i hact).1 (hnone i ⟨hin.1, hin.2, hact⟩)
    · intro hadmits i hi
      have hside := hadmits i (mem_jobRows.2 ⟨hi.2.2, hi.1, hi.2.1⟩)
      rw [directionAt, if_pos hi] at hside
      exact (hrow i hi.2.2).2 hside
  · rw [columnBreak?_eq_none_iff]
    dsimp only
    rw [hpa j, if_pos hj]

/-- A search along a Newton direction changes nothing exactly if with the full step every multiplier is on the side of its
row and every column that moves inwards is still beyond its bound. -/
theorem unchanged_iff_of_lineSearch (hp : g.problem.Accepted) (hjob : job.Covers g.problem.tree) (hr : g.Regular)
    (hf : g.DualFeasible) (hsigma : 0 < g.sigma)
    (hnewton : ∀ i ∈ g.jobRows job, g.gradientAt i = g.hessianAt (g.directionAt job.rows) i)
    (hok : g.lineSearch job.rows job.cols = .ok (out, g')) : out.changed = false ↔
      (∀ i ∈ g.jobRows job, (g.set.rowAt i).Admits (g.dual i + g.directionAt job.rows i)) ∧
      ∀ j, job.cols.start ≤ j ∧ j < job.cols.stop →
        movesInwards (g.set.colAt j) (∑ i ∈ Finset.range g.problem.nrows, g.problem.a.coeff i j * g.directionAt job.rows i) →
          (g.set.colAt j).Beyond (coord g.work.c j +
            ∑ i ∈ Finset.range g.problem.nrows, g.problem.a.coeff i j * g.directionAt job.rows i) := by
  obtain ⟨hrows, hcols⟩ := hp.job_stop hjob
  have hequal := slopeAfter_eq_curvatureAlong hnewton
  rcases hr.lineSearch_cases hrows hok with ⟨hd, hflat, rfl⟩ | ⟨s₀, s', flag, hstarts, hfinishes, -, rfl⟩
  · -- the direction is zero
    obtain ⟨hslope, -⟩ := hd.slope_eq hp hjob
    rw [hslope, hequal] at hflat
    have hzero : ∀ i < g.problem.nrows, g.directionAt job.rows i = 0 := fun i =>
      eq_zero_of_sum_hessianAt hsigma hflat
    have hcolumn : ∀ j, ∑ i ∈ Finset.range g.problem.nrows, g.problem.a.coeff i j * g.directionAt job.rows i = 0 := by
      intro j
      apply Finset.sum_eq_zero
      intro i hi
      rw [hzero i (Finset.mem_range.1 hi), mul_zero]
    refine ⟨fun _ => ⟨fun i hi => ?_, fun j _ hmoves => ?_⟩, fun _ => rfl⟩
    · rw [hzero i (hr.row_lt (mem_jobRows.1 hi).1), add_zero]
      exact hf.on_side i
    · rw [hcolumn] at hmoves
      exact absurd rfl (ne_zero_of_movesInwards hmoves)
  · have hpos : 0 < s₀.slope := by
      obtain ⟨_, -, -, hpos, -⟩ := hstarts
      exact hpos
    obtain ⟨hslope, hcurvature⟩ := hstarts.slope_eq hp hjob hr
    obtain ⟨e₁, e₂, hd, -, hc, rfl⟩ := hstarts.spec hr hrows
    rw [show s'.changed = false ↔ _ from hfinishes.unchanged_iff hpos (hcurvature.trans (hequal.symm.trans hslope.symm)) rfl
      rfl fun c v => hc.lt_one]
    exact hc.none_iff_of_directions hd hcols hf

/-- The part of a vector in the rows of a range. -/
def onRows (rows : IndexRange) (z : ℕ → K) (i : ℕ) : K :=
  if rows.start ≤ i ∧ i < rows.stop then z i else 0

/-- A job whose turn has come in a run that has changed nothing so far: the rows below its block are stationary, and its
own rows have not moved. -/
structure Awaits (s : Fill) (free act : ℕ → Bool) (e g : Engine K) (job : Job) : Prop extends Resumes e g where
  due : Due s free act g job
  below : ∀ i ∈ g.jobRows job, e.problem.tree.blockOfRow i ≠ job.block → g.gradientAt i = 0
  own : ∀ i, e.problem.tree.blockOfRow i = job.block → coord g.dlambda i = 0

section Job

variable (hp : e.problem.Accepted) (hjob : job.Covers e.problem.tree)

include hp hjob

theorem mem_rowsUpTo_iff : i ∈ e.rowsUpTo job.block ↔ job.rows.start ≤ i ∧ i < job.rows.stop :=
  ((hp.tree.1.tested.mem_subtreeRows hjob.1).2 i).symm

theorem Awaits.sum_onRows (h : Awaits s free act e g job) (hj : job.cols.start ≤ j ∧ j < job.cols.stop) :
    ∑ i ∈ Finset.range e.problem.nrows, e.problem.a.coeff i j * onRows job.rows (coord g.dlambda) i =
      ∑ i ∈ Finset.range e.problem.nrows, e.problem.a.coeff i j * coord g.dlambda i := by
  apply Finset.sum_congr rfl
  intro i _
  rw [onRows]
  split_ifs with hi
  · rfl
  · by_cases hmeets : e.problem.a.coeff i j = 0
    · rw [hmeets, zero_mul, zero_mul]
    · rw [h.due.outer i hi j hj (h.problem ▸ hmeets)]

/-- The increments so far are those of the blocks below. -/
theorem Awaits.increments (h : Awaits s free act e g job) :
    e.Increments (e.rowsBelow job.block) (onRows job.rows (coord g.dlambda)) where
  outside i hi := by
    rw [onRows]
    split_ifs with hin
    · rcases hi with hout | hdropped
      · apply h.own
        by_contra hne
        exact hout ⟨(mem_rowsUpTo_iff hp hjob).2 hin, hne⟩
      · rw [← h.rowAt] at hdropped
        exact (h.healthy.feasible.dropped i (ActiveSet.isActive_eq_false_iff.1 hdropped)).2
    · rfl
  stationary i hi hact := by
    have hin := (mem_rowsUpTo_iff hp hjob).1 hi.1
    have hzero := h.below i (mem_jobRows.2 ⟨(h.rowAt i).symm ▸ hact, hin⟩) hi.2
    rw [h.gradientAt_eq hact, sub_eq_zero] at hzero
    rw [hzero]
    apply hessianAt_congr
    · rw [onRows, if_pos hin]
    · intro j hj
      apply h.sum_onRows hp hjob
      by_contra hout
      exact hj (hp.coeff_eq_zero hjob hin hout)

/-- With a Newton direction they become those of the block. -/
theorem Awaits.increments_upTo (h : Awaits s free act e g job) (hf : Resumes e f) (hsame : f.dlambda = g.dlambda)
    (hnewton : ∀ i ∈ f.jobRows job, f.gradientAt i = f.hessianAt (f.directionAt job.rows) i) :
    e.Increments (e.rowsUpTo job.block) fun i => onRows job.rows (coord g.dlambda) i + f.directionAt job.rows i where
  outside i hi := by
    have hout : i ∉ f.jobRows job := by
      intro hmem
      obtain ⟨hact, hin⟩ := mem_jobRows.1 hmem
      rcases hi with hi | hi
      · exact hi ((mem_rowsUpTo_iff hp hjob).2 hin)
      · rw [← hf.rowAt, hact] at hi
        cases hi
    rw [directionAt_of_notMem hout, add_zero]
    apply (h.increments hp hjob).outside
    exact hi.imp_left fun hi hbelow => hi hbelow.1
  stationary i hi hact := by
    have hin := (mem_rowsUpTo_iff hp hjob).1 hi
    have hstep := hnewton i (mem_jobRows.2 ⟨(hf.rowAt i).symm ▸ hact, hin⟩)
    rw [hf.gradientAt_eq hact, hf.hessianAt_eq, hsame] at hstep
    have hinner : e.hessianAt (onRows job.rows (coord g.dlambda)) i = e.hessianAt (coord g.dlambda) i := by
      apply hessianAt_congr
      · rw [onRows, if_pos hin]
      · intro j hj
        apply h.sum_onRows hp hjob
        by_contra hout
        exact hj (hp.coeff_eq_zero hjob hin hout)
    rw [hessianAt_add, hinner]
    linear_combination -hstep

/-- The columns of a job with the full step. -/
theorem Awaits.columnValue_eq (h : Awaits s free act e g job) (hf : Resumes e f) (hsame : f.dlambda = g.dlambda)
    (hj : job.cols.start ≤ j ∧ j < job.cols.stop) :
    e.problem.columnValue j (fun i => e.startDual i + (onRows job.rows (coord g.dlambda) i + f.directionAt job.rows i)) =
      coord f.work.reference j + (coord f.work.c j +
        ∑ i ∈ Finset.range e.problem.nrows, e.problem.a.coeff i j * f.directionAt job.rows i) := by
  have hlt : j < f.problem.ncols := by
    rw [hf.problem]
    exact hj.2.trans_le (hp.job_stop hjob).2
  have hinner := h.sum_onRows hp hjob hj
  rw [← add_assoc, hf.healthy.balanced.column j hlt, hf.problem, Problem.columnValue, Problem.columnValue, add_assoc,
    ← hsame]
  congr 1
  simp only [hf.lambda, mul_add, Finset.sum_add_distrib]
  rw [hsame, hinner, add_assoc]

omit hp hjob in
theorem Increments.uneventful_iff (hr : e.Regular) (hsigma : 0 < e.sigma) {w u : ℕ → K} {k : ℕ}
    (hw : e.Increments (e.rowsBelow k) w) (hu : e.Increments (e.rowsUpTo k) u) : e.Uneventful k ↔
      (∀ i, (e.set.rowAt i).Admits (e.startDual i + u i)) ∧
      ∀ j < e.problem.ncols, movesInwards (e.set.colAt j)
          (∑ i ∈ Finset.range e.problem.nrows, e.problem.a.coeff i j * (u i - w i)) = true →
        (e.set.colAt j).Admits (e.problem.loAt j) (e.problem.hiAt j)
          (e.problem.columnValue j fun i => e.startDual i + u i) := by
  constructor
  · intro h
    exact h w u hw hu
  · intro h w' u' hw' hu'
    rw [hw'.unique hr hsigma hw, hu'.unique hr hsigma hu]
    exact h

/-- A direction of the job does not move the columns outside. -/
theorem sum_directionAt_of_notMem (f : Engine K) (hout : ¬(job.cols.start ≤ j ∧ j < job.cols.stop)) :
    ∑ i ∈ Finset.range e.problem.nrows, e.problem.a.coeff i j * f.directionAt job.rows i = 0 := by
  apply Finset.sum_eq_zero
  intro i _
  by_cases hi : i ∈ f.jobRows job
  · rw [hp.coeff_eq_zero hjob (mem_jobRows.1 hi).2 hout, zero_mul]
  · rw [directionAt_of_notMem hi, mul_zero]

section Search

variable (h : Awaits s free act e g job) (hf : Resumes e f) (hsame : f.dlambda = g.dlambda)

include h hf hsame

/-- The full step of a search leaves its rows on their sides exactly if the increments of the block leave all rows so. -/
theorem Awaits.rows_admit_iff
    (hsides : ∀ i, (e.set.rowAt i).isActive = true → (e.set.rowAt i).Admits (e.startDual i))
    (hnewton : ∀ i ∈ f.jobRows job, f.gradientAt i = f.hessianAt (f.directionAt job.rows) i) :
    (∀ i ∈ f.jobRows job, (f.set.rowAt i).Admits (f.dual i + f.directionAt job.rows i)) ↔
      ∀ i, (e.set.rowAt i).Admits
        (e.startDual i + (onRows job.rows (coord g.dlambda) i + f.directionAt job.rows i)) := by
  have hu := h.increments_upTo hp hjob hf hsame hnewton
  constructor
  · intro hrow i
    by_cases hi : i ∈ f.jobRows job
    · have hadmits := hrow i hi
      rw [dual, hf.lambda, hsame, add_assoc, hf.rowAt] at hadmits
      rw [onRows, if_pos (mem_jobRows.1 hi).2]
      exact hadmits
    · have hzero := hu.outside i (by
        rw [mem_rowsUpTo_iff hp hjob, ← hf.rowAt, ← Bool.not_eq_true, ← not_and_or, and_comm, ← mem_jobRows]
        exact hi)
      rw [hzero, add_zero]
      exact admits_startDual hsides i
  · intro hrow i hi
    have hadmits := hrow i
    rw [onRows, if_pos (mem_jobRows.1 hi).2] at hadmits
    rw [dual, hf.lambda, hsame, add_assoc, hf.rowAt]
    exact hadmits

/-- The full step of a search leaves a column of the job beyond its bound exactly if the bound admits its value. -/
theorem Awaits.column_admits_iff (hin : job.cols.start ≤ j ∧ j < job.cols.stop) :
    (e.set.colAt j).Admits (e.problem.loAt j) (e.problem.hiAt j) (e.problem.columnValue j fun i =>
      e.startDual i + (onRows job.rows (coord g.dlambda) i + f.directionAt job.rows i)) ↔
    (e.set.colAt j).Beyond (coord f.work.c j +
      ∑ i ∈ Finset.range e.problem.nrows, e.problem.a.coeff i j * f.directionAt job.rows i) := by
  have hj : j < f.problem.ncols := hf.problem.symm ▸ hin.2.trans_le (hp.job_stop hjob).2
  rw [h.columnValue_eq hp hjob hf hsame hin, ← hf.colAt, ← hf.problem,
    admits_iff_beyond hf.healthy.sound.regular hf.anchored hj]

/-- A search of a run that has changed nothing so far changes nothing exactly if the block is uneventful. -/
theorem Awaits.search_iff (hr : e.Regular)
    (hsides : ∀ i, (e.set.rowAt i).isActive = true → (e.set.rowAt i).Admits (e.startDual i))
    (hnewton : ∀ i ∈ f.jobRows job, f.gradientAt i = f.hessianAt (f.directionAt job.rows) i)
    (hok : f.lineSearch job.rows job.cols = .ok (out, f')) : out.changed = false ↔ e.Uneventful job.block := by
  have hsigma : 0 < e.sigma := h.sigma ▸ h.due.fits.sigma_pos
  have hu := h.increments_upTo hp hjob hf hsame hnewton
  rw [(h.increments hp hjob).uneventful_iff hr hsigma hu,
    unchanged_iff_of_lineSearch (hf.problem.symm ▸ hp) (hf.problem.symm ▸ hjob) hf.healthy.sound.regular
      hf.healthy.feasible (hf.sigma.symm ▸ hsigma) hnewton hok]
  apply and_congr (h.rows_admit_iff hp hjob hf hsame hsides hnewton)
  simp only [add_sub_cancel_left, hf.problem, hf.colAt]
  constructor
  · intro hcolumn j _ hmoves
    by_cases hin : job.cols.start ≤ j ∧ j < job.cols.stop
    · exact (h.column_admits_iff hp hjob hf hsame hin).2 (hcolumn j hin hmoves)
    · rw [sum_directionAt_of_notMem hp hjob f hin] at hmoves
      exact absurd rfl (ne_zero_of_movesInwards hmoves)
  · intro hcolumn j hin hmoves
    exact (h.column_admits_iff hp hjob hf hsame hin).1 (hcolumn j (hin.2.trans_le (hp.job_stop hjob).2) hmoves)

end Search

/-- A block without active rows in its subtree is uneventful. -/
theorem uneventful_of_idle (hsides : ∀ i, (e.set.rowAt i).isActive = true → (e.set.rowAt i).Admits (e.startDual i))
    (hidle : ∀ i, job.rows.start ≤ i ∧ i < job.rows.stop → (e.set.rowAt i).isActive = false) :
    e.Uneventful job.block := by
  intro w u hw hu
  have hzero : ∀ i, u i = 0 := by
    intro i
    apply hu.outside
    rw [mem_rowsUpTo_iff hp hjob]
    exact (em _).symm.imp_right (hidle i)
  have hzero' : ∀ i, w i = 0 := by
    intro i
    apply hw.outside
    by_cases hi : i ∈ e.rowsUpTo job.block
    · exact .inr (hidle i ((mem_rowsUpTo_iff hp hjob).1 hi))
    · exact .inl fun hbelow => hi hbelow.1
  constructor
  · intro i
    rw [hzero, add_zero]
    exact admits_startDual hsides i
  · intro j _ hmoves
    simp only [hzero, hzero', sub_zero, mul_zero, Finset.sum_const_zero] at hmoves
    exact absurd rfl (ne_zero_of_movesInwards hmoves)

/-- A job of a run that has changed nothing so far changes nothing exactly if its block is uneventful. -/
theorem Awaits.processJob (h : Awaits s free act e g job) (hr : e.Regular)
    (hsides : ∀ i, (e.set.rowAt i).isActive = true → (e.set.rowAt i).Admits (e.startDual i))
    (hok : g.processJob job = .ok (job', g')) : (job'.changed = false ↔ e.Uneventful job.block) ∧
      (job'.changed = false → Resumes e g') := by
  have hpg : g.problem.Accepted := h.problem.symm ▸ hp
  have hjobg : job.Covers g.problem.tree := h.problem.symm ▸ hjob
  have hs := h.healthy.sound
  have hstop := (hpg.job_stop hjobg).1
  rcases of_processJob hok with ⟨hmeets, rfl, rfl⟩ |
    ⟨-, f₁, f₂, f₃, f₄, out, h₁, hsolve, h₂, hsearch, h₃, rfl⟩
  · rw [hs.meets_ok hstop, Except.ok.injEq, Option.isSome_eq_false_iff, Option.isNone_iff_eq_none,
      List.head?_eq_none_iff] at hmeets
    refine ⟨⟨fun _ => uneventful_of_idle hp hjob hsides fun i hi => ?_, fun _ => rfl⟩, fun _ => h.toResumes⟩
    rw [← h.rowAt, Bool.eq_false_iff]
    intro hact
    have hmem := ActiveSet.mem_activeBetween.2 ⟨hact, hi⟩
    rw [hmeets] at hmem
    cases hmem
  · have hq₁ := h₁.quiet
    obtain ⟨f₂', hsolve', -, -, -, -, hnewton⟩ := (hq₁.due hpg hjobg h.due).solveJob_ok
      (hq₁.sameState.problem.symm ▸ hpg) (hq₁.sameState.problem.symm ▸ hjobg) (hq₁.sameState.sound hs)
    obtain rfl := Except.ok.inj (hsolve'.symm.trans hsolve)
    obtain ⟨hhealthy, hnewton⟩ := hnewton (hq₁.sameState.healthy h.healthy)
    have hsame : f₃.dlambda = g.dlambda := by
      obtain ⟨_, _, _, _, rfl⟩ := of_solveJob hsolve
      exact h₂.quiet.sameState.dlambda.trans hq₁.sameState.dlambda
    have hfrozen : Frozen g f₃ :=
      (hq₁.sameState.frozen.trans ((RunStep.solve hsolve).frozen (hq₁.sameState.regular hs.regular))).trans
        h₂.quiet.sameState.frozen
    have hresumes : Resumes e f₃ := h.trans_of_frozen hfrozen
      ((h₁.untouched.trans (untouched_of_solveJob hsolve)).trans h₂.untouched) (h₂.quiet.sameState.healthy hhealthy)
    have hnewton₃ : ∀ i ∈ f₃.jobRows job, f₃.gradientAt i = f₃.hessianAt (f₃.directionAt job.rows) i := by
      obtain ⟨⟨_, _, _, _, _, rfl⟩, -⟩ := h₂
      exact hnewton
    have hr₃ := hresumes.healthy.sound.regular
    have hsearched := hr₃.of_lineSearch (hfrozen.problem.symm ▸ hstop) hsearch
    refine ⟨h.search_iff hp hjob hresumes hsame hr hsides hnewton₃ hsearch, fun hunchanged => ?_⟩
    have hhealthy' := ((h.due.processJob hpg hjobg hs hok).2.2.2 h.healthy).1
    exact hresumes.trans_of_frozen ((hsearched.frozen hr₃).trans h₃.quiet.sameState.frozen)
      ((hsearched.untouched hunchanged).trans h₃.untouched) hhealthy'

end Job

section Jobs

variable (hp : e.problem.Accepted)

include hp

/-- The work on another job leaves a job waiting, if it has changed nothing. -/
theorem Awaits.of_confined {other : Job} (h : Awaits s free act e g job) (hjob : job.Covers e.problem.tree)
    (hother : other.Covers e.problem.tree) (hseparate : job.Separate other)
    (hconfined : Confined other.rows.indices other.cols.indices g g') (hresumes : Resumes e g') :
    Awaits s free act e g' job := by
  have hpg : g.problem.Accepted := h.problem.symm ▸ hp
  have hjobg : job.Covers g.problem.tree := h.problem.symm ▸ hjob
  have hotherg : other.Covers g.problem.tree := h.problem.symm ▸ hother
  have hagree := hconfined.agreeOn hpg hjobg hseparate.1 hseparate.2
  have hrow : ∀ i, g'.set.rowAt i = g.set.rowAt i := fun i => (hresumes.rowAt i).trans (h.rowAt i).symm
  refine ⟨hresumes, hconfined.due hpg hjobg hotherg hseparate h.due, fun i hi hne => ?_, fun i hi => ?_⟩
  · obtain ⟨hact, hin⟩ := mem_jobRows.1 hi
    rw [hagree.gradientAt_eq hpg hjobg hin]
    exact h.below i (mem_jobRows.2 ⟨hrow i ▸ hact, hin⟩) hne
  · have hin : i ∈ job.rows.indices := (mem_rowsUpTo_iff hp hjob).1 (hi ▸ .refl)
    rw [dlambda_of_cell (hagree.row i hin)]
    exact h.own i hi

/-- The jobs of a sweep change nothing exactly if their blocks are uneventful. -/
theorem Resumes.processJobs (h : Resumes e g) (hr : e.Regular)
    (hsides : ∀ i, (e.set.rowAt i).isActive = true → (e.set.rowAt i).Admits (e.startDual i))
    (hcovers : ∀ job ∈ jobs, job.Covers e.problem.tree) (hseparate : jobs.Pairwise Job.Separate)
    (hawaits : ∀ job ∈ jobs, Awaits s free act e g job) (hok : g.processJobs jobs = .ok (jobs', g')) :
    ((∀ job ∈ jobs', job.changed = false) ↔ ∀ job ∈ jobs, e.Uneventful job.block) ∧
      ((∀ job ∈ jobs', job.changed = false) → Resumes e g') := by
  induction jobs generalizing g jobs' with
  | nil =>
      rw [Engine.processJobs, pure_eq_ok_iff, Prod.mk.injEq] at hok
      obtain ⟨rfl, rfl⟩ := hok
      exact ⟨by simp, fun _ => h⟩
  | cons job rest ih =>
      rw [Engine.processJobs] at hok
      simp only [bind_eq_ok_iff, pure_eq_ok_iff, Prod.mk.injEq] at hok
      obtain ⟨⟨job₁, g₁⟩, hfirst, ⟨rest₁, g₂⟩, hrest, rfl, rfl⟩ := hok
      rw [List.pairwise_cons] at hseparate
      rw [List.forall_mem_cons] at hcovers hawaits ⊢
      rw [List.forall_mem_cons]
      obtain ⟨hiff, hresumes⟩ := hawaits.1.processJob hp hcovers.1 hr hsides hfirst
      by_cases hunchanged : job₁.changed = false
      · have hconfined := (hawaits.1.due.processJob (h.problem.symm ▸ hp) (h.problem.symm ▸ hcovers.1) h.healthy.sound
          hfirst).1
        obtain ⟨hiff', hresumes'⟩ := ih (hresumes hunchanged) hcovers.2 hseparate.2 (fun other hother =>
          (hawaits.2 other hother).of_confined hp (hcovers.2 other hother) hcovers.1 (hseparate.1 other hother).symm
            hconfined (hresumes hunchanged)) hrest
        exact ⟨and_congr hiff hiff', fun hall => hresumes' hall.2⟩
      · constructor
        · constructor
          · exact fun hall => absurd hall.1 hunchanged
          · exact fun hall => absurd (hiff.2 hall.1) hunchanged
        · exact fun hall => absurd hall.1 hunchanged

end Jobs

end Engine

end PolyProjection
