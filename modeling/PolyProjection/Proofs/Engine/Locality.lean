import Mathlib
import PolyProjection.Proofs.Engine.Deed

/-! What a job does depends on what it can see: its rows and columns, the factor, and which of the other rows that its
columns meet are active. In two states that agree there the same is done, down to the order of the events. -/

namespace PolyProjection

set_option linter.unusedSectionVars false

variable {K : Type} [Field K] [LinearOrder K] [IsStrictOrderedRing K]

namespace Engine

/-- The states agree on all that the work on the job can see. -/
structure Alike (job : Job) (e g : Engine K) : Prop extends AgreeOn job e g where
  factor : g.factor = e.factor
  met : ∀ j ∈ job.cols.indices, ∀ x ∈ e.problem.a.columnEntries j, g.set.rowAt x.1 = e.set.rowAt x.1

/-- The same deed takes `e` to `e'` and `g` to `g'`. -/
def SameDone (e e' g g' : Engine K) : Prop :=
  ∃ d : Deed K, d.Does e e' ∧ d.Does g g'

variable {e e' e'' g g' g'' : Engine K} {job other : Job} {i j : ℕ}

theorem Alike.refl (job : Job) (e : Engine K) : Alike job e e :=
  ⟨⟨rfl, rfl, fun _ _ => rfl, fun _ _ => rfl, fun _ _ => rfl⟩, rfl, fun _ _ _ _ => rfl⟩

theorem Alike.symm (h : Alike job e g) : Alike job g e :=
  ⟨⟨h.problem.symm, h.sigma.symm, fun i hi => (h.row i hi).symm, fun i hi => (h.rhs i hi).symm,
    fun j hj => (h.column j hj).symm⟩, h.factor.symm, fun j hj x hx => (h.met j hj x (h.problem ▸ hx)).symm⟩

theorem SameDone.trans (h : SameDone e e' g g') (h' : SameDone e' e'' g' g'') : SameDone e e'' g g'' := by
  obtain ⟨d, he, hg⟩ := h
  obtain ⟨d', he', hg'⟩ := h'
  exact ⟨_, he.trans he', hg.trans hg'⟩

/-- States stay alike if the same is done to them. -/
theorem SameDone.alike (h : SameDone e e' g g') (ha : Alike job e g) : Alike job e' g' := by
  obtain ⟨d, he, hg⟩ := h
  have hrow : ∀ i, g.set.rowAt i = e.set.rowAt i → g'.set.rowAt i = e'.set.rowAt i := by
    intro i hi
    rw [hg.row, he.row, hi]
  have hvector : ∀ q i, coord (g.vector q) i = coord (e.vector q) i →
      coord (g'.vector q) i = coord (e'.vector q) i := by
    intro q i hi
    rw [hg.shift, he.shift, hi]
  refine ⟨⟨?_, ?_, fun i hi => ?_, fun i hi => hvector .rhs i (ha.rhs i hi), fun j hj => ?_⟩, ?_, fun j hj x hx => ?_⟩
  · rw [hg.problem, he.problem, ha.problem]
  · rw [hg.sigma, he.sigma, ha.sigma]
  · have hcell := ha.row i hi
    simp only [rowCell, RowCell.mk.injEq] at hcell ⊢
    obtain ⟨hstatus, hlambda, hdlambda, hfwd, hu, ht⟩ := hcell
    exact ⟨hrow i hstatus, hvector .lambda i hlambda, hvector .dlambda i hdlambda, hvector .fwd i hfwd,
      hvector .u i hu, hvector .t i ht⟩
  · have hcell := ha.column j hj
    simp only [columnCell, ColumnCell.mk.injEq] at hcell ⊢
    obtain ⟨hstatus, hc, hcold, hpa⟩ := hcell
    refine ⟨?_, hvector .c j hc, hvector .cold j hcold, hvector .pa j hpa⟩
    rw [hg.column, he.column, hstatus]
  · rw [hg.factor, he.factor, ha.factor]
  · rw [he.problem] at hx
    exact hrow x.1 (ha.met j hj x hx)

/-- Only candidates, counts and timers change. -/
theorem sameDone_nothing (e g : Engine K) (heap heap' : BreakHeap K) (stats stats' : Statistics)
    (timers timers' : Timers) : SameDone e { e with heap := heap, stats := stats, timers := timers }
      g { g with heap := heap', stats := stats', timers := timers' } :=
  ⟨_, Deed.does_nothing e heap stats timers, Deed.does_nothing g heap' stats' timers'⟩

theorem SameDone.refl (e g : Engine K) : SameDone e e g g :=
  sameDone_nothing e g e.heap g.heap e.stats g.stats e.timers g.timers

/-- Vectors change, within the rows and columns of the job, so that the states agree again. -/
theorem sameDone_of_agreeOn (h : AgreeOn job e g) (h' : AgreeOn job e' g')
    (hc : Confined job.rows.indices job.cols.indices e e') (hc' : Confined job.rows.indices job.cols.indices g g')
    (hrhs : e'.work.rhs = e.work.rhs ∧ g'.work.rhs = g.work.rhs) (hset : e'.set = e.set ∧ g'.set = g.set)
    (hlog : e'.log = e.log ∧ g'.log = g.log) (hevents : e'.events = e.events ∧ g'.events = g.events) :
    SameDone e e' g g' := by
  have hrow : ∀ (f : RowCell K → K) (i : ℕ), f (g'.rowCell i) =
      f (g.rowCell i) + (f (e'.rowCell i) - f (e.rowCell i)) := by
    intro f i
    by_cases hi : i ∈ job.rows.indices
    · rw [h.row i hi, h'.row i hi]
      ring
    · rw [hc.row i hi, hc'.row i hi]
      ring
  have hcolumn : ∀ (f : ColumnCell K → K) (j : ℕ), f (g'.columnCell j) =
      f (g.columnCell j) + (f (e'.columnCell j) - f (e.columnCell j)) := by
    intro f j
    by_cases hj : j ∈ job.cols.indices
    · rw [h.column j hj, h'.column j hj]
      ring
    · rw [hc.column j hj, hc'.column j hj]
      ring
  refine ⟨⟨fun q i => coord (e'.vector q) i - coord (e.vector q) i, [], [], []⟩, ?_, ?_⟩
  · refine ⟨hc.problem, hc.sigma, hc.factor, hc.reference, fun q i => (add_sub_cancel _ _).symm, fun i => ?_,
      fun j => ?_, ?_, ?_, ?_⟩
    · simp [hset.1]
    · simp [hset.1]
    · simp [hset.1]
    · simp [hlog.1]
    · simp [hevents.1]
  · refine ⟨hc'.problem, hc'.sigma, hc'.factor, hc'.reference, fun q i => ?_, fun i => ?_, fun j => ?_, ?_, ?_, ?_⟩
    · cases q with
      | lambda => exact hrow (·.lambda) i
      | dlambda => exact hrow (·.dlambda) i
      | c => exact hcolumn (·.c) i
      | cold => exact hcolumn (·.cold) i
      | pa => exact hcolumn (·.pa) i
      | rhs =>
          simp only [vector, hrhs.1, hrhs.2]
          ring
      | fwd => exact hrow (·.fwd) i
      | u => exact hrow (·.u) i
      | t => exact hrow (·.t) i
    · simp [hset.2]
    · simp [hset.2]
    · simp [hset.2]
    · simp [hlog.2]
    · simp [hevents.2]

/-- Work on a job that shares no row or column is not seen. -/
theorem Confined.alike (hp : e.problem.Accepted) (hjob : job.Covers e.problem.tree) (hother : other.Covers e.problem.tree)
    (hseparate : job.Separate other) (h : Confined other.rows.indices other.cols.indices g g') (ha : Alike job e g) :
    Alike job e g' := by
  have hp' : g.problem.Accepted := ha.problem ▸ hp
  have hagree := h.agreeOn hp' (ha.problem ▸ hjob) hseparate.1 hseparate.2
  refine ⟨⟨hagree.problem.trans ha.problem, hagree.sigma.trans ha.sigma, fun i hi => ?_, fun i hi => ?_, fun j hj => ?_⟩,
    h.factor.trans ha.factor, fun j hj x hx => ?_⟩
  · exact (hagree.row i hi).trans (ha.row i hi)
  · exact (hagree.rhs i hi).trans (ha.rhs i hi)
  · exact (hagree.column j hj).trans (ha.column j hj)
  · -- a row of the other job is met by columns of that job only
    have hout : x.1 ∉ other.rows.indices := fun hin =>
      Set.disjoint_left.1 hseparate.2 hj (hp.mem_cols_of_mem_rows hother (List.mem_map_of_mem hx) hin)
    exact (rowAt_of_cell (h.row x.1 hout)).trans (ha.met j hj x hx)

section Phases

variable {rows cols : IndexRange} {step : K}

theorem AgreeOn.rowAt (h : AgreeOn job e g) (hi : i ∈ job.rows.indices) : g.set.rowAt i = e.set.rowAt i :=
  rowAt_of_cell (h.row i hi)

theorem AgreeOn.t (h : AgreeOn job e g) (hi : i ∈ job.rows.indices) : coord g.work.t i = coord e.work.t i :=
  congrArg RowCell.t (h.row i hi)

theorem AgreeOn.pa (h : AgreeOn job e g) (hj : j ∈ job.cols.indices) : coord g.work.pa j = coord e.work.pa j :=
  congrArg ColumnCell.pa (h.column j hj)

theorem AgreeOn.activeBetween_eq (h : AgreeOn job e g) :
    g.set.activeBetween job.rows.start job.rows.stop = e.set.activeBetween job.rows.start job.rows.stop := by
  apply eq_of_ascending (ActiveSet.activeBetween_ascending _ _ _) (ActiveSet.activeBetween_ascending _ _ _)
  intro i
  rw [ActiveSet.mem_activeBetween, ActiveSet.mem_activeBetween]
  exact and_congr_left fun hi => by rw [h.rowAt hi]

theorem AgreeOn.directionAt_eq (h : AgreeOn job e g) : g.directionAt job.rows = e.directionAt job.rows := by
  funext i
  rw [directionAt, directionAt]
  by_cases hi : i ∈ job.rows.indices
  · rw [h.rowAt hi, h.t hi]
  · rw [if_neg fun hall => hi ⟨hall.1, hall.2.1⟩, if_neg fun hall => hi ⟨hall.1, hall.2.1⟩]

theorem AgreeOn.slopeAt_eq (h : AgreeOn job e g) : g.slopeAt job.rows job.cols = e.slopeAt job.rows job.cols := by
  rw [slopeAt, slopeAt, h.activeBetween_eq, h.sigma]
  congr 2
  · apply List.map_congr_left
    intro i hi
    have hi : i ∈ job.rows.indices := (ActiveSet.mem_activeBetween.1 hi).2
    rw [h.rhs i hi, dlambda_of_cell (h.row i hi), h.t hi]
  · apply List.map_congr_left
    intro j hj
    have hj : j ∈ job.cols.indices := mem_span.1 hj
    rw [colAt_of_cell (h.column j hj), c_of_cell (h.column j hj), cold_of_cell (h.column j hj), h.pa hj]

theorem AgreeOn.curvatureAt_eq (h : AgreeOn job e g) :
    g.curvatureAt job.rows job.cols = e.curvatureAt job.rows job.cols := by
  rw [curvatureAt, curvatureAt, h.activeBetween_eq, h.sigma]
  congr 2
  · apply List.map_congr_left
    intro i hi
    have hi : i ∈ job.rows.indices := (ActiveSet.mem_activeBetween.1 hi).2
    rw [h.t hi]
  · apply List.map_congr_left
    intro j hj
    have hj : j ∈ job.cols.indices := mem_span.1 hj
    rw [colAt_of_cell (h.column j hj), h.pa hj]

/-- The directions of the columns come out the same. -/
theorem HasDirections.sameDone (ha : Alike job e g) (h : e.HasDirections job.rows job.cols e')
    (h' : g.HasDirections job.rows job.cols g') : SameDone e e' g g' := by
  have hc := h.confined
  have hc' := h'.confined
  obtain ⟨pa, rfl, hpa⟩ := h
  obtain ⟨pa', rfl, hpa'⟩ := h'
  have hagree : AgreeOn job { e with work := { e.work with pa := pa } } { g with work := { g.work with pa := pa' } } := by
    refine ⟨ha.problem, ha.sigma, ha.row, ha.rhs, fun j hj => ?_⟩
    have hcell := ha.column j hj
    simp only [columnCell, ColumnCell.mk.injEq] at hcell ⊢
    refine ⟨hcell.1, hcell.2.1, hcell.2.2.1, ?_⟩
    rw [hpa', hpa, ha.problem, ha.directionAt_eq, hcell.2.2.2]
  exact sameDone_of_agreeOn ha.toAgreeOn hagree hc hc' ⟨rfl, rfl⟩ ⟨rfl, rfl⟩ ⟨rfl, rfl⟩ ⟨rfl, rfl⟩

/-- The step leads to the same. -/
theorem HasAdvanced.sameDone (ha : Alike job e g) (h : e.HasAdvanced job.rows job.cols step e')
    (h' : g.HasAdvanced job.rows job.cols step g') : SameDone e e' g g' := by
  have hc := h.confined
  have hc' := h'.confined
  obtain ⟨dlambda, c, rfl, -, hdlambda, hmoved⟩ := h
  obtain ⟨dlambda', c', rfl, -, hdlambda', hmoved'⟩ := h'
  have hagree : AgreeOn job { e with dlambda := dlambda, work := { e.work with c := c } }
      { g with dlambda := dlambda', work := { g.work with c := c' } } := by
    refine ⟨ha.problem, ha.sigma, fun i hi => ?_, ha.rhs, fun j hj => ?_⟩
    · have hcell := ha.row i hi
      simp only [rowCell, RowCell.mk.injEq] at hcell ⊢
      refine ⟨hcell.1, hcell.2.1, ?_, hcell.2.2.2⟩
      rw [hdlambda', hdlambda, ha.directionAt_eq, hcell.2.2.1]
    · have hcell := ha.column j hj
      simp only [columnCell, ColumnCell.mk.injEq] at hcell ⊢
      refine ⟨hcell.1, ?_, hcell.2.2⟩
      rw [hmoved', hmoved, hcell.2.1, hcell.2.2.2]
  exact sameDone_of_agreeOn ha.toAgreeOn hagree hc hc' ⟨rfl, rfl⟩ ⟨rfl, rfl⟩ ⟨rfl, rfl⟩ ⟨rfl, rfl⟩

/-- The candidates have the same break values. -/
theorem HasCandidates.keyAt_eq (ha : Alike job e g) (h : e.HasCandidates job.rows job.cols e')
    (h' : g.HasCandidates job.rows job.cols g') (c : ℕ) :
    g'.heap.keyAt c = e'.heap.keyAt c := by
  obtain ⟨heap, rfl, -, hcols, hrows⟩ := h
  obtain ⟨heap', rfl, -, hcols', hrows'⟩ := h'
  rw [ha.problem] at hcols' hrows'
  rcases Nat.lt_or_ge c e.problem.ncols with hc | hc
  · dsimp only
    rw [hcols c hc, hcols' c hc]
    by_cases hin : job.cols.start ≤ c ∧ c < job.cols.stop
    · rw [columnBreak?, columnBreak?, colAt_of_cell (ha.column c hin), c_of_cell (ha.column c hin), ha.pa hin]
    · rw [if_neg hin, if_neg hin]
  · obtain ⟨i, rfl⟩ : ∃ i, c = e.problem.ncols + i := ⟨c - e.problem.ncols, by omega⟩
    dsimp only
    rw [hrows, hrows']
    by_cases hin : i ∈ job.rows.indices
    · rw [ha.rowAt hin, rowBreak?, rowBreak?, zeroStep, zeroStep, ha.rowAt hin, ha.t hin,
        lambda_of_cell (ha.row i hin), dlambda_of_cell (ha.row i hin)]
    · rw [if_neg fun hall => hin ⟨hall.1, hall.2.1⟩, if_neg fun hall => hin ⟨hall.1, hall.2.1⟩]

/-- The Newton system of the job has the same solution. -/
theorem sameDone_solved (hs : e.Sound) (hs' : g.Sound) (ha : Alike job e g) {column : ℕ → List ℕ} {l : ℕ → ℕ → K}
    {d : ℕ → K} (hlt : ∀ j, ∀ i ∈ column j, j < i) :
    SameDone e (e.solved job column l d) g (g.solved job column l d) := by
  have hinner : ∀ j ∈ e.set.activeBetween job.rows.start job.rows.stop, job.rows.start ≤ j ∧ j < job.rows.stop :=
    fun j hj => (ActiveSet.mem_activeBetween.1 hj).2
  have hstart : ∀ i, job.rows.start ≤ i → i < job.rows.stop → g.forwardStart job i = e.forwardStart job i := by
    intro i htop hbottom
    rw [forwardStart, forwardStart, ha.rhs i ⟨htop, hbottom⟩, fwd_of_cell (ha.row i ⟨htop, hbottom⟩)]
  have hhalf : ∀ i, job.rows.start ≤ i → i < job.rows.stop →
      g.halfSolution job column l i = e.halfSolution job column l i := by
    intro i htop hbottom
    rw [halfSolution, halfSolution, ha.activeBetween_eq]
    exact LdlFactor.foldl_pass_congr hinner hstart htop hbottom
  have hsolution : ∀ i, job.rows.start ≤ i → i < job.rows.stop →
      g.solution job column l d i = e.solution job column l d i := by
    intro i htop hbottom
    rw [solution, solution, ha.activeBetween_eq]
    exact LdlFactor.foldr_solveRow_congr hlt hinner hhalf
      (fun i htop hbottom => congrArg RowCell.u (ha.row i ⟨htop, hbottom⟩)) htop hbottom
  have hagree : AgreeOn job (e.solved job column l d) (g.solved job column l d) := by
    refine ⟨ha.problem, ha.sigma, fun i hi => ?_, ha.rhs, ha.column⟩
    have hcell := ha.row i hi
    have hnrows : g.problem.nrows = e.problem.nrows := by rw [ha.problem]
    have htable : ∀ f f' : ℕ → K, f' i = f i →
        coord (table g.problem.nrows f') i = coord (table e.problem.nrows f) i := by
      intro f f' hf
      rw [hnrows]
      exact coord_table_eq (size_table _ _) fun hlt => by rw [coord_table f hlt, hf]
    simp only [rowCell, RowCell.mk.injEq] at hcell
    obtain ⟨hstatus, hlambda, hdlambda, -⟩ := hcell
    simp only [rowCell, solved, RowCell.mk.injEq]
    refine ⟨hstatus, hlambda, hdlambda, htable _ _ (hhalf i hi.1 hi.2), htable _ _ (hsolution i hi.1 hi.2),
      htable _ _ ?_⟩
    rw [newtonStep, newtonStep, hstatus, hsolution i hi.1 hi.2, hdlambda, ha.t hi]
  exact sameDone_of_agreeOn ha.toAgreeOn hagree (hs.confined_solved hlt) (hs'.confined_solved hlt) ⟨rfl, rfl⟩ ⟨rfl, rfl⟩
    ⟨rfl, rfl⟩ ⟨rfl, rfl⟩

end Phases

end Engine

/-! ### Events -/

/-- A column leaves its bound. -/
def Deed.freeing (e : Engine K) (j : ℕ) : Deed K where
  shift q i := match q with
    | .rhs => -if (e.set.rowAt i).isActive then e.problem.a.coeff i j * coord e.work.cold j else 0
    | _ => 0
  dropped := []
  freed := [j]
  told := [.columnFreedInSearch j]

/-- A row is dropped at a step. -/
def Deed.dropping (e : Engine K) (step : K) (k : ℕ) : Deed K where
  shift q i :=
    let t := coord e.work.t k
    let delta := coord e.dlambda k + step * t
    match q with
    | .lambda => if i = k then -coord e.lambda k else 0
    | .dlambda => if i = k then -coord e.dlambda k else 0
    | .c => e.problem.a.coeff k i * step * t
    | .cold => e.problem.a.coeff k i * delta
    | .pa => -(e.problem.a.coeff k i * t)
    | .rhs => if i = k then -e.boundAt k else -if (e.set.rowAt i).isActive then
        ∑ j ∈ Finset.range e.problem.ncols, e.problem.a.coeff k j *
          if e.set.colAt j = .free then e.problem.a.coeff i j * delta else 0
      else 0
    | _ => 0
  dropped := [k]
  freed := []
  told := [.rowDropped k step]

namespace Engine

variable {e g : Engine K} {job : Job} {i j k : ℕ}

/-- Activity matters only in rows that columns of the job meet. -/
theorem Alike.select_eq (ha : Alike job e g) {v : K}
    (hzero : (∀ j ∈ job.cols.indices, i ∉ (e.problem.a.columnEntries j).map Prod.fst) → v = 0) :
    (if (g.set.rowAt i).isActive then v else 0) = if (e.set.rowAt i).isActive then v else 0 := by
  by_cases hmet : ∃ j ∈ job.cols.indices, i ∈ (e.problem.a.columnEntries j).map Prod.fst
  · obtain ⟨j, hj, hi⟩ := hmet
    obtain ⟨x, hx, rfl⟩ := List.mem_map.1 hi
    rw [ha.met j hj x hx]
  · rw [hzero fun j hj hi => hmet ⟨j, hj, hi⟩, ite_self, ite_self]

theorem Alike.freeing_eq (ha : Alike job e g) (hj : j ∈ job.cols.indices) : Deed.freeing g j = Deed.freeing e j := by
  have hshift : (Deed.freeing g j).shift = (Deed.freeing e j).shift := by
    funext q i
    cases q with
    | rhs =>
        simp only [Deed.freeing]
        rw [ha.problem, cold_of_cell (ha.column j hj), ha.select_eq]
        intro hmet
        rw [SparseMatrix.coeff_of_not_mem (hmet j hj), zero_mul]
    | _ => rfl
  exact congrArg (fun shift => (⟨shift, [], [j], [.columnFreedInSearch j]⟩ : Deed K)) hshift

/-- A sum over the columns that meet a row of the job is one over columns of the job. -/
theorem Alike.sum_row_eq (hp : e.problem.Accepted) (hjob : job.Covers e.problem.tree) (ha : Alike job e g)
    (hk : k ∈ job.rows.indices) {f f' : ℕ → K} (hf : ∀ j ∈ job.cols.indices, f' j = f j) :
    ∑ j ∈ Finset.range g.problem.ncols, g.problem.a.coeff k j * f' j =
      ∑ j ∈ Finset.range e.problem.ncols, e.problem.a.coeff k j * f j := by
  rw [ha.problem]
  apply Finset.sum_congr rfl
  intro j _
  by_cases hj : j ∈ job.cols.indices
  · rw [hf j hj]
  · rw [hp.coeff_eq_zero hjob hk hj, zero_mul, zero_mul]

theorem Alike.boundAt_eq (ha : Alike job e g) (hk : k ∈ job.rows.indices) : g.boundAt k = e.boundAt k := by
  rw [boundAt, boundAt, ha.rowAt hk, ha.problem]

theorem Alike.dropping_eq (hp : e.problem.Accepted) (hjob : job.Covers e.problem.tree) (ha : Alike job e g)
    (hk : k ∈ job.rows.indices) (step : K) : Deed.dropping g step k = Deed.dropping e step k := by
  have hshift : (Deed.dropping g step k).shift = (Deed.dropping e step k).shift := by
    funext q i
    have ht := ha.t hk
    have hdlambda := dlambda_of_cell (ha.row k hk)
    cases q with
    | lambda =>
        simp only [Deed.dropping]
        rw [lambda_of_cell (ha.row k hk)]
    | dlambda =>
        simp only [Deed.dropping]
        rw [hdlambda]
    | rhs =>
        simp only [Deed.dropping]
        rw [ha.boundAt_eq hk, ha.sum_row_eq hp hjob hk fun j hj => ?_, ha.select_eq]
        rotate_left
        · rw [colAt_of_cell (ha.column j hj), ha.problem, ht, hdlambda]
        -- no column meets both rows
        intro hmet
        apply Finset.sum_eq_zero
        intro j _
        by_cases hj : j ∈ job.cols.indices
        · rw [SparseMatrix.coeff_of_not_mem (hmet j hj), zero_mul, ite_self, mul_zero]
        · rw [hp.coeff_eq_zero hjob hk hj, zero_mul]
    | c =>
        simp only [Deed.dropping]
        rw [ha.problem, ht]
    | cold =>
        simp only [Deed.dropping]
        rw [ha.problem, ht, hdlambda]
    | pa =>
        simp only [Deed.dropping]
        rw [ha.problem, ht]
    | _ => rfl
  exact congrArg (fun shift => (⟨shift, [k], [], [.rowDropped k step]⟩ : Deed K)) hshift

end Engine

namespace LineSearch

open Engine

variable {s s' r r' : LineSearch K} {job : Job} {i j k : ℕ} {delta delta' : K}

theorem ColumnFreed.does (hf : ColumnFreed s s' j) (h : s.engine.Regular) :
    (Deed.freeing s.engine j).Does s.engine s'.engine := by
  refine ⟨hf.problem, hf.sigma, hf.factor, by rw [hf.work], fun q i => ?_, fun i => hf.rowAt i, fun l => ?_, ?_, ?_, ?_⟩
  · cases q with
    | rhs =>
        simp only [vector, Deed.freeing]
        rw [hf.rhs, sub_eq_add_neg]
    | _ =>
        simp only [vector, Deed.freeing, add_zero]
        first
          | rw [hf.lambda]
          | rw [hf.dlambda]
          | rw [hf.work]
  · rw [hf.colAt h]
    simp only [Deed.freeing, List.mem_singleton]
  · obtain ⟨bound, free, freePos, hset⟩ := hf.set
    rw [hset]
    exact (List.append_nil _).symm
  · rw [hf.log, Array.toList_push]
    rfl
  · rw [hf.events, Array.toList_push]
    rfl

theorem RowDropped.does (hd : RowDropped s s' k delta) (h : s.engine.Regular) :
    (Deed.dropping s.engine s.step k).Does s.engine s'.engine := by
  obtain rfl := hd.delta_eq
  refine ⟨hd.problem, hd.sigma, hd.factor, by rw [hd.work], fun q i => ?_, fun i => ?_, fun j => hd.colAt j, ?_, ?_, ?_⟩
  · cases q with
    | lambda =>
        simp only [vector, Deed.dropping]
        rw [hd.lambda]
        split_ifs with hi
        · rw [hi, add_neg_cancel]
        · rw [add_zero]
    | dlambda =>
        simp only [vector, Deed.dropping]
        rw [hd.dlambda]
        split_ifs with hi
        · rw [hi, add_neg_cancel]
        · rw [add_zero]
    | c => exact hd.c i
    | cold => exact hd.cold i
    | pa =>
        simp only [vector, Deed.dropping]
        rw [hd.pa, sub_eq_add_neg]
    | rhs =>
        simp only [vector, Deed.dropping]
        rw [hd.rhs, hd.rowAt h]
        by_cases hi : i = k
        · simp only [if_pos hi]
          rw [if_neg (by decide), sub_zero, sub_eq_add_neg]
        · simp only [if_neg hi]
          rw [sub_zero, sub_eq_add_neg]
    | _ =>
        simp only [vector, Deed.dropping, add_zero]
        rw [hd.work]
  · rw [hd.rowAt h]
    simp only [Deed.dropping, List.mem_singleton]
  · obtain ⟨rows, hset⟩ := hd.set
    rw [hset, Array.toList_push]
    rfl
  · rw [hd.log]
    exact (List.append_nil _).symm
  · rw [hd.events, Array.toList_push]
    rfl

end LineSearch

end PolyProjection
