import Mathlib
import PolyProjection.Proofs.Engine.Processing

/-! What the work on a job leaves alone. Beyond its rows and columns only the right-hand sides of rows that its columns
meet are written, and by dissection these rows belong to ancestors of the block. -/

namespace PolyProjection

set_option linter.unusedSectionVars false

variable {K : Type} [Field K] [LinearOrder K] [IsStrictOrderedRing K]

/-- The indices of a range. -/
def IndexRange.indices (r : IndexRange) : Set ℕ :=
  {i | r.start ≤ i ∧ i < r.stop}

namespace Engine

/-- What a state says about a row, but for its right-hand side. -/
structure RowCell (K : Type) where
  status : RowStatus
  lambda : K
  dlambda : K
  fwd : K
  u : K
  t : K

/-- What a state says about a column, but for its base value. -/
structure ColumnCell (K : Type) where
  status : ColumnStatus
  c : K
  cold : K
  pa : K

def rowCell (e : Engine K) (i : ℕ) : RowCell K :=
  ⟨e.set.rowAt i, coord e.lambda i, coord e.dlambda i, coord e.work.fwd i, coord e.work.u i, coord e.work.t i⟩

def columnCell (e : Engine K) (j : ℕ) : ColumnCell K :=
  ⟨e.set.colAt j, coord e.work.c j, coord e.work.cold j, coord e.work.pa j⟩

/-- Only the given rows and columns are written, and the right-hand sides of rows that the columns meet. -/
structure Confined (rows cols : Set ℕ) (e e' : Engine K) : Prop where
  problem : e'.problem = e.problem
  sigma : e'.sigma = e.sigma
  factor : e'.factor = e.factor
  reference : e'.work.reference = e.work.reference
  row : ∀ i ∉ rows, e'.rowCell i = e.rowCell i
  column : ∀ j ∉ cols, e'.columnCell j = e.columnCell j
  rhs : ∀ i ∉ rows, (∀ j ∈ cols, e.problem.a.coeff i j = 0) → coord e'.work.rhs i = coord e.work.rhs i

section Relation

variable {e e' e'' : Engine K} {rows cols rows' cols' : Set ℕ}

theorem Confined.refl (e : Engine K) : Confined rows cols e e :=
  ⟨rfl, rfl, rfl, rfl, fun _ _ => rfl, fun _ _ => rfl, fun _ _ _ => rfl⟩

theorem Confined.trans (h : Confined rows cols e e') (h' : Confined rows cols e' e'') : Confined rows cols e e'' where
  problem := h'.problem.trans h.problem
  sigma := h'.sigma.trans h.sigma
  factor := h'.factor.trans h.factor
  reference := h'.reference.trans h.reference
  row i hi := (h'.row i hi).trans (h.row i hi)
  column j hj := (h'.column j hj).trans (h.column j hj)
  rhs i hi hmeets := (h'.rhs i hi (h.problem ▸ hmeets)).trans (h.rhs i hi hmeets)

theorem Confined.mono (h : Confined rows cols e e') (hrows : rows ⊆ rows') (hcols : cols ⊆ cols') :
    Confined rows' cols' e e' where
  problem := h.problem
  sigma := h.sigma
  factor := h.factor
  reference := h.reference
  row i hi := h.row i fun hmem => hi (hrows hmem)
  column j hj := h.column j fun hmem => hj (hcols hmem)
  rhs i hi hmeets := h.rhs i (fun hmem => hi (hrows hmem)) fun j hj => hmeets j (hcols hj)

theorem Quiet.confined (h : Quiet e e') : Confined rows cols e e' := by
  obtain ⟨_, _, _, _, _, rfl⟩ := h
  exact ⟨rfl, rfl, rfl, rfl, fun _ _ => rfl, fun _ _ => rfl, fun _ _ _ => rfl⟩

end Relation

variable {e e' : Engine K} {rows cols : IndexRange} {job : Job} {i j : ℕ}

section Cells

theorem rowAt_of_cell (h : e'.rowCell i = e.rowCell i) : e'.set.rowAt i = e.set.rowAt i :=
  congrArg RowCell.status h

theorem lambda_of_cell (h : e'.rowCell i = e.rowCell i) : coord e'.lambda i = coord e.lambda i :=
  congrArg RowCell.lambda h

theorem dlambda_of_cell (h : e'.rowCell i = e.rowCell i) : coord e'.dlambda i = coord e.dlambda i :=
  congrArg RowCell.dlambda h

theorem fwd_of_cell (h : e'.rowCell i = e.rowCell i) : coord e'.work.fwd i = coord e.work.fwd i :=
  congrArg RowCell.fwd h

theorem colAt_of_cell (h : e'.columnCell j = e.columnCell j) : e'.set.colAt j = e.set.colAt j :=
  congrArg ColumnCell.status h

theorem c_of_cell (h : e'.columnCell j = e.columnCell j) : coord e'.work.c j = coord e.work.c j :=
  congrArg ColumnCell.c h

theorem cold_of_cell (h : e'.columnCell j = e.columnCell j) : coord e'.work.cold j = coord e.work.cold j :=
  congrArg ColumnCell.cold h

end Cells

/-- A Newton direction is one of the rows of the job. -/
theorem Sound.confined_solved (hs : e.Sound) {column : ℕ → List ℕ} {l : ℕ → ℕ → K} {d : ℕ → K}
    (hlt : ∀ j, ∀ i ∈ column j, j < i) : Confined job.rows.indices cols.indices e (e.solved job column l d) := by
  refine ⟨rfl, rfl, rfl, rfl, fun i hi => ?_, fun _ _ => rfl, fun _ _ _ => rfl⟩
  replace hi : ¬(job.rows.start ≤ i ∧ i < job.rows.stop) := hi
  have hout : i < job.rows.start ∨ job.rows.stop ≤ i := by omega
  have hbetween : i ∉ e.set.activeBetween job.rows.start job.rows.stop := fun hmem =>
    hi (ActiveSet.mem_activeBetween.1 hmem).2
  have hfwd : e.halfSolution job column l i = coord e.work.fwd i := by
    have hinner : ∀ j ∈ e.set.activeBetween job.rows.start job.rows.stop, job.rows.start ≤ j := fun j hj =>
      (ActiveSet.mem_activeBetween.1 hj).2.1
    rw [halfSolution, LdlFactor.foldl_pass_outside hlt hinner hout, forwardStart_outside hi]
  have hu : e.solution job column l d i = coord e.work.u i := LdlFactor.foldr_solveRow_of_not_mem hbetween
  simp only [rowCell, solved, RowCell.mk.injEq, true_and]
  exact ⟨coord_table_eq hs.work.fwd fun _ => hfwd, coord_table_eq hs.work.u fun _ => hu,
    coord_table_eq hs.work.t fun _ => by rw [newtonStep, if_neg hi]⟩

theorem HasDirections.confined (h : e.HasDirections rows cols e') : Confined rows.indices cols.indices e e' := by
  obtain ⟨pa, rfl, hpa⟩ := h
  refine ⟨rfl, rfl, rfl, rfl, fun _ _ => rfl, fun j hj => ?_, fun _ _ _ => rfl⟩
  replace hj : ¬(cols.start ≤ j ∧ j < cols.stop) := hj
  simp only [columnCell, hpa, if_neg hj]

theorem HasCandidates.confined (h : e.HasCandidates rows cols e') : Confined rows.indices cols.indices e e' := by
  obtain ⟨heap, rfl, -⟩ := h
  exact ⟨rfl, rfl, rfl, rfl, fun _ _ => rfl, fun _ _ => rfl, fun _ _ _ => rfl⟩

theorem HasAdvanced.confined {step : K} (h : e.HasAdvanced rows cols step e') : Confined rows.indices cols.indices e e' := by
  obtain ⟨dlambda, c, rfl, -, hdlambda, hc⟩ := h
  refine ⟨rfl, rfl, rfl, rfl, fun i hi => ?_, fun j hj => ?_, fun _ _ _ => rfl⟩
  · have hzero : e.directionAt rows i = 0 := if_neg fun hall => hi ⟨hall.1, hall.2.1⟩
    simp only [rowCell, hdlambda, hzero, mul_zero, add_zero]
  · replace hj : ¬(cols.start ≤ j ∧ j < cols.stop) := hj
    simp only [columnCell, hc, if_neg hj, add_zero]

end Engine

namespace LineSearch

open Engine

variable {s s' : LineSearch K} {rows cols : IndexRange} {job : Job} {id j k : ℕ} {key delta : K}

theorem ColumnFreed.confined (hf : ColumnFreed s s' j) (h : s.engine.Regular) (hj : cols.start ≤ j ∧ j < cols.stop) :
    Confined rows.indices cols.indices s.engine s'.engine := by
  refine ⟨hf.problem, hf.sigma, hf.factor, by rw [hf.work], fun i _ => ?_, fun l hl => ?_, fun i _ hmeets => ?_⟩
  · rw [rowCell, rowCell, hf.rowAt, hf.lambda, hf.dlambda, hf.work]
  · rw [columnCell, columnCell, hf.colAt h, if_neg (show l ≠ j from fun hlj => hl (hlj ▸ hj)), hf.work]
  · rw [hf.rhs, hmeets j hj, zero_mul, ite_self, sub_zero]

theorem RowDropped.confined (hd : RowDropped s s' k delta) (h : s.engine.Regular) (hk : rows.start ≤ k ∧ k < rows.stop)
    (houter : ∀ j, ¬(cols.start ≤ j ∧ j < cols.stop) → s.engine.problem.a.coeff k j = 0) :
    Confined rows.indices cols.indices s.engine s'.engine := by
  refine ⟨hd.problem, hd.sigma, hd.factor, by rw [hd.work], fun i hi => ?_, fun j hj => ?_, fun i hi hmeets => ?_⟩
  · have hik : i ≠ k := fun hik => hi (hik ▸ hk)
    rw [rowCell, rowCell, hd.rowAt h, hd.lambda, hd.dlambda, hd.work, if_neg hik, if_neg hik, if_neg hik]
  · rw [columnCell, columnCell, hd.colAt, hd.c, hd.cold, hd.pa, houter j hj]
    simp only [zero_mul, add_zero, sub_zero]
  · have hik : i ≠ k := fun hik => hi (hik ▸ hk)
    have hzero : ∑ j ∈ Finset.range s.engine.problem.ncols, s.engine.problem.a.coeff k j *
        (if s.engine.set.colAt j = .free then s.engine.problem.a.coeff i j * delta else 0) = 0 :=
      Finset.sum_eq_zero fun j _ => by
        by_cases hj : cols.start ≤ j ∧ j < cols.stop
        · rw [hmeets j hj, zero_mul, ite_self, mul_zero]
        · rw [houter j hj, zero_mul]
    rw [hd.rhs, if_neg hik, hzero, ite_self, sub_zero, sub_zero]

/-- An event is one of the candidates, which are of the job. -/
theorem Event.confined (hp : s.engine.problem.Accepted) (hjob : job.Covers s.engine.problem.tree)
    (he : Event s s' id key) (hr : s.engine.Regular) (h : Pursues job.rows job.cols s) :
    Confined job.rows.indices job.cols.indices s.engine s'.engine := by
  obtain ⟨heap, s₁, hvalid, -, hevent, rfl⟩ := he.freed_or_dropped
  replace hr := hr.of_heap hvalid
  have hheap : Confined job.rows.indices job.cols.indices s.engine (s.goTo heap (max 0 key)).engine :=
    ⟨rfl, rfl, rfl, rfl, fun _ _ => rfl, fun _ _ => rfl, fun _ _ _ => rfl⟩
  rcases hevent with ⟨hid, hf⟩ | ⟨k, delta, rfl, hd⟩
  · exact hheap.trans (hf.confined hr (h.column_key id hid key he.first.1).1)
  · have hk := (h.row_key k key he.first.1).1
    exact hheap.trans (hd.confined hr hk fun l hl => hp.coeff_eq_zero hjob hk hl)

theorem Walks.confined (hp : s.engine.problem.Accepted) (hjob : job.Covers s.engine.problem.tree) (hw : Walks s s')
    (hr : s.engine.Regular) (h : Pursues job.rows job.cols s) :
    Confined job.rows.indices job.cols.indices s.engine s'.engine ∧ Pursues job.rows job.cols s' := by
  induction hw with
  | refl => exact ⟨.refl _, h⟩
  | tail hwalks hstep ih =>
      obtain ⟨id, key, he⟩ := hstep
      have hr₁ := Walks.regular hwalks hr
      have hp₁ := ih.1.problem ▸ hp
      have hjob₁ := ih.1.problem ▸ hjob
      exact ⟨ih.1.trans (he.confined hp₁ hjob₁ hr₁ ih.2),
        he.pursues hr₁ ih.2 fun k hk j hj => hp₁.mem_cols_of_transpose hjob₁ hj hk⟩

end LineSearch

namespace Engine

variable {e e' : Engine K} {rows cols : IndexRange} {job job' : Job} {out : LineOutcome K} {i j : ℕ}

theorem Searched.confined (hp : e.problem.Accepted) (hjob : job.Covers e.problem.tree) (hr : e.Regular)
    (h : e.Searched job.rows job.cols out e') : Confined job.rows.indices job.cols.indices e e' := by
  cases h with
  | flat hd _ => exact hd.confined
  | moved hd hslope hc hfinishes hadvanced =>
      rename_i e₁ e₂ s flag
      have h₂ := hd.confined.trans hc.confined
      refine (h₂.trans ?_).trans hadvanced.confined
      cases hfinishes with
      | full _ => exact .refl _
      | walk hwalks hends =>
          rw [hends.engine]
          exact (hwalks.confined (h₂.problem ▸ hp) (h₂.problem ▸ hjob) (hc.regular (hd.regular hr)) hc.pursues).1

/-- The work on a job is confined to its rows and columns. -/
theorem Sound.confined_processJob (hs : e.Sound) (hp : e.problem.Accepted) (hjob : job.Covers e.problem.tree)
    (hsolves : e.Solves) (hok : e.processJob job = .ok (job', e')) :
    Confined job.rows.indices job.cols.indices e e' := by
  rcases of_processJob hok with ⟨-, -, rfl⟩ |
    ⟨-, f₁, f₂, f₃, f₄, out, ⟨hq₁, -⟩, hsolve, ⟨hq₂, -⟩, hsearch, ⟨hq₃, -⟩, -⟩
  · exact .refl _
  · have hs₁ := hq₁.sameState.sound hs
    have hp₁ := hq₁.sameState.problem ▸ hp
    have hjob₁ := hq₁.sameState.problem ▸ hjob
    have hstop := (hp₁.job_stop hjob₁).1
    obtain ⟨column, l, d, hcolumns⟩ : f₁.Solves := by
      obtain ⟨_, _, _, _, _, rfl⟩ := id hq₁
      exact hsolves
    obtain rfl := Except.ok.inj ((hs₁.solveJob_eq hcolumns hstop).symm.trans hsolve)
    have hr₃ := hq₂.sameState.regular (hs₁.of_solved job column l d).regular
    have hproblem₃ : f₃.problem = f₁.problem := hq₂.sameState.problem
    have hsearched := hr₃.of_lineSearch (hproblem₃ ▸ hstop) hsearch
    have hsolved : Confined job.rows.indices job.cols.indices f₁ (f₁.solved job column l d) :=
      hs₁.confined_solved fun j i hi => (hcolumns.lt j i hi).1
    exact hq₁.confined.trans (hsolved.trans (hq₂.confined.trans
      ((hsearched.confined (hproblem₃ ▸ hp₁) (hproblem₃ ▸ hjob₁) hr₃).trans hq₃.confined)))

end Engine

end PolyProjection
