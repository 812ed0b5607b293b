import Mathlib
import PolyProjection.Proofs.Engine.Bounded
import PolyProjection.Proofs.Engine.Stationary

/-! A run that finds the solution ends at the maximum of the dual with its proximal term: the gradient is zero at every
active row. The multipliers of active rows are not written before the end of a run, so the increments are what they
change by. -/

namespace PolyProjection

set_option linter.unusedSectionVars false

variable {K : Type} [Field K] [LinearOrder K] [IsStrictOrderedRing K]

namespace Engine

/-- What a run leaves alone until its end: the base values, the multipliers of the rows that stay active, and the bounds
of the columns that stay bound. -/
structure Frozen (e e' : Engine K) : Prop where
  problem : e'.problem = e.problem
  sigma : e'.sigma = e.sigma
  reference : e'.work.reference = e.work.reference
  row : ∀ i, (e'.set.rowAt i).isActive = true →
    e'.set.rowAt i = e.set.rowAt i ∧ coord e'.lambda i = coord e.lambda i
  column : ∀ j, e'.set.colAt j ≠ .free → e'.set.colAt j = e.set.colAt j

variable {e e' e'' : Engine K}

theorem Frozen.refl (e : Engine K) : Frozen e e :=
  ⟨rfl, rfl, rfl, fun _ _ => ⟨rfl, rfl⟩, fun _ _ => rfl⟩

theorem Frozen.trans (h : Frozen e e') (h' : Frozen e' e'') : Frozen e e'' where
  problem := h'.problem.trans h.problem
  sigma := h'.sigma.trans h.sigma
  reference := h'.reference.trans h.reference
  row i hi := by
    obtain ⟨hrow', hlambda'⟩ := h'.row i hi
    obtain ⟨hrow, hlambda⟩ := h.row i (hrow' ▸ hi)
    exact ⟨hrow'.trans hrow, hlambda'.trans hlambda⟩
  column j hj := by
    have hcol' := h'.column j hj
    exact hcol'.trans (h.column j (hcol' ▸ hj))

theorem SameState.frozen (h : SameState e e') : Frozen e e' :=
  ⟨h.problem, h.sigma, by rw [h.work], fun i _ => ⟨h.rowAt i, by rw [h.lambda]⟩, fun j _ => h.colAt j⟩

end Engine

namespace LineSearch

open Engine

variable {s s' : LineSearch K} {id j k : ℕ} {key delta : K}

theorem ColumnFreed.frozen (hf : ColumnFreed s s' j) (h : s.engine.Regular) : Frozen s.engine s'.engine := by
  refine ⟨hf.problem, hf.sigma, hf.reference, fun i _ => ⟨hf.rowAt i, by rw [hf.lambda]⟩, fun l hl => ?_⟩
  rw [hf.colAt h] at hl ⊢
  split_ifs at hl ⊢
  · exact absurd rfl hl
  · rfl

theorem RowDropped.frozen (hd : RowDropped s s' k delta) (h : s.engine.Regular) : Frozen s.engine s'.engine := by
  refine ⟨hd.problem, hd.sigma, hd.reference, fun i hi => ?_, fun l _ => hd.colAt l⟩
  rw [hd.rowAt h] at hi ⊢
  rw [hd.lambda]
  split_ifs at hi ⊢
  · cases hi
  · exact ⟨rfl, rfl⟩

theorem Event.frozen (he : Event s s' id key) (h : s.engine.Regular) : Frozen s.engine s'.engine := by
  obtain ⟨heap, s₁, hvalid, -, hevent, rfl⟩ := he.commit
  have hheap : Frozen s.engine (s.goTo heap (max 0 key)).engine :=
    ⟨rfl, rfl, rfl, fun _ _ => ⟨rfl, rfl⟩, fun _ _ => rfl⟩
  rcases hevent with ⟨-, hf⟩ | ⟨-, delta, hd⟩
  · exact hheap.trans (hf.frozen (h.of_heap hvalid))
  · exact hheap.trans (hd.frozen (h.of_heap hvalid))

theorem Walks.frozen (hw : Walks s s') (h : s.engine.Regular) : Frozen s.engine s'.engine := by
  induction hw with
  | refl => exact .refl _
  | tail hwalks hstep ih =>
      obtain ⟨id, key, he⟩ := hstep
      exact ih.trans (he.frozen (Walks.regular hwalks h))

end LineSearch

namespace Engine

variable {e e' e₁ e₂ e₃ : Engine K} {rows cols : IndexRange} {out : LineOutcome K} {status : Status} {p : Problem K}
  {settings : Settings K}

theorem Searched.frozen (h : e.Searched rows cols out e') (hr : e.Regular) : Frozen e e' := by
  have hdirections : ∀ {e₁}, e.HasDirections rows cols e₁ → Frozen e e₁ := by
    rintro _ ⟨pa, rfl, -⟩
    exact ⟨rfl, rfl, rfl, fun _ _ => ⟨rfl, rfl⟩, fun _ _ => rfl⟩
  cases h with
  | flat hd _ => exact hdirections hd
  | moved hd hslope hc hfinishes hadvanced =>
      rename_i e₁ e₂ s flag
      have hr₂ := hc.regular (hd.regular hr)
      have hcandidates : Frozen e₁ e₂ := by
        obtain ⟨heap, rfl, -⟩ := hc
        exact ⟨rfl, rfl, rfl, fun _ _ => ⟨rfl, rfl⟩, fun _ _ => rfl⟩
      have hwalk : Frozen e₂ s.engine := by
        cases hfinishes with
        | full _ => exact .refl _
        | walk hwalks hends =>
            rw [hends.engine]
            exact LineSearch.Walks.frozen hwalks hr₂
      have hend : Frozen s.engine e' := by
        obtain ⟨dlambda, c, rfl, -⟩ := hadvanced
        exact ⟨rfl, rfl, rfl, fun _ _ => ⟨rfl, rfl⟩, fun _ _ => rfl⟩
      exact (hdirections hd).trans (hcandidates.trans (hwalk.trans hend))

theorem RunStep.frozen (h : RunStep e e') (hr : e.Regular) : Frozen e e' := by
  cases h with
  | quiet h => exact h.sameState.frozen
  | commit h => exact (sameState_of_commit h).frozen
  | schedule s => exact ⟨rfl, rfl, rfl, fun _ _ => ⟨rfl, rfl⟩, fun _ _ => rfl⟩
  | solve h =>
      obtain ⟨fwd, u, t, stats, rfl⟩ := of_solveJob h
      exact ⟨rfl, rfl, rfl, fun _ _ => ⟨rfl, rfl⟩, fun _ _ => rfl⟩
  | search hjob _ h => exact h.frozen hr

theorem Runs.frozen (h : Runs e e') (hr : e.Regular) : Frozen e e' := by
  induction h with
  | refl => exact .refl _
  | tail hruns hstep ih => exact ih.trans (hstep.frozen (Runs.regular hruns hr).1)

/-- A bound column has a finite bound at its side. -/
theorem Regular.exists_columnBoundAt (h : e.Regular) {j : ℕ} (hheld : e.set.colAt j ≠ .free) :
    ∃ b, e.columnBoundAt j = some b ∧ (e.set.colAt j = .atLower → e.problem.loAt j = .finite b) ∧
      (e.set.colAt j = .atUpper → e.problem.hiAt j = .finite b) := by
  have hfits := h.cols_fit j
  cases hst : e.set.colAt j with
  | free => exact absurd hst hheld
  | atLower =>
      rw [hst] at hfits
      obtain ⟨v, hv⟩ := hfits
      exact ⟨v, by rw [columnBoundAt, hst, hv]; rfl, fun _ => hv, fun hup => by cases hup⟩
  | atUpper =>
      rw [hst] at hfits
      obtain ⟨v, hv⟩ := hfits
      exact ⟨v, by rw [columnBoundAt, hst, hv]; rfl, fun hlow => (by cases hlow), fun _ => hv⟩

section End

variable (hr : e.Regular) (hf : e.DualFeasible) (hb : e.Balanced) (hrebased : Rebased e e')

include hr hf hrebased

theorem Rebased.lambda_eq (i : ℕ) : coord e'.lambda i = coord e.lambda i + coord e.dlambda i := by
  rw [hrebased.lambda]
  split_ifs with hact
  · rfl
  · obtain ⟨hlambda, hdlambda⟩ := hf.dropped i (ActiveSet.isActive_eq_false_iff.1 (Bool.eq_false_iff.2 hact))
    rw [hlambda, hdlambda, add_zero]

include hb

/-- The point at the end of a run is that of the increments, if the base values of bound columns are their bounds. -/
theorem Rebased.reference_eq (hheld : ∀ j < e.problem.ncols, ∀ b, e.columnBoundAt j = some b →
    coord e.work.reference j = b) {j : ℕ} (hj : j < e.problem.ncols) : coord e'.work.reference j = e.pointAt j := by
  rw [hrebased.reference j hj]
  by_cases hfree : e.set.colAt j = .free
  · rw [hb.pointAt_of_free hj hfree]
    have hnone : e.columnBoundAt j = none := by rw [columnBoundAt, hfree]
    rw [hnone, Option.getD_none, Problem.columnValue, Problem.columnValue]
    simp only [hrebased.lambda_eq hr hf]
  · obtain ⟨b, hsome, -⟩ := hr.exists_columnBoundAt hfree
    rw [hsome, Option.getD_some, pointAt, if_neg hfree, add_zero, hheld j hj b hsome]

end End

/-- From the rebasing on to the end, the base value of a bound column is its bound. -/
theorem Frozen.held {f g : Engine K} (hfrozen : Frozen f g) (hstart : Rebased e f) :
    ∀ j < g.problem.ncols, ∀ b, g.columnBoundAt j = some b → coord g.work.reference j = b := by
  intro j hj b hbound
  have hproblem : g.problem = e.problem := hfrozen.problem.trans hstart.problem_eq
  have hcol : g.set.colAt j = e.set.colAt j := by
    rw [← hstart.set_eq]
    refine hfrozen.column j fun hfree => ?_
    rw [columnBoundAt, hfree] at hbound
    cases hbound
  have hbound' : e.columnBoundAt j = some b := by
    rw [columnBoundAt, ← hcol, ← hproblem]
    exact hbound
  rw [hfrozen.reference, hstart.reference j (hproblem ▸ hj), hbound', Option.getD_some]

/-- The end of a run: `g` is the state after the last sweep, whose increments are then folded. -/
structure Closes (e g : Engine K) (status : Status) (e' : Engine K) : Prop where
  regular : g.Regular
  feasible : g.DualFeasible
  balanced : g.Balanced
  ended : Ended status g
  problem : g.problem = e.problem
  sigma : g.sigma = e.sigma
  row : ∀ i, (g.set.rowAt i).isActive = true → g.set.rowAt i = e.set.rowAt i ∧ coord g.lambda i = coord e.lambda i
  held : ∀ j < g.problem.ncols, ∀ b, g.columnBoundAt j = some b → coord g.work.reference j = b
  set : e'.set = g.set
  problem_end : e'.problem = g.problem
  lambda : ∀ i, coord e'.lambda i = coord g.lambda i + coord g.dlambda i
  x : ∀ j < e.problem.ncols, coord e'.x j = g.pointAt j

theorem Sound.of_run {s : Fill} (hp : e.problem.Accepted) (hs : e.Sound) (ht : Tracked s e)
    (hstill : ∀ i, coord e.dlambda i = 0)
    (hside : ∀ i, (e.set.rowAt i).isActive = true → (e.set.rowAt i).Admits (coord e.lambda i))
    (hok : e.run = .ok (status, e')) : ∃ g, e.Closes g status e' := by
  obtain ⟨e₁, g, e₃, sweeps, ⟨hq, -⟩, hsweeps, hrebase, ⟨hq', -⟩⟩ := Engine.of_run hok
  have hproblem₁ := hq.sameState.problem
  have hp₁ : e₁.problem.Accepted := hproblem₁ ▸ hp
  have hs₁ := hq.sameState.sound hs
  have hvalue : ∀ i, coord e₁.lambda i + coord e₁.dlambda i = coord e.lambda i := fun i => by
    rw [hq.sameState.lambda, hq.sameState.dlambda, hstill, add_zero]
  have hside₁ : ∀ i, (e₁.set.rowAt i).isActive = true →
      (e₁.set.rowAt i).Admits (coord e₁.lambda i + coord e₁.dlambda i) := fun i hi => by
    rw [hq.sameState.rowAt] at hi ⊢
    rw [hvalue]
    exact hside i hi
  -- the state before the first sweep
  obtain ⟨f, hstart, hruns⟩ := Runs.of_runSweeps hp₁ hs₁.regular hsweeps
  have hr := hstart.regular hs₁.regular
  have hf := hstart.dualFeasible hside₁
  have hfrozen := hruns.frozen hr
  have hr' := (hruns.regular hr).1
  have hf' := hruns.dualFeasible hr hf
  have hb' := (hstart.balanced hs₁.regular).of_runs (hstart.problem_eq ▸ hp₁) hr hf hruns
  have hproblem : g.problem = e.problem := hfrozen.problem.trans (hstart.problem_eq.trans hproblem₁)
  have hheld := hfrozen.held hstart
  have hlast := hr'.of_rebase hrebase
  have hpoint : ∀ j < e.problem.ncols, coord e₃.work.reference j = g.pointAt j := fun j hj =>
    hlast.reference_eq hr' hf' hb' hheld (hproblem.symm ▸ hj)
  have hlambda := hlast.lambda_eq hr' hf'
  refine ⟨g, hr', hf', hb', hs₁.of_runSweeps hp₁ (ht.of_noted hq.noted) hside₁ hsweeps, hproblem, ?_, fun i hi => ?_,
    hheld, ?_, ?_, ?_, ?_⟩
  · have hsigma : f.sigma = e₁.sigma := by rw [hstart.form]
    exact hfrozen.sigma.trans (hsigma.trans hq.sameState.sigma)
  · obtain ⟨hrow, hlambda⟩ := hfrozen.row i hi
    rw [hrow, hstart.set_eq] at hi
    refine ⟨by rw [hrow, hstart.set_eq, hq.sameState.rowAt], ?_⟩
    rw [hlambda, hstart.lambda, if_pos hi, hvalue]
  all_goals obtain ⟨_, _, _, _, _, rfl⟩ := hq'
  · exact hlast.set_eq
  · exact hlast.problem_eq
  · exact hlambda
  · exact hpoint

/-- A run that finds the solution ends with the point of its multipliers, and what a row lacks to its bound is what its
multiplier has moved by, times the regularization. It ends without active rows just if it says so. -/
theorem run_optimal (hp : p.Accepted) (h : Reachable p settings e)
    (hside : ∀ i, (e.set.rowAt i).isActive = true → (e.set.rowAt i).Admits (coord e.lambda i)) :
    ∃ status e', e.run = .ok (status, e') ∧
      (status = .solutionFound →
        (∀ j < p.ncols, e'.set.colAt j = .free → coord e'.x j = p.columnValue j (coord e'.lambda)) ∧
        (∀ j < p.ncols, (e'.set.colAt j = .atLower → p.loAt j = .finite (coord e'.x j)) ∧
          (e'.set.colAt j = .atUpper → p.hiAt j = .finite (coord e'.x j))) ∧
        (∀ i < p.nrows, e'.set.rowAt i = .dropped → coord e'.lambda i = 0) ∧
        ∀ i < p.nrows, (e'.set.rowAt i).isActive = true → e'.boundAt i - p.rowValue i (coord e'.x) =
          e.sigma * (coord e'.lambda i - if (e.set.rowAt i).isActive then coord e.lambda i else 0)) ∧
      (status = .allRowsDropped ↔ ∀ i < p.nrows, e'.set.rowAt i = .dropped) := by
  have hrests := h.rests hp
  obtain rfl := hrests.problem
  have hs := h.sound hp
  obtain ⟨status, e', hok, -, -⟩ := hs.run_ok hp (h.tracked hp)
  obtain ⟨g, hg⟩ := hs.of_run hp (h.tracked hp) hrests.still hside hok
  refine ⟨status, e', hok, fun hfound => ⟨fun j hj hfree => ?_, fun j hj => ?_, fun i _ hdropped => ?_,
    fun i _ hact => ?_⟩, ?_⟩
  · rw [hg.set] at hfree
    rw [hg.x j hj, hg.balanced.pointAt_of_free (hg.problem.symm ▸ hj) hfree, hg.problem, Problem.columnValue,
      Problem.columnValue]
    simp only [hg.lambda]
  · rw [hg.set, hg.x j hj]
    by_cases hfree : g.set.colAt j = .free
    · rw [hfree]
      exact ⟨fun hlow => (by cases hlow), fun hup => by cases hup⟩
    · obtain ⟨b, hbound, hlow, hup⟩ := hg.regular.exists_columnBoundAt hfree
      rw [pointAt, if_neg hfree, add_zero, hg.held j (hg.problem.symm ▸ hj) b hbound, ← hg.problem]
      exact ⟨hlow, hup⟩
  · rw [hg.set] at hdropped
    obtain ⟨hlambda, hdlambda⟩ := hg.feasible.dropped i hdropped
    rw [hg.lambda, hlambda, hdlambda, add_zero]
  · rw [hg.set] at hact
    obtain ⟨hrow, hlambda⟩ := hg.row i hact
    have hzero := hg.ended.stationary hfound i hact
    rw [hg.balanced.gradientAt_eq hact, hg.problem, hg.sigma] at hzero
    have hbound : e'.boundAt i = g.boundAt i := boundAt_congr hg.problem_end (by rw [hg.set])
    have hvalue : e.problem.rowValue i (coord e'.x) = e.problem.rowValue i g.pointAt :=
      Finset.sum_congr rfl fun j hj => by rw [hg.x j (Finset.mem_range.1 hj)]
    rw [hrow] at hact
    rw [hbound, hvalue, if_pos hact, hg.lambda, hlambda]
    linear_combination hzero
  · rw [hg.ended.dropped_iff, hg.set, List.eq_nil_iff_forall_not_mem]
    refine forall_congr' fun i => ?_
    rw [ActiveSet.mem_activeList_iff, Bool.not_eq_true, ActiveSet.isActive_eq_false_iff]
    refine ⟨fun hd _ => hd, fun hd => ?_⟩
    by_contra hact
    exact hact (hd (hg.problem ▸ hg.regular.row_lt (ActiveSet.isActive_iff_ne.2 hact)))

/-- A run over the row of the half-line. -/
def runHalfLine : Checked (Problem ℚ × Engine ℚ × Status × Engine ℚ) := do
  let p ← accepted Problem.halfLine
  let e ← accepted (create p plain)
  let added ← e.addRow 0 .lower
  let done ← added.2.run
  return (p, added.2, done.1, done.2)

theorem run_optimal_halfLine : ∃ (p : Problem ℚ) (e e' : Engine ℚ), p.Accepted ∧ Reachable p plain e ∧
    (∀ i, (e.set.rowAt i).isActive = true → (e.set.rowAt i).Admits (coord e.lambda i)) ∧
    e.run = .ok (.solutionFound, e') ∧ (e'.set.rowAt 0).isActive = true ∧
    e'.boundAt 0 - p.rowValue 0 (coord e'.x) =
      e.sigma * (coord e'.lambda 0 - if (e.set.rowAt 0).isActive then coord e.lambda 0 else 0) := by
  obtain ⟨⟨p, e, status, e'⟩, hrun, hcheck⟩ := exists_of_passes (x := runHalfLine)
    (f := fun r => decide (0 < r.1.nrows) && r.2.1.lambda == #[0] && decide (r.2.2.1 = .solutionFound) &&
      (r.2.2.2.set.rowAt 0).isActive)
    (by decide +kernel)
  unfold runHalfLine at hrun
  simp only [bind_eq_ok_iff, accepted_eq_ok_iff, pure_eq_ok_iff, Prod.mk.injEq] at hrun
  obtain ⟨p, hp, _, hcreate, ⟨b, e⟩, hadd, ⟨status, e'⟩, hok, rfl, rfl, rfl, rfl⟩ := hrun
  simp only [Bool.and_eq_true, beq_iff_eq, decide_eq_true_eq] at hcheck
  obtain ⟨⟨⟨hrows, hlambda⟩, rfl⟩, hactive⟩ := hcheck
  have hreachable : Reachable p plain e := .addRow (.create hcreate) hadd
  have hside : ∀ i, (e.set.rowAt i).isActive = true → (e.set.rowAt i).Admits (coord e.lambda i) := fun i _ =>
    admits_of_lambda_eq hlambda i
  obtain ⟨status, e'', hok', hfound, -⟩ := run_optimal (.create hp) hreachable hside
  obtain ⟨rfl, rfl⟩ := Prod.mk.inj (Except.ok.inj (hok'.symm.trans hok))
  exact ⟨p, e, e'', .create hp, hreachable, hside, hok, hactive, (hfound rfl).2.2.2 0 hrows hactive⟩

end Engine

end PolyProjection
