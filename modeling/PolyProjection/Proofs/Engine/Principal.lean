import Mathlib
import PolyProjection.Proofs.Engine.Ascending

/-! A job solves its own Newton system. Dissection carries over to the fill of the factor: an entry leads from the block
of its column to that block or an ancestor of it. So the rows of a job are eliminated as if nothing else were there, and
its solve gives the solution of the system between its active rows, whatever the jobs before it have changed. -/

namespace PolyProjection

set_option linter.unusedSectionVars false

variable {K : Type} [Field K] [LinearOrder K] [IsStrictOrderedRing K]

/-- Each row in the pattern of a column, active or not, belongs to the block of the column or to an ancestor of it. -/
def LdlFactor.CouplesUpwards (f : LdlFactor K) (t : BlockTree) : Prop :=
  ∀ j c, f.columns[j]? = some c → ∀ i, i ∈ c.liveRows ∨ i ∈ c.dead → t.Descends (t.blockOfRow j) (t.blockOfRow i)

/-- Rows in order belong to blocks in order, so that of two ancestors the later row has the later one. -/
theorem BlockTree.Tested.descends_blockOfRow {t : BlockTree} (h : t.Tested) {b i k : ℕ}
    (hi : t.Descends b (t.blockOfRow i)) (hk : t.Descends b (t.blockOfRow k)) (hrow : i < t.nrows) (hik : i ≤ k) :
    t.Descends (t.blockOfRow i) (t.blockOfRow k) :=
  h.descends_of_le hi hk (h.blockOfRow_le hrow hik)

namespace Problem

variable {p : Problem K} {i j : ℕ}

/-- The rows with an entry in a common column of the matrix, and the fill of the elimination, stay on a path to the
root. -/
theorem Accepted.descends_of_filled (hp : p.Accepted) (h : FillPattern.Filled p.a i j) :
    p.tree.Descends (p.tree.blockOfRow j) (p.tree.blockOfRow i) := by
  obtain ⟨htree, hnrows, -⟩ := hp.tree
  have ht := htree.tested
  have hrow : ∀ {i j}, FillPattern.Filled p.a i j → i < p.tree.nrows := fun h => by
    rw [hnrows]
    exact h.row_lt hp.wellPosed.formatted
  induction h with
  | @coupled i j hc hlt =>
      obtain ⟨c, hj, hi⟩ := hc
      obtain ⟨x, hx, rfl⟩ := List.mem_map.1 hj
      obtain ⟨y, hy, rfl⟩ := List.mem_map.1 hi
      exact ht.descends_blockOfRow (hp.dissected c x hx) (hp.dissected c y hy)
        (hlt.trans (hrow (.coupled ⟨c, hj, hi⟩ hlt))) hlt.le
  | fill hi _ hlt ihi ihk => exact ht.descends_blockOfRow ihi ihk (hrow hi) hlt.le

theorem Accepted.couplesUpwards (hp : p.Accepted) (act : ℕ → Bool) (l : ℕ → ℕ → K) (d : ℕ → K) (sigma : K)
    (w w2 : ℕ → K) :
    ((FillPattern.fill p.a hp.wellPosed.formatted).factor act l d sigma w w2).CouplesUpwards p.tree := by
  intro j c hc i hi
  rw [Fill.factor, getElem?_table] at hc
  split_ifs at hc
  obtain rfl := Option.some.inj hc
  have hmem : i ∈ (FillPattern.fill p.a hp.wellPosed.formatted).column j := by
    rcases hi with hi | hi
    · rw [FactorColumn.liveRows_ofRows] at hi
      exact List.mem_of_mem_filter hi
    · exact List.mem_of_mem_filter hi
  exact hp.descends_of_filled (FillPattern.fill_has_iff.1 (Fill.mem_column.1 hmem))

end Problem

namespace Engine

variable {p : Problem K} {settings : Settings K} {e g g' : Engine K} {s : Fill} {free act : ℕ → Bool} {job : Job}

/-- The engines, in a run that begins in `e`, when the jobs of a sweep have been processed up to some point before `job`.
What is counted, timed and told on the way does not matter. -/
inductive Upcoming (e : Engine K) : Engine K → Job → Prop where
  | intro {e₀ g g₀ g₁ g₂ : Engine K} {before before' later : List Job} {job : Job} : Quiet e e₀ → SweepStart e₀ g →
      Quiet g g₀ → g.schedule.jobs = before ++ later → g₀.processJobs before = .ok (before', g₁) → job ∈ later →
      Quiet g₁ g₂ → Upcoming e g₂ job

theorem Upcoming.turn (hp : e.problem.Accepted) (hs : e.Sound) (ht : Tracked s e) (h : e.Upcoming g job) :
    ∃ free act, Turn s free act g job := by
  obtain ⟨hq, hstart, hq₀, hjobs, hbefore, hlater, hq₁⟩ := h
  exact ⟨_, _, hq₁.turn (hstart.turn hp hs ht hq hq₀ hjobs hbefore hlater)⟩

theorem Upcoming.problem (hp : e.problem.Accepted) (hr : e.Regular) (h : e.Upcoming g job) : g.problem = e.problem := by
  obtain ⟨hq, hstart, hq₀, hjobs, hbefore, hlater, hq₁⟩ := h
  have hunderway := Underway.processed hq hstart hq₀ hjobs hbefore
  obtain ⟨_, _, hquiet, hrebased, hruns⟩ := hunderway.runs hp hr
  obtain ⟨-, hproblem, -⟩ := Runs.regular hruns (hrebased.regular (hquiet.sameState.regular hr))
  exact hq₁.sameState.problem.trans (hproblem.trans (hrebased.problem_eq.trans hquiet.sameState.problem))

/-- The solve of a job that can be worked on. -/
theorem Turn.solveJob_ok (h : Turn s free act g job) : ∃ g', g.solveJob job = .ok g' ∧
    (∀ i ∈ g.jobRows job, ∑ k ∈ g.jobRows job, ((∑ j ∈ Finset.range g.problem.ncols with g.set.colAt j = .free,
      g.problem.a.coeff i j * g.problem.a.coeff k j) + if i = k then g.sigma else 0) * coord g'.work.u k =
        coord g.work.rhs i) ∧
    (∀ i ∈ g.jobRows job, coord g'.work.t i = coord g'.work.u i - coord g.dlambda i) ∧
    ∀ i ∈ job.rows.indices, i ∉ g.jobRows job → coord g'.work.t i = 0 := by
  have hfits := h.due.fits
  have hstop := (h.accepted.job_stop h.covers).1
  have hbefore := (hfits.forwardSolved_iff h.accepted h.covers).2 h.due.solved
  have hrow : ∀ i ∈ g.jobRows job, i < g.problem.nrows := fun i hi => (mem_jobRows.1 hi).2.2.trans_le hstop
  refine ⟨_, h.sound.solveJob_eq hfits.hasColumns hstop, fun i hi => ?_, fun i hi => ?_, fun i hin hout => ?_⟩
  · rw [← hfits.sum_solution h.accepted h.covers hbefore hi]
    refine Finset.sum_congr rfl fun k hk => ?_
    rw [hfits.normal_eq h.accepted h.covers hi hk, solved, coord_table _ (hrow k hk), Finset.sum_filter]
    simp only [mul_ite, mul_zero]
  · obtain ⟨hactive, htop, hbottom⟩ := mem_jobRows.1 hi
    rw [solved, coord_table _ (hrow i hi), coord_table _ (hrow i hi), newtonStep, if_pos ⟨htop, hbottom⟩, if_pos hactive]
  · rw [solved, coord_table _ (hin.2.trans_le hstop), newtonStep,
      if_pos (show job.rows.start ≤ i ∧ i < job.rows.stop from hin), if_neg fun hactive => hout (mem_jobRows.2 ⟨hactive, hin⟩)]

/-- **A job solves exactly its own principal Newton system.** The pattern of the factor couples a row to a column only if
the block of the row is that of the column or an ancestor of it, in a new factor and at every point of a run. Whatever the
jobs of a sweep before it have dropped and freed, the solve of a job puts into `u` the solution of
`A_F * A_Fᵀ + σ * I` between the active rows of the job, with the columns `F` that are free then; `t` is the difference
to the increments on these rows and zero on the other rows of the job. -/
theorem solveJob_principal (hp : p.Accepted) :
    (∃ f, LdlFactor.ofMatrix p.a p.aT = .ok (.ok f) ∧ f.CouplesUpwards p.tree) ∧
    ∀ (settings : Settings K) (e g : Engine K) (job : Job), Reachable p settings e → e.Upcoming g job →
      0 < g.sigma ∧ g.problem = p ∧ g.factor.CouplesUpwards p.tree ∧ ∃ g', g.solveJob job = .ok g' ∧
        (∀ i ∈ g.jobRows job, ∑ k ∈ g.jobRows job, ((∑ j ∈ Finset.range p.ncols with g.set.colAt j = .free,
          p.a.coeff i j * p.a.coeff k j) + if i = k then g.sigma else 0) * coord g'.work.u k = coord g.work.rhs i) ∧
        (∀ i ∈ g.jobRows job, coord g'.work.t i = coord g'.work.u i - coord g.dlambda i) ∧
        ∀ i ∈ job.rows.indices, i ∉ g.jobRows job → coord g'.work.t i = 0 := by
  refine ⟨⟨_, LdlFactor.ofMatrix_ok hp.check hp.wellPosed.transpose, hp.couplesUpwards _ _ _ _ _ _⟩,
    fun settings e g job he h => ?_⟩
  have hproblem := (he.rests hp).problem
  obtain ⟨free, act, hturn⟩ := h.turn (hproblem ▸ hp) (he.sound hp) (he.tracked hp)
  have hproblem : g.problem = p := (h.problem (hproblem ▸ hp) (he.rests hp).regular).trans hproblem
  refine ⟨hturn.due.fits.sigma_pos, hproblem, ?_, ?_⟩
  · rw [hturn.due.fits.factor]
    exact hp.couplesUpwards _ _ _ _ _ _
  · rw [← hproblem]
    exact hturn.solveJob_ok

theorem solveJob_principal_halfLine : ∃ (p : Problem ℚ) (e g g' : Engine ℚ) (job : Job), p.Accepted ∧
    Reachable p plain e ∧ e.Upcoming g job ∧ g.solveJob job = .ok g' ∧
    ∀ i ∈ g.jobRows job, coord g'.work.t i = coord g'.work.u i - coord g.dlambda i := by
  obtain ⟨p, e, _, _, _, _, hp, he, -, hsearches, -⟩ := exists_searchHalfLine
  obtain ⟨hq, hstart, hq₀, hjobs, hbefore, hq₁, -, -⟩ := hsearches
  have hturn : e.Upcoming _ _ := .intro hq hstart hq₀ hjobs hbefore List.mem_cons_self hq₁
  obtain ⟨-, hsolves⟩ := solveJob_principal hp
  obtain ⟨-, -, -, g', hok, -, hstep, -⟩ := hsolves plain e _ _ he hturn
  exact ⟨p, e, _, g', _, hp, he, hturn, hok, hstep⟩

end Engine

end PolyProjection
