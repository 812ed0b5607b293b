import Mathlib
import PolyProjection.Proofs.Engine.Gradient
import PolyProjection.Proofs.Engine.Marks

/-! The jobs of a sweep. A job works on its own part of the state only, so the jobs before it do not matter to it, and
what it has left is not touched by the jobs after it: an unchanged job is stationary at the end of the sweep, and a
changed one can be taken up at its mark. -/

namespace PolyProjection

set_option linter.unusedSectionVars false

variable {K : Type} [Field K] [LinearOrder K] [IsStrictOrderedRing K]

/-- The jobs share no row and no column. -/
def Job.Separate (a b : Job) : Prop :=
  Disjoint a.rows.indices b.rows.indices ∧ Disjoint a.cols.indices b.cols.indices

theorem Job.Separate.symm {a b : Job} (h : a.Separate b) : b.Separate a :=
  ⟨h.1.symm, h.2.symm⟩

namespace Engine

/-- The invariants of the vectors of a run. -/
structure Healthy (e : Engine K) : Prop where
  sound : e.Sound
  balanced : e.Balanced
  feasible : e.DualFeasible

/-- The states agree on the rows and columns of the job. -/
structure AgreeOn (job : Job) (e e' : Engine K) : Prop where
  problem : e'.problem = e.problem
  sigma : e'.sigma = e.sigma
  row : ∀ i ∈ job.rows.indices, e'.rowCell i = e.rowCell i
  rhs : ∀ i ∈ job.rows.indices, coord e'.work.rhs i = coord e.work.rhs i
  column : ∀ j ∈ job.cols.indices, e'.columnCell j = e.columnCell j

/-- What a job needs for its Newton step. The factor is that at the start of the sweep. -/
structure Due (s : Fill) (free act : ℕ → Bool) (e : Engine K) (job : Job) : Prop where
  fits : FactorFits s free act e job
  solved : e.SolvedBefore job (job.mark.getD 0)
  outer : ∀ k ∉ job.rows.indices, ∀ j ∈ job.cols.indices, e.problem.a.coeff k j ≠ 0 → coord e.dlambda k = 0

/-- What a job leaves: an unchanged one is stationary, a changed one is solved before its mark. -/
structure Done (e : Engine K) (job : Job) : Prop where
  solved : e.SolvedBefore job (job.mark.getD 0)
  stationary : job.changed = false → ∀ i ∈ e.jobRows job, e.gradientAt i = 0

variable {e e' e'' : Engine K} {job job' g : Job} {rows cols : Set ℕ} {s : Fill} {free act : ℕ → Bool} {i j : ℕ}

theorem gradientAt_congr (hproblem : e'.problem = e.problem) (hsigma : e'.sigma = e.sigma)
    (hrhs : coord e'.work.rhs i = coord e.work.rhs i) (hdlambda : coord e'.dlambda i = coord e.dlambda i)
    (hcolumn : ∀ j, e.problem.a.coeff i j ≠ 0 → e'.columnCell j = e.columnCell j) : e'.gradientAt i = e.gradientAt i := by
  rw [gradientAt, gradientAt, hrhs, hsigma, hdlambda, hproblem]
  congr 1
  refine Finset.sum_congr rfl fun j _ => ?_
  by_cases hmeets : e.problem.a.coeff i j = 0
  · rw [hmeets, zero_mul, zero_mul]
  · rw [colAt_of_cell (hcolumn j hmeets), c_of_cell (hcolumn j hmeets), cold_of_cell (hcolumn j hmeets)]

/-- The gradient of a row is out of reach of work on columns that do not meet it. -/
theorem Confined.gradientAt_eq (h : Confined rows cols e e') (hi : i ∉ rows)
    (hmeets : ∀ j ∈ cols, e.problem.a.coeff i j = 0) : e'.gradientAt i = e.gradientAt i :=
  gradientAt_congr h.problem h.sigma (h.rhs i hi hmeets) (dlambda_of_cell (h.row i hi)) fun _ hne =>
    h.column _ fun hj => hne (hmeets _ hj)

theorem SameState.healthy (hs : SameState e e') (h : e.Healthy) : e'.Healthy :=
  ⟨hs.sound h.sound, hs.balanced h.balanced, hs.dualFeasible h.feasible⟩

theorem SameState.rowCell (h : SameState e e') (i : ℕ) : e'.rowCell i = e.rowCell i := by
  rw [Engine.rowCell, Engine.rowCell, h.rowAt, h.lambda, h.dlambda, h.work]

theorem SameState.columnCell (h : SameState e e') (j : ℕ) : e'.columnCell j = e.columnCell j := by
  rw [Engine.columnCell, Engine.columnCell, h.colAt, h.work]

theorem SameState.agreeOn (h : SameState e e') (job : Job) : AgreeOn job e e' :=
  ⟨h.problem, h.sigma, fun i _ => h.rowCell i, fun _ _ => by rw [h.work], fun j _ => h.columnCell j⟩

theorem SameState.gradientAt_eq (h : SameState e e') (i : ℕ) : e'.gradientAt i = e.gradientAt i :=
  gradientAt_congr h.problem h.sigma (by rw [h.work]) (by rw [h.dlambda]) fun j _ => h.columnCell j

theorem FactorFits.hasColumns (h : FactorFits s free act e job) : e.factor.HasColumns e.problem.nrows
    (fun j => (s.column j).filter act) (lower (normal e.problem.a free act e.sigma))
      (pivot (normal e.problem.a free act e.sigma)) := by
  have hcolumns : e.factor.HasColumns s.size _ _ _ := h.factor ▸ Fill.hasColumns_canonical h.sigma_pos
  rw [show s.size = e.problem.nrows from h.covers.size_eq] at hcolumns
  exact hcolumns

section Agreement

variable (hp : e.problem.Accepted) (hjob : job.Covers e.problem.tree)

include hp hjob

/-- Work on other rows and columns is not seen by a job. -/
theorem Confined.agreeOn (h : Confined rows cols e e') (hrows : Disjoint job.rows.indices rows)
    (hcols : Disjoint job.cols.indices cols) : AgreeOn job e e' where
  problem := h.problem
  sigma := h.sigma
  row i hi := h.row i (Set.disjoint_left.1 hrows hi)
  rhs i hi := h.rhs i (Set.disjoint_left.1 hrows hi) fun _ hj =>
    hp.coeff_eq_zero hjob hi fun hin => Set.disjoint_left.1 hcols hin hj
  column j hj := h.column j (Set.disjoint_left.1 hcols hj)

theorem AgreeOn.keepsRows (h : AgreeOn job e e') : KeepsRows (· ∈ job.rows.indices) e e' where
  problem := h.problem
  sigma := h.sigma
  row i hi := rowAt_of_cell (h.row i hi)
  rhs := h.rhs
  fwd i hi := fwd_of_cell (h.row i hi)
  column j := by
    by_cases hj : j ∈ job.cols.indices
    · exact .inl (colAt_of_cell (h.column j hj))
    · exact .inr fun i hi _ => hp.coeff_eq_zero hjob hi hj

theorem AgreeOn.solvedBefore (h : AgreeOn job e e') {stop : ℕ} (hs : e.SolvedBefore job stop) :
    e'.SolvedBefore job stop :=
  (h.keepsRows hp hjob).solvedBefore hp hjob (fun _ htop hbottom _ => ⟨htop, hbottom⟩) hs

theorem AgreeOn.gradientAt_eq (h : AgreeOn job e e') (hi : i ∈ job.rows.indices) :
    e'.gradientAt i = e.gradientAt i :=
  gradientAt_congr h.problem h.sigma (h.rhs i hi) (dlambda_of_cell (h.row i hi)) fun j hne =>
    h.column j (by_contra fun hj => hne (hp.coeff_eq_zero hjob hi hj))

theorem AgreeOn.done (h : AgreeOn job e e') (hd : Done e job) : Done e' job where
  solved := h.solvedBefore hp hjob hd.solved
  stationary hunchanged i hi := by
    obtain ⟨hact, hin⟩ := mem_jobRows.1 hi
    rw [rowAt_of_cell (h.row i hin)] at hact
    rw [h.gradientAt_eq hp hjob hin]
    exact hd.stationary hunchanged i (mem_jobRows.2 ⟨hact, hin⟩)

theorem Due.of_agreeOn (hd : Due s free act e job) (h : AgreeOn job e e') (hfactor : e'.factor = e.factor)
    (houter : ∀ k ∉ job.rows.indices, ∀ j ∈ job.cols.indices, e.problem.a.coeff k j ≠ 0 →
      coord e'.dlambda k = coord e.dlambda k) : Due s free act e' job where
  fits :=
    { covers := h.problem ▸ hd.fits.covers
      sigma_pos := h.sigma ▸ hd.fits.sigma_pos
      factor := by rw [hfactor, hd.fits.factor, h.problem, h.sigma]
      rows := fun i htop hbottom => by rw [hd.fits.rows i htop hbottom, rowAt_of_cell (h.row i ⟨htop, hbottom⟩)]
      cols := fun j htop hbottom => by rw [hd.fits.cols j htop hbottom, colAt_of_cell (h.column j ⟨htop, hbottom⟩)] }
  solved := h.solvedBefore hp hjob hd.solved
  outer k hk j hj hmeets := by
    rw [h.problem] at hmeets
    rw [houter k hk j hj hmeets]
    exact hd.outer k hk j hj hmeets

theorem Quiet.due (hq : Quiet e e') (hd : Due s free act e job) : Due s free act e' job := by
  have h : Confined ∅ ∅ e e' := hq.confined
  exact hd.of_agreeOn hp hjob (h.agreeOn hp hjob (Set.disjoint_empty _) (Set.disjoint_empty _)) h.factor
    fun k _ _ _ _ => dlambda_of_cell (h.row k (Set.notMem_empty k))

theorem SameState.done (h : SameState e e') (hd : Done e job) : Done e' job :=
  (h.agreeOn job).done hp hjob hd

/-- The work on another job leaves a job due: a row of the other job is met by columns of that job only. -/
theorem Confined.due (hg : g.Covers e.problem.tree) (h : Confined g.rows.indices g.cols.indices e e')
    (hseparate : job.Separate g) (hd : Due s free act e job) : Due s free act e' job := by
  refine hd.of_agreeOn hp hjob (h.agreeOn hp hjob hseparate.1 hseparate.2) h.factor fun k _ j hj hmeets => ?_
  refine dlambda_of_cell (h.row k fun hk => ?_)
  refine hmeets (hp.coeff_eq_zero hg hk fun hjg => Set.disjoint_left.1 hseparate.2 hj hjg)

end Agreement

section Job

variable (hp : e.problem.Accepted) (hjob : job.Covers e.problem.tree)

include hp hjob

/-- In the rows of a job the matrix of the factor is that of the working set. -/
theorem FactorFits.system_eq (h : FactorFits s free act e job) {i k : ℕ} (hi : job.rows.start ≤ i ∧ i < job.rows.stop)
    (hk : job.rows.start ≤ k ∧ k < job.rows.stop) : normal e.problem.a free act e.sigma i k = e.system i k :=
  hp.normal_congr hjob hi (h.rows i hi.1 hi.2) (h.rows k hk.1 hk.2) fun j hj _ _ => h.cols j hj.1 hj.2

theorem FactorFits.forwardSolved_iff (h : FactorFits s free act e job) {b y : ℕ → K} {stop : ℕ} :
    ForwardSolved (normal e.problem.a free act e.sigma) (e.jobRows job) b y stop ↔
      ForwardSolved e.system (e.jobRows job) b y stop := by
  have hentry : ∀ i k, job.rows.start ≤ i → i < job.rows.stop → job.rows.start ≤ k → k < job.rows.stop →
      normal e.problem.a free act e.sigma i k = e.system i k := fun i k htop hi htop' hk =>
    h.system_eq hp hjob ⟨htop, hi⟩ ⟨htop', hk⟩
  exact ⟨fun hy => hy.congr_entries (hp.apart hjob) (hp.apart hjob) hentry fun i hi => (mem_jobRows.1 hi).2,
    fun hy => hy.congr_entries (hp.apart hjob) (hp.apart hjob)
      (fun i k htop hi htop' hk => (hentry i k htop hi htop' hk).symm) fun i hi => (mem_jobRows.1 hi).2⟩

/-- After the solve of a due job its rows are forward solved, and the direction of a healthy state solves the Newton
equation. -/
theorem Due.solveJob_ok (hd : Due s free act e job) (hs : e.Sound) : ∃ e', e.solveJob job = .ok e' ∧ e'.Sound ∧
    Confined job.rows.indices job.cols.indices e e' ∧ e'.set = e.set ∧ e'.SolvedBefore job job.rows.stop ∧
      (e.Healthy → e'.Healthy ∧ ∀ i ∈ e'.jobRows job, e'.gradientAt i = e'.hessianAt (e'.directionAt job.rows) i) := by
  have hstop := (hp.job_stop hjob).1
  have hbefore := (hd.fits.forwardSolved_iff hp hjob).2 hd.solved
  have hm : s.Eliminates act (normal e.problem.a free act e.sigma) := hd.fits.covers.eliminates hd.fits.sigma_pos
  have hhalf := (hd.fits.forwardSolved_iff hp hjob).1 (forwardSolved_halfSolution hm hd.fits.rows hbefore)
  have hs' := hs.of_solved job (fun j => (s.column j).filter act) (lower (normal e.problem.a free act e.sigma))
    (pivot (normal e.problem.a free act e.sigma))
  refine ⟨_, hs.solveJob_eq hd.fits.hasColumns hstop, hs', ?_, rfl, ?_, fun h => ⟨⟨hs',
    h.balanced.of_eq rfl (fun _ => rfl) (fun _ => rfl) rfl rfl rfl rfl rfl rfl,
    h.feasible.of_eq (fun _ => rfl) rfl rfl⟩, fun i hi => ?_⟩⟩
  · exact hs.confined_solved (s.lt_column_filter act)
  · intro i hi hbottom
    refine (coord_table _ (hbottom.trans_le hstop)).trans ((hhalf i hi hbottom).trans ?_)
    congr 1
    refine Finset.sum_congr rfl fun k hk => ?_
    have hk := (mem_jobRows.1 (Finset.mem_filter.1 hk).1).2.2
    exact congrArg _ (coord_table _ (hk.trans_le hstop)).symm
  · exact hd.fits.gradientAt_solved hp hjob hstop h.balanced h.feasible hbefore
      (fun k hk j hjtop hjbottom hmeets => hd.outer k hk j ⟨hjtop, hjbottom⟩ hmeets) rfl hi

/-- A job without an active row is done as it stands. -/
theorem Sound.done_of_idle (hs : e.Sound) (hmeets : Schedule.meets e.set.rows job.rows = .ok false) :
    Done e { job with changed := false, mark := none } := by
  rw [hs.meets_ok (hp.job_stop hjob).1, Except.ok.injEq, Option.isSome_eq_false_iff, Option.isNone_iff_eq_none,
    List.head?_eq_none_iff] at hmeets
  refine ⟨fun i _ hi => absurd hi (Nat.not_lt_zero i), fun _ i hi => ?_⟩
  have hi := ActiveSet.mem_activeBetween.2 (mem_jobRows.1 hi)
  rw [hmeets] at hi
  cases hi

/-- The work on a due job. -/
theorem Due.processJob (hd : Due s free act e job) (hs : e.Sound) (hok : e.processJob job = .ok (job', e')) :
    Confined job.rows.indices job.cols.indices e e' ∧ e'.Sound ∧ e'.SolvedBefore job' (job'.mark.getD 0) ∧
      (e.Healthy → e'.Healthy ∧ Done e' job') := by
  obtain ⟨job₁, e₁, hok₁, -, hprocessed, -⟩ := hs.processJob_ok hp ⟨_, _, _, hd.fits.hasColumns⟩ hjob
  obtain ⟨-, rfl⟩ := Prod.mk.inj (Except.ok.inj (hok₁.symm.trans hok))
  have hwhole := hs.confined_processJob hp hjob ⟨_, _, _, hd.fits.hasColumns⟩ hok
  have hruns := (Runs.of_processJob hp hs.regular hjob hok).1
  have hhealthy : e.Healthy → e₁.Healthy := fun h => ⟨hprocessed.sound, h.balanced.of_runs hp hs.regular h.feasible hruns,
    hruns.dualFeasible hs.regular h.feasible⟩
  rcases of_processJob hok with ⟨hmeets, rfl, he⟩ |
    ⟨-, f₁, f₂, f₃, f₄, out, ⟨hq₁, -⟩, hsolve, ⟨hq₂, -⟩, hsearch, ⟨hq₃, -⟩, rfl⟩
  · -- without an active row there is nothing to do
    subst he
    have hdone := hs.done_of_idle hp hjob hmeets
    exact ⟨hwhole, hs, hdone.1, fun h => ⟨h, hdone⟩⟩
  · have hp₁ := hq₁.sameState.problem ▸ hp
    have hjob₁ := hq₁.sameState.problem ▸ hjob
    obtain ⟨f₂', hsolve', hs₂, hconfined, -, hsolved, hnewton⟩ :=
      (hq₁.due hp hjob hd).solveJob_ok hp₁ hjob₁ (hq₁.sameState.sound hs)
    obtain rfl := Except.ok.inj (hsolve'.symm.trans hsolve)
    have hproblem₃ : f₃.problem = e.problem :=
      hq₂.sameState.problem.trans (hconfined.problem.trans hq₁.sameState.problem)
    have hp₃ : f₃.problem.Accepted := hproblem₃ ▸ hp
    have hjob₃ : job.Covers f₃.problem.tree := hproblem₃ ▸ hjob
    obtain ⟨hstop₃, hcols₃⟩ := hp₃.job_stop hjob₃
    have hs₃ := hq₂.sameState.sound hs₂
    have hsearched := hs₃.regular.of_lineSearch hstop₃ hsearch
    have hsolved₃ : f₃.SolvedBefore job job.rows.stop := by
      obtain ⟨_, _, _, _, _, rfl⟩ := hq₂
      exact hsolved
    have hproblem₄ : f₄.problem = f₃.problem := hsearched.frame.problem
    have hsolved₄ : f₄.SolvedBefore { job with changed := out.changed, mark := out.mark } (out.mark.getD 0) :=
      hsearched.solvedBefore hp₃ hjob₃ hs₃.regular hsolved₃
    have hp₄ := hproblem₄ ▸ hp₃
    have hjob₄ := hproblem₄ ▸ hjob₃
    refine ⟨hwhole, hprocessed.sound, ?_, fun h => ⟨hhealthy h, hq₃.sameState.done hp₄ hjob₄
      ⟨hsolved₄, fun hunchanged i hi => ?_⟩⟩⟩
    · obtain ⟨_, _, _, _, _, rfl⟩ := hq₃
      exact hsolved₄
    · have hnewton₃ : ∀ i ∈ f₃.jobRows job, f₃.gradientAt i = f₃.hessianAt (f₃.directionAt job.rows) i := by
        obtain ⟨_, _, _, _, _, rfl⟩ := hq₂
        exact (hnewton (hq₁.sameState.healthy h)).2
      obtain ⟨hset₄, hzero⟩ := hsearched.stationary hp₃ hjob₃
        ((hq₁.due hp hjob hd).fits.sigma_pos.trans_eq (hq₂.sameState.sigma.trans hconfined.sigma).symm) hstop₃ hcols₃
        hnewton₃ hunchanged
      refine hzero i ?_
      rw [jobRows, hset₄] at hi
      exact hi

end Job

section Jobs

/-- The rows of the jobs. -/
def jobsRows (jobs : List Job) : Set ℕ :=
  {i | ∃ job ∈ jobs, i ∈ job.rows.indices}

/-- The columns of the jobs. -/
def jobsCols (jobs : List Job) : Set ℕ :=
  {j | ∃ job ∈ jobs, j ∈ job.cols.indices}

variable {jobs jobs' : List Job}

theorem disjoint_jobsRows {r : Set ℕ} (h : ∀ job ∈ jobs, Disjoint r job.rows.indices) : Disjoint r (jobsRows jobs) := by
  rw [Set.disjoint_left]
  rintro i hi ⟨job, hjob, hin⟩
  exact Set.disjoint_left.1 (h job hjob) hi hin

theorem disjoint_jobsCols {r : Set ℕ} (h : ∀ job ∈ jobs, Disjoint r job.cols.indices) : Disjoint r (jobsCols jobs) := by
  rw [Set.disjoint_left]
  rintro j hj ⟨job, hjob, hin⟩
  exact Set.disjoint_left.1 (h job hjob) hj hin

/-- The work on the jobs of a sweep: each is due when its turn comes, and keeps what it has left until the end. -/
theorem Sound.processDueJobs (hp : e.problem.Accepted) (hs : e.Sound)
    (hcovers : ∀ job ∈ jobs, job.Covers e.problem.tree) (hseparate : jobs.Pairwise Job.Separate)
    (hdue : ∀ job ∈ jobs, Due s free act e job) (hok : e.processJobs jobs = .ok (jobs', e')) :
    Confined (jobsRows jobs) (jobsCols jobs) e e' ∧ e'.Sound ∧ List.Forall₂ Schedule.Reflagged jobs jobs' ∧
      (∀ job ∈ jobs', e'.SolvedBefore job (job.mark.getD 0)) ∧
      (e.Healthy → e'.Healthy ∧ ∀ job ∈ jobs', Done e' job) := by
  induction jobs generalizing e jobs' with
  | nil =>
      rw [Engine.processJobs, pure_eq_ok_iff, Prod.mk.injEq] at hok
      obtain ⟨rfl, rfl⟩ := hok
      exact ⟨.refl e, hs, .nil, fun _ hjob => absurd hjob List.not_mem_nil,
        fun h => ⟨h, fun _ hjob => absurd hjob List.not_mem_nil⟩⟩
  | cons job rest ih =>
      rw [Engine.processJobs] at hok
      simp only [bind_eq_ok_iff, pure_eq_ok_iff, Prod.mk.injEq] at hok
      obtain ⟨⟨job₁, e₁⟩, hfirst, ⟨rest₁, e₂⟩, hrest, rfl, rfl⟩ := hok
      rw [List.pairwise_cons] at hseparate
      have hjob := hcovers job List.mem_cons_self
      obtain ⟨hconfined₁, hs₁, hsolved₁, hdone₁⟩ := (hdue job List.mem_cons_self).processJob hp hjob hs hfirst
      obtain ⟨-, hblock, hrows, hcols⟩ := Runs.of_processJob hp hs.regular hjob hfirst
      have hp₁ := hconfined₁.problem ▸ hp
      have hcovers₁ : ∀ g ∈ rest, g.Covers e₁.problem.tree := fun g hg =>
        hconfined₁.problem ▸ hcovers g (List.mem_cons_of_mem job hg)
      obtain ⟨hconfined₂, hs₂, hflags, hsolved₂, hdone₂⟩ := ih hp₁ hs₁ hcovers₁ hseparate.2 (fun g hg =>
        hconfined₁.due hp (hcovers g (List.mem_cons_of_mem job hg)) hjob (hseparate.1 g hg).symm
          (hdue g (List.mem_cons_of_mem job hg))) hrest
      have hjob₁ : job₁.Covers e₁.problem.tree := by
        rw [Job.Covers, hblock, hrows, hcols, hconfined₁.problem]
        exact hjob
      have hagree : AgreeOn job₁ e₁ e₂ := by
        refine hconfined₂.agreeOn hp₁ hjob₁ (disjoint_jobsRows fun g hg => ?_) (disjoint_jobsCols fun g hg => ?_)
        · rw [hrows]
          exact (hseparate.1 g hg).1
        · rw [hcols]
          exact (hseparate.1 g hg).2
      refine ⟨(hconfined₁.mono (fun i hi => ?_) fun j hj => ?_).trans (hconfined₂.mono ?_ ?_), hs₂,
        .cons ⟨hblock, hrows, hcols⟩ hflags, fun g hg => ?_, fun h => ⟨(hdone₂ (hdone₁ h).1).1, fun g hg => ?_⟩⟩
      · exact ⟨job, List.mem_cons_self, hi⟩
      · exact ⟨job, List.mem_cons_self, hj⟩
      · rintro i ⟨g, hg, hi⟩
        exact ⟨g, List.mem_cons_of_mem job hg, hi⟩
      · rintro j ⟨g, hg, hj⟩
        exact ⟨g, List.mem_cons_of_mem job hg, hj⟩
      · rcases List.mem_cons.1 hg with rfl | hg
        · exact hagree.solvedBefore hp₁ hjob₁ hsolved₁
        · exact hsolved₂ g hg
      · rcases List.mem_cons.1 hg with rfl | hg
        · exact hagree.done hp₁ hjob₁ (hdone₁ h).2
        · exact (hdone₂ (hdone₁ h).1).2 g hg

end Jobs

end Engine

end PolyProjection
