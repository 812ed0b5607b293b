import Mathlib
import PolyProjection.Proofs.Engine.Ascending

/-! Jobs that are queued again. The mark of such a job is gathered while its search goes on, before the factor is
changed, and nothing that a row before it is solved from is touched until the next turn of the job: not by the rest of the
sweep, nor by the changes of the factor, nor by the jobs before it in the next sweep. So the solve from the mark on is the
full solve. -/

namespace PolyProjection

set_option linter.unusedSectionVars false

variable {K : Type} [Field K] [LinearOrder K] [IsStrictOrderedRing K]

namespace Engine

/-- In the sweep from `g`, the engines when the turn of `job` has come. What is counted, timed and told on the way does
not matter. -/
inductive ComesTo (g : Engine K) (job : Job) : Engine K → Prop where
  | intro {g₀ g₁ g₂ : Engine K} {before before' later : List Job} : Quiet g g₀ →
      g.schedule.jobs = before ++ job :: later → g₀.processJobs before = .ok (before', g₁) → Quiet g₁ g₂ →
      ComesTo g job g₂

/-- The right-hand side of row `i`, its pivot and its row of the factor are as they were. -/
structure SameEquation (e e' : Engine K) (i : ℕ) : Prop where
  rhs : coord e'.work.rhs i = coord e.work.rhs i
  pivot : coord e'.factor.diag i = coord e.factor.diag i
  row : ∀ c < i, e'.factor.unitEntry i c = e.factor.unitEntry i c

/-- The half solution of each inactive row of the job before `stop` is its right-hand side. -/
def CopiedBefore (e : Engine K) (job : Job) (stop : ℕ) : Prop :=
  ∀ i ∈ job.rows.indices, i < stop → (e.set.rowAt i).isActive = false → coord e.work.fwd i = coord e.work.rhs i

variable {e e' g g' : Engine K} {s : Fill} {free act free' act' : ℕ → Bool} {job job' : Job} {jobs jobs' : List Job}
  {p p' : ℕ → Prop} {i m stop : ℕ}

theorem KeepsRows.copiedBefore (h : KeepsRows p e e') (hbefore : ∀ i ∈ job.rows.indices, i < stop → p i)
    (hc : e.CopiedBefore job stop) : e'.CopiedBefore job stop := by
  intro i hi hstop hinactive
  have hkept := hbefore i hi hstop
  rw [h.row i hkept] at hinactive
  rw [h.fwd i hkept, h.rhs i hkept]
  exact hc i hi hstop hinactive

theorem Quiet.keepsRows (hq : Quiet e e') : KeepsRows p e e' := by
  obtain ⟨_, _, _, _, _, rfl⟩ := hq
  exact .of_eq rfl rfl (fun _ => rfl) (fun _ => rfl) rfl rfl

section Solve

variable (h : Turn s free act e job)

include h

/-- The solve leaves the inactive rows of the job at what they begin with. -/
theorem Turn.halfSolution_of_inactive (hi : i ∈ job.rows.indices) (hinactive : (e.set.rowAt i).isActive = false)
    (l : ℕ → ℕ → K) (mark : Option ℕ) :
    e.halfSolution { job with mark := mark } (fun j => (s.column j).filter act) l i =
      e.forwardStart { job with mark := mark } i := by
  have hlt := s.lt_column_filter act
  rw [halfSolution, LdlFactor.foldl_pass_eq hlt (e.set.activeBetween_ascending _ _), List.sum_eq_zero, sub_zero]
  intro v hv
  obtain ⟨j, -, rfl⟩ := List.mem_map.1 hv
  refine if_neg fun hall => ?_
  have hact : act i = true := List.of_mem_filter hall.1
  rw [h.due.fits.rows i hi.1 hi.2, hinactive] at hact
  cases hact

theorem Turn.copiedBefore (hc : e.CopiedBefore job (job.mark.getD 0)) (hok : e.solveJob job = .ok e') :
    e'.CopiedBefore job job.rows.stop := by
  have hstop := (h.accepted.job_stop h.covers).1
  obtain rfl := Except.ok.inj ((h.sound.solveJob_eq h.due.fits.hasColumns hstop).symm.trans hok)
  intro i hi _ hinactive
  replace hinactive : (e.set.rowAt i).isActive = false := hinactive
  have hfwd : coord (table e.problem.nrows (e.halfSolution job (fun j => (s.column j).filter act)
      (lower (normal e.problem.a free act e.sigma)))) i = e.forwardStart job i := by
    rw [coord_table _ (hi.2.trans_le hstop)]
    exact h.halfSolution_of_inactive hi hinactive _ job.mark
  refine hfwd.trans ?_
  by_cases hmark : i < job.mark.getD 0
  · rw [forwardStart_before hmark]
    exact hc i hi hmark hinactive
  · exact forwardStart_after (not_lt.1 hmark) hi

/-- A solve from the mark on is a full solve. -/
theorem Turn.halfSolution_unmarked (hc : e.CopiedBefore job (job.mark.getD 0)) :
    e.halfSolution job (fun j => (s.column j).filter act) (lower (normal e.problem.a free act e.sigma)) =
      e.halfSolution { job with mark := none } (fun j => (s.column j).filter act)
        (lower (normal e.problem.a free act e.sigma)) := by
  have hm : s.Eliminates act (normal e.problem.a free act e.sigma) := h.due.fits.covers.eliminates h.due.fits.sigma_pos
  have hlt := s.lt_column_filter act
  have hsolved := (h.due.fits.forwardSolved_iff h.accepted h.covers).2 h.due.solved
  have hfull : ForwardSolved (normal e.problem.a free act e.sigma) (e.jobRows { job with mark := none })
      (coord e.work.rhs) (e.halfSolution { job with mark := none } (fun j => (s.column j).filter act)
        (lower (normal e.problem.a free act e.sigma))) job.rows.stop :=
    forwardSolved_halfSolution hm h.due.fits.rows fun i _ hi => absurd hi (Nat.not_lt_zero i)
  have hinside : ∀ k ∈ job.rows.indices, e.forwardStart { job with mark := none } k = coord e.work.rhs k :=
    fun k hin => forwardStart_after (Nat.zero_le k) hin
  have houtside : ∀ k ∉ job.rows.indices, e.forwardStart { job with mark := none } k = coord e.work.fwd k :=
    fun k hin => forwardStart_outside hin
  have hinner : ∀ j ∈ e.set.activeBetween job.rows.start job.rows.stop, job.rows.start ≤ j := fun j hj =>
    (ActiveSet.mem_activeBetween.1 hj).2.1
  funext i
  refine LdlFactor.foldl_pass_marked hlt (e.set.activeBetween_ascending _ _) (fun k hk => ?_) (fun k hk => ?_) i
  · rw [forwardStart_before hk]
    by_cases hin : k ∈ job.rows.indices
    · by_cases hact : (e.set.rowAt k).isActive = true
      · exact hsolved.unique hfull (mem_jobRows.2 ⟨hact, hin⟩) hk hin.2
      · have hinactive : (e.set.rowAt k).isActive = false := Bool.eq_false_iff.2 hact
        refine (hc k hin hk hinactive).trans (Eq.trans ?_ (h.halfSolution_of_inactive hin hinactive _ none).symm)
        exact (hinside k hin).symm
    · have hout : k < job.rows.start ∨ job.rows.stop ≤ k := by
        by_contra hneither
        exact hin ⟨not_lt.1 fun hlow => hneither (.inl hlow), not_le.1 fun hhigh => hneither (.inr hhigh)⟩
      rw [LdlFactor.foldl_pass_outside hlt hinner hout]
      exact (houtside k hin).symm
  · by_cases hin : k ∈ job.rows.indices
    · rw [forwardStart_after hk hin, hinside k hin]
    · rw [forwardStart_outside hin, houtside k hin]

/-- The solve from the mark on and the full solve lead to the same state. -/
theorem Turn.solveJob_unmarked (hc : e.CopiedBefore job (job.mark.getD 0)) :
    ∃ e', e.solveJob job = .ok e' ∧ e.solveJob { job with mark := none } = .ok e' := by
  have hstop := (h.accepted.job_stop h.covers).1
  have hsolve : e.solveJob { job with mark := none } = .ok (e.solved { job with mark := none } _ _ _) :=
    h.sound.solveJob_eq h.due.fits.hasColumns hstop
  refine ⟨_, h.sound.solveJob_eq h.due.fits.hasColumns hstop, hsolve.trans ?_⟩
  rw [Except.ok.injEq]
  have hhalf := h.halfSolution_unmarked hc
  have hfull : e.solution { job with mark := none } (fun j => (s.column j).filter act)
      (lower (normal e.problem.a free act e.sigma)) (pivot (normal e.problem.a free act e.sigma)) =
        e.solution job (fun j => (s.column j).filter act) (lower (normal e.problem.a free act e.sigma))
          (pivot (normal e.problem.a free act e.sigma)) := by
    rw [solution, solution, hhalf]
  have hstep : e.newtonStep { job with mark := none } (fun j => (s.column j).filter act)
      (lower (normal e.problem.a free act e.sigma)) (pivot (normal e.problem.a free act e.sigma)) =
        e.newtonStep job (fun j => (s.column j).filter act) (lower (normal e.problem.a free act e.sigma))
          (pivot (normal e.problem.a free act e.sigma)) := by
    funext i
    rw [newtonStep, newtonStep, hfull]
  rw [solved, solved, hstep, hfull, hhalf]

end Solve

/-- The factor of a row depends on the equations of the rows of the job up to it. -/
theorem KeepsRows.sameEquation (hfits : FactorFits s free act e job) (hfits' : FactorFits s free' act' e' job')
    (hp : e.problem.Accepted) (hjob : job.Covers e.problem.tree) (hjob' : job'.Covers e'.problem.tree)
    (hrows : job'.rows = job.rows) (h : KeepsRows p e e') (hi : i ∈ job.rows.indices)
    (hbefore : ∀ k ∈ job.rows.indices, k ≤ i → p k) : SameEquation e e' i := by
  have hp' : e'.problem.Accepted := h.problem ▸ hp
  have hstop := (hp.job_stop hjob).1
  have hsize : s.size = e.problem.nrows := hfits.covers.size_eq
  have hle : i + 1 ≤ job.rows.stop := hi.2
  -- up to the row the matrix of the factor is the same
  have happart : Apart (normal e.problem.a free act e.sigma) job.rows.start (i + 1) := (hp.apart hjob).mono hle
  have happart' : Apart (normal e'.problem.a free' act' e'.sigma) job.rows.start (i + 1) :=
    (hrows ▸ hp'.apart hjob').mono hle
  have hentry : ∀ k l, job.rows.start ≤ k → k < i + 1 → job.rows.start ≤ l → l < i + 1 →
      normal e'.problem.a free' act' e'.sigma k l = normal e.problem.a free act e.sigma k l := by
    intro k l htop hk htop' hl
    have hkin : k ∈ job.rows.indices := ⟨htop, by omega⟩
    have hlin : l ∈ job.rows.indices := ⟨htop', by omega⟩
    rw [hfits.system_eq hp hjob hkin hlin, hfits'.system_eq hp' hjob' (hrows ▸ hkin) (hrows ▸ hlin)]
    exact h.system_eq hp hjob hkin (hbefore k hkin (by omega)) (hbefore l hlin (by omega))
  have hlt : i < s.size := by
    rw [hsize]
    exact hi.2.trans_le hstop
  refine ⟨h.rhs i (hbefore i hi le_rfl), ?_, fun c hc => ?_⟩
  · rw [hfits.factor, hfits'.factor, Fill.canonical, Fill.canonical, Fill.diag_factor, Fill.diag_factor, coord_table _ hlt,
      coord_table _ hlt, pivot, pivot]
    exact happart'.schur_congr happart hentry hi.1 le_rfl (Nat.lt_succ_self i) le_rfl (Nat.lt_succ_self i)
  · rw [hfits.factor, hfits'.factor, LdlFactor.unitEntry_canonical hfits.covers hfits.sigma_pos (hc.trans hlt),
      LdlFactor.unitEntry_canonical hfits'.covers hfits'.sigma_pos (hc.trans hlt), unitLower, unitLower,
      if_neg hc.ne', if_neg hc.ne', if_pos hc, if_pos hc]
    by_cases htop : c < job.rows.start
    · rw [happart.lower_eq_zero hi.1 (Nat.lt_succ_self i) htop, happart'.lower_eq_zero hi.1 (Nat.lt_succ_self i) htop]
    · exact happart'.lower_congr happart hentry (not_lt.1 htop) hc.le (Nat.lt_succ_self i)

section Sweep

/-- From its solve on, the work on a job leaves the rows before the new mark as they were. -/
theorem Turn.processJob (h : Turn s free act e job) (hok : e.processJob job = .ok (job', e'))
    (hmark : job'.mark = some m) : ∃ f f', Quiet e f ∧ f.solveJob job = .ok f' ∧ KeepsRows (· < m) f' e' := by
  rcases of_processJob hok with ⟨-, rfl, -⟩ | ⟨-, f, f', f₁, f₂, out, ⟨hq, -⟩, hsolve, ⟨hq₁, -⟩, hsearch, ⟨hq₂, -⟩, rfl⟩
  · cases hmark
  · have hturn := hq.turn h
    obtain ⟨f'', hsolve', hs, hconfined, -⟩ := hturn.due.solveJob_ok hturn.accepted hturn.covers hturn.sound
    obtain rfl := Except.ok.inj (hsolve'.symm.trans hsolve)
    have hs₁ := hq₁.sameState.sound hs
    have hproblem : f₁.problem = f.problem := hq₁.sameState.problem.trans hconfined.problem
    have hsearched := hs₁.regular.of_lineSearch (hproblem ▸ (hturn.accepted.job_stop hturn.covers).1) hsearch
    have hkeeps : KeepsRows (· < m) f₁ f₂ := hsearched.keepsRows hs₁.regular hmark
    exact ⟨f, _, hq, hsolve, (hq₁.keepsRows.trans hkeeps fun _ hi => hi).trans hq₂.keepsRows fun _ hi => hi⟩

/-- Each job that comes out of a sweep has been processed in its turn, and the jobs after it leave its part alone. -/
theorem Sound.job_of_processDueJobs (hp : e.problem.Accepted) (hs : e.Sound)
    (hcovers : ∀ job ∈ jobs, job.Covers e.problem.tree) (hseparate : jobs.Pairwise Job.Separate)
    (hdue : ∀ job ∈ jobs, Due s free act e job) (hok : e.processJobs jobs = .ok (jobs', e')) (hjob : job' ∈ jobs') :
    ∃ before job later before' g g', jobs = before ++ job :: later ∧ e.processJobs before = .ok (before', g) ∧
      Turn s free act g job ∧ g.processJob job = .ok (job', g') ∧ AgreeOn job g' e' := by
  induction jobs generalizing e jobs' with
  | nil =>
      rw [Engine.processJobs, pure_eq_ok_iff, Prod.mk.injEq] at hok
      obtain ⟨rfl, -⟩ := hok
      cases hjob
  | cons first rest ih =>
      rw [Engine.processJobs] at hok
      simp only [bind_eq_ok_iff, pure_eq_ok_iff, Prod.mk.injEq] at hok
      obtain ⟨⟨first', e₁⟩, hfirst, ⟨rest', e₂⟩, hrest, rfl, rfl⟩ := hok
      rw [List.pairwise_cons] at hseparate
      have hcover := hcovers first List.mem_cons_self
      have hturn : Turn s free act e first := ⟨hp, hcover, hs, hdue first List.mem_cons_self⟩
      obtain ⟨hconfined, hs₁, -⟩ := hturn.due.processJob hp hcover hs hfirst
      have hp₁ := hconfined.problem ▸ hp
      have hcovers₁ : ∀ g ∈ rest, g.Covers e₁.problem.tree := fun g hg =>
        hconfined.problem ▸ hcovers g (List.mem_cons_of_mem first hg)
      have hdue₁ : ∀ g ∈ rest, Due s free act e₁ g := fun g hg =>
        hconfined.due hp (hcovers g (List.mem_cons_of_mem first hg)) hcover (hseparate.1 g hg).symm
          (hdue g (List.mem_cons_of_mem first hg))
      rcases List.mem_cons.1 hjob with rfl | hjob
      · obtain ⟨hconfined₂, -⟩ := hs₁.processDueJobs hp₁ hcovers₁ hseparate.2 hdue₁ hrest
        refine ⟨[], first, rest, [], e, e₁, rfl, rfl, hturn, hfirst, ?_⟩
        exact hconfined₂.agreeOn hp₁ (hconfined.problem ▸ hcover) (disjoint_jobsRows fun g hg => (hseparate.1 g hg).1)
          (disjoint_jobsCols fun g hg => (hseparate.1 g hg).2)
      · obtain ⟨before, job, later, before', g, g', rfl, hbefore, hlater⟩ :=
          ih hp₁ hs₁ hcovers₁ hseparate.2 hdue₁ hrest hjob
        refine ⟨first :: before, job, later, first' :: before', g, g', rfl, ?_, hlater⟩
        rw [Engine.processJobs, hfirst, ok_bind]
        exact bind_eq_ok_iff.2 ⟨_, hbefore, rfl⟩

variable {e₁ e₂ e₃ : Engine K} {refactored : Bool} {schedule : Schedule}

/-- When the turn of a job comes, it can be worked on, and its part of the state is that at the start of the sweep. -/
theorem ComesTo.turn (hprepared : Prepared s e) (h : e.ComesTo job g) : job ∈ e.schedule.jobs ∧
    Turn s (fun j => e.set.colAt j == .free) (fun i => (e.set.rowAt i).isActive) g job ∧
      KeepsRows (· ∈ job.rows.indices) e g := by
  obtain ⟨hq, hjobs, hbefore, hq'⟩ := h
  have hmem : job ∈ e.schedule.jobs := hjobs ▸ List.mem_append_right _ List.mem_cons_self
  obtain ⟨hturn, hagree⟩ := hprepared.turn hq hjobs hbefore List.mem_cons_self
  exact ⟨hmem, hq'.turn hturn,
    (hagree.keepsRows hprepared.accepted (hprepared.covers job hmem)).trans hq'.keepsRows fun _ hi => hi⟩

/-- A job with a mark has been solved in the last sweep, and its rows before the mark are as they were after that
solve. -/
theorem Stages.requeued (h : Prepared s e) (hst : Stages s e e₁ e₂ e₃ jobs refactored none schedule e')
    (hjob : job' ∈ e'.schedule.jobs) (hmark : job'.mark = some m) : ∃ job f f', e.ComesTo job f ∧
      f.solveJob job = .ok f' ∧ job.block = job'.block ∧ job.rows = job'.rows ∧
      KeepsRows (fun i => i ∈ job.rows.indices ∧ i < m) f' e' := by
  have hadvanced := hst.advanced
  rw [hst.last.schedule] at hjob
  cases hadvanced with
  | next hne hnext hqueued =>
      rcases (hqueued.mem_iff job').1 hjob with ⟨done, hdone, -, rfl⟩ | ⟨hfresh, -⟩
      · cases refactored with
        | true => cases hmark
        | false =>
            have hmark : done.mark = some m := hmark
            have hq := hst.start.quiet
            have hproblem := hq.sameState.problem
            obtain ⟨before, job, later, before', g, g', hjobs, hbefore, hturn, hprocess, hagree⟩ :=
              (hq.sameState.sound h.sound).job_of_processDueJobs (hproblem ▸ h.accepted) (hproblem ▸ h.covers) h.separate
                (fun job hjob => hq.due h.accepted (h.covers job hjob) (h.due hjob)) hst.processed hdone
            obtain ⟨-, hblock, hrows, -⟩ := Runs.of_processJob hturn.accepted hturn.sound.regular hturn.covers hprocess
            obtain ⟨f, f', hq', hsolve, hkeeps⟩ := hturn.processJob hprocess hmark
            have hmem : job ∈ e.schedule.jobs := hjobs ▸ List.mem_append_right _ List.mem_cons_self
            -- the rest of the sweep and the commit
            have hproblem₂ : e₂.problem = e.problem := (hst.confined h).1.problem
            have hp₂ : e₂.problem.Accepted := hproblem₂ ▸ h.accepted
            have hcovers₂ : job.Covers e₂.problem.tree := hproblem₂ ▸ h.covers job hmem
            have hrest : KeepsRows (· ∈ job.rows.indices) g' e₂ :=
              hagree.keepsRows (hagree.problem ▸ hp₂) (hagree.problem ▸ hcovers₂)
            have hscheduled : KeepsRows (· ∈ job.rows.indices) e₂ { e₂ with schedule := schedule } :=
              .of_eq rfl rfl (fun _ => rfl) (fun _ => rfl) rfl rfl
            have hlast : KeepsRows (· ∈ job.rows.indices) { e₂ with schedule := schedule } e' :=
              (hst.last.agreeOn job).keepsRows (e := { e₂ with schedule := schedule }) hp₂ hcovers₂
            have hend : KeepsRows (· ∈ job.rows.indices) g' e' :=
              (hrest.trans hscheduled fun _ hi => hi).trans hlast fun _ hi => hi
            exact ⟨job, f, f', .intro hq hjobs hbefore hq', hsolve, hblock.symm, hrows.symm,
              (hkeeps.mono fun _ hi => hi.2).trans (hend.mono fun _ hi => hi.1) fun _ hi => hi⟩
      · rw [hfresh.flags.2] at hmark
        cases hmark

/-- A run begins each of its sweeps with the inactive rows of each job at their right-hand sides before the mark. -/
theorem SweepStart.copiedBefore (hp : e.problem.Accepted) (hs : e.Sound) (ht : Tracked s e) (h : e.SweepStart g) :
    ∀ job ∈ g.schedule.jobs, g.CopiedBefore job (job.mark.getD 0) := by
  induction h with
  | first hrebase hcommit hactive hseed =>
      intro job hjob i _ hi
      have hrebased := hs.regular.of_rebase hrebase
      have hsame := sameState_of_commit hcommit
      have hs₂ := hsame.sound (hs.of_rebase hrebase)
      have hproblem := hsame.problem.trans hrebased.problem_eq
      rw [hs₂.regular.set.activeCount_eq, ne_eq, List.length_eq_zero_iff] at hactive
      have hfresh := (Schedule.Stands.of_seed (hproblem ▸ hp).tree.1.tested (hs₂.lists (hproblem ▸ hp)) hactive hseed).2
      rw [(hfresh job hjob).flags.2] at hi
      exact absurd hi (Nat.not_lt_zero i)
  | next hstart hsweep ih =>
      intro job' hjob'
      cases hmark : job'.mark with
      | none => exact fun i _ hi => absurd hi (Nat.not_lt_zero i)
      | some m =>
          have hprepared := hstart.prepared hp hs ht
          obtain ⟨_, _, _, _, _, _, hst⟩ := hprepared.toAtSweep.of_sweep hsweep
          obtain ⟨job, f, f', hcomes, hsolve, -, hrows, hkeeps⟩ := hst.requeued hprepared hjob' hmark
          obtain ⟨hmem, hturn, hpart⟩ := hcomes.turn hprepared
          have hcopied := hturn.copiedBefore (hpart.copiedBefore (fun _ hi _ => hi) (ih job hmem)) hsolve
          rw [CopiedBefore, ← hrows]
          exact hkeeps.copiedBefore (fun i hi hlt => ⟨hi, hlt⟩) fun i hi _ => hcopied i hi hi.2

/-- Before the mark of a job, the equations are those of its last solve when its turn comes again. -/
theorem Prepared.sameEquation {number : ℕ} {f : Engine K} (h : Prepared s g) (h' : Prepared s g')
    (hsweep : g.sweep number = .ok (none, g')) (hcomes : g'.ComesTo job f) (hmark : job.mark = some m) :
    ∃ last f₀ f₁, g.ComesTo last f₀ ∧ f₀.solveJob last = .ok f₁ ∧ last.block = job.block ∧
      ∀ i ∈ job.rows.indices, i < m → SameEquation f₁ f i := by
  obtain ⟨_, _, _, _, _, _, hst⟩ := h.toAtSweep.of_sweep hsweep
  obtain ⟨hmem, hturn, hpart⟩ := hcomes.turn h'
  obtain ⟨last, f₀, f₁, hlast, hsolve, hblock, hrows, hkeeps⟩ := hst.requeued h hmem hmark
  obtain ⟨-, hturn₀, -⟩ := hlast.turn h
  refine ⟨last, f₀, f₁, hlast, hsolve, hblock, fun i hi hlt => ?_⟩
  obtain ⟨hfits, hproblem⟩ : FactorFits s (fun j => g.set.colAt j == .free) (fun i => (g.set.rowAt i).isActive) f₁
      last ∧ f₁.problem = f₀.problem := by
    obtain ⟨_, _, _, _, rfl⟩ := of_solveJob hsolve
    exact ⟨{ hturn₀.due.fits with }, rfl⟩
  have hkept : KeepsRows (fun i => i ∈ job.rows.indices ∧ i < m) f₁ f :=
    (hrows ▸ hkeeps).trans (hpart.mono fun k hk => hk.1) fun _ hk => hk
  exact hkept.sameEquation hfits hturn.due.fits (hproblem ▸ hturn₀.accepted) (hproblem ▸ hturn₀.covers) hturn.covers
    hrows.symm (hrows ▸ hi) fun k hk hki => ⟨hrows ▸ hk, hki.trans_lt hlt⟩

end Sweep

variable {p : Problem K} {settings : Settings K} {e₀ f : Engine K} {number : ℕ}

/-- Seven rows that share no column, each with one as its lower bound; the point meets the bound of the fourth. -/
def sevenRows : Checked (Except ProblemError (Problem ℚ)) :=
  Problem.create ⟨7, 7, #[0, 1, 2, 3, 4, 5, 6, 7], #[0, 1, 2, 3, 4, 5, 6], #[1, 1, 1, 1, 1, 1, 1]⟩
    (Array.replicate 7 (.finite 1)) (Array.replicate 7 .posInf) (Array.replicate 7 .negInf) (Array.replicate 7 .posInf)
    #[0, 0, 0, 2, 0, 0, 0]

/-- The jobs of the first sweep over seven rows. -/
def sweepSevenRows : Checked (Problem ℚ × Engine ℚ × Engine ℚ × List Job × Engine ℚ) := do
  let p ← accepted sevenRows
  let created ← accepted (create p plain)
  let e ← created.holdRows 7
  let g ← e.firstSweep
  let (jobs, e₂) ← g.inSweep.processJobs g.schedule.jobs
  return (p, e, g, jobs, e₂)

/-- The search drops the fourth row. -/
theorem exists_sweepSevenRows : ∃ (p : Problem ℚ) (e g e₂ : Engine ℚ) (done : Job), p.Accepted ∧ Reachable p plain e ∧
    e.SweepStart g ∧ g.inSweep.processJobs g.schedule.jobs = .ok ([done], e₂) ∧ done.changed = true ∧
    done.mark = some 3 ∧ e₂.set.rows.size ≠ 0 := by
  obtain ⟨⟨p, e, g, jobs, e₂⟩, hrun, hcheck⟩ := exists_of_passes (x := sweepSevenRows)
    (f := fun r => decide (r.2.2.2.1.map (fun job : Job => (job.changed, job.mark)) = [(true, some 3)]) &&
      decide (r.2.2.2.2.set.rows.size ≠ 0)) (by decide +kernel)
  unfold sweepSevenRows at hrun
  simp only [bind_eq_ok_iff, accepted_eq_ok_iff, pure_eq_ok_iff, Prod.mk.injEq] at hrun
  obtain ⟨p, hp, created, hcreate, e, hhold, g, hfirst, ⟨jobs, e₂⟩, hjobs, rfl, rfl, rfl, rfl, rfl⟩ := hrun
  simp only [Bool.and_eq_true, decide_eq_true_eq] at hcheck
  obtain ⟨hflags, hsize⟩ := hcheck
  obtain ⟨done, rfl, hdone⟩ := List.map_eq_singleton_iff.1 hflags
  obtain ⟨hchanged, hmark⟩ := Prod.mk.inj hdone
  exact ⟨p, e, g, e₂, done, .create hp, (Reachable.create hcreate).holdRows hhold, sweepStart_of_firstSweep hfirst, hjobs,
    hchanged, hmark, hsize⟩

end Engine

end PolyProjection
