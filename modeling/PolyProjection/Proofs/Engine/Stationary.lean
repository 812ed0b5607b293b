import Mathlib
import PolyProjection.Proofs.Engine.Converged
import PolyProjection.Proofs.Engine.Sweeping
import PolyProjection.Proofs.Engine.Upkeep

/-! Sweeps keep resolved blocks stationary. The rows of a resolved block that waits for its parent are met by columns of
its own subtree and of the subtrees below it, and no job works there; the rows above the jobs have not moved at all. So
when the root is resolved, the gradient is zero at every active row. -/

namespace PolyProjection.Engine

set_option linter.unusedSectionVars false

variable {K : Type} [Field K] [LinearOrder K] [IsStrictOrderedRing K]

/-- At the start of a sweep the factor is that of the working set, the rows above the jobs have not moved, and each job is
solved before its mark. -/
structure Prepared (s : Fill) (e : Engine K) : Prop extends AtSweep s e where
  matched : Matches s e
  outer : ∀ job ∈ e.schedule.jobs, ∀ i, e.problem.tree.Descends job.block (e.problem.tree.blockOfRow i) →
    e.problem.tree.blockOfRow i ≠ job.block → coord e.dlambda i = 0
  solved : ∀ job ∈ e.schedule.jobs, e.SolvedBefore job (job.mark.getD 0)

/-- At the start of a sweep that is prepared the vectors are in step, and the rows of a resolved block that no job covers
are stationary. -/
structure Poised (s : Fill) (e : Engine K) : Prop extends Prepared s e where
  healthy : e.Healthy
  settled : ∀ i, (e.set.rowAt i).isActive = true →
    e.problem.tree.blockOfRow i ∈ e.schedule.resolved e.problem.tree →
    (∀ job ∈ e.schedule.jobs, ¬e.problem.tree.Descends (e.problem.tree.blockOfRow i) job.block) → e.gradientAt i = 0

/-- The stages of a sweep: the jobs are processed, their changes are committed, and the schedule goes on. -/
structure Stages (s : Fill) (e e₁ e₂ e₃ : Engine K) (jobs : List Job) (refactored : Bool) (status? : Option Status)
    (schedule : Schedule) (e' : Engine K) : Prop where
  start : Aside e e₁
  processed : e₁.processJobs e.schedule.jobs = .ok (jobs, e₂)
  flags : List.Forall₂ Schedule.Reflagged e.schedule.jobs jobs
  kept : (∀ job ∈ jobs, job.changed = false) → e₂.set.activeList.length = e.set.activeList.length
  commit_eq : ∃ isPartial, commit { e₂ with schedule := { e.schedule with jobs := jobs } } isPartial = .ok (refactored, e₃)
  committed : SameState { e₂ with schedule := { e.schedule with jobs := jobs } } e₃
  matched : Matches s e₃
  settled : e₃.Settled
  advanced : Schedule.Advanced e.problem.tree e₃.set.activeList refactored (e.schedule.resolved e.problem.tree) jobs
    status? schedule
  finished : Aside { e₃ with schedule := schedule } e'

variable {s : Fill} {e e₁ e₂ e₃ e' : Engine K} {jobs : List Job} {job : Job} {refactored : Bool}
  {status? : Option Status} {schedule : Schedule} {number i : ℕ}

theorem AtSweep.of_sweep (h : AtSweep s e) (hok : e.sweep number = .ok (status?, e')) :
    ∃ e₁ e₂ e₃ jobs refactored schedule, Stages s e e₁ e₂ e₃ jobs refactored status? schedule e' := by
  obtain ⟨jobs, e₂, refactored, e₃, hjobs, hcommit, -, hw⟩ := h.worked
  obtain ⟨status, schedule, hadvance, hadvanced⟩ := hw.advance_ok h refactored
  obtain ⟨_, _, _, _, _, hjobs', hcommit', -, hadvance', hfinished⟩ := Engine.of_sweep hok
  obtain ⟨rfl, rfl⟩ := Prod.mk.inj (Except.ok.inj (hjobs.symm.trans hjobs'))
  obtain ⟨rfl, rfl⟩ := Prod.mk.inj (Except.ok.inj (hcommit.symm.trans hcommit'))
  rw [hw.problem] at hadvance'
  obtain ⟨rfl, rfl⟩ := Prod.mk.inj (Except.ok.inj (hadvance.symm.trans hadvance'))
  have hstate := sameState_of_commit hcommit
  have hschedule : { e₂.schedule with jobs := jobs } = { e.schedule with jobs := jobs } :=
    hstate.schedule.symm.trans hw.schedule
  rw [hschedule] at hcommit hstate
  refine ⟨e.inSweep, e₂, e₃, jobs, refactored, schedule, e.aside_inSweep, hjobs, hw.flags, fun hnone => ?_,
    ⟨_, hcommit⟩, hstate, hw.matched, hw.settled, hadvanced, hfinished⟩
  -- unchanged jobs have taken nothing out, so the rows that are left are those there were
  have hle : ¬e.shed < e₃.shed := fun hlt => by
    obtain ⟨job, hjob, hc⟩ := hw.changed.2 hlt
    rw [hnone job hjob] at hc
    cases hc
  have hlist : e₃.set.activeList = e₂.set.activeList := ActiveSet.activeList_congr hstate.rowAt
  have hcounted := hw.counted
  have hdropped := hw.dropped
  rw [← hlist]
  simp only [shed] at hle
  omega

/-- At the start of a sweep each job is due. -/
theorem Prepared.due (h : Prepared s e) (hjob : job ∈ e.schedule.jobs) :
    Due s (fun j => e.set.colAt j == .free) (fun i => (e.set.rowAt i).isActive) e job where
  fits := by
    obtain ⟨_, _, htracks⟩ := h.tracked
    exact ⟨htracks.covers, htracks.sigma_pos, h.matched.factor, fun _ _ _ => rfl, fun _ _ _ => rfl⟩
  solved := h.solved job hjob
  outer k hk j hj hmeets := by
    obtain ⟨hdescends, hne⟩ := h.accepted.descends_of_meets (h.covers job hjob) hj hmeets hk
    exact h.outer job hjob k hdescends hne

theorem AtSweep.separate (h : AtSweep s e) : e.schedule.jobs.Pairwise Job.Separate := by
  refine (h.stands.disjoint h.accepted.tree.1.tested h.covers).imp fun {a b} hab => ⟨?_, ?_⟩
  · exact Set.disjoint_left.2 fun i ha hb => absurd (ha.2.trans_le hab.1) (not_lt.2 hb.1)
  · exact Set.disjoint_left.2 fun i ha hb => absurd (ha.2.trans_le hab.2) (not_lt.2 hb.1)

section Sweep

variable (h : Prepared s e) (hst : Stages s e e₁ e₂ e₃ jobs refactored status? schedule e')

include h hst

/-- What the jobs have left at the end of the sweep. -/
theorem Stages.confined : Confined (jobsRows e.schedule.jobs) (jobsCols e.schedule.jobs) e e₂ ∧ e₂.Sound ∧
    (∀ job ∈ jobs, e₂.SolvedBefore job (job.mark.getD 0)) ∧
      (e.Healthy → e₂.Healthy ∧ ∀ job ∈ jobs, Done e₂ job) := by
  have hproblem₁ := hst.start.quiet.sameState.problem
  obtain ⟨hconfined, hs₂, -, hsolved, hdone⟩ := (hst.start.quiet.sameState.sound h.sound).processDueJobs
    (hproblem₁ ▸ h.accepted) (hproblem₁ ▸ h.covers) h.separate
    (fun job hjob => hst.start.quiet.due h.accepted (h.covers job hjob) (h.due hjob)) hst.processed
  exact ⟨hst.start.quiet.confined.trans hconfined, hs₂, hsolved, fun hh => hdone (hst.start.quiet.sameState.healthy hh)⟩

/-- The jobs as they come out have the blocks that went in. -/
theorem Stages.exists_block : ∀ k, (∃ g ∈ jobs, g.block = k) ↔ ∃ job ∈ e.schedule.jobs, job.block = k := by
  intro k
  have hblocks := Schedule.blocks_of_reflagged hst.flags
  rw [← List.mem_map, hblocks, List.mem_map]

theorem Stages.notMem_jobsRows (hout : ∀ g ∈ jobs, ¬e.problem.tree.Descends (e.problem.tree.blockOfRow i) g.block) :
    i ∉ jobsRows e.schedule.jobs := by
  rintro ⟨job, hjob, hi⟩
  obtain ⟨g, hg, hblock⟩ := (hst.exists_block h job.block).2 ⟨job, hjob, rfl⟩
  exact hout g hg (hblock ▸ ((h.accepted.tree.1.tested.mem_subtreeRows (h.covers job hjob).1).2 i).1 hi)

omit h in
/-- But for the schedule and the factor, the state at the end of the sweep is that after the jobs. -/
theorem Stages.last : SameState { e₂ with schedule := schedule } e' := by
  have hcommitted := hst.committed
  have hscheduled : SameState { e₂ with schedule := schedule } { e₃ with schedule := schedule } :=
    ⟨hcommitted.problem, hcommitted.settings, hcommitted.sigma, hcommitted.set, hcommitted.lambda,
      hcommitted.dlambda, hcommitted.x, hcommitted.work, hcommitted.heap, rfl⟩
  exact hscheduled.trans hst.finished.quiet.sameState

/-- The rows above a new job are above one of the last jobs, and no job has moved them. -/
theorem Stages.dlambda_eq_zero {k : ℕ} (hready : e.problem.tree.Ready (e.problem.tree.resolvedAfter e₃.set.activeList
      (e.schedule.resolved e.problem.tree) (Schedule.drainedBlocks jobs)) k)
    (hdescends : e.problem.tree.Descends k (e.problem.tree.blockOfRow i)) (hne : e.problem.tree.blockOfRow i ≠ k) :
    coord e₂.dlambda i = 0 := by
  have ht := h.accepted.tree.1.tested
  obtain ⟨hconfined, -, -, -⟩ := hst.confined h
  obtain ⟨b, hb, hbk⟩ := ht.exists_ready hready.lt_size fun hk => hready.unresolved (BlockTree.subset_resolvedAfter hk)
  obtain ⟨job, hjob, rfl⟩ := (h.stands.ready_iff b).2 hb
  have habove := hbk.trans hdescends
  have hne' : e.problem.tree.blockOfRow i ≠ job.block := fun heq =>
    hne (le_antisymm (heq ▸ ht.le_of_descends hbk) (ht.le_of_descends hdescends))
  rw [dlambda_of_cell (hconfined.row i (hst.notMem_jobsRows h fun g hg hunder => ?_))]
  · exact h.outer job hjob i habove hne'
  · -- a job above the row would be above the job below it
    obtain ⟨job', hjob', hblock⟩ := (hst.exists_block h g.block).1 ⟨g, hg, rfl⟩
    have hready' := (h.stands.ready_iff _).1 ⟨job', hjob', rfl⟩
    rw [← hblock] at hunder
    by_cases heq : job.block = job'.block
    · exact hne' (le_antisymm (heq ▸ ht.le_of_descends hunder) (ht.le_of_descends habove))
    · exact hready'.not_descends h.stands.closed heq hb.unresolved (habove.trans hunder)

/-- The next sweep is prepared. -/
theorem Stages.prepared (hat : AtSweep s e') (hnone : status? = none) : Prepared s e' := by
  have ht := h.accepted.tree.1.tested
  obtain ⟨hconfined, -, hsolved, -⟩ := hst.confined h
  have hlast := hst.last
  have hproblem : e'.problem = e.problem := hlast.problem.trans hconfined.problem
  have hschedule : e'.schedule = schedule := hlast.schedule
  have hp₂ : e₂.problem.Accepted := hconfined.problem ▸ h.accepted
  have hcovers₂ : ∀ g ∈ jobs, g.Covers e₂.problem.tree := by
    rw [hconfined.problem]
    exact Schedule.covers_of_reflagged hst.flags h.covers
  have hadvanced := hst.advanced
  rw [hnone] at hadvanced
  cases hadvanced with
  | next hne hnext hqueued =>
      refine ⟨hat, ?_, ?_, ?_⟩
      · obtain ⟨_, _, _, _, _, rfl⟩ := hst.finished.quiet
        exact hst.matched.of_keeps ⟨rfl, rfl, rfl, rfl, rfl⟩ rfl
      · intro job hjob i hdescends hne'
        rw [hproblem] at hdescends hne'
        rw [hschedule] at hjob
        have hzero := hst.dlambda_eq_zero h ((hnext.ready_iff _).1 ⟨job, hjob, rfl⟩) hdescends hne'
        rw [hlast.dlambda]
        exact hzero
      · intro job hjob
        rw [hschedule] at hjob
        rcases (hqueued.mem_iff job).1 hjob with ⟨g, hg, -, rfl⟩ | ⟨hfresh, -⟩
        · cases refactored with
          | true => exact fun i _ hi => absurd hi (Nat.not_lt_zero i)
          | false =>
              have hsolved' : Engine.SolvedBefore { e₂ with schedule := schedule } g (g.mark.getD 0) := hsolved g hg
              exact AgreeOn.solvedBefore (e := { e₂ with schedule := schedule }) hp₂ (hcovers₂ g hg) (hlast.agreeOn g)
                hsolved'
        · rw [hfresh.flags.2]
          exact fun i _ hi => absurd hi (Nat.not_lt_zero i)

/-- A run that has found the solution has active rows: an unchanged root job drops none. -/
theorem Stages.active_of_found (hfound : status? = some .solutionFound) : e'.set.activeList ≠ [] := by
  have hadvanced := hst.advanced
  rw [hfound, ActiveSet.activeList_congr hst.committed.rowAt] at hadvanced
  rw [ActiveSet.activeList_congr hst.last.rowAt]
  cases hadvanced with
  | found hroot =>
      rcases hroot with ⟨g, hg, hunchanged, hblock⟩ | ⟨hne, -⟩
      · have hstands := h.stands.reflagged hst.flags
        have hall : ∀ job ∈ jobs, job.changed = false := fun job hjob => by
          rw [hstands.eq_of_block hjob hg
            ((hstands.jobs_of_root h.accepted.tree.1.tested hg hblock job hjob).trans hblock.symm)]
          exact hunchanged
        exact List.length_pos_iff.1 (hst.kept hall ▸ List.length_pos_iff.2 h.active)
      · exact hne

end Sweep

section Health

variable (h : Poised s e) (hst : Stages s e e₁ e₂ e₃ jobs refactored status? schedule e')

include h hst

/-- After the jobs every active row of a resolved block is stationary, if no changed job covers it. -/
theorem Stages.gradientAt_eq_zero (hact : (e₂.set.rowAt i).isActive = true)
    (hresolved : e.problem.tree.blockOfRow i ∈ e.problem.tree.resolvedAfter e₃.set.activeList
      (e.schedule.resolved e.problem.tree) (Schedule.drainedBlocks jobs))
    (hchanged : ∀ g ∈ jobs, g.changed = true → ¬e.problem.tree.Descends (e.problem.tree.blockOfRow i) g.block) :
    e₂.gradientAt i = 0 := by
  have ht := h.accepted.tree.1.tested
  have hcovers := Schedule.covers_of_reflagged hst.flags h.covers
  obtain ⟨hconfined, -, -, hhealthy⟩ := hst.confined h.toPrepared
  have hdone := (hhealthy h.healthy).2
  by_cases hunder : ∃ g ∈ jobs, e.problem.tree.Descends (e.problem.tree.blockOfRow i) g.block
  · obtain ⟨g, hg, hdescends⟩ := hunder
    have hunchanged : g.changed = false := Bool.eq_false_iff.2 fun hc => hchanged g hg hc hdescends
    exact (hdone g hg).stationary hunchanged i
      (mem_jobRows.2 ⟨hact, ((ht.mem_subtreeRows (hcovers g hg).1).2 i).2 hdescends⟩)
  · have hout : ∀ g ∈ jobs, ¬e.problem.tree.Descends (e.problem.tree.blockOfRow i) g.block := fun g hg hdescends =>
      hunder ⟨g, hg, hdescends⟩
    have hrows := hst.notMem_jobsRows h.toPrepared hout
    have hbefore : e.problem.tree.blockOfRow i ∈ e.schedule.resolved e.problem.tree := by
      refine (BlockTree.mem_of_resolvedAfter hresolved ?_).resolve_right ?_
      · rw [ActiveSet.mem_activeList_iff, hst.committed.rowAt]
        exact hact
      · rintro ⟨g, hg, -, hblock⟩
        exact hout g hg (hblock ▸ .refl)
    -- the columns of the jobs belong to blocks below the jobs, which are not below the block of the row
    have hcolumns : ∀ j ∈ jobsCols e.schedule.jobs, e.problem.a.coeff i j = 0 := by
      rintro j ⟨job, hjob, hj⟩
      by_contra hmeets
      have hdescends := (h.accepted.descends_of_meets (h.covers job hjob) hj hmeets fun hi =>
        hrows ⟨job, hjob, hi⟩).1
      exact ((h.stands.ready_iff _).1 ⟨job, hjob, rfl⟩).unresolved (h.stands.closed.of_descends hdescends hbefore)
    rw [hconfined.gradientAt_eq hrows hcolumns]
    refine h.settled i ?_ hbefore fun job hjob hdescends => ?_
    · rw [← rowAt_of_cell (hconfined.row i hrows)]
      exact hact
    · obtain ⟨g, hg, hblock⟩ := (hst.exists_block h.toPrepared job.block).2 ⟨job, hjob, rfl⟩
      exact hout g hg (hblock ▸ hdescends)

/-- The next sweep starts in order. -/
theorem Stages.poised (hat : AtSweep s e') (hnone : status? = none) : Poised s e' := by
  have ht := h.accepted.tree.1.tested
  obtain ⟨hconfined, -, -, hhealthy⟩ := hst.confined h.toPrepared
  have hhealthy := (hhealthy h.healthy).1
  have hlast := hst.last
  have hproblem : e'.problem = e.problem := hlast.problem.trans hconfined.problem
  have hschedule : e'.schedule = schedule := hlast.schedule
  have hadvanced := hst.advanced
  rw [hnone] at hadvanced
  cases hadvanced with
  | next hne hnext hqueued =>
      have hresolved := hnext.eq_resolved ht
      refine ⟨hst.prepared h.toPrepared hat hnone, ?_, ?_⟩
      · refine hlast.healthy ⟨⟨{ hhealthy.sound.regular with }, hhealthy.sound.work, hhealthy.sound.columns⟩, ?_, ?_⟩
        · exact hhealthy.balanced.of_eq rfl (fun _ => rfl) (fun _ => rfl) rfl rfl rfl rfl rfl rfl
        · exact hhealthy.feasible.of_eq (fun _ => rfl) rfl rfl
      · intro i hact hin hout
        rw [hproblem, hschedule] at hin hout
        rw [hlast.rowAt] at hact
        have hzero := hst.gradientAt_eq_zero h hact (hresolved ▸ hin) fun g hg hc =>
          hout (Schedule.again refactored g) ((hqueued.mem_iff _).2 (.inl ⟨g, hg, hc, rfl⟩))
        exact (hlast.gradientAt_eq i).trans hzero

/-- When the root is resolved, every active row is stationary. -/
theorem Stages.gradientAt_of_found (hfound : status? = some .solutionFound)
    (hact : (e'.set.rowAt i).isActive = true) : e'.gradientAt i = 0 := by
  have ht := h.accepted.tree.1.tested
  have hlast := hst.last
  rw [hlast.rowAt] at hact
  have hadvanced := hst.advanced
  rw [hfound] at hadvanced
  have hready : ∀ g ∈ jobs, e.problem.tree.Ready (e.schedule.resolved e.problem.tree) g.block := fun g hg => by
    obtain ⟨job, hjob, hblock⟩ := (hst.exists_block h.toPrepared g.block).1 ⟨g, hg, rfl⟩
    exact (h.stands.ready_iff _).1 ⟨job, hjob, hblock⟩
  have hclosed : e.problem.tree.Closed (e.problem.tree.resolvedAfter e₃.set.activeList
      (e.schedule.resolved e.problem.tree) (Schedule.drainedBlocks jobs)) := by
    refine h.stands.closed.resolvedAfter ?_
    rintro k ⟨g, hg, -, rfl⟩ c hc
    exact (hready g hg).kids c hc
  have hroot : e.problem.tree.root ∈ e.problem.tree.resolvedAfter e₃.set.activeList
      (e.schedule.resolved e.problem.tree) (Schedule.drainedBlocks jobs) := by
    cases hadvanced with
    | found h => exact h.elim .drained And.right
  have hall : ∀ k < e.problem.tree.size, k ∈ e.problem.tree.resolvedAfter e₃.set.activeList
      (e.schedule.resolved e.problem.tree) (Schedule.drainedBlocks jobs) := fun k hk =>
    hclosed.of_descends (ht.descends_root hk) hroot
  have hi : i < e.problem.tree.nrows := by
    obtain ⟨hconfined, hs₂, -, -⟩ := hst.confined h.toPrepared
    rw [h.accepted.tree.2.1, ← hconfined.problem]
    exact hs₂.regular.row_lt hact
  -- a changed job is not drained, so its block would not be resolved
  have hzero := hst.gradientAt_eq_zero h hact (hall _ (ht.blockOfRow_lt hi)) fun g hg hc _ => by
    refine absurd (hall _ (hready g hg).lt_size) ((hready g hg).notMem_resolvedAfter ?_)
    rintro ⟨g', hg', hc', hblock⟩
    rw [(h.stands.reflagged hst.flags).eq_of_block hg' hg hblock, hc] at hc'
    cases hc'
  exact (hlast.gradientAt_eq i).trans hzero

end Health

/-- How the sweeps of a run end. -/
structure Ended (status : Status) (e : Engine K) : Prop where
  stationary : status = .solutionFound → ∀ i, (e.set.rowAt i).isActive = true → e.gradientAt i = 0
  dropped_iff : status = .allRowsDropped ↔ e.set.activeList = []

theorem Poised.of_sweep (h : Poised s e) (hok : e.sweep number = .ok (status?, e')) :
    (status? = none → Poised s e') ∧ ∀ status, status? = some status → Ended status e' := by
  obtain ⟨status?', e'', hok', hswept⟩ := h.toAtSweep.sweep_ok number
  obtain ⟨rfl, rfl⟩ := Prod.mk.inj (Except.ok.inj (hok'.symm.trans hok))
  obtain ⟨e₁, e₂, e₃, jobs, refactored, schedule, hst⟩ := h.toAtSweep.of_sweep hok
  refine ⟨fun hnone => hst.poised h (hswept.next hnone).1 hnone, ?_⟩
  rintro status rfl
  have hkinds : status = .solutionFound ∨ status = .allRowsDropped ∧ e₃.set.activeList = [] := by
    cases hst.advanced with
    | found _ => exact .inl rfl
    | dropped hnil _ => exact .inr ⟨rfl, hnil⟩
  rcases hkinds with rfl | ⟨rfl, hnil⟩
  · refine ⟨fun _ i hact => hst.gradientAt_of_found h rfl hact, ?_⟩
    exact ⟨fun hd => (by cases hd), fun hnil => absurd hnil (hst.active_of_found h.toPrepared rfl)⟩
  · have hlist : e''.set.activeList = e₃.set.activeList := by
      obtain ⟨_, _, _, _, _, rfl⟩ := hst.finished.quiet
      rfl
    exact ⟨fun hd => (by cases hd), fun _ => hlist.trans hnil, fun _ => rfl⟩

theorem Poised.of_sweepsFrom (h : Poised s e) {done left sweeps : ℕ} {status : Status}
    (hok : sweepsFrom done left e = .ok ((status, sweeps), e')) : Ended status e' := by
  induction left generalizing done e with
  | zero =>
      rw [sweepsFrom, pure_eq_ok_iff, Prod.mk.injEq, Prod.mk.injEq] at hok
      obtain ⟨⟨rfl, -⟩, rfl⟩ := hok
      exact ⟨fun hd => (by cases hd), fun hd => (by cases hd), fun hnil => absurd hnil h.active⟩
  | succ left ih =>
      rw [sweepsFrom] at hok
      obtain ⟨⟨status?, g⟩, hsweep, hok⟩ := bind_eq_ok_iff.1 hok
      obtain ⟨hnext, hended⟩ := h.of_sweep hsweep
      cases status? with
      | none => exact ih (hnext rfl) hok
      | some st =>
          rw [pure_eq_ok_iff, Prod.mk.injEq, Prod.mk.injEq] at hok
          obtain ⟨⟨rfl, -⟩, rfl⟩ := hok
          exact hended st rfl

/-- The first sweep is prepared: nothing has moved. -/
theorem Prepared.of_seed (hp : e.problem.Accepted) (hs : e.Sound) (ht : Tracked s e) (hm : Matches s e)
    (hstill : ∀ i, coord e.dlambda i = 0) (hne : e.set.activeList ≠ [])
    (hok : Schedule.seed e.problem.tree e.set.rows = .ok schedule) : Prepared s { e with schedule := schedule } := by
  have hsolves : e.Solves := by
    obtain ⟨_, _, htracks⟩ := ht
    exact hm.solves htracks.covers htracks.sigma_pos
  obtain ⟨schedule', hok', hat⟩ := AtSweep.of_seed hp hs ht hsolves hne
  obtain rfl := Except.ok.inj (hok'.symm.trans hok)
  obtain ⟨-, hfresh⟩ := Schedule.Stands.of_seed hp.tree.1.tested (hs.lists hp) hne hok
  refine ⟨hat, hm.of_keeps ⟨rfl, rfl, rfl, rfl, rfl⟩ rfl, fun _ _ i _ _ => hstill i, fun job hjob => ?_⟩
  rw [(hfresh job hjob).flags.2]
  exact fun i _ hi => absurd hi (Nat.not_lt_zero i)

/-- The first sweep starts in order: no block with an active row is resolved. -/
theorem Poised.of_seed (hp : e.problem.Accepted) (h : e.Healthy) (ht : Tracked s e) (hm : Matches s e)
    (hstill : ∀ i, coord e.dlambda i = 0) (hne : e.set.activeList ≠ [])
    (hok : Schedule.seed e.problem.tree e.set.rows = .ok schedule) : Poised s { e with schedule := schedule } := by
  have hprepared := Prepared.of_seed hp h.sound ht hm hstill hne hok
  have htree := hp.tree.1.tested
  obtain ⟨hstands, -⟩ := Schedule.Stands.of_seed htree (h.sound.lists hp) hne hok
  refine ⟨hprepared, ⟨hprepared.sound, ?_, ?_⟩, fun i hact hidle _ => ?_⟩
  · exact h.balanced.of_eq rfl (fun _ => rfl) (fun _ => rfl) rfl rfl rfl rfl rfl rfl
  · exact h.feasible.of_eq (fun _ => rfl) rfl rfl
  · have hidle : e.problem.tree.blockOfRow i ∈ schedule.resolved e.problem.tree := hidle
    rw [← hstands.eq_resolved htree] at hidle
    exact absurd .refl (hidle.2 i (ActiveSet.mem_activeList_iff.2 hact))

/-- The sweeps of a run end as they say. -/
theorem Sound.of_runSweeps (hp : e.problem.Accepted) (hs : e.Sound) (ht : Tracked s e)
    (hside : ∀ i, (e.set.rowAt i).isActive = true → (e.set.rowAt i).Admits (coord e.lambda i + coord e.dlambda i))
    {status : Status} {sweeps : ℕ} (hok : e.runSweeps = .ok ((status, sweeps), e')) : Ended status e' := by
  obtain ⟨e₁, e₂, refactored, hrebase, hcommit, hcases⟩ := Engine.of_runSweeps hok
  have hr := hs.regular.of_rebase hrebase
  have hs₁ := hs.of_rebase hrebase
  have hsame := sameState_of_commit hcommit
  have h₂ : e₂.Healthy := hsame.healthy ⟨hs₁, hr.balanced hs.regular, hr.dualFeasible hside⟩
  rcases hcases with ⟨hnone, rfl, rfl⟩ | ⟨hsome, schedule, hseed, hsweeps⟩
  · rw [h₂.sound.regular.set.activeCount_eq, List.length_eq_zero_iff] at hnone
    exact ⟨fun hd => (by cases hd), fun _ => hnone, fun _ => rfl⟩
  · rw [h₂.sound.regular.set.activeCount_eq, ne_eq, List.length_eq_zero_iff] at hsome
    have hc := hs₁.of_commit (ht.of_noted hr.noted) hcommit
    have hp₂ : e₂.problem.Accepted := by rw [hsame.problem, hr.problem_eq]; exact hp
    refine (Poised.of_seed hp₂ h₂ hc.tracked hc.matched (fun i => ?_) hsome hseed).of_sweepsFrom hsweeps
    rw [hsame.dlambda]
    exact hr.dlambda i

end PolyProjection.Engine
