import Mathlib
import PolyProjection.Proofs.Engine.Calm
import PolyProjection.Proofs.Engine.Settling

/-! Runs after a run that found the solution. A run anchors the proximal term at the multipliers it starts from, so a
second run takes further steps. It changes nothing exactly if all blocks are uneventful, and then it finds the solution
again, in no more sweeps than the first run was allowed. -/

namespace PolyProjection

set_option linter.unusedSectionVars false

variable {K : Type} [Field K] [LinearOrder K] [IsStrictOrderedRing K]

namespace Engine

variable {e e' f g g' : Engine K} {s : Fill} {job : Job} {status : Status} {status? : Option Status}
  {number done left sweeps n i k : ℕ} {p : Problem K} {settings : Settings K}

/-- A sweep of a run that has changed nothing so far begins: the blocks that are resolved make up a layer, their rows are
stationary, and the other rows have not moved. -/
structure Retraces (s : Fill) (n : ℕ) (e g : Engine K) : Prop where
  poised : Poised s g
  resumes : Resumes e g
  resolved : g.schedule.resolved e.problem.tree = e.problem.tree.layer e.set.activeList n
  still : ∀ i, e.problem.tree.blockOfRow i ∉ e.problem.tree.layer e.set.activeList n → coord g.dlambda i = 0
  stationary : ∀ i, (g.set.rowAt i).isActive = true →
    e.problem.tree.blockOfRow i ∈ e.problem.tree.layer e.set.activeList n → g.gradientAt i = 0

theorem Retraces.ready_iff (h : Retraces s n e g) :
    (∃ job ∈ g.schedule.jobs, job.block = k) ↔ e.problem.tree.Ready (e.problem.tree.layer e.set.activeList n) k := by
  have hstands := h.poised.stands
  rw [h.resumes.problem, h.resolved] at hstands
  exact hstands.ready_iff k

/-- At the start of the sweep all its jobs are waiting. -/
theorem Retraces.awaits (h : Retraces s n e g) (hjob : job ∈ g.schedule.jobs) :
    Awaits s (fun j => g.set.colAt j == .free) (fun i => (g.set.rowAt i).isActive) e g job := by
  have hready := h.ready_iff.1 ⟨job, hjob, rfl⟩
  have hp : e.problem.Accepted := h.resumes.problem ▸ h.poised.accepted
  have hcovers : job.Covers e.problem.tree := h.resumes.problem ▸ h.poised.covers job hjob
  refine ⟨h.resumes, h.poised.due hjob, fun i hi hne => ?_, fun i hi => ?_⟩
  · obtain ⟨hact, hin⟩ := mem_jobRows.1 hi
    exact h.stationary i hact
      (hready.mem_of_descends hp.tree.1.tested.closed_layer ((mem_rowsUpTo_iff hp hcovers).2 hin) hne)
  · exact h.still i (hi ▸ hready.unresolved)

theorem Awaits.of_aside {free act : ℕ → Bool} (hp : e.problem.Accepted) (hjob : job.Covers e.problem.tree)
    (h : Awaits s free act e f job) (ha : Aside f g) : Awaits s free act e g job := by
  have hsame := ha.quiet.sameState
  refine ⟨h.trans_of_frozen hsame.frozen ha.untouched (hsame.healthy h.healthy),
    ha.quiet.due (h.problem.symm ▸ hp) (h.problem.symm ▸ hjob) h.due, fun i hi hne => ?_, fun i hi => ?_⟩
  · obtain ⟨hact, hin⟩ := mem_jobRows.1 hi
    rw [hsame.gradientAt_eq]
    exact h.below i (mem_jobRows.2 ⟨hsame.rowAt i ▸ hact, hin⟩) hne
  · rw [hsame.dlambda]
    exact h.own i hi

section Sweep

variable (h : Retraces s n e g) (hr : e.Regular)
  (hsides : ∀ i, (e.set.rowAt i).isActive = true → (e.set.rowAt i).Admits (e.startDual i))
  {e₁ e₂ e₃ : Engine K} {jobs : List Job} {refactored : Bool} {schedule : Schedule}
  (hst : Stages s g e₁ e₂ e₃ jobs refactored status? schedule g')

include h hst

/-- In a sweep something leaves the working set exactly if a job has changed. -/
theorem Retraces.shed_eq_iff : e.shed ≤ g'.shed ∧ (g'.shed = e.shed ↔ ∀ job ∈ jobs, job.changed = false) := by
  have hsame := hst.start.quiet.sameState
  have hsolves : e₁.Solves := by
    obtain ⟨⟨_, _, _, _, _, rfl⟩, -⟩ := hst.start
    exact h.poised.solves
  obtain ⟨jobs', e₂', hjobs, -, hprocessed, hchanged⟩ := Sound.processJobs_ok (hsame.problem.symm ▸ h.poised.accepted)
    (hsame.sound h.poised.sound) hsolves g.schedule.jobs (hsame.problem.symm ▸ h.poised.covers)
  obtain ⟨rfl, rfl⟩ := Prod.mk.inj (Except.ok.inj (hst.processed.symm.trans hjobs))
  have hstart : e₁.shed = e.shed := by
    have hu := h.resumes.untouched.trans hst.start.untouched
    rw [shed, shed, hu.rowsDropped, hu.colsFreed]
  have hend : g'.shed = e₂.shed := by
    obtain ⟨_, hcommit⟩ := hst.commit_eq
    have hu := hst.finished.untouched
    exact (congrArg₂ (· + ·) hu.rowsDropped hu.colsFreed).trans (tally_of_commit hcommit).1.shed_eq
  obtain ⟨hdropped, hfreed⟩ := hprocessed.counted
  have hle : e₁.shed ≤ e₂.shed := Nat.add_le_add hdropped hfreed
  rw [hend, ← hstart]
  refine ⟨hle, ?_⟩
  rw [← not_iff_not, ← Ne, ne_comm, ← hle.lt_iff_ne, ← hchanged]
  simp

include hr hsides

theorem Retraces.jobs_iff : ((∀ job ∈ jobs, job.changed = false) ↔
      ∀ k, e.problem.tree.Ready (e.problem.tree.layer e.set.activeList n) k → e.Uneventful k) ∧
    ((∀ job ∈ jobs, job.changed = false) → Resumes e e₂) := by
  have hp : e.problem.Accepted := h.resumes.problem ▸ h.poised.accepted
  have hcovers : ∀ job ∈ g.schedule.jobs, job.Covers e.problem.tree := h.resumes.problem ▸ h.poised.covers
  have hsame := hst.start.quiet.sameState
  have hresumes := h.resumes.trans_of_frozen hsame.frozen hst.start.untouched (hsame.healthy h.poised.healthy)
  obtain ⟨hiff, hresumes₂⟩ := hresumes.processJobs hp hr hsides hcovers h.poised.separate
    (fun job hjob => (h.awaits hjob).of_aside hp (hcovers job hjob) hst.start) hst.processed
  refine ⟨hiff.trans ⟨fun hall k hk => ?_, fun hall job hjob => ?_⟩, hresumes₂⟩
  · obtain ⟨job, hjob, rfl⟩ := h.ready_iff.2 hk
    exact hall job hjob
  · exact hall _ (h.ready_iff.1 ⟨job, hjob, rfl⟩)

/-- A sweep without a changed job leaves everything as it was and resolves the next layer. -/
theorem Retraces.of_unchanged (he : e.Settled) (hnone : ∀ job ∈ jobs, job.changed = false) :
    Untouched e g' ∧ g.problem.tree.resolvedAfter e₃.set.activeList (g.schedule.resolved g.problem.tree)
      (Schedule.drainedBlocks jobs) = e.problem.tree.layer e.set.activeList (n + 1) := by
  obtain ⟨-, hresumes⟩ := h.jobs_iff hr hsides hst
  have hu := (hresumes hnone).untouched
  have hjobs : Untouched e₂ { e₂ with schedule := { g.schedule with jobs := jobs } } :=
    ⟨rfl, rfl, rfl, rfl, rfl, rfl, rfl⟩
  obtain ⟨isPartial, hcommit⟩ := hst.commit_eq
  have hnothing := hjobs.settled (hu.settled he)
  obtain ⟨-, rfl⟩ := Prod.mk.inj (Except.ok.inj ((hnothing.commit_ok isPartial).symm.trans hcommit))
  have hscheduled : Untouched e₂ { e₂ with schedule := schedule } := ⟨rfl, rfl, rfl, rfl, rfl, rfl, rfl⟩
  refine ⟨hu.trans (hscheduled.trans hst.finished.untouched), ?_⟩
  have hdrained : Schedule.drainedBlocks jobs =
      {k | e.problem.tree.Ready (e.problem.tree.layer e.set.activeList n) k} := by
    ext k
    rw [Set.mem_ofPred_eq, ← h.ready_iff, ← hst.exists_block h.poised.toPrepared]
    exact ⟨fun ⟨job, hjob, _, hblock⟩ => ⟨job, hjob, hblock⟩, fun ⟨job, hjob, hblock⟩ => ⟨job, hjob, hnone job hjob, hblock⟩⟩
  rw [hdrained, h.resumes.problem, h.resolved]
  dsimp only
  rw [hu.set]
  rfl

/-- After a sweep without a changed job another sweep begins, unless the run ends. -/
theorem Retraces.goes_on (he : e.Settled) (hnone : ∀ job ∈ jobs, job.changed = false) (hat : AtSweep s g')
    (hstatus : status? = none) : Retraces s (n + 1) e g' := by
  subst hstatus
  have hproblem := h.resumes.problem
  have hresumes := (h.jobs_iff hr hsides hst).2 hnone
  obtain ⟨hu, hlayer⟩ := h.of_unchanged hr hsides hst he hnone
  have hlast := hst.last
  have hscheduled : Frozen e₂ { e₂ with schedule := schedule } :=
    ⟨rfl, rfl, rfl, fun _ _ => ⟨rfl, rfl⟩, fun _ _ => rfl⟩
  have hfrozen := hscheduled.trans hlast.frozen
  have hpoised := hst.poised h.poised hat rfl
  have ht := h.poised.accepted.tree.1.tested
  obtain ⟨hconfined, -, -, -⟩ := hst.confined h.poised.toPrepared
  refine ⟨hpoised, ⟨?_, ?_, hu, hpoised.healthy, hfrozen.anchored hresumes.anchored, fun i hact => ?_⟩, ?_,
    fun i hi => ?_, fun i hact hi => ?_⟩
  · exact hfrozen.problem.trans hresumes.problem
  · exact hfrozen.sigma.trans hresumes.sigma
  · obtain ⟨hrow, hlambda⟩ := hfrozen.row i hact
    rw [hlambda]
    exact hresumes.centered i (hrow ▸ hact)
  · have hschedule : g'.schedule = schedule := hlast.schedule
    cases hst.advanced with
    | next _ hnext _ =>
        rw [hschedule, ← hlayer, ← hproblem]
        exact (hnext.eq_resolved ht).symm
  · -- the rows of the jobs belong to the layer
    have hrows : i ∉ jobsRows g.schedule.jobs := by
      apply hst.notMem_jobsRows h.poised.toPrepared
      intro job hjob hdescends
      rw [hproblem] at hdescends ht
      have hdrained : job.block ∈ e.problem.tree.layer e.set.activeList (n + 1) := by
        rw [← hlayer]
        exact .drained ⟨job, hjob, hnone job hjob, rfl⟩
      exact hi (ht.closed_layer.of_descends hdescends hdrained)
    rw [hlast.dlambda, dlambda_of_cell (hconfined.row i hrows)]
    exact h.still i fun hbefore => hi (BlockTree.layer_mono (Nat.le_succ n) hbefore)
  · rw [hlast.rowAt] at hact
    rw [hlast.gradientAt_eq]
    apply hst.gradientAt_eq_zero h.poised hact
    · rw [hlayer, hproblem]
      exact hi
    · intro job hjob hchanged
      rw [hnone job hjob] at hchanged
      cases hchanged

/-- A sweep without a changed job ends the run only with a solution. -/
theorem Retraces.ends (he : e.Settled) (hnone : ∀ job ∈ jobs, job.changed = false) {st : Status}
    (hstatus : status? = some st) :
    st = .solutionFound ∧ e.problem.tree.root ∈ e.problem.tree.layer e.set.activeList (n + 1) := by
  subst hstatus
  obtain ⟨hu, hlayer⟩ := h.of_unchanged hr hsides hst he hnone
  cases hst.advanced with
  | found hroot =>
      refine ⟨rfl, ?_⟩
      rw [← hlayer, ← h.resumes.problem]
      exact hroot.elim .drained And.right
  | dropped hnil _ =>
      rw [← congrArg ActiveSet.activeList hst.finished.untouched.set] at hnil
      rw [congrArg ActiveSet.activeList (hu.set.trans h.resumes.untouched.set.symm)] at hnil
      exact absurd hnil h.poised.active

end Sweep

/-- The blocks that are drained after layer `n` are uneventful. -/
def CalmFrom (e : Engine K) (n : ℕ) : Prop :=
  ∀ m, n ≤ m → ∀ k, e.problem.tree.Ready (e.problem.tree.layer e.set.activeList m) k → e.Uneventful k

theorem calmFrom_iff : e.CalmFrom n ↔
    (∀ k, e.problem.tree.Ready (e.problem.tree.layer e.set.activeList n) k → e.Uneventful k) ∧ e.CalmFrom (n + 1) := by
  constructor
  · intro h
    exact ⟨h n le_rfl, fun m hm => h m (Nat.le_of_succ_le hm)⟩
  · rintro ⟨hfirst, hrest⟩ m hm
    rcases hm.eq_or_lt with rfl | hlt
    · exact hfirst
    · exact hrest m hlt

theorem calmFrom_of_root (hp : e.problem.Accepted)
    (hroot : e.problem.tree.root ∈ e.problem.tree.layer e.set.activeList n) : e.CalmFrom n := fun _ hm k hk =>
  absurd hk (hp.tree.1.tested.not_ready_of_root (BlockTree.layer_mono hm hroot) k)

/-- The sweeps of a second run: nothing leaves the working set exactly if the blocks to come are uneventful. -/
theorem Retraces.of_sweepsFrom (h : Retraces s n e g) (hr : e.Regular)
    (hsides : ∀ i, (e.set.rowAt i).isActive = true → (e.set.rowAt i).Admits (e.startDual i)) (he : e.Settled)
    (hroot : e.problem.tree.root ∈ e.problem.tree.layer e.set.activeList (n + left))
    (hok : sweepsFrom done left g = .ok ((status, sweeps), g')) :
    (e.CalmFrom n ↔ g'.shed = e.shed) ∧ (g'.shed = e.shed → status = .solutionFound ∧ Untouched e g') := by
  have hp : e.problem.Accepted := h.resumes.problem ▸ h.poised.accepted
  induction left generalizing n done g with
  | zero =>
      have hunresolved := h.poised.stands.root_unresolved
      rw [h.resumes.problem, h.resolved] at hunresolved
      exact absurd hroot hunresolved
  | succ left ih =>
      rw [sweepsFrom] at hok
      obtain ⟨⟨status?, g₁⟩, hsweep, hok⟩ := bind_eq_ok_iff.1 hok
      obtain ⟨status?, g₁, hok', hswept⟩ := h.poised.sweep_ok (done + 1)
      obtain ⟨rfl, rfl⟩ := Prod.mk.inj (Except.ok.inj (hsweep.symm.trans hok'))
      obtain ⟨e₁, e₂, e₃, jobs, refactored, schedule, hst⟩ := h.poised.toAtSweep.of_sweep hsweep
      obtain ⟨hle, hshed⟩ := h.shed_eq_iff hst
      have hiff := (h.jobs_iff hr hsides hst).1
      rw [calmFrom_iff, ← hiff]
      by_cases hnone : ∀ job ∈ jobs, job.changed = false
      · cases status? with
        | none =>
            obtain ⟨hcalm, hfound⟩ := ih (h.goes_on hr hsides hst he hnone (hswept.next rfl).1 rfl)
              (by rwa [Nat.add_assoc, Nat.add_comm 1]) hok
            exact ⟨⟨fun hall => hcalm.1 hall.2, fun heq => ⟨hnone, hcalm.2 heq⟩⟩, hfound⟩
        | some st =>
            rw [pure_eq_ok_iff, Prod.mk.injEq, Prod.mk.injEq] at hok
            obtain ⟨⟨rfl, -⟩, rfl⟩ := hok
            obtain ⟨hfound, hresolved⟩ := h.ends hr hsides hst he hnone rfl
            exact ⟨⟨fun _ => hshed.2 hnone, fun _ => ⟨hnone, calmFrom_of_root hp hresolved⟩⟩,
              fun _ => ⟨hfound, (h.of_unchanged hr hsides hst he hnone).1⟩⟩
      · -- what has left the working set does not come back
        have hlt : e.shed < g₁.shed := lt_of_le_of_ne hle fun heq => hnone (hshed.1 heq.symm)
        have hmore : g₁.shed ≤ g'.shed := by
          cases status? with
          | none =>
              obtain ⟨_, _, _, hok'', hcarried, -⟩ := (hswept.next rfl).1.sweepsFrom_ok (done + 1) left
              obtain ⟨-, rfl⟩ := Prod.mk.inj (Except.ok.inj (hok''.symm.trans hok))
              exact Nat.add_le_add hcarried.counted.1 hcarried.counted.2
          | some st =>
              rw [pure_eq_ok_iff, Prod.mk.injEq] at hok
              rw [hok.2]
        have hne : g'.shed ≠ e.shed := (hlt.trans_le hmore).ne'
        exact ⟨⟨fun hall => absurd hall.1 hnone, fun heq => absurd heq hne⟩, fun heq => absurd heq hne⟩

section Run

variable (hp : e.problem.Accepted) (hs : e.Sound) (ht : Tracked s e) (hstill : ∀ i, coord e.dlambda i = 0)
  (hsides : ∀ i, (e.set.rowAt i).isActive = true → (e.set.rowAt i).Admits (e.startDual i)) (he : e.Settled)
  (hne : e.set.activeList ≠ [])

include hp hs ht hstill hsides he hne

/-- A run that starts with nothing noted begins with the vectors at the start and no layer resolved. -/
theorem Sound.retraces {e₁ : Engine K} (hstart : Aside e e₁) (hrebase : e₁.rebase = .ok f) :
    f.commit false = .ok (false, f) ∧ f.settings = e.settings ∧ f.set.activeCount ≠ 0 ∧
      ∀ schedule, Schedule.seed f.problem.tree f.set.rows = .ok schedule →
        Retraces s 0 e { f with schedule := schedule } := by
  have hsame := hstart.quiet.sameState
  have hs₁ := hsame.sound hs
  have hr := hs₁.regular.of_rebase hrebase
  have hsf := hs₁.of_rebase hrebase
  have hu : Untouched e f := hstart.untouched.trans hr.untouched
  have hcommit := (hu.settled he).commit_ok false
  have hsome : f.set.activeList ≠ [] := congrArg ActiveSet.activeList hu.set ▸ hne
  refine ⟨hcommit, hr.settings_eq.trans hsame.settings, ?_, fun schedule hseed => ?_⟩
  · rw [hsf.regular.set.activeCount_eq, ne_eq, List.length_eq_zero_iff]
    exact hsome
  have hproblem : f.problem = e.problem := hr.problem_eq.trans hsame.problem
  have hpf : f.problem.Accepted := hproblem.symm ▸ hp
  have hvalue : ∀ i, (e₁.set.rowAt i).isActive = true → coord e₁.lambda i + coord e₁.dlambda i = e.startDual i := by
    intro i hi
    rw [hsame.rowAt] at hi
    rw [hsame.lambda, hsame.dlambda, hstill, add_zero, startDual, if_pos hi]
  have hhealthy : f.Healthy := by
    refine ⟨hsf, hr.balanced hs₁.regular, hr.dualFeasible fun i hi => ?_⟩
    rw [hvalue i hi, hsame.rowAt]
    exact hsides i (hsame.rowAt i ▸ hi)
  have hc := hsf.of_commit ((ht.of_noted hstart.quiet.noted).of_noted hr.noted) hcommit
  have hpoised := Poised.of_seed hpf hhealthy hc.tracked hc.matched hr.dlambda hsome hseed
  have hsigma : f.sigma = e.sigma := by
    have hsigma₁ : f.sigma = e₁.sigma := by rw [hr.form]
    exact hsigma₁.trans hsame.sigma
  have hscheduled : Untouched f { f with schedule := schedule } := ⟨rfl, rfl, rfl, rfl, rfl, rfl, rfl⟩
  refine ⟨hpoised, ⟨hproblem, hsigma, hu.trans hscheduled, hpoised.healthy, hr.anchored, fun i hi => ?_⟩, ?_,
    fun i _ => hr.dlambda i, fun i hi hin => ?_⟩
  · have hi₁ : (e₁.set.rowAt i).isActive = true := by
      rw [← hr.set_eq]
      exact hi
    exact (hr.lambda i).trans ((if_pos hi₁).trans (hvalue i hi₁))
  · have htree := hpf.tree.1.tested
    obtain ⟨hstands, -⟩ := Schedule.Stands.of_seed htree (hsf.lists hpf) hsome hseed
    rw [← hproblem, BlockTree.layer, ← congrArg ActiveSet.activeList hu.set]
    exact (hstands.eq_resolved htree).symm
  · have hactive : i ∈ e.set.activeList := by
      rw [← congrArg ActiveSet.activeList hu.set]
      exact ActiveSet.mem_activeList_iff.2 hi
    exact absurd .refl (hin.2 i hactive)

/-- A run that starts with nothing noted, from multipliers on the sides of their rows. -/
theorem Sound.rerun (hroot : e.problem.tree.root ∈ e.problem.tree.layer e.set.activeList e.settings.maxSweeps)
    (hok : e.run = .ok (status, e')) :
    (e.CalmFrom 0 ↔ e'.shed = e.shed) ∧ (e'.shed = e.shed → status = .solutionFound ∧ Untouched e e') := by
  obtain ⟨e₁, g, e₃, sweeps, hstart, hsweeps, hrebase, hend⟩ := Engine.of_run hok
  obtain ⟨f, f', refactored, hrebase₁, hcommit, hcases⟩ := Engine.of_runSweeps hsweeps
  obtain ⟨hcommit', hsettings, hsome, hretraces⟩ := hs.retraces hp ht hstill hsides he hne hstart hrebase₁
  obtain ⟨-, rfl⟩ := Prod.mk.inj (Except.ok.inj (hcommit'.symm.trans hcommit))
  rcases hcases with ⟨hnone, -⟩ | ⟨-, schedule, hseed, hswept⟩
  · exact absurd hnone hsome
  replace hretraces := hretraces schedule hseed
  rw [← hsettings, ← Nat.zero_add f.settings.maxSweeps] at hroot
  obtain ⟨hcalm, hfound⟩ := hretraces.of_sweepsFrom hs.regular hsides he hroot hswept
  obtain ⟨_, _, _, hok', hcarried, -⟩ := hretraces.poised.sweepsFrom_ok 0 f.settings.maxSweeps
  obtain ⟨-, rfl⟩ := Prod.mk.inj (Except.ok.inj (hswept.symm.trans hok'))
  have hkept : Untouched e₃ { e₃ with x := e₃.work.reference } := ⟨rfl, rfl, rfl, rfl, rfl, rfl, rfl⟩
  have hfinish := (hcarried.sound.regular.of_rebase hrebase).untouched.trans (hkept.trans hend.untouched)
  have hshed : e'.shed = _ := congrArg₂ (· + ·) hfinish.rowsDropped hfinish.colsFreed
  rw [hshed]
  refine ⟨hcalm, fun heq => ?_⟩
  obtain ⟨hstatus, hsweeps⟩ := hfound heq
  exact ⟨hstatus, hsweeps.trans hfinish⟩

end Run

/-- Where the root is drained in the end, the blocks that are drained on the way are those with an active row. -/
theorem Regular.calmFrom_zero_iff (hr : e.Regular) (hp : e.problem.Accepted) {levels : ℕ}
    (hroot : e.problem.tree.root ∈ e.problem.tree.layer e.set.activeList levels) :
    e.CalmFrom 0 ↔ ∀ i, (e.set.rowAt i).isActive = true → e.Uneventful (e.problem.tree.blockOfRow i) := by
  have ht := hp.tree.1.tested
  constructor
  · intro hall i hi
    have hlt : e.problem.tree.blockOfRow i < e.problem.tree.size := by
      apply ht.blockOfRow_lt
      rw [hp.tree.2.1]
      exact hr.row_lt hi
    have hin := ht.closed_layer.of_descends (ht.descends_root hlt) hroot
    obtain ⟨m, -, hready⟩ := BlockTree.exists_layer (ActiveSet.mem_activeList_iff.2 hi) hin
    exact hall m (Nat.zero_le m) _ hready
  · intro hall m _ k hk
    obtain ⟨i, hi, rfl⟩ := BlockTree.exists_active_of_ready hk
    exact hall i (ActiveSet.mem_activeList_iff.1 hi)

/-- After a run that has found the solution, a second run drops a row or frees a column unless every block with an active
row is uneventful. If they all are, it finds the solution again, leaves every status as it was, and does nothing to the
factor. -/
theorem rerun_unchanged_iff (hp : p.Accepted) (h : Reachable p settings e)
    (hside : ∀ i, (e.set.rowAt i).isActive = true → (e.set.rowAt i).Admits (coord e.lambda i))
    (hrun : e.run = .ok (.solutionFound, f)) : ∃ status e', f.run = .ok (status, e') ∧
      ((∀ i, (f.set.rowAt i).isActive = true → f.Uneventful (p.tree.blockOfRow i)) ↔
        e'.stats.rowsDropped = f.stats.rowsDropped ∧ e'.stats.colsFreed = f.stats.colsFreed) ∧
      ((∀ i, (f.set.rowAt i).isActive = true → f.Uneventful (p.tree.blockOfRow i)) → status = .solutionFound ∧
        e'.stats.factorizations = f.stats.factorizations ∧ e'.stats.updates = f.stats.updates ∧
        (∀ i, e'.set.rowAt i = f.set.rowAt i) ∧ ∀ j, e'.set.colAt j = f.set.colAt j) := by
  have hrests := h.rests hp
  have hf := h.run hrun
  have hrests' := hf.rests hp
  obtain rfl := hrests.problem
  have hproblem := hrests'.problem
  have hp' : f.problem.Accepted := hproblem.symm ▸ hp
  obtain ⟨g, hg⟩ := (h.sound hp).of_run hp (h.tracked hp) hrests.still hside hrun
  obtain ⟨hsettled, hreaches⟩ := (h.sound hp).run_settles hp (h.tracked hp) hrun
  have hroot := hreaches rfl
  rw [← hproblem, hrests.settings, ← hrests'.settings] at hroot
  have hne : f.set.activeList ≠ [] := by
    rw [congrArg ActiveSet.activeList hg.set]
    exact fun hnil => by cases hg.ended.dropped_iff.2 hnil
  have hsides : ∀ i, (f.set.rowAt i).isActive = true → (f.set.rowAt i).Admits (f.startDual i) := by
    intro i hi
    rw [startDual, if_pos hi, hg.lambda, hg.set]
    exact hg.feasible.on_side i
  obtain ⟨status, e', hok, hcarried, -⟩ := (hf.sound hp).run_ok hp' (hf.tracked hp)
  obtain ⟨hcalm, hfound⟩ := (hf.sound hp).rerun hp' (hf.tracked hp) hrests'.still hsides hsettled hne hroot hok
  have hblocks := hrests'.regular.calmFrom_zero_iff hp' hroot
  rw [hproblem] at hblocks
  have hcounts : e'.shed = f.shed ↔
      e'.stats.rowsDropped = f.stats.rowsDropped ∧ e'.stats.colsFreed = f.stats.colsFreed := by
    obtain ⟨hdropped, hfreed⟩ := hcarried.counted
    rw [shed, shed]
    omega
  rw [← hblocks, hcalm, hcounts]
  refine ⟨status, e', hok, Iff.rfl, fun hsame => ?_⟩
  obtain ⟨hstatus, hu⟩ := hfound (hcounts.2 hsame)
  exact ⟨hstatus, hu.factorizations, hu.updates, fun i => by rw [hu.set], fun j => by rw [hu.set]⟩

/-- Two runs over the row of the half-line. -/
def rerunHalfLine : Checked (Problem ℚ × Engine ℚ × (Status × Engine ℚ) × (Status × Engine ℚ)) := do
  let p ← accepted Problem.halfLine
  let e ← accepted (create p plain)
  let added ← e.addRow 0 .lower
  let done ← added.2.run
  let again ← done.2.run
  return (p, added.2, done, again)

theorem rerun_unchanged_iff_halfLine : ∃ (p : Problem ℚ) (e f e' : Engine ℚ), p.Accepted ∧ Reachable p plain e ∧
    (∀ i, (e.set.rowAt i).isActive = true → (e.set.rowAt i).Admits (coord e.lambda i)) ∧
    e.run = .ok (.solutionFound, f) ∧ (f.set.rowAt 0).isActive = true ∧ f.Uneventful (p.tree.blockOfRow 0) ∧
    f.run = .ok (.solutionFound, e') ∧ e'.lambda ≠ f.lambda ∧ e'.stats.factorizations = f.stats.factorizations := by
  obtain ⟨⟨p, e, ⟨status, f⟩, status', e'⟩, hrun, hcheck⟩ := exists_of_passes (x := rerunHalfLine)
    (f := fun r => r.2.1.lambda == #[0] && decide (r.2.2.1.1 = .solutionFound) && (r.2.2.1.2.set.rowAt 0).isActive &&
      decide (r.2.2.2.2.stats.rowsDropped = r.2.2.1.2.stats.rowsDropped) &&
      decide (r.2.2.2.2.stats.colsFreed = r.2.2.1.2.stats.colsFreed) && decide (r.2.2.2.2.lambda ≠ r.2.2.1.2.lambda))
    (by decide +kernel)
  unfold rerunHalfLine at hrun
  simp only [bind_eq_ok_iff, accepted_eq_ok_iff, pure_eq_ok_iff, Prod.mk.injEq] at hrun
  obtain ⟨p, hp, _, hcreate, ⟨b, e⟩, hadd, ⟨status, f⟩, hok, ⟨status', e'⟩, hagain, rfl, rfl, ⟨rfl, rfl⟩, rfl, rfl⟩ := hrun
  simp only [Bool.and_eq_true, beq_iff_eq, decide_eq_true_eq] at hcheck
  obtain ⟨⟨⟨⟨⟨hlambda, rfl⟩, hactive⟩, hdropped⟩, hfreed⟩, hmoved⟩ := hcheck
  have hreachable : Reachable p plain e := .addRow (.create hcreate) hadd
  have hside : ∀ i, (e.set.rowAt i).isActive = true → (e.set.rowAt i).Admits (coord e.lambda i) := fun i _ =>
    admits_of_lambda_eq hlambda i
  obtain ⟨_, _, hok', hiff, hsame⟩ := rerun_unchanged_iff (.create hp) hreachable hside hok
  obtain ⟨rfl, rfl⟩ := Prod.mk.inj (Except.ok.inj (hok'.symm.trans hagain))
  have hcalm := hiff.2 ⟨hdropped, hfreed⟩
  obtain ⟨rfl, hfactorizations, -⟩ := hsame hcalm
  exact ⟨p, e, f, _, .create hp, hreachable, hside, hok, hactive, hcalm 0 hactive, hagain, hmoved, hfactorizations⟩

/-- Two runs over a row that pulls a column off its bound in the second of them. -/
def rerunBound : Checked (Problem ℚ × Engine ℚ × (Status × Engine ℚ) × (Status × Engine ℚ)) := do
  let p ← accepted (Problem.create ⟨1, 1, #[0, 1], #[0], #[1]⟩ #[.finite 2] #[.posInf] #[.finite 0] #[.posInf] #[-1])
  let e ← accepted (create p { plain with sigma := 3 })
  let added ← e.addRow 0 .lower
  let bound ← added.2.bindColumn 0 .lower
  let done ← bound.2.run
  let again ← done.2.run
  return (p, bound.2, done, again)

/-- The second run starts from other multipliers than the first, and frees a column that the first has left bound. -/
theorem exists_rerun_frees : ∃ (p : Problem ℚ) (e f e' : Engine ℚ),
    rerunBound = .ok (p, e, (.solutionFound, f), .solutionFound, e') ∧ p.Accepted ∧
    Reachable p { plain with sigma := 3 } e ∧
    (∀ i, (e.set.rowAt i).isActive = true → (e.set.rowAt i).Admits (coord e.lambda i)) ∧
    e.run = .ok (.solutionFound, f) ∧ f.run = .ok (.solutionFound, e') ∧
    e'.stats.colsFreed = f.stats.colsFreed + 1 ∧ e'.stats.factorizations = f.stats.factorizations + 1 ∧
    f.set.colAt 0 = .atLower ∧ e'.set.colAt 0 = .free := by
  obtain ⟨⟨p, e, ⟨status, f⟩, status', e'⟩, hrun, hcheck⟩ := exists_of_passes (x := rerunBound)
    (f := fun r => r.2.1.lambda == #[0] && decide (r.2.2.1.1 = .solutionFound) && decide (r.2.2.2.1 = .solutionFound) &&
      decide (r.2.2.2.2.stats.colsFreed = r.2.2.1.2.stats.colsFreed + 1) &&
      decide (r.2.2.2.2.stats.factorizations = r.2.2.1.2.stats.factorizations + 1) &&
      decide (r.2.2.1.2.set.colAt 0 = .atLower) && decide (r.2.2.2.2.set.colAt 0 = .free))
    (by decide +kernel)
  have hscript := hrun
  unfold rerunBound at hrun
  simp only [bind_eq_ok_iff, accepted_eq_ok_iff, pure_eq_ok_iff, Prod.mk.injEq] at hrun
  obtain ⟨p, hp, _, hcreate, ⟨b, e⟩, hadd, ⟨b', e₁⟩, hbind, ⟨status, f⟩, hok, ⟨status', e'⟩, hagain, rfl, rfl,
    ⟨rfl, rfl⟩, rfl, rfl⟩ := hrun
  simp only [Bool.and_eq_true, beq_iff_eq, decide_eq_true_eq] at hcheck
  obtain ⟨⟨⟨⟨⟨⟨hlambda, rfl⟩, rfl⟩, hfreed⟩, hfactorizations⟩, hheld⟩, hfree⟩ := hcheck
  exact ⟨p, e₁, f, e', hscript, .create hp, .bindColumn (.addRow (.create hcreate) hadd) hbind,
    fun i _ => admits_of_lambda_eq hlambda i, hok, hagain, hfreed, hfactorizations, hheld, hfree⟩

end Engine

end PolyProjection
