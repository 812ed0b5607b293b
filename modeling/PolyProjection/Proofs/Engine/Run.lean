import Mathlib
import PolyProjection.Proofs.Engine.Commit
import PolyProjection.Proofs.Engine.LineSearch
import PolyProjection.Proofs.Engine.Rebase
import PolyProjection.Proofs.Engine.Setup
import PolyProjection.Proofs.Schedule

/-! Runs of the engine. Whatever a run does and however it ends, the engine stays regular and the multipliers stay
on the sides of their rows; at the end no increment is left. -/

namespace PolyProjection

set_option linter.unusedSectionVars false

variable {K : Type} [Field K] [LinearOrder K] [IsStrictOrderedRing K]

/-- The job when it has been worked on, with the outcome of its search if there was one. -/
def Job.after (job : Job) : Option (LineOutcome K) → Job
  | none => { job with changed := false, mark := none }
  | some out => { job with changed := out.changed, mark := out.mark }

/-- What is told of the job when it has been worked on. -/
def Job.told (job : Job) : Option (LineOutcome K) → List (Event K)
  | none => []
  | some out => .jobDone job.block out.step out.flag out.changed ::
      if out.flag = .degenerate then [.degenerateDirection job.block] else []

namespace Engine

/-- An engine between runs. -/
structure AtRest (e : Engine K) : Prop where
  regular : e.Regular
  feasible : e.DualFeasible
  still : ∀ i, coord e.dlambda i = 0

variable {e e' e'' : Engine K} {job job' : Job} {status : Status}

/-- A solve changes the vectors of the Newton system only. -/
theorem of_solveJob (hok : e.solveJob job = .ok e') : ∃ fwd u t stats,
    e' = { e with work := { e.work with fwd := fwd, u := u, t := t }, stats := stats } := by
  unfold solveJob at hok
  simp only [bind_eq_ok_iff, pure_eq_ok_iff] at hok
  obtain ⟨_, -, fwd, -, u, -, t, -, rfl⟩ := hok
  exact ⟨fwd, u, t, _, rfl⟩

/-- The work on a job before it is told of: the solve and the search, if a row of the job is active. -/
def workOn (e : Engine K) (job : Job) : Checked (Option (LineOutcome K) × Engine K) := do
  if !(← Schedule.meets e.set.rows job.rows) then return (none, e)
  let e := { e with stats := { e.stats with jobs := e.stats.jobs + 1 } }
  let (_, e) ← e.timed "solve" fun e => return ((), ← e.solveJob job)
  let (out, e) ← e.timed "linesearch" fun e => e.lineSearch job.rows job.cols
  return (some out, e)

theorem processJob_eq (e : Engine K) (job : Job) : e.processJob job = (do
    let (out?, e) ← e.workOn job
    return (job.after out?, { e with events := e.events ++ (job.told out?).toArray })) := by
  unfold processJob workOn
  cases Schedule.meets e.set.rows job.rows with
  | error _ => rfl
  | ok meets =>
      cases meets with
      | false => simp [Job.after, Job.told]
      | true =>
          simp only [ok_bind, Bool.not_true, Bool.false_eq_true, if_false, bind_assoc, pure_bind]
          refine bind_congr fun solved => bind_congr fun searched => ?_
          simp only [Job.after, Job.told, tell]
          split_ifs <;> rfl

theorem of_workOn {out? : Option (LineOutcome K)} (hok : e.workOn job = .ok (out?, e')) :
    Schedule.meets e.set.rows job.rows = .ok false ∧ out? = none ∧ e' = e ∨
    Schedule.meets e.set.rows job.rows = .ok true ∧ ∃ timers timers₁ timers₂ e₁ e₂ out,
      solveJob { e with stats := { e.stats with jobs := e.stats.jobs + 1 }, timers := timers } job = .ok e₁ ∧
      lineSearch { e₁ with timers := timers₁ } job.rows job.cols = .ok (out, e₂) ∧ out? = some out ∧
      e' = { e₂ with timers := timers₂ } := by
  unfold workOn at hok
  rw [bind_eq_ok_iff] at hok
  obtain ⟨meets, hmeets, hok⟩ := hok
  cases meets with
  | false =>
      simp only [Bool.not_false, if_true, pure_eq_ok_iff, Prod.mk.injEq] at hok
      exact .inl ⟨hmeets, hok.1.symm, hok.2.symm⟩
  | true =>
      simp only [Bool.not_true, Bool.false_eq_true, if_false, bind_eq_ok_iff, pure_eq_ok_iff, Prod.mk.injEq] at hok
      obtain ⟨⟨_, g₁⟩, htimed, ⟨out, g₂⟩, htimed', rfl, rfl⟩ := hok
      obtain ⟨g₃, hact, rfl⟩ := of_timed htimed
      obtain ⟨g₄, hsearch, rfl⟩ := of_timed htimed'
      simp only [bind_eq_ok_iff, pure_eq_ok_iff, Prod.mk.injEq] at hact
      obtain ⟨g₅, hsolve, -, rfl⟩ := hact
      exact .inr ⟨hmeets, _, _, _, g₅, g₄, out, hsolve, hsearch, rfl, rfl⟩

/-- A job without active rows is passed over; for any other there is a solve and a search. -/
theorem of_processJob (hok : e.processJob job = .ok (job', e')) :
    Schedule.meets e.set.rows job.rows = .ok false ∧ job' = { job with changed := false, mark := none } ∧ e' = e ∨
    Schedule.meets e.set.rows job.rows = .ok true ∧ ∃ e₁ e₂ e₃ e₄ out, Aside e e₁ ∧ e₁.solveJob job = .ok e₂ ∧
      Aside e₂ e₃ ∧ e₃.lineSearch job.rows job.cols = .ok (out, e₄) ∧ Aside e₄ e' ∧
      job' = { job with changed := out.changed, mark := out.mark } := by
  rw [processJob_eq] at hok
  simp only [bind_eq_ok_iff, pure_eq_ok_iff, Prod.mk.injEq] at hok
  obtain ⟨⟨out?, f⟩, hwork, rfl, rfl⟩ := hok
  rcases of_workOn hwork with ⟨hmeets, rfl, rfl⟩ | ⟨hmeets, _, _, _, e₂, e₄, out, hsolve, hsearch, rfl, rfl⟩
  · exact .inl ⟨hmeets, rfl, by simp [Job.told]⟩
  · refine .inr ⟨hmeets, _, e₂, _, e₄, out, ?_, hsolve, ?_, hsearch, ?_, rfl⟩ <;>
      exact ⟨⟨_, _, _, _, _, rfl⟩, rfl, rfl, rfl, rfl⟩

/-- What can happen to an engine within a run, once its vectors have been computed. -/
inductive RunStep (e : Engine K) : Engine K → Prop where
  | quiet {e' : Engine K} : Quiet e e' → RunStep e e'
  | commit {e' : Engine K} {isPartial refactored : Bool} : e.commit isPartial = .ok (refactored, e') → RunStep e e'
  | schedule (s : Schedule) : RunStep e { e with schedule := s }
  | solve {e' : Engine K} {job : Job} : e.solveJob job = .ok e' → RunStep e e'
  | search {e' : Engine K} {job : Job} {out : LineOutcome K} : job.Covers e.problem.tree →
      e.lineSearch job.rows job.cols = .ok (out, e') → e.Searched job.rows job.cols out e' → RunStep e e'

/-- Any number of such steps. -/
def Runs (e e' : Engine K) : Prop :=
  Relation.ReflTransGen RunStep e e'

theorem RunStep.frame (h : RunStep e e') : e'.problem = e.problem ∧ e'.settings = e.settings := by
  cases h with
  | quiet h => exact ⟨h.sameState.problem, h.sameState.settings⟩
  | commit h => exact ⟨(sameState_of_commit h).problem, (sameState_of_commit h).settings⟩
  | schedule s => exact ⟨rfl, rfl⟩
  | solve h =>
      obtain ⟨_, _, _, _, rfl⟩ := of_solveJob h
      exact ⟨rfl, rfl⟩
  | search _ _ h => exact ⟨h.frame.problem, h.frame.settings⟩

theorem RunStep.regular (h : RunStep e e') (hr : e.Regular) : e'.Regular := by
  cases h with
  | quiet h => exact h.sameState.regular hr
  | commit h => exact (sameState_of_commit h).regular hr
  | schedule s =>
      exact ⟨hr.problem, hr.set, hr.rows_fit, hr.cols_fit, hr.heap, hr.size_lambda, hr.size_dlambda⟩
  | solve h =>
      obtain ⟨fwd, u, t, stats, rfl⟩ := of_solveJob h
      have hw := hr.of_work { e.work with fwd := fwd, u := u, t := t }
      exact ⟨hw.problem, hw.set, hw.rows_fit, hw.cols_fit, hw.heap, hw.size_lambda, hw.size_dlambda⟩
  | search _ _ h => exact h.regular hr

theorem RunStep.dualFeasible (h : RunStep e e') (hr : e.Regular) (hf : e.DualFeasible) : e'.DualFeasible := by
  cases h with
  | quiet h => exact h.sameState.dualFeasible hf
  | commit h => exact (sameState_of_commit h).dualFeasible hf
  | schedule s => exact hf.of_eq (fun _ => rfl) rfl rfl
  | solve h =>
      obtain ⟨fwd, u, t, stats, rfl⟩ := of_solveJob h
      exact hf.of_eq (fun _ => rfl) rfl rfl
  | search _ _ h => exact (h.feasible hr hf).2.1

theorem Runs.regular (h : Runs e e') (hr : e.Regular) :
    e'.Regular ∧ e'.problem = e.problem ∧ e'.settings = e.settings := by
  induction h with
  | refl => exact ⟨hr, rfl, rfl⟩
  | tail _ hstep ih =>
      exact ⟨hstep.regular ih.1, hstep.frame.1.trans ih.2.1, hstep.frame.2.trans ih.2.2⟩

theorem Runs.dualFeasible (h : Runs e e') (hr : e.Regular) (hf : e.DualFeasible) : e'.DualFeasible := by
  induction h with
  | refl => exact hf
  | tail hruns hstep ih => exact hstep.dualFeasible (Runs.regular hruns hr).1 ih

/-- A job that is processed stays the job of its block. -/
theorem Runs.of_processJob (hp : e.problem.Accepted) (hr : e.Regular) (hjob : job.Covers e.problem.tree)
    (hok : e.processJob job = .ok (job', e')) :
    Runs e e' ∧ job'.block = job.block ∧ job'.rows = job.rows ∧ job'.cols = job.cols := by
  rcases Engine.of_processJob hok with ⟨-, rfl, rfl⟩ |
    ⟨-, e₁, e₂, e₃, e₄, out, ⟨hq₁, -⟩, hsolve, ⟨hq₂, -⟩, hsearch, ⟨hq₃, -⟩, rfl⟩
  · exact ⟨.refl, rfl, rfl, rfl⟩
  · have h₃ : Runs e e₃ :=
      ((Relation.ReflTransGen.single (.quiet hq₁)).tail (.solve hsolve)).tail (.quiet hq₂)
    obtain ⟨hr₃, hproblem, -⟩ := h₃.regular hr
    have hstop : job.rows.stop ≤ e₃.problem.nrows := by
      rw [hproblem, ← hp.tree.2.1]
      exact hp.tree.1.tested.subtreeRows_stop hjob.1
    have hsearched := hr₃.of_lineSearch hstop hsearch
    exact ⟨(h₃.tail (.search (by rw [hproblem]; exact hjob) hsearch hsearched)).tail (.quiet hq₃), rfl, rfl, rfl⟩

theorem Runs.of_processJobs {jobs jobs' : List Job} (hp : e.problem.Accepted) (hr : e.Regular)
    (hcovers : ∀ job ∈ jobs, job.Covers e.problem.tree) (hok : e.processJobs jobs = .ok (jobs', e')) :
    Runs e e' ∧ ∀ job ∈ jobs', job.Covers e.problem.tree := by
  induction jobs generalizing e jobs' with
  | nil =>
      rw [processJobs, pure_eq_ok_iff, Prod.mk.injEq] at hok
      obtain ⟨rfl, rfl⟩ := hok
      exact ⟨.refl, hcovers⟩
  | cons job rest ih =>
      rw [processJobs] at hok
      simp only [bind_eq_ok_iff, pure_eq_ok_iff, Prod.mk.injEq] at hok
      obtain ⟨⟨job₁, e₁⟩, hjob, ⟨rest₁, e₂⟩, hrest, rfl, rfl⟩ := hok
      obtain ⟨h₁, hblock, hrows, hcols⟩ := Runs.of_processJob hp hr (hcovers job List.mem_cons_self) hjob
      obtain ⟨hr₁, hproblem, -⟩ := h₁.regular hr
      obtain ⟨h₂, hcovers₂⟩ := ih (by rw [hproblem]; exact hp) hr₁
        (fun g hg => by rw [hproblem]; exact hcovers g (List.mem_cons_of_mem job hg)) hrest
      refine ⟨h₁.trans h₂, fun g hg => ?_⟩
      rcases List.mem_cons.1 hg with rfl | hg
      · rw [Job.Covers, hblock, hrows, hcols]
        exact hcovers job List.mem_cons_self
      · rw [← hproblem]
        exact hcovers₂ g hg

/-- Settings that pass their check have positive tolerances and leave room for a sweep and a round. -/
theorem pos_of_validate {s : Settings K} (h : s.validate = .ok ()) :
    0 < s.sigma ∧ 0 < s.tolFeas ∧ s.maxSweeps ≠ 0 ∧ s.maxOuterIter ≠ 0 := by
  have hall := Settings.validate_eq_ok_iff.1 h
  simp only [Settings.verdicts, Settings.isPositive, List.forall_mem_cons, Scalar.isFinite_exact, Bool.true_and,
    decide_eq_true_eq, bne_iff_ne] at hall
  exact ⟨hall.1, hall.2.1, hall.2.2.2.2.1, hall.2.2.2.2.2.1⟩

theorem of_create {p : Problem K} {s : Settings K} (hp : p.WellPosed) (hok : create p s = .ok (.ok e)) :
    s.validate = .ok () ∧ e.AtRest ∧ e.problem = p ∧ e.settings = s := by
  obtain ⟨hvalid, f, -, rfl⟩ := create_eq_ok_iff.1 hok
  have hrow : ∀ i, (fresh p s f).set.rowAt i = .dropped := fun _ => ActiveSet.rowAt_empty _ _
  have hcol : ∀ j, (fresh p s f).set.colAt j = .free := fun _ => ActiveSet.colAt_empty _ _
  have hlambda : ∀ i, coord (fresh p s f).lambda i = 0 := coord_replicate _
  have hdlambda : ∀ i, coord (fresh p s f).dlambda i = 0 := coord_replicate _
  refine ⟨hvalid, ⟨⟨hp, ActiveSet.rowsAgree_empty _ _, fun i => ?_, fun j => ?_, BreakHeap.valid_empty _,
    Array.size_replicate .., Array.size_replicate ..⟩, ⟨fun i _ => ⟨hlambda i, hdlambda i⟩, fun i => ?_⟩, hdlambda⟩,
    rfl, rfl⟩
  · rw [hrow]
    trivial
  · rw [hcol]
    trivial
  · rw [hlambda, hdlambda, add_zero]
    exact RowStatus.admits_zero _

/-- The state in which a sweep begins with its jobs. -/
def inSweep (e : Engine K) : Engine K :=
  { e with stats := { e.stats with sweeps := e.stats.sweeps + 1 } }

theorem aside_inSweep (e : Engine K) : Aside e e.inSweep :=
  ⟨⟨_, _, _, _, _, rfl⟩, rfl, rfl, rfl, rfl⟩

/-- A sweep processes the jobs, commits what they changed, and asks the schedule how to go on. -/
theorem of_sweep {number : Nat} {status? : Option Status} (hok : e.sweep number = .ok (status?, e')) :
    ∃ jobs e₂ e₃ refactored schedule, e.inSweep.processJobs e.schedule.jobs = .ok (jobs, e₂) ∧
      commit { e₂ with schedule := { e₂.schedule with jobs := jobs } }
        (!({ e₂.schedule with jobs := jobs } : Schedule).atRoot e₂.problem.tree) = .ok (refactored, e₃) ∧
      e₃.checkState = .ok () ∧
      e₃.schedule.advance e₃.problem.tree e₃.set.rows refactored = .ok (status?, schedule) ∧
      Aside { e₃ with schedule := schedule } e' := by
  unfold sweep at hok
  simp only [bind_eq_ok_iff, pure_eq_ok_iff, Prod.mk.injEq] at hok
  obtain ⟨⟨jobs, e₂⟩, hjobs, ⟨refactored, e₃⟩, hcommit, _, hcheck, ⟨status, schedule⟩, hadvance, rfl, rfl⟩ := hok
  have haside : Aside e₃ (tell (e₃.print 2 (.sweep number jobs.length e₃.set.activeCount
      (e₃.stats.rowsDropped - e.stats.rowsDropped) (e₃.stats.colsFreed - e.stats.colsFreed) refactored))
      (.sweepDone number jobs.length (e₃.stats.rowsDropped - e.stats.rowsDropped)
        (e₃.stats.colsFreed - e.stats.colsFreed))) :=
    (aside_print _ _ _).trans (aside_tell _ _)
  obtain ⟨⟨_, _, _, _, _, heq⟩, hfactorizations, hupdates, hdropped, hfreed⟩ := haside
  rw [heq] at hadvance hfactorizations hupdates hdropped hfreed
  refine ⟨jobs, e₂, e₃, refactored, schedule, hjobs, hcommit, hcheck, hadvance, ?_⟩
  rw [heq]
  exact ⟨⟨_, _, _, _, _, rfl⟩, hfactorizations, hupdates, hdropped, hfreed⟩

theorem Runs.of_sweep {number : Nat} {status? : Option Status} (hp : e.problem.Accepted) (hr : e.Regular)
    (hcovers : ∀ job ∈ e.schedule.jobs, job.Covers e.problem.tree) (hok : e.sweep number = .ok (status?, e')) :
    Runs e e' ∧ ∀ job ∈ e'.schedule.jobs, job.Covers e'.problem.tree := by
  obtain ⟨jobs, e₂, e₃, refactored, schedule, hjobs, hcommit, -, hadvance, ⟨hq₂, -⟩⟩ := Engine.of_sweep hok
  have hq₁ := e.aside_inSweep.quiet
  have hproblem₁ := hq₁.sameState.problem
  obtain ⟨h₂, hcovers₂⟩ := Runs.of_processJobs (by rw [hproblem₁]; exact hp) (hq₁.sameState.regular hr)
    (by rw [hproblem₁]; exact hcovers) hjobs
  have hsame := sameState_of_commit hcommit
  have h₃ : Runs e e₃ := ((Relation.ReflTransGen.head (.quiet hq₁) h₂).tail (.schedule _)).tail (.commit hcommit)
  have hproblem₃ := (h₃.regular hr).2.1
  refine ⟨(h₃.tail (.schedule schedule)).tail (.quiet hq₂), ?_⟩
  rw [hq₂.sameState.problem, hq₂.sameState.schedule]
  refine Schedule.covers_of_advance ?_ hadvance
  rw [hsame.schedule, hproblem₃, ← hproblem₁]
  exact hcovers₂

theorem Runs.of_sweepsFrom {done left sweeps : Nat} (hp : e.problem.Accepted) (hr : e.Regular)
    (hcovers : ∀ job ∈ e.schedule.jobs, job.Covers e.problem.tree)
    (hok : sweepsFrom done left e = .ok ((status, sweeps), e')) : Runs e e' := by
  induction left generalizing done e with
  | zero =>
      rw [sweepsFrom, pure_eq_ok_iff, Prod.mk.injEq] at hok
      rw [← hok.2]
      exact .refl
  | succ left ih =>
      rw [sweepsFrom, bind_eq_ok_iff] at hok
      obtain ⟨⟨status?, e₁⟩, hsweep, hok⟩ := hok
      obtain ⟨h₁, hcovers₁⟩ := Runs.of_sweep hp hr hcovers hsweep
      cases status? with
      | some _ =>
          rw [pure_eq_ok_iff, Prod.mk.injEq] at hok
          rwa [← hok.2]
      | none =>
          obtain ⟨hr₁, hproblem, -⟩ := h₁.regular hr
          exact h₁.trans (ih (by rw [hproblem]; exact hp) hr₁ hcovers₁ hok)

/-- The sweeps begin with vectors computed anew and a factor in line with the active set. Without an active row
there are none. -/
theorem of_runSweeps {sweeps : Nat} (hok : e.runSweeps = .ok ((status, sweeps), e')) :
    ∃ e₁ e₂ refactored, e.rebase = .ok e₁ ∧ e₁.commit false = .ok (refactored, e₂) ∧
      (e₂.set.activeCount = 0 ∧ status = .allRowsDropped ∧ e' = e₂ ∨
        e₂.set.activeCount ≠ 0 ∧ ∃ schedule, Schedule.seed e₂.problem.tree e₂.set.rows = .ok schedule ∧
          sweepsFrom 0 e₂.settings.maxSweeps { e₂ with schedule := schedule } = .ok ((status, sweeps), e')) := by
  unfold runSweeps at hok
  simp only [bind_eq_ok_iff] at hok
  obtain ⟨e₁, hrebase, ⟨refactored, e₂⟩, hcommit, _, -, _, -, hok⟩ := hok
  refine ⟨e₁, e₂, refactored, hrebase, hcommit, ?_⟩
  split_ifs at hok with hnone
  · rw [pure_eq_ok_iff, Prod.mk.injEq, Prod.mk.injEq] at hok
    exact .inl ⟨beq_iff_eq.1 hnone, hok.1.1.symm, hok.2.symm⟩
  · obtain ⟨schedule, hseed, hok⟩ := bind_eq_ok_iff.1 hok
    exact .inr ⟨fun h => hnone (beq_iff_eq.2 h), schedule, hseed, hok⟩

theorem Runs.of_runSweeps {sweeps : Nat} (hp : e.problem.Accepted) (hr : e.Regular)
    (hok : e.runSweeps = .ok ((status, sweeps), e')) : ∃ e₁, Rebased e e₁ ∧ Runs e₁ e' := by
  obtain ⟨e₁, e₂, refactored, hrebase, hcommit, hend⟩ := Engine.of_runSweeps hok
  have hrebased := hr.of_rebase hrebase
  have hr₁ := hrebased.regular hr
  have h₂ : Runs e₁ e₂ := .single (.commit hcommit)
  refine ⟨e₁, hrebased, ?_⟩
  rcases hend with ⟨-, -, rfl⟩ | ⟨-, schedule, hseed, hsweeps⟩
  · exact h₂
  · have h₃ := h₂.tail (.schedule schedule)
    obtain ⟨hr₃, hproblem, -⟩ := Runs.regular h₃ hr₁
    refine h₃.trans (Runs.of_sweepsFrom ?_ hr₃ (Schedule.covers_of_seed hseed) hsweeps)
    rw [hproblem, hrebased.problem_eq]
    exact hp

/-- A run after the line about the problem, which stands before the first one only. -/
def runCounted (e : Engine K) : Checked (Status × Engine K) := do
  let e : Engine K := { e with stats := { e.stats with runs := e.stats.runs + 1 } }
  let ((status, sweeps), e) ← (e.print 2 .runHeader).timed "dasa" fun e => do
    let (result, e) ← e.runSweeps
    return (result, ← e.finish)
  let e : Engine K := { e with status := some status }
  let e := e.print 1 (.runFooter e.stats.runs status sweeps)
  return (status, e.tell (.runDone e.stats.runs status sweeps))

theorem of_runCounted {e₀ : Engine K} (hq : Aside e e₀) (hok : e₀.runCounted = .ok (status, e')) :
    ∃ e₁ e₂ e₃ sweeps, Aside e e₁ ∧ e₁.runSweeps = .ok ((status, sweeps), e₂) ∧ e₂.rebase = .ok e₃ ∧
      Aside { e₃ with x := e₃.work.reference } e' := by
  unfold runCounted at hok
  obtain ⟨⟨⟨status', sweeps⟩, e₂⟩, htimed, hok⟩ := bind_eq_ok_iff.1 hok
  obtain ⟨e₃, hact, rfl⟩ := of_timed htimed
  simp only [bind_eq_ok_iff, pure_eq_ok_iff, Prod.mk.injEq] at hact hok
  obtain ⟨⟨_, e₄⟩, hsweeps, e₅, hfinish, rfl, rfl⟩ := hact
  obtain ⟨rfl, rfl⟩ := hok
  unfold finish at hfinish
  simp only [bind_eq_ok_iff, pure_eq_ok_iff] at hfinish
  obtain ⟨e₆, hrebase, rfl⟩ := hfinish
  refine ⟨_, e₄, e₆, _, ?_, hsweeps, hrebase, ?_⟩
  · have hcounted : Aside e₀ { e₀ with stats := { e₀.stats with runs := e₀.stats.runs + 1 } } :=
      ⟨⟨_, _, _, _, _, rfl⟩, rfl, rfl, rfl, rfl⟩
    have htimed : ∀ g : Engine K, Aside g { g with timers := g.timers.start "dasa" } := fun g =>
      ⟨⟨_, _, _, _, _, rfl⟩, rfl, rfl, rfl, rfl⟩
    exact ((hq.trans hcounted).trans (aside_print _ 2 .runHeader)).trans (htimed _)
  · exact (Aside.trans ⟨⟨_, _, _, _, _, rfl⟩, rfl, rfl, rfl, rfl⟩ (aside_print _ 1 _)).trans (aside_tell _ _)

/-- A run is a number of sweeps, after which the vectors are computed anew and the point is kept. -/
theorem of_run (hok : e.run = .ok (status, e')) : ∃ e₁ e₂ e₃ sweeps, Aside e e₁ ∧
    e₁.runSweeps = .ok ((status, sweeps), e₂) ∧ e₂.rebase = .ok e₃ ∧
    Aside { e₃ with x := e₃.work.reference } e' := by
  unfold run at hok
  dsimp only at hok
  split_ifs at hok
  · obtain ⟨nnz, -, hok⟩ := bind_eq_ok_iff.1 hok
    exact of_runCounted (aside_print _ _ _) hok
  · exact of_runCounted (Aside.refl e) hok

/-- A run leaves an engine regular and without increments, however it ends. -/
theorem Regular.of_run (hp : e.problem.Accepted) (hr : e.Regular) (hok : e.run = .ok (status, e')) :
    ∃ e₁ e₂ e₃ e₄, Quiet e e₁ ∧ Rebased e₁ e₂ ∧ Runs e₂ e₃ ∧ Rebased e₃ e₄ ∧
      Quiet { e₄ with x := e₄.work.reference } e' ∧ e'.Regular ∧ e'.problem = e.problem ∧
      e'.settings = e.settings ∧ ∀ i, coord e'.dlambda i = 0 := by
  obtain ⟨e₁, e₃, e₄, sweeps, ⟨hq₁, -⟩, hsweeps, hrebase, ⟨hq₂, -⟩⟩ := Engine.of_run hok
  have hr₁ := hq₁.sameState.regular hr
  obtain ⟨e₂, hrebased, hruns⟩ := Runs.of_runSweeps (by rw [hq₁.sameState.problem]; exact hp) hr₁ hsweeps
  have hr₂ := hrebased.regular hr₁
  obtain ⟨hr₃, hproblem, hsettings⟩ := hruns.regular hr₂
  have hrebased' := hr₃.of_rebase hrebase
  have hr₄ := hrebased'.regular hr₃
  refine ⟨e₁, e₂, e₃, e₄, hq₁, hrebased, hruns, hrebased', hq₂, hq₂.sameState.regular ?_, ?_, ?_, fun i => ?_⟩
  · exact ⟨hr₄.problem, hr₄.set, hr₄.rows_fit, hr₄.cols_fit, hr₄.heap, hr₄.size_lambda, hr₄.size_dlambda⟩
  · rw [hq₂.sameState.problem, hrebased'.problem_eq, hproblem, hrebased.problem_eq, hq₁.sameState.problem]
  · rw [hq₂.sameState.settings, hrebased'.settings_eq, hsettings, hrebased.settings_eq, hq₁.sameState.settings]
  · rw [hq₂.sameState.dlambda]
    exact hrebased'.dlambda i

/-- A run leaves an engine at rest, however it ends. -/
theorem AtRest.of_run (hp : e.problem.Accepted) (h : e.AtRest) (hok : e.run = .ok (status, e')) :
    e'.AtRest ∧ e'.problem = e.problem ∧ e'.settings = e.settings := by
  obtain ⟨e₁, e₂, e₃, e₄, hq₁, hrebased, hruns, hrebased', hq₂, hr', hproblem, hsettings, hstill⟩ :=
    Regular.of_run hp h.regular hok
  have hr₁ := hq₁.sameState.regular h.regular
  have hf₂ := hrebased.dualFeasible fun i _ => (hq₁.sameState.dualFeasible h.feasible).on_side i
  have hf₄ := hrebased'.dualFeasible fun i _ => (hruns.dualFeasible (hrebased.regular hr₁) hf₂).on_side i
  exact ⟨⟨hr', hq₂.sameState.dualFeasible (hf₄.of_eq (fun _ => rfl) rfl rfl), hstill⟩, hproblem, hsettings⟩

end Engine

end PolyProjection
