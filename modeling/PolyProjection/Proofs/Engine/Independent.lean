import Mathlib
import PolyProjection.Proofs.Course
import PolyProjection.Proofs.Engine.Likewise

/-! The jobs of a sweep are independent. None of them sees the work on another, so each of them does in any order what it
would do as the first, and what they do adds up. -/

namespace PolyProjection.Engine

set_option linter.unusedSectionVars false

variable {K : Type} [Field K] [LinearOrder K] [IsStrictOrderedRing K]

/-- The work on the job has the given outcome in the state, and the deed is done. -/
def Works (e : Engine K) (job : Job) (out? : Option (LineOutcome K)) (d : Deed K) : Prop :=
  ∃ e', e.workOn job = .ok (out?, e') ∧ d.Does e e'

/-- What is done when the job is processed and told of. -/
def processing (job : Job) (out? : Option (LineOutcome K)) (d : Deed K) : Deed K :=
  d.followedBy (.telling (job.told out?))

variable {e e' g : Engine K} {job other : Job} {jobs : List Job} {out? : Option (LineOutcome K)} {d : Deed K}

theorem Works.processJob (h : e.Works job out? d) : ∃ e', e.processJob job = .ok (job.after out?, e') ∧
    (processing job out? d).Does e e' := by
  obtain ⟨f, hwork, hdoes⟩ := h
  refine ⟨{ f with events := f.events ++ (job.told out?).toArray }, ?_, ?_⟩
  · rw [processJob_eq, hwork]
    rfl
  · exact hdoes.trans (Deed.does_telling f f.heap f.stats f.timers (job.told out?))

section Job

variable (hs : e.Sound) (hp : e.problem.Accepted) (hjob : job.Covers e.problem.tree)

include hs hp hjob

theorem Sound.workOn_ok (hsolves : e.Solves) : ∃ out? e', e.workOn job = .ok (out?, e') := by
  obtain ⟨job', e', hok, -⟩ := hs.processJob_ok hp hsolves hjob
  rw [processJob_eq] at hok
  obtain ⟨⟨out?, f⟩, hwork, -⟩ := bind_eq_ok_iff.1 hok
  exact ⟨out?, f, hwork⟩

theorem Sound.exists_works (hsolves : e.Solves) : ∃ out? d, e.Works job out? d := by
  obtain ⟨out?, e', hwork⟩ := hs.workOn_ok hp hjob hsolves
  obtain ⟨-, d, hdoes, -⟩ := (Alike.refl job e).workOn hp hjob hs hs hsolves hwork hwork
  exact ⟨out?, d, e', hwork, hdoes⟩

/-- A job does the same in states that are alike. -/
theorem Works.of_alike (ha : Alike job e g) (hs' : g.Sound) (hsolves : e.Solves) (h : e.Works job out? d) :
    g.Works job out? d := by
  obtain ⟨e', hwork, hdoes⟩ := h
  have hsolves' : g.Solves := by
    rw [Solves, ha.factor, ha.problem]
    exact hsolves
  obtain ⟨out?', g', hwork'⟩ := hs'.workOn_ok (ha.problem ▸ hp) (ha.problem ▸ hjob) hsolves'
  obtain ⟨rfl, d', hdoes₁, hdoes₂⟩ := ha.workOn hp hjob hs hs' hsolves hwork hwork'
  obtain rfl := hdoes.unique hdoes₁
  exact ⟨g', hwork', hdoes₂⟩

/-- There is a search just if a row of the job is active. -/
theorem Works.isSome_iff (h : e.Works job out? d) :
    out?.isSome = true ↔ ∃ i ∈ job.rows.indices, (e.set.rowAt i).isActive = true := by
  obtain ⟨e', hwork, -⟩ := h
  have hlist : out?.isSome = (e.set.activeBetween job.rows.start job.rows.stop).head?.isSome := by
    have hmeets := hs.meets_ok (hp.job_stop hjob).1
    rcases of_workOn hwork with ⟨hnone, rfl, -⟩ | ⟨hsome, _, _, _, _, _, _, -, -, rfl, -⟩
    · exact Except.ok.inj (hnone.symm.trans hmeets)
    · exact Except.ok.inj (hsome.symm.trans hmeets)
  rw [hlist, List.isSome_head?]
  constructor
  · intro hne
    obtain ⟨i, hi⟩ := List.exists_mem_of_ne_nil _ hne
    obtain ⟨hact, hin⟩ := ActiveSet.mem_activeBetween.1 hi
    exact ⟨i, hin, hact⟩
  · rintro ⟨i, hin, hact⟩
    exact List.ne_nil_of_mem (ActiveSet.mem_activeBetween.2 ⟨hact, hin⟩)

end Job

/-- Jobs that share no row or column do, one after the other, what each of them does as the first. -/
theorem Sound.processJobs_works (hs : e.Sound) (hp : e.problem.Accepted) (hsolves : e.Solves)
    (hcovers : ∀ job ∈ jobs, job.Covers e.problem.tree) (hseparate : jobs.Pairwise Job.Separate)
    {outcome : Job → Option (LineOutcome K)} {deed : Job → Deed K}
    (hworks : ∀ job ∈ jobs, e.Works job (outcome job) (deed job)) :
    ∃ e', e.processJobs jobs = .ok (jobs.map fun job => job.after (outcome job), e') ∧ e'.Sound ∧
      (Deed.all (jobs.map fun job => processing job (outcome job) (deed job))).Does e e' := by
  induction jobs generalizing e with
  | nil => exact ⟨e, rfl, hs, Deed.does_nothing e e.heap e.stats e.timers⟩
  | cons job rest ih =>
      have hjob := hcovers job List.mem_cons_self
      obtain ⟨e₁, hfirst, hdoes⟩ := (hworks job List.mem_cons_self).processJob
      obtain ⟨job', e₁', hok, -, hprocessed, -⟩ := hs.processJob_ok hp hsolves hjob
      obtain ⟨-, rfl⟩ := Prod.mk.inj (Except.ok.inj (hok.symm.trans hfirst))
      have hconfined := hs.confined_processJob hp hjob hsolves hfirst
      rw [List.pairwise_cons] at hseparate
      have hrest : ∀ other ∈ rest, e₁'.Works other (outcome other) (deed other) := fun other hother => by
        have hcover := hcovers other (List.mem_cons_of_mem job hother)
        have ha := hconfined.alike hp hcover hjob (hseparate.1 other hother).symm (Alike.refl other e)
        exact (hworks other (List.mem_cons_of_mem job hother)).of_alike hs hp hcover ha hprocessed.sound hsolves
      obtain ⟨e₂, hlater, hs₂, hdoes₂⟩ := ih hprocessed.sound (hprocessed.problem ▸ hp) (hprocessed.solves hsolves)
        (fun other hother => hprocessed.problem ▸ hcovers other (List.mem_cons_of_mem job hother)) hseparate.2 hrest
      refine ⟨e₂, ?_, hs₂, hdoes.trans hdoes₂⟩
      simp only [Engine.processJobs, hfirst, ok_bind, hlater]
      rfl

/-- At a sweep each order of the jobs does the same for each of them. -/
theorem AtSweep.processJobs_works {s : Fill} (h : AtSweep s g) (hq : Quiet g e) :
    ∃ (outcome : Job → Option (LineOutcome K)) (deed : Job → Deed K),
      (∀ job ∈ g.schedule.jobs, e.Works job (outcome job) (deed job)) ∧
      ∀ jobs : List Job, jobs.Perm g.schedule.jobs →
        ∃ e', e.processJobs jobs = .ok (jobs.map fun job => job.after (outcome job), e') ∧ e'.Sound ∧
          (Deed.all (jobs.map fun job => processing job (outcome job) (deed job))).Does e e' := by
  have hsame := hq.sameState
  have hp : e.problem.Accepted := hsame.problem ▸ h.accepted
  have hs := hsame.sound h.sound
  have hcovers : ∀ job ∈ g.schedule.jobs, job.Covers e.problem.tree := hsame.problem ▸ h.covers
  have hsolves : e.Solves := by
    obtain ⟨_, _, _, _, _, rfl⟩ := hq
    exact h.solves
  have hworks : ∀ job, ∃ out? d, job ∈ g.schedule.jobs → e.Works job out? d := fun job => by
    by_cases hjob : job ∈ g.schedule.jobs
    · obtain ⟨out?, d, hdone⟩ := hs.exists_works hp (hcovers job hjob) hsolves
      exact ⟨out?, d, fun _ => hdone⟩
    · exact ⟨none, .telling [], fun hin => absurd hin hjob⟩
  choose outcome deed hworks using hworks
  refine ⟨outcome, deed, hworks, fun jobs hperm => ?_⟩
  exact hs.processJobs_works hp hsolves (fun job hjob => hcovers job (hperm.subset hjob))
    ((hperm.pairwise_iff fun hsep => hsep.symm).2 h.separate) fun job hjob => hworks job (hperm.subset hjob)

/-- The jobs are processed in the given order, with the given outcomes; the events of each search are told first, then
its outcome. -/
structure Completes (g : Engine K) (outcome : Job → Option (LineOutcome K)) (searched : Job → List (Event K))
    (jobs : List Job) (e : Engine K) : Prop where
  processed : g.processJobs jobs = .ok (jobs.map fun job => job.after (outcome job), e)
  told : e.events.toList = g.events.toList ++ jobs.flatMap fun job => searched job ++ job.told (outcome job)

theorem told_all_processing {outcome : Job → Option (LineOutcome K)} {deed : Job → Deed K} :
    (Deed.all (jobs.map fun job => processing job (outcome job) (deed job))).told =
      jobs.flatMap fun job => (deed job).told ++ job.told (outcome job) := by
  rw [Deed.told_all, List.flatMap_map]
  rfl

variable {p : Problem K} {settings : Settings K} {e₀ g₀ : Engine K}

/-- **The jobs of a sweep are independent.** In whatever order they are processed, each of them comes to the same: there is
a search just if a row of it is active, with the same flag, step and mark, and the same is told. The states at the end
are the same up to the order in which things are stored, logged and told. -/
theorem processJobs_perm (hp : p.Accepted) (he : Reachable p settings e) (hq : Quiet e e₀) (hstart : e₀.SweepStart g)
    (hq₀ : Quiet g g₀) : ∃ (outcome : Job → Option (LineOutcome K)) (searched : Job → List (Event K)) (e₁ : Engine K),
      (∀ job ∈ g.schedule.jobs, (outcome job).isSome = true ↔
        ∃ i ∈ job.rows.indices, (g.set.rowAt i).isActive = true) ∧
      g₀.Completes outcome searched g.schedule.jobs e₁ ∧
      ∀ jobs : List Job, jobs.Perm g.schedule.jobs →
        ∃ e₂, g₀.Completes outcome searched jobs e₂ ∧ SameUpToOrder e₁ e₂ := by
  have hsame := hq.sameState
  have hp₀ : e₀.problem.Accepted := hsame.problem ▸ (he.rests hp).problem ▸ hp
  have hat := (hstart.prepared hp₀ (hsame.sound (he.sound hp)) ((he.tracked hp).of_noted hq.noted)).toAtSweep
  obtain ⟨outcome, deed, hworks, hany⟩ := hat.processJobs_works hq₀
  obtain ⟨e₁, hok₁, hs₁, hdoes₁⟩ := hany _ (List.Perm.refl _)
  have htold : ∀ {jobs : List Job} {e' : Engine K},
      (Deed.all (jobs.map fun job => processing job (outcome job) (deed job))).Does g₀ e' →
      e'.events.toList = g₀.events.toList ++ jobs.flatMap fun job => (deed job).told ++ job.told (outcome job) :=
    fun hdoes => by rw [hdoes.told, told_all_processing]
  refine ⟨outcome, fun job => (deed job).told, e₁, fun job hjob => ?_, ⟨hok₁, htold hdoes₁⟩, fun jobs hperm => ?_⟩
  · have hsame₀ := hq₀.sameState
    have hactive := (hworks job hjob).isSome_iff (hsame₀.sound hat.sound) (hsame₀.problem ▸ hat.accepted)
      (hsame₀.problem ▸ hat.covers job hjob)
    simpa only [hsame₀.rowAt] using hactive
  · obtain ⟨e₂, hok₂, hs₂, hdoes₂⟩ := hany jobs hperm
    exact ⟨e₂, ⟨hok₂, htold hdoes₂⟩, sameUpToOrder_of_perm hs₁ hs₂ hdoes₁ hdoes₂ (hperm.map _)⟩

/-- Five rows that share no column, each with one as its lower bound; the point meets the bounds of the first and the
third. -/
def fiveRows : Checked (Except ProblemError (Problem ℚ)) :=
  Problem.create ⟨5, 5, #[0, 1, 2, 3, 4, 5], #[0, 1, 2, 3, 4], #[1, 1, 1, 1, 1]⟩ (Array.replicate 5 (.finite 1))
    (Array.replicate 5 .posInf) (Array.replicate 5 .negInf) (Array.replicate 5 .posInf) #[2, 0, 2, 0, 0]

/-- The first sweep over five rows in two blocks and their parent. -/
def sweepFiveRows : Checked (Problem ℚ × Problem ℚ × Engine ℚ × Engine ℚ × List Job) := do
  let q ← accepted fiveRows
  let p ← accepted (q.withBlockTree Schedule.twoLeaves)
  let created ← accepted (create p plain)
  let e ← created.holdRows 5
  let g ← e.firstSweep
  let (jobs, _) ← g.inSweep.processJobs g.schedule.jobs
  return (q, p, e, g, jobs)

/-- There are two jobs, and each of them drops a row. -/
theorem exists_sweepFiveRows : ∃ (p : Problem ℚ) (e g e₁ : Engine ℚ) (jobs : List Job), p.Accepted ∧ Reachable p plain e ∧
    e.SweepStart g ∧ g.inSweep.processJobs g.schedule.jobs = .ok (jobs, e₁) ∧
    jobs.map (fun job => (job.block, job.mark)) = [(0, some 0), (1, some 2)] := by
  obtain ⟨⟨q, p, e, g, jobs⟩, hrun, hcheck⟩ := exists_of_passes (x := sweepFiveRows)
    (f := fun r => decide (r.2.2.2.2.map (fun job : Job => (job.block, job.mark)) = [(0, some 0), (1, some 2)]))
    (by decide +kernel)
  unfold sweepFiveRows at hrun
  simp only [bind_eq_ok_iff, accepted_eq_ok_iff, pure_eq_ok_iff, Prod.mk.injEq] at hrun
  obtain ⟨q, hq, p, hp, created, hcreate, e, hhold, g, hfirst, ⟨jobs, e₁⟩, hjobs, rfl, rfl, rfl, rfl, rfl⟩ := hrun
  obtain ⟨_, _, _, htree⟩ := Schedule.accepted_twoLeaves
  exact ⟨p, e, g, e₁, jobs, .withBlockTree (.create hq) htree hp, (Reachable.create hcreate).holdRows hhold,
    sweepStart_of_firstSweep hfirst, hjobs, of_decide_eq_true hcheck⟩

/-- Both orders of the two jobs lead to the same. -/
theorem processJobs_perm_fiveRows : ∃ (p : Problem ℚ) (e g e₁ e₂ : Engine ℚ) (jobs jobs' : List Job), p.Accepted ∧
    Reachable p plain e ∧ e.SweepStart g ∧ g.inSweep.processJobs g.schedule.jobs = .ok (jobs, e₁) ∧
    g.inSweep.processJobs g.schedule.jobs.reverse = .ok (jobs', e₂) ∧ SameUpToOrder e₁ e₂ ∧
    jobs.map (fun job => (job.block, job.mark)) = [(0, some 0), (1, some 2)] ∧
    jobs'.map (fun job => (job.block, job.mark)) = [(1, some 2), (0, some 0)] := by
  obtain ⟨p, e, g, e₁, jobs, hp, he, hstart, hjobs, hmarks⟩ := exists_sweepFiveRows
  obtain ⟨outcome, searched, _, -, ⟨hok₁, -⟩, hany⟩ :=
    processJobs_perm hp he (Quiet.refl e) hstart g.aside_inSweep.quiet
  obtain ⟨e₂, ⟨hok₂, -⟩, hsame⟩ := hany _ (List.reverse_perm _)
  obtain ⟨rfl, rfl⟩ := Prod.mk.inj (Except.ok.inj (hok₁.symm.trans hjobs))
  refine ⟨p, e, g, _, e₂, _, _, hp, he, hstart, hok₁, hok₂, hsame, hmarks, ?_⟩
  rw [List.map_reverse, List.map_reverse, hmarks]
  rfl

end PolyProjection.Engine
