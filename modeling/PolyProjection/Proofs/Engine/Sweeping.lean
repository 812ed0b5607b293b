import Mathlib
import PolyProjection.Proofs.Engine.Processing
import PolyProjection.Proofs.Engine.Upkeep

/-! The sweeps of a run. Each sweep is carried out and resolves a block or takes a row or a column out of the working
set; neither comes back, so the number of blocks that are not resolved and of rows and columns that are still in the
working set bounds the number of sweeps. -/

namespace PolyProjection.Engine

set_option linter.unusedSectionVars false

variable {K : Type} [Field K] [LinearOrder K] [IsStrictOrderedRing K]

variable {e e' e'' g : Engine K} {isPartial refactored : Bool}

section Commit

theorem tally_of_refactor (hok : e.refactor = .ok e') : SameTally e e' ∧ e'.timers = e.timers := by
  unfold refactor at hok
  simp only [bind_eq_ok_iff, pure_eq_ok_iff] at hok
  obtain ⟨_, -, _, -, _, -, rfl⟩ := hok
  exact ⟨⟨rfl, rfl, rfl, rfl⟩, rfl⟩

theorem tally_of_applyUpdates (hok : e.applyUpdates isPartial = .ok e') : SameTally e e' ∧ e'.timers = e.timers := by
  unfold applyUpdates at hok
  simp only [bind_eq_ok_iff, pure_eq_ok_iff] at hok
  obtain ⟨r₁, h₁, r₂, h₂, r₃, h₃, r₄, h₄, rfl⟩ := hok
  obtain ⟨_, _, hr₄⟩ := Replay.of_replays h₁ h₂ h₃ h₄
  rw [hr₄]
  exact ⟨⟨rfl, rfl, rfl, rfl⟩, rfl⟩

/-- A commit counts no row or column, and what it does runs under one timer. -/
theorem tally_of_commit (hok : e.commit isPartial = .ok (refactored, e')) :
    SameTally e e' ∧ Timers.Nests 1 e.timers e'.timers := by
  unfold commit at hok
  dsimp only at hok
  split_ifs at hok with hnone hchoice
  · rw [pure_eq_ok_iff, Prod.mk.injEq] at hok
    rw [← hok.2]
    exact ⟨⟨rfl, rfl, rfl, rfl⟩, Timers.nests_of_eq rfl⟩
  all_goals
    simp only [bind_eq_ok_iff, pure_eq_ok_iff, Prod.mk.injEq] at hok
    obtain ⟨⟨_, e₂⟩, htimed, -, rfl⟩ := hok
    obtain ⟨e₃, hact, rfl⟩ := of_timed htimed
    simp only [bind_eq_ok_iff, pure_eq_ok_iff, Prod.mk.injEq] at hact
    obtain ⟨e₄, hact, -, rfl⟩ := hact
  · obtain ⟨htally, htimers⟩ := tally_of_refactor hact
    exact ⟨⟨htally.added, htally.dropped, htally.freed, htally.bound⟩, (Timers.nests_of_eq htimers).timed⟩
  · obtain ⟨htally, htimers⟩ := tally_of_applyUpdates hact
    exact ⟨⟨htally.added, htally.dropped, htally.freed, htally.bound⟩, (Timers.nests_of_eq htimers).timed⟩

end Commit

/-- The state before a sweep of a run: some row is active, the jobs are the blocks that are ready, and the factor can
solve their systems. -/
structure AtSweep (s : Fill) (e : Engine K) : Prop where
  accepted : e.problem.Accepted
  sound : e.Sound
  tracked : Tracked s e
  solves : e.Solves
  active : e.set.activeList ≠ []
  stands : e.schedule.Stands e.problem.tree (e.schedule.resolved e.problem.tree)
  covers : ∀ job ∈ e.schedule.jobs, job.Covers e.problem.tree

/-- Block `k` was not resolved before a sweep and is so after it. The run ends with a solution once the root is. -/
def Resolves (e : Engine K) (status? : Option Status) (e' : Engine K) (k : ℕ) : Prop :=
  k < e.problem.tree.size ∧ k ∉ e.schedule.resolved e.problem.tree ∧
    (status? = some .solutionFound ∧ k = e.problem.tree.root ∨
      status? = none ∧ k ∈ e'.schedule.resolved e.problem.tree)

/-- What a part of a run leaves behind, with at most `n` levels of timers. -/
structure Carried (s : Fill) (n : ℕ) (e e' : Engine K) : Prop
    extends Sheds ⟨0, e.problem.nrows⟩ ⟨0, e.problem.ncols⟩ e e' where
  sound : e'.Sound
  tracked : Tracked s e'
  timers : Timers.Nests n e.timers e'.timers

/-- What a sweep leaves behind. -/
structure Swept (s : Fill) (e : Engine K) (status? : Option Status) (e' : Engine K) : Prop extends Carried s 1 e e' where
  status : status? ≠ some .maxIterations
  next : status? = none → AtSweep s e' ∧ e.schedule.resolved e.problem.tree ⊆ e'.schedule.resolved e.problem.tree
  progress : (∃ k, Resolves e status? e' k) ∨ e.shed < e'.shed

section Sweep

variable {s : Fill}

theorem Sound.lists (hp : e.problem.Accepted) (hs : e.Sound) :
    e.problem.tree.Lists e.set.rows e.set.activeList where
  holds := ⟨e.problem.nrows, hp.tree.2.1.le, hs.regular.set.rows⟩
  lt _ hi := by
    rw [hp.tree.2.1]
    exact hs.regular.row_lt (ActiveSet.mem_activeList_iff.1 hi)

theorem print_eq (e : Engine K) (detail : ℕ) (r : Report K) :
    ∃ output, e.print detail r = { e with output := output } := by
  unfold print
  split_ifs
  · exact ⟨_, rfl⟩
  · exact ⟨e.output, rfl⟩

/-- What a commit leaves behind. -/
structure Committed (s : Fill) (e e' : Engine K) : Prop where
  sound : e'.Sound
  tracked : Tracked s e'
  matched : Matches s e'
  settled : e'.Settled
  state : SameState e e'
  tally : SameTally e e'
  timers : Timers.Nests 1 e.timers e'.timers

theorem Committed.solves (h : Committed s e e') : e'.Solves :=
  h.matched.solves h.tracked.covers h.tracked.sigma_pos

theorem Committed.sheds {rows cols : IndexRange} (h : Committed s e e') : e.Sheds rows cols e' :=
  sheds_of_same h.state.problem h.state.rowAt h.state.colAt h.tally

theorem Sound.of_commit (hs : e.Sound) (ht : Tracked s e) (hok : e.commit isPartial = .ok (refactored, e')) :
    Committed s e e' := by
  have hstate := sameState_of_commit hok
  obtain ⟨htally, htimers⟩ := tally_of_commit hok
  obtain ⟨_, _, htracks⟩ := id ht
  obtain ⟨hmatches, hlog, hdropped⟩ := htracks.of_commit hs.regular hok
  exact ⟨hstate.sound hs, ht.of_commit hs.regular hok, hmatches, ⟨hlog, hdropped, hmatches.factored⟩, hstate, htally, htimers⟩

/-- A commit is carried out, and the state after it passes its check. -/
theorem Sound.commit_ok (hs : e.Sound) (ht : Tracked s e) (isPartial : Bool) : ∃ refactored e',
    e.commit isPartial = .ok (refactored, e') ∧ Committed s e e' ∧ e'.checkState = .ok () := by
  obtain ⟨_, _, htracks⟩ := id ht
  obtain ⟨refactored, e', hok, -⟩ := htracks.commit_ok hs.regular isPartial
  have hc := hs.of_commit ht hok
  refine ⟨refactored, e', hok, hc, ?_⟩
  rw [checkState, hc.sound.consistent, ok_bind, require_of_true rfl, ok_bind]
  refine require_of_true ?_
  cases hleast : e'.factor.minActiveDiagonal with
  | none => rfl
  | some v =>
      rw [hc.matched.factor] at hleast
      exact decide_eq_true (Fill.le_minActiveDiagonal hc.tracked.sigma_pos hleast)

/-- A sweep as far as its commit: the jobs as they came out, and the engine with their changes in the factor. -/
structure Worked (s : Fill) (e : Engine K) (jobs : List Job) (e' : Engine K) : Prop extends Carried s 1 e e' where
  flags : List.Forall₂ Schedule.Reflagged e.schedule.jobs jobs
  schedule : e'.schedule = { e.schedule with jobs := jobs }
  matched : Matches s e'
  settled : e'.Settled
  changed : (∃ job ∈ jobs, job.changed = true) ↔ e.shed < e'.shed

/-- The jobs of a sweep are worked on and committed, and the conditions after the commit hold. -/
theorem AtSweep.worked (h : AtSweep s e) : ∃ jobs e₁ refactored e',
    e.inSweep.processJobs e.schedule.jobs = .ok (jobs, e₁) ∧
    commit { e₁ with schedule := { e₁.schedule with jobs := jobs } }
      (!({ e₁.schedule with jobs := jobs } : Schedule).atRoot e₁.problem.tree) = .ok (refactored, e') ∧
    e'.checkState = .ok () ∧ Worked s e jobs e' := by
  have hs₀ : e.inSweep.Sound := ⟨{ h.sound.regular with }, h.sound.work, h.sound.columns⟩
  have htracked₀ : Tracked s e.inSweep := h.tracked.of_noted e.aside_inSweep.quiet.noted
  have hstart : e.Sheds ⟨0, e.problem.nrows⟩ ⟨0, e.problem.ncols⟩ e.inSweep :=
    sheds_of_same rfl (fun _ => rfl) (fun _ => rfl) ⟨rfl, rfl, rfl, rfl⟩
  obtain ⟨jobs, e₁, hjobs, hflags, hprocessed, hchanged⟩ :=
    Sound.processJobs_ok (e := e.inSweep) h.accepted hs₀ h.solves e.schedule.jobs h.covers
  have htracked₁ := htracked₀.of_runs hs₀.regular
    (Runs.of_processJobs (e := e.inSweep) h.accepted hs₀.regular h.covers hjobs).1
  obtain ⟨refactored, e', hcommit, hc, hcheck⟩ :=
    Sound.commit_ok (e := { e₁ with schedule := { e₁.schedule with jobs := jobs } })
      ⟨{ hprocessed.sound.regular with }, hprocessed.sound.work, hprocessed.sound.columns⟩
      (htracked₁.of_noted (KeepsFactor.noted_of_eq ⟨rfl, rfl, rfl, rfl, rfl⟩ rfl rfl)) _
  have hcommitted : e₁.Sheds ⟨0, e.problem.nrows⟩ ⟨0, e.problem.ncols⟩ e' := { hc.sheds with }
  have htimers₁ : Timers.Nests 1 e.timers e₁.timers := hprocessed.timers
  refine ⟨jobs, e₁, refactored, e', hjobs, hcommit, hcheck,
    ⟨(hstart.trans hprocessed.toSheds).trans hcommitted, hc.sound, hc.tracked, htimers₁.trans hc.timers⟩, hflags, ?_,
    hc.matched, hc.settled, ?_⟩
  · rw [hc.state.schedule, hprocessed.schedule]
    rfl
  · rw [hchanged, show e'.shed = e₁.shed from (SameTally.shed_eq hc.tally).trans rfl]
    rfl

section Advance

variable {jobs : List Job} {status? : Option Status} {schedule : Schedule} (output : Output K)
  (events : Array (Event K)) (h : AtSweep s e) (hw : Worked s e jobs e')

include hw

/-- What is told of the sweep and what the schedule becomes do not matter. -/
theorem Worked.carried (schedule : Schedule) :
    Carried s 1 e { e' with output := output, events := events, schedule := schedule } :=
  ⟨{ hw.toSheds with }, ⟨{ hw.sound.regular with }, hw.sound.work, hw.sound.columns⟩,
    hw.tracked.of_noted (KeepsFactor.noted_of_eq ⟨rfl, rfl, rfl, rfl, rfl⟩ rfl rfl), hw.timers⟩

include h

theorem Worked.stands : e'.schedule.Stands e.problem.tree (e.schedule.resolved e.problem.tree) :=
  hw.schedule ▸ h.stands.reflagged hw.flags

/-- The schedule goes on from the jobs as they came out, with the rows that are left. -/
theorem Worked.advance_ok (refactored : Bool) : ∃ status? schedule,
    e'.schedule.advance e.problem.tree e'.set.rows refactored = .ok (status?, schedule) ∧
      Schedule.Advanced e.problem.tree e'.set.activeList refactored (e.schedule.resolved e.problem.tree) jobs status?
        schedule := by
  have hlists := hw.sound.lists (hw.problem ▸ h.accepted)
  rw [hw.problem] at hlists
  have hjobs : e'.schedule.jobs = jobs := by rw [hw.schedule]
  exact hjobs ▸ (hw.stands h).advance_ok h.accepted.tree.1.tested hlists refactored

variable (hadvance : e'.schedule.advance e.problem.tree e'.set.rows refactored = .ok (status?, schedule))
  (hadvanced : Schedule.Advanced e.problem.tree e'.set.activeList refactored (e.schedule.resolved e.problem.tree) jobs
    status? schedule)

include hadvanced

/-- If the run goes on, the next sweep can begin, and what was resolved stays so. -/
theorem Worked.next (hadvance : e'.schedule.advance e.problem.tree e'.set.rows refactored = .ok (status?, schedule))
    (hnone : status? = none) : AtSweep s { e' with output := output, events := events, schedule := schedule } ∧
      e.schedule.resolved e.problem.tree ⊆ schedule.resolved e.problem.tree := by
  subst hnone
  have hcarried := hw.carried output events schedule
  cases hadvanced with
  | next hne hnext _ =>
      have hresolved := hnext.eq_resolved h.accepted.tree.1.tested
      have hcovers : ∀ job ∈ schedule.jobs, job.Covers e.problem.tree := by
        refine Schedule.covers_of_advance ?_ hadvance
        rw [hw.schedule]
        exact Schedule.covers_of_reflagged hw.flags h.covers
      have hsolves := hw.matched.solves hw.tracked.covers hw.tracked.sigma_pos
      refine ⟨⟨hw.problem ▸ h.accepted, hcarried.sound, hcarried.tracked, hsolves, hne, ?_, ?_⟩, ?_⟩
      · show schedule.Stands e'.problem.tree (schedule.resolved e'.problem.tree)
        rw [hw.problem]
        exact hresolved ▸ hnext
      · exact hw.problem ▸ hcovers
      · rw [← hresolved]
        exact BlockTree.subset_resolvedAfter

/-- A sweep in which no job has changed resolves the block of each of them. -/
theorem Worked.progress : (∃ k, Resolves e status? { e' with output := output, events := events, schedule := schedule } k) ∨
    e.shed < e'.shed := by
  have ht := h.accepted.tree.1.tested
  have hstands := hw.stands h
  have hjobs : e'.schedule.jobs = jobs := by rw [hw.schedule]
  cases hadvanced with
  | next hne hnext _ =>
      by_cases hsome : ∃ job ∈ jobs, job.changed = true
      · exact .inr (hw.changed.1 hsome)
      · obtain ⟨job, hjob⟩ := List.exists_mem_of_ne_nil _ (hstands.jobs_ne_nil ht)
        have hready := (hstands.ready_iff _).1 ⟨job, hjob, rfl⟩
        rw [hjobs] at hjob
        have hdrained : job.block ∈ Schedule.drainedBlocks jobs :=
          ⟨job, hjob, Bool.eq_false_iff.2 fun hc => hsome ⟨job, hjob, hc⟩, rfl⟩
        refine .inl ⟨job.block, hready.lt_size, hready.unresolved, .inr ⟨rfl, ?_⟩⟩
        show job.block ∈ schedule.resolved e.problem.tree
        rw [← hnext.eq_resolved ht]
        exact .drained hdrained
  | found =>
      exact .inl ⟨e.problem.tree.root, Nat.sub_lt ht.size_pos Nat.one_pos, hstands.root_unresolved, .inl ⟨rfl, rfl⟩⟩
  | dropped hnil =>
      -- no row is left, so those that were active before have been dropped
      have htotal := hw.shed_standing
      have hheld := hw.length_le.2
      have hsome := List.length_pos_iff.2 h.active
      simp only [standing, hnil, List.length_nil] at htotal
      exact .inr (by omega)

end Advance

/-- A sweep is carried out, and it resolves a block or takes a row or a column out of the working set. -/
theorem AtSweep.sweep_ok (h : AtSweep s e) (number : ℕ) :
    ∃ status? e', e.sweep number = .ok (status?, e') ∧ Swept s e status? e' := by
  obtain ⟨jobs, e₁, refactored, e₃, hjobs, hcommit, hcheck, hw⟩ := h.worked
  obtain ⟨status?, schedule, hadvance, hadvanced⟩ := hw.advance_ok h refactored
  obtain ⟨output, hprint⟩ := print_eq e₃ 2 (.sweep number jobs.length e₃.set.activeCount
    (e₃.stats.rowsDropped - e.stats.rowsDropped) (e₃.stats.colsFreed - e.stats.colsFreed) refactored)
  let told : Event K := .sweepDone number jobs.length (e₃.stats.rowsDropped - e.stats.rowsDropped)
    (e₃.stats.colsFreed - e.stats.colsFreed)
  refine ⟨status?, { e₃ with output := output, events := e₃.events.push told, schedule := schedule }, ?_,
    hw.carried _ _ schedule, ?_, hw.next _ _ h hadvanced hadvance, hw.progress _ _ h hadvanced⟩
  · unfold sweep
    refine bind_eq_ok_iff.2 ⟨_, hjobs, bind_eq_ok_iff.2 ⟨_, hcommit, ?_⟩⟩
    dsimp only
    rw [hcheck, ok_bind, hprint]
    rw [← hw.problem] at hadvance
    exact bind_eq_ok_iff.2 ⟨(status?, schedule), hadvance, rfl⟩
  · rintro rfl
    cases hadvanced

end Sweep

/-- How many blocks are not resolved and how many rows and columns are in the working set. -/
noncomputable def pending (e : Engine K) : ℕ :=
  {k | k < e.problem.tree.size ∧ k ∉ e.schedule.resolved e.problem.tree}.ncard + e.standing

/-- The number of blocks and of the active rows and bound columns. -/
def budget (e : Engine K) : ℕ :=
  e.problem.tree.size + e.standing

section Runs

variable {s : Fill} {n : ℕ} {status : Status} {status? : Option Status}

theorem Carried.trans (h : Carried s n e e') (h' : Carried s n e' e'') : Carried s n e e'' := by
  have hsheds := h'.toSheds
  rw [h.problem] at hsheds
  exact ⟨h.toSheds.trans hsheds, h'.sound, h'.tracked, h.timers.trans h'.timers⟩

theorem finite_unresolved (t : BlockTree) (sch : Schedule) : {k | k < t.size ∧ k ∉ sch.resolved t}.Finite :=
  (Set.finite_lt_nat t.size).subset fun _ hk => hk.1

theorem pending_le_budget (e : Engine K) : e.pending ≤ e.budget := by
  have hcard : {k | k < e.problem.tree.size ∧ k ∉ e.schedule.resolved e.problem.tree}.ncard ≤ e.problem.tree.size := by
    refine (Set.ncard_le_ncard (fun _ hk => hk.1) (Set.finite_lt_nat _)).trans ?_
    rw [Set.ncard_eq_toFinset_card' {k | k < e.problem.tree.size}]
    simp
  exact Nat.add_le_add_right hcard _

theorem AtSweep.pending_pos (h : AtSweep s e) : 0 < e.pending := by
  have hroot : e.problem.tree.root ∈ {k | k < e.problem.tree.size ∧ k ∉ e.schedule.resolved e.problem.tree} :=
    ⟨Nat.sub_lt h.accepted.tree.1.tested.size_pos Nat.one_pos, h.stands.root_unresolved⟩
  have hcard := (Set.ncard_pos (finite_unresolved _ _)).2 ⟨_, hroot⟩
  simp only [pending]
  omega

/-- A sweep that does not end the run leaves less to do. -/
theorem Swept.pending_lt (h : Swept s e none e') : e'.pending < e.pending := by
  obtain ⟨hnext, hmono⟩ := h.next rfl
  have hproblem := h.problem
  have htotal := h.shed_standing
  have hcount := h.counted
  have hsub : {k | k < e.problem.tree.size ∧ k ∉ e'.schedule.resolved e.problem.tree} ⊆
      {k | k < e.problem.tree.size ∧ k ∉ e.schedule.resolved e.problem.tree} :=
    fun k hk => ⟨hk.1, fun hR => hk.2 (hmono hR)⟩
  simp only [pending, hproblem]
  rcases h.progress with ⟨k, hlt, hunresolved, ⟨hstatus, -⟩ | ⟨-, hresolved⟩⟩ | hmore
  · cases hstatus
  · have hcard := Set.ncard_lt_ncard (hsub.ssubset_of_mem_notMem ⟨hlt, hunresolved⟩ fun hk => hk.2 hresolved)
      (finite_unresolved _ _)
    simp only [shed] at htotal
    omega
  · have hcard := Set.ncard_le_ncard hsub (finite_unresolved _ _)
    omega

/-- The sweeps end once nothing is left to do, at the latest. -/
theorem AtSweep.sweepsFrom_ok (h : AtSweep s e) (done left : ℕ) : ∃ status sweeps e',
    sweepsFrom done left e = .ok ((status, sweeps), e') ∧ Carried s 1 e e' ∧ sweeps ≤ done + e.pending ∧
      (e.pending ≤ left → status ≠ .maxIterations) := by
  have hpos := h.pending_pos
  induction left generalizing e done with
  | zero =>
      refine ⟨_, _, e, rfl, ⟨Sheds.refl e, h.sound, h.tracked, Timers.nests_of_eq rfl⟩, Nat.le_add_right _ _, fun hle => ?_⟩
      omega
  | succ left ih =>
      obtain ⟨status?, e₁, hok, hswept⟩ := h.sweep_ok (done + 1)
      cases status? with
      | some status =>
          refine ⟨status, done + 1, e₁, ?_, hswept.toCarried, by omega, fun _ hmax => hswept.status (by rw [hmax])⟩
          rw [sweepsFrom, hok]
          rfl
      | none =>
          have hnext := (hswept.next rfl).1
          have hlt := hswept.pending_lt
          obtain ⟨status, sweeps, e', hrest, hcarried, hsweeps, hstatus⟩ := ih hnext (done + 1) hnext.pending_pos
          refine ⟨status, sweeps, e', ?_, hswept.toCarried.trans hcarried, by omega, fun hle => hstatus (by omega)⟩
          rw [sweepsFrom, hok]
          exact hrest

/-- With a row active, the schedule is set up and the first sweep can begin. -/
theorem AtSweep.of_seed (hp : e.problem.Accepted) (hs : e.Sound) (ht : Tracked s e) (hsolves : e.Solves)
    (hne : e.set.activeList ≠ []) : ∃ schedule, Schedule.seed e.problem.tree e.set.rows = .ok schedule ∧
      AtSweep s { e with schedule := schedule } := by
  have htree := hp.tree.1.tested
  obtain ⟨schedule, hok, -⟩ := Schedule.seed_ok htree (hs.lists hp)
  have hstands := (Schedule.Stands.of_seed htree (hs.lists hp) hne hok).1
  refine ⟨schedule, hok, hp, ⟨{ hs.regular with }, hs.work, hs.columns⟩,
    ht.of_noted (KeepsFactor.noted_of_eq ⟨rfl, rfl, rfl, rfl, rfl⟩ rfl rfl), hsolves, hne, ?_,
    Schedule.covers_of_seed hok⟩
  exact hstands.eq_resolved htree ▸ hstands

/-- Before the first sweep the vectors are computed and the factor is brought up to date. -/
theorem Sound.start_ok (hs : e.Sound) (ht : Tracked s e) : ∃ e₁ refactored e₂, e.rebase = .ok e₁ ∧
    e₁.commit false = .ok (refactored, e₂) ∧ Carried s 1 e e₂ ∧ e₂.Solves ∧ e₂.settings = e.settings := by
  obtain ⟨e₁, hrebase, hs₁⟩ := hs.rebase_ok
  have hrebased := hs.regular.of_rebase hrebase
  have hcarried₁ : Carried s 1 e e₁ := by
    refine ⟨?_, hs₁, ht.of_noted hrebased.noted, Timers.nests_of_eq ?_⟩
    · rw [hrebased.form]
      exact sheds_of_same rfl (fun _ => rfl) (fun _ => rfl) ⟨rfl, rfl, rfl, rfl⟩
    · rw [hrebased.form]
  obtain ⟨refactored, e₂, hcommit, hc, -⟩ := hs₁.commit_ok hcarried₁.tracked false
  exact ⟨e₁, refactored, e₂, hrebase, hcommit, hcarried₁.trans ⟨hc.sheds, hc.sound, hc.tracked, hc.timers⟩, hc.solves,
    hc.state.settings.trans hrebased.settings_eq⟩

/-- The sweeps of a run are carried out, and there are no more than the blocks, active rows and bound columns. -/
theorem Sound.runSweeps_ok (hp : e.problem.Accepted) (hs : e.Sound) (ht : Tracked s e) : ∃ status sweeps e',
    e.runSweeps = .ok ((status, sweeps), e') ∧ Carried s 1 e e' ∧ sweeps ≤ e.budget ∧
      (e.budget ≤ e.settings.maxSweeps → status ≠ .maxIterations) := by
  obtain ⟨e₁, refactored, e₂, hrebase, hcommit, hcarried₂, hsolves, hsettings⟩ := hs.start_ok ht
  have hp₂ : e₂.problem.Accepted := hcarried₂.problem ▸ hp
  have hs₂ := hcarried₂.sound
  unfold runSweeps
  rw [hrebase, ok_bind, hcommit, ok_bind]
  dsimp only
  rw [hs₂.consistent, ok_bind, require_of_true rfl, ok_bind, hs₂.regular.set.activeCount_eq]
  by_cases hnil : e₂.set.activeList = []
  · rw [if_pos (by rw [hnil]; rfl)]
    exact ⟨_, 0, e₂, rfl, hcarried₂, Nat.zero_le _, fun _ h => by cases h⟩
  · rw [if_neg (by simpa using hnil)]
    obtain ⟨schedule, hseed, hat⟩ := AtSweep.of_seed hp₂ hs₂ hcarried₂.tracked hsolves hnil
    obtain ⟨status, sweeps, e', hok, hcarried, hsweeps, hstatus⟩ := hat.sweepsFrom_ok 0 e₂.settings.maxSweeps
    have hbudget : pending { e₂ with schedule := schedule } ≤ e.budget := by
      refine (pending_le_budget _).trans ?_
      have htotal := hcarried₂.shed_standing
      have hcount := hcarried₂.counted
      have hproblem := hcarried₂.problem
      simp only [budget, standing, shed] at htotal ⊢
      rw [hproblem]
      omega
    rw [hseed, ok_bind]
    refine ⟨status, sweeps, e', hok, hcarried₂.trans ⟨{ hcarried.toSheds with }, hcarried.sound, hcarried.tracked,
      hcarried.timers⟩, by omega, fun hle => hstatus (by rw [hsettings]; exact hbudget.trans hle)⟩

/-- Counting the runs and telling of them changes nothing else. -/
theorem Carried.of_notes (h : Carried s n e e') {runs : ℕ} {status? : Option Status} {output : Output K}
    {events : Array (Event K)} (hg : g = { e' with
      stats := { e'.stats with runs := runs }
      status := status?
      output := output
      events := events }) : Carried s n e g := by
  subst hg
  refine ⟨{ h.toSheds with }, ⟨{ h.sound.regular with }, h.sound.work, h.sound.columns⟩, ?_, h.timers⟩
  exact h.tracked.of_noted (Quiet.noted ⟨_, _, _, _, _, rfl⟩)

theorem Carried.timed {key : String} (h : Carried s n { e with timers := e.timers.start key } e') :
    Carried s (n + 1) e { e' with timers := e'.timers.stop } := by
  refine ⟨{ h.toSheds with }, ⟨{ h.sound.regular with }, h.sound.work, h.sound.columns⟩, ?_, h.timers.timed⟩
  exact h.tracked.of_noted (Quiet.noted ⟨_, _, _, _, _, rfl⟩)

theorem Carried.refl (hs : e.Sound) (ht : Tracked s e) : Carried s n e e :=
  ⟨Sheds.refl e, hs, ht, Timers.nests_of_eq rfl⟩

/-- The increments are folded and the point is kept. -/
theorem Carried.finish_ok (h : Carried s n e e') : ∃ g, e'.finish = .ok g ∧ Carried s n e g := by
  obtain ⟨g, hok, hs⟩ := h.sound.rebase_ok
  have hrebased := h.sound.regular.of_rebase hok
  have ht : Tracked s { g with x := g.work.reference } :=
    (h.tracked.of_noted hrebased.noted).of_noted (KeepsFactor.noted_of_eq ⟨rfl, rfl, rfl, rfl, rfl⟩ rfl rfl)
  refine ⟨{ g with x := g.work.reference }, by rw [finish, hok]; rfl, h.trans ⟨?_, ⟨{ hs.regular with }, hs.work,
    hs.columns⟩, ht, Timers.nests_of_eq ?_⟩⟩ <;> rw [hrebased.form]
  exact sheds_of_same rfl (fun _ => rfl) (fun _ => rfl) ⟨rfl, rfl, rfl, rfl⟩

theorem Sound.runCounted_ok (hp : e.problem.Accepted) (hs : e.Sound) (ht : Tracked s e) (output : Output K) :
    ∃ status e', { e with output := output }.runCounted = .ok (status, e') ∧ Carried s 2 e e' ∧
      (e.budget ≤ e.settings.maxSweeps → status ≠ .maxIterations) := by
  obtain ⟨output', hheader⟩ := print_eq { e with
    stats := { e.stats with runs := e.stats.runs + 1 }
    output := output } 2 .runHeader
  let e₁ : Engine K := { e with
    stats := { e.stats with runs := e.stats.runs + 1 }
    output := output'
    timers := e.timers.start "dasa" }
  have hs₁ : e₁.Sound := ⟨{ hs.regular with }, hs.work, hs.columns⟩
  have ht₁ : Tracked s e₁ := ht.of_noted (Quiet.noted ⟨_, _, _, _, _, rfl⟩)
  obtain ⟨status, sweeps, e₂, hsweeps, hcarried, -, hstatus⟩ := Sound.runSweeps_ok (e := e₁) hp hs₁ ht₁
  obtain ⟨e₃, hfinish, hcarried'⟩ := hcarried.finish_ok
  obtain ⟨output'', hfooter⟩ := print_eq { e₃ with timers := e₃.timers.stop, status := some status } 1
    (.runFooter e₃.stats.runs status sweeps)
  have hwhole : Carried s 2 e { e₃ with timers := e₃.timers.stop } := by
    have hcounted : Carried s 2 e { e₁ with timers := e.timers } :=
      (Carried.refl hs ht).of_notes rfl
    exact hcounted.trans (Carried.timed (e := { e₁ with timers := e.timers }) hcarried')
  refine ⟨status, tell { e₃ with timers := e₃.timers.stop, status := some status, output := output'' }
    (.runDone e₃.stats.runs status sweeps), ?_, hwhole.of_notes rfl, hstatus⟩
  unfold runCounted
  dsimp only
  rw [hheader]
  refine bind_eq_ok_iff.2 ⟨((status, sweeps), { e₃ with timers := e₃.timers.stop }), timed_eq_ok ?_, ?_⟩
  · exact bind_eq_ok_iff.2 ⟨_, hsweeps, bind_eq_ok_iff.2 ⟨_, hfinish, rfl⟩⟩
  · exact congrArg (fun g : Engine K => Except.ok (status, g.tell (.runDone g.stats.runs status sweeps))) hfooter

/-- A run is carried out; with as many sweeps allowed as there are blocks, active rows and bound columns, it does not
use them up. -/
theorem Sound.run_ok (hp : e.problem.Accepted) (hs : e.Sound) (ht : Tracked s e) : ∃ status e',
    e.run = .ok (status, e') ∧ Carried s 2 e e' ∧ (e.budget ≤ e.settings.maxSweeps → status ≠ .maxIterations) := by
  unfold run
  dsimp only
  split_ifs
  · obtain ⟨nnz, hnnz⟩ : ∃ nnz, e.problem.a.nnz = .ok nnz := ⟨_, hp.wellPosed.formatted.fetch_start le_rfl⟩
    obtain ⟨output, hprint⟩ := print_eq e 0
      (.configuration e.problem.ncols e.problem.nrows nnz e.problem.tree.size e.settings e.sigma)
    rw [hnnz, ok_bind, pure_bind_ok, hprint]
    exact hs.runCounted_ok hp ht output
  · exact hs.runCounted_ok hp ht e.output

end Runs

end PolyProjection.Engine
