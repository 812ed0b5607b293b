import Mathlib
import PolyProjection.Proofs.Engine.Sweeping

/-! How long a run can take. Whatever state a run passes through, its searches end after as many events as the job has
active rows and bound columns, its sweeps make progress, and the number of sweeps is bounded by what there is to do when
the run begins. -/

namespace PolyProjection.Engine

set_option linter.unusedSectionVars false

variable {K : Type} [Field K] [LinearOrder K] [IsStrictOrderedRing K]

variable {s : Fill} {p : Problem K} {settings : Settings K} {e e' e₀ g : Engine K} {job : Job}

/-- The states in which a run that begins in `e` searches over a job: in a sweep, once the jobs before it are processed
and its system is solved. What is counted, timed and told does not matter. -/
inductive Searches (e : Engine K) : Engine K → Job → Prop where
  | intro {e₀ g g₀ g₁ g₂ g₃ g₄ : Engine K} {before before' later : List Job} {job : Job} : Quiet e e₀ →
      SweepStart e₀ g → Quiet g g₀ → g.schedule.jobs = before ++ job :: later →
      g₀.processJobs before = .ok (before', g₁) → Quiet g₁ g₂ → g₂.solveJob job = .ok g₃ → Quiet g₃ g₄ →
      Searches e g₄ job

/-- The rows that are active and the columns that are bound were so before, at the same side. -/
def Shrinks (e e' : Engine K) : Prop :=
  (∀ i, (e'.set.rowAt i).isActive = true → e'.set.rowAt i = e.set.rowAt i) ∧
    ∀ j, e'.set.colAt j ≠ .free → e'.set.colAt j = e.set.colAt j

theorem Sheds.shrinks {rows cols : IndexRange} (h : Sheds rows cols e e') : e.Shrinks e' :=
  ⟨fun _ => h.rowAt_of_active, fun _ => h.colAt_of_held⟩

/-- A run begins each of its sweeps in a state that the sweep can deal with. -/
theorem SweepStart.atSweep (hp : e.problem.Accepted) (hs : e.Sound) (ht : Tracked s e) (h : e.SweepStart g) :
    AtSweep s g ∧ Carried s 1 e g := by
  induction h with
  | first hrebase hcommit hactive hseed =>
      obtain ⟨e₁, refactored, e₂, hrebase', hcommit', hcarried, hsolves, -⟩ := hs.start_ok ht
      obtain rfl := Except.ok.inj (hrebase'.symm.trans hrebase)
      obtain ⟨-, rfl⟩ := Prod.mk.inj (Except.ok.inj (hcommit'.symm.trans hcommit))
      have hne : e₂.set.activeList ≠ [] := fun hnil => by
        rw [hcarried.sound.regular.set.activeCount_eq, hnil] at hactive
        exact hactive rfl
      obtain ⟨schedule, hseed', hat⟩ :=
        AtSweep.of_seed (hcarried.problem ▸ hp) hcarried.sound hcarried.tracked hsolves hne
      obtain rfl := Except.ok.inj (hseed'.symm.trans hseed)
      exact ⟨hat, ⟨{ hcarried.toSheds with }, hat.sound, hat.tracked, hcarried.timers⟩⟩
  | next _ hsweep ih =>
      obtain ⟨hat, hcarried⟩ := ih
      obtain ⟨status?, g', hok, hswept⟩ := hat.sweep_ok _
      obtain ⟨rfl, rfl⟩ := Prod.mk.inj (Except.ok.inj (hok.symm.trans hsweep))
      exact ⟨(hswept.next rfl).1, hcarried.trans hswept.toCarried⟩

theorem Shrinks.trans {e'' : Engine K} (h : e.Shrinks e') (h' : e'.Shrinks e'') : e.Shrinks e'' := by
  refine ⟨fun i hi => ?_, fun j hj => ?_⟩
  · have hrow := h'.1 i hi
    rw [hrow]
    exact h.1 i (hrow ▸ hi)
  · have hcol := h'.2 j hj
    rw [hcol]
    exact h.2 j (hcol ▸ hj)

theorem SameState.shrinks (h : SameState e e') : e.Shrinks e' :=
  ⟨fun i _ => h.rowAt i, fun j _ => h.colAt j⟩

theorem Quiet.solves (h : Quiet e e') (hsolves : e.Solves) : e'.Solves := by
  obtain ⟨_, _, _, _, _, rfl⟩ := h
  exact hsolves

section Run

variable (hp : e.problem.Accepted) (hs : e.Sound) (ht : Tracked s e)

include hp hs ht

theorem Quiet.atSweep (hq : Quiet e e₀) (h : e₀.SweepStart g) : AtSweep s g ∧ Carried s 1 e₀ g :=
  h.atSweep (hq.sameState.problem ▸ hp) (hq.sameState.sound hs) (ht.of_noted hq.noted)

/-- A search of a run ends, and it has no more events than its job has active rows and bound columns. -/
theorem Searches.lineSearch_ok (h : e.Searches g job) : ∃ out g', g.lineSearch job.rows job.cols = .ok (out, g') ∧
    g'.shed ≤ g.shed + ((g.set.activeBetween job.rows.start job.rows.stop).length +
      (g.set.heldBetween job.cols.start job.cols.stop).length) := by
  obtain ⟨hq, hstart, hq₀, hjobs, hbefore, hq₁, hsolve, hq₂⟩ := h
  rename_i e₀ g g₀ g₁ g₂ g₃ before before' later
  obtain ⟨hat, -⟩ := hq.atSweep hp hs ht hstart
  have hcovers : ∀ h ∈ before ++ job :: later, h.Covers g.problem.tree := hjobs ▸ hat.covers
  have hproblem₀ := hq₀.sameState.problem
  obtain ⟨_, _, hok, -, hprocessed, -⟩ := (hq₀.sameState.sound hat.sound).processJobs_ok (hproblem₀ ▸ hat.accepted)
    (hq₀.solves hat.solves) before fun h hh => hproblem₀ ▸ hcovers h (List.mem_append_left _ hh)
  obtain ⟨-, rfl⟩ := Prod.mk.inj (Except.ok.inj (hok.symm.trans hbefore))
  have hproblem₂ : g₂.problem = g.problem := hq₁.sameState.problem.trans (hprocessed.problem.trans hproblem₀)
  have hjob : job.Covers g.problem.tree := hcovers job (List.mem_append_right _ List.mem_cons_self)
  have hstop : job.rows.stop ≤ g₂.problem.nrows := by
    rw [hproblem₂, ← hat.accepted.tree.2.1]
    exact hat.accepted.tree.1.tested.subtreeRows_stop hjob.1
  obtain ⟨g₃', hsolve', hsolved, -⟩ := (hq₁.sameState.sound hprocessed.sound).solveJob_ok job.rows job.cols
    (hq₁.solves (hprocessed.solves (hq₀.solves hat.solves))) hstop
  obtain rfl := Except.ok.inj (hsolve'.symm.trans hsolve)
  have hproblem₄ := hq₂.sameState.problem.trans (hsolved.problem.trans hproblem₂)
  have hjob₄ : job.Covers _ := hproblem₄ ▸ hjob
  obtain ⟨out, g', hsearch, -, hsheds, -⟩ :=
    (hq₂.sameState.sound hsolved.sound).lineSearch_ok (hproblem₄ ▸ hat.accepted) hjob₄
  exact ⟨out, g', hsearch, hsheds.shed_le⟩

/-- No row becomes active in a run and no column becomes bound. -/
theorem Underway.shrinks (h : e.Underway g) : e.Shrinks g := by
  cases h with
  | rebased hq hrebase =>
      refine hq.sameState.shrinks.trans ?_
      have hset := ((hq.sameState.sound hs).regular.of_rebase hrebase).set_eq
      exact ⟨fun i _ => by rw [hset], fun j _ => by rw [hset]⟩
  | processed hq hstart hq₀ hjobs hprocess =>
      rename_i e₀ g₁ g₀ jobs later jobs'
      obtain ⟨hat, hcarried⟩ := hq.atSweep hp hs ht hstart
      have hproblem₀ := hq₀.sameState.problem
      obtain ⟨_, _, hok, -, hprocessed, -⟩ := (hq₀.sameState.sound hat.sound).processJobs_ok (hproblem₀ ▸ hat.accepted)
        (hq₀.solves hat.solves) jobs fun h hh =>
          hproblem₀ ▸ hat.covers h (hjobs ▸ List.mem_append_left _ hh)
      obtain ⟨-, rfl⟩ := Prod.mk.inj (Except.ok.inj (hok.symm.trans hprocess))
      exact ((hq.sameState.shrinks.trans hcarried.shrinks).trans hq₀.sameState.shrinks).trans hprocessed.shrinks

end Run

theorem Reachable.sound (hp : p.Accepted) (h : Reachable p settings e) : e.Sound := by
  induction h with
  | create hok => exact sound_of_create hp.wellPosed hok
  | addRow _ hok ih =>
      rcases ih.regular.of_addRow hok with ⟨-, rfl⟩ | ⟨-, st, hadded⟩
      · exact ih
      · exact hadded.sound ih
  | bindColumn _ hok ih =>
      rcases ih.regular.of_bindColumn hok with ⟨-, rfl⟩ | ⟨-, hbound⟩
      · exact ih
      · exact hbound.sound ih
  | @freeColumn _ _ j _ _ hok ih =>
      rcases ih.regular.of_freeColumn hok with ⟨-, rfl⟩ | ⟨-, g, hreleased, rfl⟩
      · exact ih
      · exact (quiet_tell g (.columnFreed j)).sameState.sound (hreleased.sound ih)
  | setDual _ hok ih =>
      obtain ⟨lambda, rfl, hsize⟩ := of_setDual hok
      exact ⟨{ ih.regular with size_lambda := hsize.trans ih.regular.size_lambda }, ih.work, ih.columns⟩
  | run hprev hok ih =>
      obtain ⟨status, e', hok', hcarried, -⟩ := ih.run_ok ((hprev.rests hp).problem ▸ hp) (hprev.tracked hp)
      obtain ⟨-, rfl⟩ := Prod.mk.inj (Except.ok.inj (hok'.symm.trans hok))
      exact hcarried.sound

/-- A run terminates within a bound set by its data. Its searches end after at most as many events as their jobs have
active rows and bound columns, nothing comes into the working set, each sweep resolves a block or has an event, and so
there are at most as many sweeps as blocks, active rows and bound columns. -/
theorem run_bounded (hp : p.Accepted) (he : Reachable p settings e) :
    (∀ g job, e.Searches g job → ∃ out g', g.lineSearch job.rows job.cols = .ok (out, g') ∧
      g'.shed ≤ g.shed + ((g.set.activeBetween job.rows.start job.rows.stop).length +
        (g.set.heldBetween job.cols.start job.cols.stop).length)) ∧
    (∀ g, e.Underway g → e.Shrinks g) ∧
    (∀ e₀ g number, Quiet e e₀ → e₀.SweepStart g → ∃ status? g', g.sweep number = .ok (status?, g') ∧ g.Shrinks g' ∧
      ((∃ k, Resolves g status? g' k) ∨ g.shed < g'.shed)) ∧
    (∀ e₀, Quiet e e₀ → ∃ status sweeps e', e₀.runSweeps = .ok ((status, sweeps), e') ∧ sweeps ≤ e.budget) ∧
    ∃ status e', e.run = .ok (status, e') ∧ e.Shrinks e' ∧
      (e.budget ≤ settings.maxSweeps → status ≠ .maxIterations) := by
  have hrests := he.rests hp
  have hs := he.sound hp
  have ht := he.tracked hp
  have hp' : e.problem.Accepted := hrests.problem ▸ hp
  refine ⟨fun g job h => h.lineSearch_ok hp' hs ht, fun g h => h.shrinks hp' hs ht, fun e₀ g number hq h => ?_,
    fun e₀ hq => ?_, ?_⟩
  · obtain ⟨status?, g', hok, hswept⟩ := (hq.atSweep hp' hs ht h).1.sweep_ok number
    exact ⟨status?, g', hok, hswept.shrinks, hswept.progress⟩
  · obtain ⟨status, sweeps, e', hok, -, hle, -⟩ := (hq.sameState.sound hs).runSweeps_ok (hq.sameState.problem ▸ hp')
      (ht.of_noted hq.noted)
    obtain ⟨_, _, _, _, _, rfl⟩ := hq
    exact ⟨status, sweeps, e', hok, hle⟩
  · obtain ⟨status, e', hok, hcarried, hstatus⟩ := hs.run_ok hp' ht
    exact ⟨status, e', hok, hcarried.shrinks, hrests.settings ▸ hstatus⟩

theorem run_bounded_halfLine : ∃ (p : Problem ℚ) (e : Engine ℚ), p.Accepted ∧ Reachable p plain e ∧ e.budget = 2 ∧
    ∃ status e', e.run = .ok (status, e') ∧ status ≠ .maxIterations := by
  obtain ⟨⟨p, e, g⟩, hrun, hcheck⟩ := exists_of_passes (x := startHalfLine) (f := fun r => decide (r.2.1.budget = 2))
    (by decide +kernel)
  unfold startHalfLine at hrun
  simp only [bind_eq_ok_iff, accepted_eq_ok_iff, pure_eq_ok_iff, Prod.mk.injEq] at hrun
  obtain ⟨p, hp, _, hcreate, ⟨b, e⟩, hadd, g, hrebase, rfl, rfl, rfl⟩ := hrun
  have hreachable : Reachable p plain e := .addRow (.create hcreate) hadd
  have hbudget := of_decide_eq_true hcheck
  obtain ⟨-, -, -, -, status, e', hok, -, hstatus⟩ := run_bounded (.create hp) hreachable
  exact ⟨p, e, .create hp, hreachable, hbudget, status, e', hok, hstatus (by rw [hbudget]; decide)⟩

end PolyProjection.Engine
