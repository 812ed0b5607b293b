import Mathlib
import PolyProjection.Proofs.Engine.Replay

/-! The factor throughout the life of an engine. Requests and searches only note what they do, and a commit is carried
out whatever was noted, in any order and any number of times. -/

namespace PolyProjection

set_option linter.unusedSectionVars false

variable {K : Type} [Field K] [LinearOrder K] [IsStrictOrderedRing K]

namespace Engine

variable {s : Fill} {e e' g : Engine K} {isPartial : Bool}

/-- What holds of the factor and the logs at all times. -/
def Tracked (s : Fill) (e : Engine K) : Prop :=
  ∃ free act, Tracks s free act e

theorem Tracked.of_noted (h : Tracked s e) (hn : Noted e e') : Tracked s e' := by
  obtain ⟨free, act, h⟩ := h
  exact ⟨free, act, h.of_noted hn⟩

theorem Tracked.covers (h : Tracked s e) : s.Covers e.problem.a := by
  obtain ⟨_, _, h⟩ := h
  exact h.covers

theorem Tracked.sigma_pos (h : Tracked s e) : 0 < e.sigma := by
  obtain ⟨_, _, h⟩ := h
  exact h.sigma_pos

theorem Tracked.of_commit (hr : e.Regular) (h : Tracked s e) {refactored : Bool}
    (hok : e.commit isPartial = .ok (refactored, e')) : Tracked s e' := by
  obtain ⟨free, act, h⟩ := h
  obtain ⟨hmatches, hlog, hdropped⟩ := h.of_commit hr hok
  have hsame := sameState_of_commit hok
  refine ⟨_, _, hsame.problem ▸ h.covers, hsame.sigma ▸ h.sigma_pos, hmatches.inFactor, ⟨_, _, _, hmatches.factor⟩,
    fun _ => hmatches.factor, fun c k hshows => Or.inl ?_, fun c k hlogs =>
    absurd hlogs (not_logs_of_empty hlog hdropped c k)⟩
  cases c with
  | colBound => exact beq_eq_false_iff_ne.2 hshows
  | colFreed => exact beq_iff_eq.2 hshows
  | rowAdded => exact hshows
  | rowDeleted => exact hshows

end Engine

namespace LineSearch

variable {s : Fill} {l l' : LineSearch K} {id : ℕ} {key : K}

theorem Event.tracked (hr : l.engine.Regular) (he : Event l l' id key) (h : l.engine.Tracked s) :
    l'.engine.Tracked s := by
  obtain ⟨heap, l₁, hvalid, -, hevent, rfl⟩ := he.commit
  have hgo : l.engine.Noted (l.goTo heap (max 0 key)).engine :=
    Engine.KeepsFactor.noted_of_eq ⟨rfl, rfl, rfl, rfl, rfl⟩ rfl rfl
  have hr' : (l.goTo heap (max 0 key)).engine.Regular := hr.of_heap hvalid
  rcases hevent with ⟨-, hfreed⟩ | ⟨-, delta, hdropped⟩
  · have hnoted := hfreed.noted hr'
    exact (h.of_noted hgo).of_noted hnoted
  · have hnoted := hdropped.noted hr'
    exact (h.of_noted hgo).of_noted hnoted

theorem Walks.tracked (hr : l.engine.Regular) (hw : Walks l l') (h : l.engine.Tracked s) : l'.engine.Tracked s := by
  induction hw with
  | refl => exact h
  | tail hw hstep ih =>
      obtain ⟨id, key, hevent⟩ := hstep
      exact hevent.tracked (Walks.regular hw hr) ih

end LineSearch

namespace Engine

variable {s : Fill} {e e' g : Engine K}

theorem Tracked.of_searched (h : Tracked s e) (hr : e.Regular) {rows cols : IndexRange} {out : LineOutcome K}
    (hsearched : e.Searched rows cols out e') : Tracked s e' := by
  have hdirections : ∀ {e₁ : Engine K}, e.HasDirections rows cols e₁ → Noted e e₁ := by
    rintro e₁ ⟨pa, rfl, -⟩
    exact KeepsFactor.noted_of_eq ⟨rfl, rfl, rfl, rfl, rfl⟩ rfl rfl
  cases hsearched with
  | flat hd _ => exact h.of_noted (hdirections hd)
  | @moved e₁ e₂ _ l flag hd _ hc hfinishes hadvanced =>
      have hr₂ := hc.regular (hd.regular hr)
      have h₂ : Tracked s e₂ := by
        obtain ⟨heap, rfl, -⟩ := hc
        exact (h.of_noted (hdirections hd)).of_noted (KeepsFactor.noted_of_eq ⟨rfl, rfl, rfl, rfl, rfl⟩ rfl rfl)
      have h₃ : Tracked s l.engine := by
        cases hfinishes with
        | full _ => exact h₂
        | walk hwalks hends =>
            rw [hends.engine]
            exact hwalks.tracked hr₂ h₂
      obtain ⟨dlambda, c, rfl, -⟩ := hadvanced
      exact h₃.of_noted (KeepsFactor.noted_of_eq ⟨rfl, rfl, rfl, rfl, rfl⟩ rfl rfl)

/-- Whatever happens within a run is noted until the next commit. -/
theorem Tracked.of_runStep (h : Tracked s e) (hr : e.Regular) (hstep : RunStep e e') : Tracked s e' := by
  cases hstep with
  | quiet hquiet => exact h.of_noted hquiet.noted
  | commit hok => exact h.of_commit hr hok
  | schedule _ => exact h.of_noted (KeepsFactor.noted_of_eq ⟨rfl, rfl, rfl, rfl, rfl⟩ rfl rfl)
  | solve hok =>
      obtain ⟨_, _, _, _, rfl⟩ := of_solveJob hok
      exact h.of_noted (KeepsFactor.noted_of_eq ⟨rfl, rfl, rfl, rfl, rfl⟩ rfl rfl)
  | search _ _ hsearched => exact h.of_searched hr hsearched

theorem Tracked.of_runs (h : Tracked s e) (hr : e.Regular) (hruns : Runs e e') : Tracked s e' := by
  induction hruns with
  | refl => exact h
  | tail hruns hstep ih => exact ih.of_runStep (Runs.regular hruns hr).1 hstep

theorem Tracked.of_run (hp : e.problem.Accepted) (h : Tracked s e) (hr : e.Regular) {status : Status}
    (hok : e.run = .ok (status, e')) : Tracked s e' := by
  obtain ⟨e₁, e₂, e₃, e₄, hquiet, hrebased, hruns, hrebased', hquiet', -⟩ := Regular.of_run hp hr hok
  have hr₂ := hrebased.regular (hquiet.sameState.regular hr)
  have h₃ := ((h.of_noted hquiet.noted).of_noted hrebased.noted).of_runs hr₂ hruns
  have hpoint : Noted e₄ { e₄ with x := e₄.work.reference } :=
    KeepsFactor.noted_of_eq ⟨rfl, rfl, rfl, rfl, rfl⟩ rfl rfl
  exact ((h₃.of_noted hrebased'.noted).of_noted hpoint).of_noted hquiet'.noted

variable {p : Problem K} {settings : Settings K}

/-- The regularization stays positive when it is scaled. -/
theorem scaledSigma_pos (hsettings : settings.validate = .ok ()) (a : SparseMatrix K) : 0 < scaledSigma a settings := by
  have hpos := (pos_of_validate hsettings).1
  rw [scaledSigma]
  split_ifs with hscale
  · have htop : 0 < a.maxAbs := by
      simpa using (Bool.and_eq_true_iff.1 hscale).2
    exact mul_pos (mul_pos hpos htop) htop
  · exact hpos

/-- An engine can only be set up for a matrix that passes the test of its format. -/
theorem check_of_create (hok : create p settings = .ok (.ok e)) : p.a.check = .ok () := by
  obtain ⟨-, f, hfactor, -⟩ := create_eq_ok_iff.1 hok
  exact LdlFactor.check_of_ofMatrix hfactor

theorem Reachable.check (h : Reachable p settings e) : p.a.check = .ok () := by
  induction h with
  | create hok => exact check_of_create hok
  | addRow _ _ ih => exact ih
  | bindColumn _ _ ih => exact ih
  | freeColumn _ _ ih => exact ih
  | setDual _ _ ih => exact ih
  | run _ _ ih => exact ih

/-- A new engine has a factor without values, which holds every column and no row. -/
theorem tracked_of_create (hp : p.WellPosed) (hok : create p settings = .ok (.ok e)) :
    Tracked (FillPattern.fill p.a hp.formatted) e := by
  have hcheck := check_of_create hok
  obtain ⟨hvalid, f, hfactor, rfl⟩ := create_eq_ok_iff.1 hok
  rw [LdlFactor.ofMatrix_ok hcheck hp.transpose, Except.ok.injEq, Except.ok.injEq] at hfactor
  subst hfactor
  refine ⟨fun _ => true, fun _ => false, FillPattern.covers_fill hp.formatted, scaledSigma_pos hvalid p.a,
    replicate_eq_table _ _, ⟨_, _, _, rfl⟩, fun hfactored => Bool.noConfusion hfactored, fun c k => ?_, fun c k => ?_⟩
  · cases c <;> simp [Shows, Holds, fresh, ActiveSet.rowAt_empty, ActiveSet.colAt_empty, RowStatus.isActive]
  · cases c <;> simp [Logs, fresh, ModificationLog.empty, ActiveSet.empty]

theorem Reachable.tracked (hp : p.Accepted) (h : Reachable p settings e) :
    Tracked (FillPattern.fill p.a hp.wellPosed.formatted) e := by
  induction h with
  | create hok => exact tracked_of_create hp.wellPosed hok
  | addRow hprev hok ih =>
      have hr := (hprev.rests hp).regular
      rcases hr.of_addRow hok with ⟨-, rfl⟩ | ⟨-, st, hadded⟩
      · exact ih
      · exact ih.of_noted (hadded.noted hr)
  | bindColumn hprev hok ih =>
      have hr := (hprev.rests hp).regular
      rcases hr.of_bindColumn hok with ⟨-, rfl⟩ | ⟨-, hbound⟩
      · exact ih
      · exact ih.of_noted (hbound.noted hr)
  | @freeColumn _ _ j _ hprev hok ih =>
      have hr := (hprev.rests hp).regular
      rcases hr.of_freeColumn hok with ⟨-, rfl⟩ | ⟨-, g, hreleased, rfl⟩
      · exact ih
      · exact (ih.of_noted (hreleased.noted hr)).of_noted (quiet_tell g (.columnFreed j)).noted
  | setDual _ hok ih =>
      obtain ⟨lambda, rfl, -⟩ := of_setDual hok
      exact ih.of_noted (KeepsFactor.noted_of_eq ⟨rfl, rfl, rfl, rfl, rfl⟩ rfl rfl)
  | run hprev hok ih =>
      have hrests := hprev.rests hp
      exact ih.of_run (hrests.problem ▸ hp) hrests.regular hok

/-- The engines that a run which begins in `e` commits: once its vectors are computed, and after the jobs of each sweep.
What is counted, timed and told on the way does not matter. -/
inductive CommitDue (e : Engine K) : Engine K → Prop where
  | start {e₀ e₁ : Engine K} : Quiet e e₀ → e₀.rebase = .ok e₁ → CommitDue e e₁
  | sweep {e₀ g g₀ g' : Engine K} {jobs : List Job} : Quiet e e₀ → SweepStart e₀ g → Quiet g g₀ →
      g₀.processJobs g.schedule.jobs = .ok (jobs, g') →
      CommitDue e { g' with schedule := { g'.schedule with jobs := jobs } }

/-- The factor has the rows and the columns of the working set and is the one that a factorization from scratch gives
for them, and no change waits for a commit. -/
structure UpToDate (p : Problem K) (e : Engine K) : Prop where
  rows : e.factor.active = table p.nrows fun i => (e.set.rowAt i).isActive
  columns : e.inFactor = table p.ncols fun j => e.set.colAt j == .free
  log_empty : e.log = .empty
  dropped_empty : e.set.dropped = #[]
  factor : ∃ f₀ flops, LdlFactor.ofMatrix p.a p.aT = .ok (.ok f₀) ∧
    f₀.factorize p.a p.aT e.inFactor e.factor.active e.sigma = .ok (e.factor, flops)

theorem CommitDue.runs (hp : e.problem.Accepted) (hr : e.Regular) (h : CommitDue e g) :
    ∃ e₀ e₁, Quiet e e₀ ∧ Rebased e₀ e₁ ∧ Runs e₁ g := by
  cases h with
  | start hquiet hrebase => exact (Underway.rebased hquiet hrebase).runs hp hr
  | sweep hquiet hstart hquiet' hok =>
      obtain ⟨e₀, e₁, hquiet₀, hrebased, hruns⟩ :=
        (Underway.processed hquiet hstart hquiet' (List.append_nil _).symm hok).runs hp hr
      exact ⟨e₀, e₁, hquiet₀, hrebased, hruns.tail (.schedule _)⟩

theorem Matches.upToDate (hp : p.WellPosed) (hcheck : p.a.check = .ok ())
    (h : Matches (FillPattern.fill p.a hp.formatted) e) (hproblem : e.problem = p) (hsigma : 0 < e.sigma)
    (hlog : e.log = .empty) (hdropped : e.set.dropped = #[]) : UpToDate p e := by
  subst hproblem
  have hfresh := LdlFactor.ofMatrix_ok hcheck hp.transpose
  have hrows : e.factor.active = table e.problem.nrows fun i => (e.set.rowAt i).isActive := by
    rw [h.factor]
    rfl
  have hfactorize : ∃ flops, ((FillPattern.fill e.problem.a hp.formatted).factor (fun _ => false) (fun _ _ => (0 : K))
      (fun _ => 1) 0 (fun _ => 0) fun _ => 0).factorizeWith (LdlFactor.lift e.sigma) e.problem.a e.problem.aT
      (table e.problem.a.ncols fun j => e.set.colAt j == .free) (table e.problem.nrows fun i => (e.set.rowAt i).isActive)
      e.sigma = .ok (_, flops) :=
    LdlFactor.factorizeWith_ok (LdlFactor.lift e.sigma) hp.formatted hp.transpose (FillPattern.covers_fill hp.formatted)
      hsigma fun _ => LdlFactor.lift_of_le
  obtain ⟨flops, hok⟩ := hfactorize
  rw [← h.factor] at hok
  refine ⟨hrows, h.inFactor, hlog, hdropped, _, flops, hfresh, ?_⟩
  rw [hrows, h.inFactor]
  exact hok

/-- **The factor follows the working set.** Whatever requests and runs came before, each commit of a run is carried out
and brings the factor in line with the working set, with nothing left to do. A fresh factorization and, once there is a
factor, the replay of the logs both get there, so it does not matter which of them is expected to be cheaper. -/
theorem CommitDue.factor_follows (hp : p.Accepted) (he : Reachable p settings e) (hdue : e.CommitDue g) (isPartial : Bool) :
    (∃ refactored g', g.commit isPartial = .ok (refactored, g') ∧ UpToDate p g') ∧
    (∃ g', g.logDrops.refactor = .ok g' ∧ UpToDate p { g' with log := .empty }) ∧
    (g.flops.factored = true →
      ∃ g', g.logDrops.applyUpdates isPartial = .ok g' ∧ UpToDate p { g' with log := .empty }) := by
  have hrests := he.rests hp
  have hcheck := he.check
  obtain ⟨e₀, e₁, hquiet, hrebased, hruns⟩ := hdue.runs (hrests.problem ▸ hp) hrests.regular
  have hr₁ := hrebased.regular (hquiet.sameState.regular hrests.regular)
  have htracked := (((he.tracked hp).of_noted hquiet.noted).of_noted hrebased.noted).of_runs hr₁ hruns
  obtain ⟨hr, hproblem, -⟩ := hruns.regular hr₁
  have hproblem : g.problem = p := by
    rw [hproblem, hrebased.problem_eq, hquiet.sameState.problem, hrests.problem]
  obtain ⟨free, act, htracks⟩ := htracked
  have hr' := (sameState_logDrops g).regular hr
  have htracks' := htracks.of_noted (logDrops_noted g)
  have hlast : ∀ {g' : Engine K}, SameState g.logDrops g' → Matches (FillPattern.fill p.a hp.wellPosed.formatted) g' →
      g'.set = g.logDrops.set → UpToDate p { g' with log := .empty } := by
    intro g' hsame hmatches hset
    refine Matches.upToDate hp.wellPosed hcheck (hmatches.of_keeps ⟨rfl, rfl, rfl, rfl, rfl⟩ rfl)
      (hsame.problem.trans hproblem) ?_ rfl (congrArg ActiveSet.dropped hset)
    exact hsame.sigma ▸ htracks.sigma_pos
  refine ⟨?_, ?_, fun hfactored => ?_⟩
  · obtain ⟨refactored, g', hok, hmatches, hlog, hdropped⟩ := htracks.commit_ok hr isPartial
    have hsame := sameState_of_commit hok
    exact ⟨refactored, g', hok, hmatches.upToDate hp.wellPosed hcheck (hsame.problem.trans hproblem)
      (hsame.sigma ▸ htracks.sigma_pos) hlog hdropped⟩
  · obtain ⟨g', hok, hmatches, hset⟩ := htracks'.refactor_ok hr'
    exact ⟨g', hok, hlast (sameState_of_refactor hok) hmatches hset⟩
  · obtain ⟨g', hok, hmatches, hset⟩ := htracks'.applyUpdates_ok hr' isPartial hfactored rfl
    exact ⟨g', hok, hlast (sameState_of_applyUpdates hok) hmatches hset⟩

/-- The half line with its row active, before a run and when the vectors of the run are computed. -/
def startHalfLine : Checked (Problem ℚ × Engine ℚ × Engine ℚ) := do
  let p ← accepted Problem.halfLine
  let e ← accepted (create p plain)
  let added ← e.addRow 0 .lower
  return (p, added.2, ← added.2.rebase)

theorem factor_follows_halfLine : ∃ (p : Problem ℚ) (e g : Engine ℚ), p.Accepted ∧ Reachable p plain e ∧ e.CommitDue g ∧
    g.log.rowsAdded = #[0] ∧ ∃ refactored g', g.commit false = .ok (refactored, g') ∧ UpToDate p g' := by
  obtain ⟨⟨p, e, g⟩, hrun, hcheck⟩ := exists_of_passes (x := startHalfLine)
    (f := fun r => r.2.2.log.rowsAdded == #[0]) (by decide +kernel)
  unfold startHalfLine at hrun
  simp only [bind_eq_ok_iff, accepted_eq_ok_iff, pure_eq_ok_iff, Prod.mk.injEq] at hrun
  obtain ⟨p, hp, _, hcreate, ⟨b, e⟩, hadd, g, hrebase, rfl, rfl, rfl⟩ := hrun
  have hreachable : Reachable p plain e := .addRow (.create hcreate) hadd
  have hdue : e.CommitDue g := .start (Quiet.refl e) hrebase
  exact ⟨p, e, g, .create hp, hreachable, hdue, beq_iff_eq.1 hcheck,
    (CommitDue.factor_follows (.create hp) hreachable hdue false).1⟩

end Engine

end PolyProjection
