import Mathlib
import PolyProjection.Proofs.Engine.Exactness
import PolyProjection.Proofs.Engine.Stationary

/-! The searches of a run ascend. The direction of each of them solves the Newton equation of its job, so the slope at the
start of the search is the curvature, and the full step leads to the top of the quadratic. -/

namespace PolyProjection

set_option linter.unusedSectionVars false

variable {K : Type} [Field K] [LinearOrder K] [IsStrictOrderedRing K]

namespace Engine

variable {e e' g g' : Engine K} {s : Fill} {free act : ℕ → Bool} {job : Job} {jobs : List Job}

section Newton

/-- The work on other jobs leaves a job due. -/
theorem Confined.due_after (hp : e.problem.Accepted) (hjob : job.Covers e.problem.tree)
    (hcovers : ∀ g ∈ jobs, g.Covers e.problem.tree) (hseparate : ∀ g ∈ jobs, g.Separate job)
    (h : Confined (jobsRows jobs) (jobsCols jobs) e e') (hd : Due s free act e job) : Due s free act e' job := by
  have hagree := h.agreeOn hp hjob (disjoint_jobsRows fun g hg => (hseparate g hg).symm.1)
    (disjoint_jobsCols fun g hg => (hseparate g hg).symm.2)
  apply hd.of_agreeOn hp hjob hagree h.factor
  intro k _ j hj hmeets
  apply dlambda_of_cell
  apply h.row
  rintro ⟨g, hg, hk⟩
  exact hmeets (hp.coeff_eq_zero (hcovers g hg) hk fun hjg => Set.disjoint_left.1 (hseparate g hg).2 hjg hj)

/-- A run begins each of its sweeps prepared. -/
theorem SweepStart.prepared (hp : e.problem.Accepted) (hs : e.Sound) (ht : Tracked s e) (h : e.SweepStart g) :
    Prepared s g := by
  induction h with
  | first hrebase hcommit hactive hseed =>
      have hrebased := hs.regular.of_rebase hrebase
      have hs₁ := hs.of_rebase hrebase
      have hc := hs₁.of_commit (ht.of_noted hrebased.noted) hcommit
      rw [hc.sound.regular.set.activeCount_eq, ne_eq, List.length_eq_zero_iff] at hactive
      refine Prepared.of_seed ?_ hc.sound hc.tracked hc.matched ?_ hactive hseed
      · rw [hc.state.problem, hrebased.problem_eq]
        exact hp
      · intro i
        rw [hc.state.dlambda]
        exact hrebased.dlambda i
  | next _ hsweep ih =>
      obtain ⟨_, _, hok, hswept⟩ := ih.toAtSweep.sweep_ok _
      obtain ⟨rfl, rfl⟩ := Prod.mk.inj (Except.ok.inj (hok.symm.trans hsweep))
      obtain ⟨_, _, _, _, _, _, hst⟩ := ih.toAtSweep.of_sweep hsweep
      exact hst.prepared ih (hswept.next rfl).1 rfl

/-- A job can be worked on: it is due in a state that is sound. -/
structure Turn (s : Fill) (free act : ℕ → Bool) (e : Engine K) (job : Job) : Prop where
  accepted : e.problem.Accepted
  covers : job.Covers e.problem.tree
  sound : e.Sound
  due : Due s free act e job

theorem Quiet.turn (hq : Quiet e e') (h : Turn s free act e job) : Turn s free act e' job where
  accepted := hq.sameState.problem ▸ h.accepted
  covers := hq.sameState.problem ▸ h.covers
  sound := hq.sameState.sound h.sound
  due := hq.due h.accepted h.covers h.due

section Part

variable {g₀ g₁ : Engine K} {before before' later : List Job} (h : Prepared s g) (hq : Quiet g g₀)
  (hjobs : g.schedule.jobs = before ++ later) (hbefore : g₀.processJobs before = .ok (before', g₁))

include h hq hjobs hbefore

/-- What the first jobs of a sweep have left alone. -/
theorem Prepared.confined_before : Confined (jobsRows before) (jobsCols before) g g₁ ∧ g₁.Sound := by
  have hin : ∀ job ∈ before, job ∈ g.schedule.jobs := fun job hjob => hjobs ▸ List.mem_append_left _ hjob
  have hseparate := h.toAtSweep.separate
  rw [hjobs, List.pairwise_append] at hseparate
  have hproblem := hq.sameState.problem
  obtain ⟨hconfined, hs, -⟩ := (hq.sameState.sound h.sound).processDueJobs (hproblem ▸ h.accepted)
    (fun job hjob => hproblem ▸ h.covers job (hin job hjob)) hseparate.1
    (fun job hjob => hq.due h.accepted (h.covers job (hin job hjob)) (h.due (hin job hjob))) hbefore
  exact ⟨hq.confined.trans hconfined, hs⟩

/-- When some jobs of a sweep have been processed, each of the others can be worked on, and it finds its part of the state
as it was at the start. -/
theorem Prepared.turn (hlater : job ∈ later) :
    Turn s (fun j => g.set.colAt j == .free) (fun i => (g.set.rowAt i).isActive) g₁ job ∧ AgreeOn job g g₁ := by
  obtain ⟨hconfined, hs⟩ := h.confined_before hq hjobs hbefore
  have hmem : job ∈ g.schedule.jobs := hjobs ▸ List.mem_append_right _ hlater
  have hcovers : ∀ h ∈ before, h.Covers g.problem.tree := fun k hk => h.covers k (hjobs ▸ List.mem_append_left _ hk)
  have hseparate := h.toAtSweep.separate
  rw [hjobs, List.pairwise_append] at hseparate
  have hapart : ∀ k ∈ before, k.Separate job := fun k hk => hseparate.2.2 k hk job hlater
  have hagree := hconfined.agreeOn h.accepted (h.covers job hmem)
    (disjoint_jobsRows fun k hk => (hapart k hk).symm.1) (disjoint_jobsCols fun k hk => (hapart k hk).symm.2)
  exact ⟨⟨hconfined.problem ▸ h.accepted, hconfined.problem ▸ h.covers job hmem, hs,
    hconfined.due_after h.accepted (h.covers job hmem) hcovers hapart (h.due hmem)⟩, hagree⟩

end Part

/-- When some jobs of a sweep have been processed, each of the others can be worked on. -/
theorem SweepStart.turn {g₀ g₁ : Engine K} {before before' later : List Job} (hp : e.problem.Accepted) (hs : e.Sound)
    (ht : Tracked s e) (hq : Quiet e e') (hstart : e'.SweepStart g) (hq₀ : Quiet g g₀)
    (hjobs : g.schedule.jobs = before ++ later) (hbefore : g₀.processJobs before = .ok (before', g₁))
    (hlater : job ∈ later) : Turn s (fun j => g.set.colAt j == .free) (fun i => (g.set.rowAt i).isActive) g₁ job :=
  have hsame := hq.sameState
  have hprepared := hstart.prepared (hsame.problem ▸ hp) (hsame.sound hs) (ht.of_noted hq.noted)
  (hprepared.turn hq₀ hjobs hbefore hlater).1

/-- The direction of a search solves the Newton equation of its job, if the vectors are in step. -/
theorem Searches.newton (hp : e.problem.Accepted) (hs : e.Sound) (ht : Tracked s e) (h : e.Searches g job)
    (hb : g.Balanced) (hf : g.DualFeasible) : 0 < g.sigma ∧
      ∀ i ∈ g.jobRows job, g.gradientAt i = g.hessianAt (g.directionAt job.rows) i := by
  obtain ⟨hq, hstart, hq₀, hjobs, hbefore, hq₁, hsolve, hq₂⟩ := h
  rename_i g₂ g₃ before before' later
  have hturn := hq₁.turn (hstart.turn hp hs ht hq hq₀ hjobs hbefore List.mem_cons_self)
  obtain ⟨_, hsolve', -, -, -, -, hnewton⟩ := hturn.due.solveJob_ok hturn.accepted hturn.covers hturn.sound
  obtain rfl := Except.ok.inj (hsolve'.symm.trans hsolve)
  obtain ⟨fwd, u, t, stats, rfl⟩ := of_solveJob hsolve
  obtain ⟨_, _, _, _, _, rfl⟩ := hq₂
  have hhealthy : g₂.Healthy := ⟨hturn.sound, hb.of_eq rfl (fun _ => rfl) (fun _ => rfl) rfl rfl rfl rfl rfl rfl,
    hf.of_eq (fun _ => rfl) rfl rfl⟩
  exact ⟨hturn.due.fits.sigma_pos, (hnewton hhealthy).2⟩

end Newton

variable {p : Problem K} {settings : Settings K} {rows cols : IndexRange} {out : LineOutcome K} {s s' : LineSearch K}
  {center : ℕ → K} {floor slope curvature step : K} {flag : LineFlag} {i : ℕ}

/-- How a search from `g` ends, by the slope that is left in `g'`: at the top between two break values, with the full
step where it still rises, or at its last event, after which it rises no more. -/
inductive Concludes (g : Engine K) (rows cols : IndexRange) (out : LineOutcome K) (g' : Engine K) (slope : K) : Prop where
  | interior : out.flag = .interior → slope = 0 → Concludes g rows cols out g' slope
  | truncated : out.flag = .truncated → out.step = 1 → 0 ≤ slope → Concludes g rows cols out g' slope
  | nondifferentiable {s s' : LineSearch K} {id : ℕ} {key : K} : out.flag = .nondifferentiableOptimum →
      g.Passes rows cols s → LineSearch.Event s s' id key → out.step = s'.step → g'.set = s'.engine.set → slope ≤ 0 →
      Concludes g rows cols out g' slope

/-- The walk is at its start, where the slope is positive, or behind an event. -/
theorem Passes.pos_or_event (hs : g.Passes rows cols s) : 0 < s.slope ∨
    ∃ s₁ id key, g.Passes rows cols s₁ ∧ LineSearch.Event s₁ s id key := by
  obtain ⟨s₀, hstarts, hwalks⟩ := hs
  cases hwalks with
  | refl =>
      obtain ⟨_, -, -, hpos, -⟩ := hstarts
      exact .inl hpos
  | tail hwalks hstep =>
      obtain ⟨id, key, he⟩ := hstep
      exact .inr ⟨_, id, key, ⟨s₀, hstarts, hwalks⟩, he⟩

section Ends

variable (ho : LineSearch.Orderly e rows cols s) (hx : LineSearch.Exact center floor rows s)

include ho hx

/-- After the last step the dual has not fallen, and it has risen if the step is positive. -/
theorem HasAdvanced.rises (ha : s.engine.HasAdvanced rows cols step g')
    (hahead : step = s.step ∨ 0 < s.slope ∧ s.step ≤ step ∧ 0 ≤ s.slope - s.curvature * (step - s.step)) :
    floor ≤ g'.dualValue center g'.dual ∧ (0 < step → floor < g'.dualValue center g'.dual) := by
  obtain ⟨hdual, -, hvalue⟩ := LineSearch.dual_of_hasAdvanced ha
  rw [hvalue, hdual]
  rcases hahead with rfl | ⟨hslope, hfrom, hleft⟩
  · exact ⟨hx.value, hx.rises⟩
  · exact hx.value_at ho hslope hfrom hleft

/-- Where a walk ends, and whether the dual has risen. -/
theorem Passes.concludes (hs : g.Passes rows cols s) (hsigma : 0 < s.engine.sigma) (he : LineSearch.Ends s flag s')
    (ha : s.engine.HasAdvanced rows cols (min 1 s'.step) g')
    (hflag : out.flag = if 1 < s'.step then .truncated else flag) (hstep : out.step = min 1 s'.step) :
    Concludes g rows cols out g' (s.slope - s.curvature * (min 1 s'.step - s.step)) ∧
      floor ≤ g'.dualValue center g'.dual ∧ (0 < min 1 s'.step → floor < g'.dualValue center g'.dual) := by
  have hle := ho.searching.step_le_one
  cases he with
  | nondifferentiable hslope =>
      have hmin : min 1 s.step = s.step := min_eq_right hle
      refine ⟨?_, ha.rises ho hx (.inl hmin)⟩
      rw [hmin, sub_self, mul_zero, sub_zero]
      obtain ⟨s₁, id, key, hs₁, hevent⟩ := hs.pos_or_event.resolve_left (not_lt.2 hslope)
      have hset : g'.set = s.engine.set := by
        obtain ⟨_, _, rfl, -⟩ := ha
        rfl
      exact .nondifferentiable (hflag.trans (if_neg (not_lt.2 hle))) hs₁ hevent (hstep.trans hmin) hset hslope
  | degenerate hslope hcurvature => exact absurd (hx.curvature_pos ho hsigma hslope) (not_lt.2 hcurvature)
  | interior hslope hcurvature _ =>
      have htop : s.slope - s.curvature * (s.step + s.slope / s.curvature - s.step) = 0 := by
        rw [add_sub_cancel_left, mul_div_cancel₀ _ hcurvature.ne', sub_self]
      have hfrom : s.step ≤ s.step + s.slope / s.curvature := le_add_of_nonneg_right (div_pos hslope hcurvature).le
      by_cases hlong : 1 < s.step + s.slope / s.curvature
      · have hmin : min 1 (s.step + s.slope / s.curvature) = 1 := min_eq_left hlong.le
        have hleft : 0 ≤ s.slope - s.curvature * (1 - s.step) := by
          have hless := mul_le_mul_of_nonneg_left (sub_le_sub_right hlong.le s.step) hcurvature.le
          linarith
        refine ⟨?_, ha.rises ho hx (.inr ?_)⟩
        · rw [hmin]
          exact .truncated (hflag.trans (if_pos hlong)) (hstep.trans hmin) hleft
        · dsimp only
          rw [hmin]
          exact ⟨hslope, hle, hleft⟩
      · have hmin : min 1 (s.step + s.slope / s.curvature) = s.step + s.slope / s.curvature :=
          min_eq_right (not_lt.1 hlong)
        refine ⟨?_, ha.rises ho hx (.inr ?_)⟩
        · rw [hmin]
          exact .interior (hflag.trans (if_neg hlong)) htop
        · dsimp only
          rw [hmin]
          exact ⟨hslope, hfrom, htop.ge⟩
  | budget _ _ hkeys hfar _ =>
      obtain ⟨c, v, hc⟩ := hkeys
      rcases le_max_iff.1 (hfar c v hc) with hzero | hlate
      · exact absurd zero_lt_one (not_lt.2 hzero)
      · exact absurd (hx.near c v hc) (not_lt.2 hlate)

end Ends

variable {e₁ : Engine K}

/-- The slope and the curvature at the start of a search. -/
theorem HasDirections.slope_eq (hp : g.problem.Accepted) (hjob : job.Covers g.problem.tree)
    (hd : g.HasDirections job.rows job.cols e₁) : e₁.slopeAt job.rows job.cols = g.slopeAfter job.rows 0 ∧
      e₁.curvatureAt job.rows job.cols = g.curvatureAlong job.rows := by
  obtain ⟨hrows, hcols⟩ := hp.job_stop hjob
  have ha := hd.aligned hp hjob
  obtain ⟨pa, rfl, -⟩ := hd
  refine ⟨(ha.slopeAt_eq hrows hcols).trans ?_, ha.curvatureAt_eq hrows hcols⟩
  rw [slopeAfter]
  apply Finset.sum_congr rfl
  intro i _
  rw [gradientAfter, zero_mul, sub_zero]
  rfl

theorem Starts.slope_eq (hp : g.problem.Accepted) (hjob : job.Covers g.problem.tree) (hr : g.Regular)
    (hs : g.Starts job.rows job.cols s) : s.slope = g.slopeAfter job.rows 0 ∧ s.curvature = g.curvatureAlong job.rows := by
  obtain ⟨e₁, e₂, hd, -, -, rfl⟩ := hs.spec hr (hp.job_stop hjob).1
  exact hd.slope_eq hp hjob

/-- Along the Newton direction the slope at the start is the curvature. -/
theorem slopeAfter_eq_curvatureAlong (hnewton : ∀ i ∈ g.jobRows job, g.gradientAt i =
    g.hessianAt (g.directionAt job.rows) i) : g.slopeAfter job.rows 0 = g.curvatureAlong job.rows := by
  rw [slopeAfter, curvatureAlong]
  apply Finset.sum_congr rfl
  intro i _
  by_cases hi : i ∈ g.jobRows job
  · rw [gradientAfter, zero_mul, sub_zero, hnewton i hi]
  · rw [directionAt_of_notMem hi, zero_mul, zero_mul]

theorem curvatureAlong_nonneg (hsigma : 0 ≤ g.sigma) (rows : IndexRange) : 0 ≤ g.curvatureAlong rows := by
  rw [curvatureAlong, sum_hessianAt]
  apply add_nonneg
  · exact mul_nonneg hsigma (Finset.sum_nonneg fun i _ => sq_nonneg _)
  · apply Finset.sum_nonneg
    intro j _
    split_ifs
    · exact sq_nonneg _
    · exact le_rfl

theorem dualAfter_zero (e : Engine K) (rows : IndexRange) : e.dualAfter rows 0 = e.dual := by
  funext i
  rw [dualAfter, zero_mul, add_zero]

theorem HasCandidates.lt_one (hc : g.HasCandidates rows cols e') {c : ℕ} {v : K}
    (hv : e'.heap.keyAt c = some v) : v < 1 := by
  obtain ⟨heap, rfl, -, hcols, hrows⟩ := hc
  replace hv : heap.keyAt c = some v := hv
  by_cases hj : c < g.problem.ncols
  · rw [hcols c hj, columnBreak?] at hv
    split_ifs at hv with hin hbreak
    rw [Option.some.injEq] at hv
    exact hv ▸ hbreak.2
  · obtain ⟨i, rfl⟩ : ∃ i, c = g.problem.ncols + i := ⟨c - g.problem.ncols, by omega⟩
    rw [hrows, rowBreak?] at hv
    split_ifs at hv with hin hbreak
    rw [Option.some.injEq] at hv
    rw [← hv]
    exact max_lt zero_lt_one hbreak.2

section Search

variable (hp : p.Accepted) (hg : Searchable p g job)
  (hcenter : ∀ i, (g.set.rowAt i).isActive = true → center i = coord g.lambda i)

include hp hg hcenter

/-- The derivative of the dual at the start of a search. -/
theorem Searchable.derivesAlong_start (hd : g.HasDirections job.rows job.cols e₁) :
    g.DerivesAlong center g.dual (g.directionAt job.rows) (e₁.slopeAt job.rows job.cols)
      (e₁.curvatureAt job.rows job.cols) := by
  have hp' : g.problem.Accepted := hg.problem ▸ hp
  have hjob : job.Covers g.problem.tree := hg.problem ▸ hg.covers
  obtain ⟨hslope, hcurvature⟩ := hd.slope_eq hp' hjob
  have ha := hd.aligned hp' hjob
  have hb := hg.balanced.of_hasDirections hd
  have hr := hd.regular hg.regular
  rw [hslope, hcurvature, ← g.dualAfter_zero job.rows]
  obtain ⟨pa, rfl, -⟩ := hd
  exact hb.derivesAlong hr hg.anchored ha hcenter 0

theorem Searchable.exact (hs : g.Passes job.rows job.cols s) :
    LineSearch.Exact center (g.dualValue center g.dual) job.rows s := by
  have hp' : g.problem.Accepted := hg.problem ▸ hp
  have hjob : job.Covers g.problem.tree := hg.problem ▸ hg.covers
  obtain ⟨s₀, hstarts, hwalks⟩ := hs
  have hstart : g.Passes job.rows job.cols s₀ := ⟨s₀, hstarts, .refl⟩
  obtain ⟨e₃, hd, ho⟩ := hg.orderly hp hstart
  have hfrozen := hg.frozen hp hstart
  have hr := hg.regular
  obtain ⟨e₁, e₂, hd₁, -, hc, rfl⟩ := hstarts.spec hr (hp'.job_stop hjob).1
  obtain ⟨hslope, hcurvature⟩ := hd₁.slope_eq hp' hjob
  have hnear : ∀ c v, e₂.heap.keyAt c = some v → v < 1 := fun c v => hc.lt_one
  have hsame : e₂.slopeAfter job.rows 0 = g.slopeAfter job.rows 0 ∧
      e₂.curvatureAlong job.rows = g.curvatureAlong job.rows ∧ e₂.dualAfter job.rows 0 = g.dualAfter job.rows 0 ∧
      e₂.dualValue center = g.dualValue center := by
    obtain ⟨pa, rfl, -⟩ := hd₁
    obtain ⟨heap, rfl, -⟩ := hc
    exact ⟨rfl, rfl, rfl, rfl⟩
  have hexact : LineSearch.Exact center (g.dualValue center g.dual) job.rows
      ⟨e₂, 0, e₁.slopeAt job.rows job.cols, e₁.curvatureAt job.rows job.cols, false, none⟩ := by
    refine ⟨hfrozen.anchored hg.anchored, fun i hi => ?_, hslope.trans hsame.1.symm, hcurvature.trans hsame.2.1.symm,
      hnear, ?_, fun hpos => absurd hpos (lt_irrefl 0)⟩
    · obtain ⟨hrow, hlambda⟩ := hfrozen.row i hi
      rw [hlambda]
      exact hcenter i (hrow ▸ hi)
    · dsimp only
      rw [hsame.2.2.1, hsame.2.2.2, dualAfter_zero]
  have hproblem : e₃.problem = g.problem := by
    obtain ⟨pa, rfl, -⟩ := hd
    rfl
  exact hexact.walks (hproblem ▸ hp') (hproblem ▸ hjob) ho hwalks

/-- A search along the Newton direction of its job ends at the top, with the full step or at an event. -/
theorem Searchable.ascends (hsigma : 0 < g.sigma)
    (hnewton : ∀ i ∈ g.jobRows job, g.gradientAt i = g.hessianAt (g.directionAt job.rows) i)
    (hok : g.lineSearch job.rows job.cols = .ok (out, g')) : ∃ slope curvature,
      g'.DerivesAlong center g'.dual (g'.directionAt job.rows) slope curvature ∧
      Concludes g job.rows job.cols out g' slope ∧ g.dualValue center g.dual ≤ g'.dualValue center g'.dual ∧
      (0 < out.step → g.dualValue center g.dual < g'.dualValue center g'.dual) := by
  have hp' : g.problem.Accepted := hg.problem ▸ hp
  have hjob : job.Covers g.problem.tree := hg.problem ▸ hg.covers
  have hstop := (hp'.job_stop hjob).1
  have hequal := slopeAfter_eq_curvatureAlong hnewton
  rcases hg.regular.lineSearch_cases hstop hok with ⟨hd, hflat, rfl⟩ | ⟨s₀, s', flag, hstarts, hfinishes, hadvanced, rfl⟩
  · -- the slope is the curvature, so it is not negative either
    have hderives := hg.derivesAlong_start hp hcenter hd
    obtain ⟨hslope, hcurvature⟩ := hd.slope_eq hp' hjob
    rw [hslope] at hflat hderives
    have hzero : g.slopeAfter job.rows 0 = 0 := le_antisymm hflat (hequal ▸ curvatureAlong_nonneg hsigma.le job.rows)
    obtain ⟨pa, rfl, -⟩ := hd
    exact ⟨_, _, hderives, .interior rfl hzero, le_rfl, fun hpos => absurd hpos (lt_irrefl 0)⟩
  · obtain ⟨s, hs, hwhere⟩ : ∃ s, g.Passes job.rows job.cols s ∧
        (s = s₀ ∧ s' = { s with step := 1 } ∧ flag = .interior ∨ LineSearch.Ends s flag s') := by
      cases hfinishes with
      | full _ => exact ⟨s₀, ⟨s₀, hstarts, .refl⟩, .inl ⟨rfl, rfl, rfl⟩⟩
      | walk hwalks hends => exact ⟨_, ⟨s₀, hstarts, hwalks⟩, .inr hends⟩
    obtain ⟨e₁, hd, ho⟩ := hg.orderly hp hs
    have hx := hg.exact hp hcenter hs
    have hengine : s'.engine = s.engine := by
      rcases hwhere with ⟨-, rfl, -⟩ | hends
      · rfl
      · exact hends.engine
    rw [hengine] at hadvanced
    refine ⟨_, _, hx.derivesAlong_advanced ho hadvanced, ?_⟩
    rcases hwhere with ⟨rfl, rfl, rfl⟩ | hends
    · obtain ⟨hslope, hcurvature⟩ := hstarts.slope_eq hp' hjob hg.regular
      obtain ⟨_, -, -, hpos, -, hstep, -⟩ := hstarts
      have hmin : min (1 : K) 1 = 1 := min_self 1
      have htop : s.slope - s.curvature * (1 - s.step) = 0 := by
        rw [hstep, sub_zero, mul_one, hslope, hcurvature, hequal, sub_self]
      dsimp only at hadvanced ⊢
      rw [hmin] at hadvanced ⊢
      have hfrom : s.step ≤ 1 := hstep ▸ zero_le_one
      exact ⟨.interior (if_neg (lt_irrefl 1)) htop, hadvanced.rises ho hx (.inr ⟨hpos, hfrom, htop.ge⟩)⟩
    · have hsigma' : 0 < s.engine.sigma := (hg.frozen hp hs).sigma ▸ hsigma
      exact hs.concludes ho hx hsigma' hends hadvanced rfl rfl

end Search

/-- What a search of a run starts from, by what holds of the state alone. -/
theorem Searches.searchable_of_sides (hp : p.Accepted) (he : Reachable p settings e) (h : e.Searches g job)
    (hb : g.Balanced) (hdropped : ∀ i, g.set.rowAt i = .dropped → coord g.lambda i = 0 ∧ coord g.dlambda i = 0)
    (hsides : g.OnSides g.dual) : Searchable p g job ∧
      ∀ i, (g.set.rowAt i).isActive = true → e.startDual i = coord g.lambda i := by
  have hrests := he.rests hp
  obtain ⟨e₀, e₁, hq, hrebased, hruns, hjob⟩ := h.runs (hrests.problem ▸ hp) hrests.regular
  have hsame := hq.sameState
  have hr₁ := hrebased.regular (hsame.regular hrests.regular)
  obtain ⟨hr, hproblem, -⟩ := hruns.regular hr₁
  have hfrozen := hruns.frozen hr₁
  have hproblem' : g.problem = p := hproblem.trans (hrebased.problem_eq.trans (hsame.problem.trans hrests.problem))
  have hanchored := hfrozen.anchored hrebased.anchored
  have hf : g.DualFeasible := by
    refine ⟨hdropped, fun i => ?_⟩
    by_cases hact : (g.set.rowAt i).isActive = true
    · exact hsides.row i hact
    · have hst := ActiveSet.isActive_eq_false_iff.1 (Bool.eq_false_iff.2 hact)
      rw [hst, (hdropped i hst).1, (hdropped i hst).2]
      exact add_zero 0
  refine ⟨⟨hproblem', hproblem' ▸ hjob, hr, hf, hb, hanchored, (hb.outside_iff hr hanchored).2 hsides.column⟩, ?_⟩
  intro i hact
  obtain ⟨hrow, hlambda⟩ := hfrozen.row i hact
  have hstart : (e.set.rowAt i).isActive = true := by
    rw [hrebased.set_eq, hsame.rowAt] at hrow
    exact hrow ▸ hact
  rw [startDual, if_pos hstart, hlambda, hrebased.lambda, hsame.rowAt, if_pos hstart, hsame.lambda, hsame.dlambda,
    hrests.still, add_zero]

/-- Throughout a search the slope and the curvature are the derivative and the negated second derivative of the dual along
what is left of the direction. The search ends where the dual cannot rise further along it, or with the full step, and
the dual has not fallen; it has risen if the step is positive. -/
theorem search_ascends (hp : p.Accepted) (he : Reachable p settings e) (hsearch : e.Searches g job) (hb : g.Balanced)
    (hdropped : ∀ i, g.set.rowAt i = .dropped → coord g.lambda i = 0 ∧ coord g.dlambda i = 0)
    (hsides : g.OnSides g.dual) :
    (∀ e₁ slope curvature, g.setDirections job.rows job.cols = .ok e₁ →
      e₁.startSlope job.rows job.cols = .ok (slope, curvature) →
      g.DerivesAlong e.startDual g.dual (g.directionAt job.rows) slope curvature) ∧
    (∀ s, g.Passes job.rows job.cols s → s.engine.DerivesAlong e.startDual (s.engine.dualAfter job.rows s.step)
      (s.engine.directionAt job.rows) s.slope s.curvature) ∧
    ∃ out g' slope curvature, g.lineSearch job.rows job.cols = .ok (out, g') ∧
      g'.DerivesAlong e.startDual g'.dual (g'.directionAt job.rows) slope curvature ∧
      Concludes g job.rows job.cols out g' slope ∧
      g.dualValue e.startDual g.dual ≤ g'.dualValue e.startDual g'.dual ∧
      (0 < out.step → g.dualValue e.startDual g.dual < g'.dualValue e.startDual g'.dual) := by
  have hp' : e.problem.Accepted := (he.rests hp).problem ▸ hp
  obtain ⟨hg, hcenter⟩ := hsearch.searchable_of_sides hp he hb hdropped hsides
  obtain ⟨hsigma, hnewton⟩ := hsearch.newton hp' (he.sound hp) (he.tracked hp) hb hg.feasible
  have hstop : job.rows.stop ≤ g.problem.nrows := ((hg.problem ▸ hp : g.problem.Accepted).job_stop
    (hg.problem ▸ hg.covers)).1
  refine ⟨fun e₁ slope curvature hdirections hstart => ?_, fun s hs => ?_, ?_⟩
  · have hd := hg.regular.of_setDirections hdirections
    have hproblem : e₁.problem = g.problem := by
      obtain ⟨pa, rfl, -⟩ := hd
      rfl
    obtain ⟨rfl, rfl⟩ := (hd.regular hg.regular).of_startSlope (hproblem ▸ hstop) hstart
    exact hg.derivesAlong_start hp hcenter hd
  · obtain ⟨e₁, -, ho⟩ := hg.orderly hp hs
    exact (hg.exact hp hcenter hs).derivesAlong ho
  · obtain ⟨out, g', hok, -⟩ := hsearch.lineSearch_ok hp' (he.sound hp) (he.tracked hp)
    obtain ⟨slope, curvature, hends⟩ := hg.ascends hp hcenter hsigma hnewton hok
    exact ⟨out, g', slope, curvature, hok, hends⟩

theorem search_ascends_halfLine : ∃ (p : Problem ℚ) (e g : Engine ℚ) (job : Job) (out : LineOutcome ℚ) (g' : Engine ℚ),
    p.Accepted ∧ Reachable p plain e ∧ e.Searches g job ∧ g.Balanced ∧
    (∀ i, g.set.rowAt i = .dropped → coord g.lambda i = 0 ∧ coord g.dlambda i = 0) ∧ g.OnSides g.dual ∧
    g.lineSearch job.rows job.cols = .ok (out, g') ∧ g'.set.colAt 0 ≠ g.set.colAt 0 ∧
    g.dualValue e.startDual g.dual < g'.dualValue e.startDual g'.dual := by
  obtain ⟨p, e, g, job, out, g', hp, he, hstart, hsearches, hsearch, hheld, hfree, hpos⟩ := exists_searchHalfLine
  have hg := hsearches.searchable hp he hstart
  have hsides : g.OnSides g.dual :=
    ⟨fun i _ => hg.feasible.on_side i, (hg.balanced.outside_iff hg.regular hg.anchored).1 hg.outside⟩
  obtain ⟨-, -, _, _, _, _, hok, -, -, -, hrises⟩ :=
    search_ascends hp he hsearches hg.balanced hg.feasible.dropped hsides
  obtain ⟨rfl, rfl⟩ := Prod.mk.inj (Except.ok.inj (hok.symm.trans hsearch))
  refine ⟨p, e, g, job, _, _, hp, he, hsearches, hg.balanced, hg.feasible.dropped, hsides, hok, ?_, hrises hpos⟩
  rw [hheld, hfree]
  decide

end Engine

end PolyProjection
