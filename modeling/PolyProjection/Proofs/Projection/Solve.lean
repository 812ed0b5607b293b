import Mathlib
import PolyProjection.Proofs.Projection.Nearest

/-! The rounds of a projection. The point is computed from the multipliers in each round, and no request between
two rounds changes these, so the point belongs to the multipliers however the rounds end. -/

namespace PolyProjection

set_option linter.unusedSectionVars false

variable {K : Type} [Field K] [LinearOrder K] [IsStrictOrderedRing K] {σ : Type}

/-- The multipliers of the method are zero for dropped rows and on the side of their row for inequality rows. -/
def InnerMethod.KeepsSides (method : InnerMethod K σ) : Prop :=
  ∀ state (e e' : Engine K) advice, e.AtRest → e.setDual (method.run state e advice).2.1 = .ok e' →
    ∀ i, (e.set.rowAt i).Admits (coord e'.lambda i)

namespace Projection

/-- A projection between two rounds. -/
structure Settled (p : Problem K) (settings : Settings K) (s : Projection K σ) : Prop where
  atRest : s.engine.AtRest
  problem : s.engine.problem = p
  settings : s.engine.settings = settings
  inner : ∀ method state, s.inner = some (method, state) → method.KeepsSides

/-- The point of the solution belongs to the multipliers. -/
structure HasPoint (p : Problem K) (s : Projection K σ) : Prop where
  size : s.solution.x.size = p.ncols
  eq : ∀ j < p.ncols, coord s.solution.x j = p.pointAt (coord s.engine.lambda) j

/-- The point is within the bounds of dropped rows, and active rows are at theirs, up to a tolerance. -/
structure Found (p : Problem K) (tol : K) (s : Projection K σ) : Prop where
  dropped : ∀ i < p.nrows, s.engine.set.rowAt i = .dropped → p.RowWithin tol i (coord s.solution.x)
  active : ∀ i, (s.engine.set.rowAt i).isActive = true →
    |p.rowValue i (coord s.solution.x) - s.engine.boundAt i| ≤ tol

variable {p : Problem K} {settings : Settings K} {s s' : Projection K σ} {status : Status}

theorem Settled.of_reshaped (h : Settled p settings s) {g : Engine K} (hg : s.engine.Reshaped g)
    (hengine : s'.engine = g) (hinner : s'.inner = s.inner) : Settled p settings s' := by
  subst hengine
  exact ⟨hg.atRest, hg.problem.trans h.problem, hg.settings.trans h.settings, hinner ▸ h.inner⟩

theorem HasPoint.of_eq (h : HasPoint p s) (hlambda : s'.engine.lambda = s.engine.lambda)
    (hx : s'.solution.x = s.solution.x) : HasPoint p s' := by
  refine ⟨hx ▸ h.size, fun j hj => ?_⟩
  rw [hx, hlambda]
  exact h.eq j hj

/-- Multipliers put in place by a method that keeps the sides leave the engine at rest. -/
theorem atRest_of_setDual {e e' : Engine K} {entries : List (Nat × K)} (h : e.AtRest)
    (hok : e.setDual entries = .ok e') (hsides : ∀ i, (e.set.rowAt i).Admits (coord e'.lambda i)) :
    e'.AtRest ∧ e'.problem = e.problem ∧ e'.settings = e.settings := by
  obtain ⟨lambda, rfl, hsize⟩ := Engine.of_setDual hok
  have hr := h.regular
  refine ⟨⟨⟨hr.problem, hr.set, hr.rows_fit, hr.cols_fit, hr.heap, hsize.trans hr.size_lambda, hr.size_dlambda⟩,
    ⟨fun i hi => ⟨?_, h.still i⟩, fun i => ?_⟩, h.still⟩, rfl, rfl⟩
  · have hside := hsides i
    have hi : e.set.rowAt i = .dropped := hi
    rw [hi] at hside
    exact hside
  · rw [h.still i, add_zero]
    exact hsides i

theorem Settled.of_runInner {status? : Option Status} (h : Settled p settings s)
    (hok : s.runInner = .ok (status?, s')) : Settled p settings s' ∧ s'.solution = s.solution := by
  unfold runInner at hok
  cases hinner : s.inner with
  | none =>
      rw [hinner, pure_eq_ok_iff, Prod.mk.injEq] at hok
      rw [← hok.2]
      exact ⟨h, rfl⟩
  | some inner =>
      obtain ⟨method, state⟩ := inner
      rw [hinner] at hok
      dsimp only at hok
      split_ifs at hok
      · rw [pure_eq_ok_iff, Prod.mk.injEq] at hok
        rw [← hok.2]
        exact ⟨h, rfl⟩
      obtain ⟨advice, -, hok⟩ := bind_eq_ok_iff.1 hok
      split_ifs at hok
      · rw [pure_eq_ok_iff, Prod.mk.injEq] at hok
        rw [← hok.2]
        exact ⟨h, rfl⟩
      obtain ⟨e, hdual, hok⟩ := bind_eq_ok_iff.1 hok
      have hkeeps := h.inner method state hinner
      obtain ⟨hrest, hproblem, hsettings⟩ :=
        atRest_of_setDual h.atRest hdual (hkeeps state s.engine e advice h.atRest hdual)
      have htold := (Engine.quiet_tell e (.innerDone method.name
        (method.run state s.engine advice).2.2)).sameState.reshaped hrest
      have hsettled : Settled p settings { s with
          engine := e.tell (.innerDone method.name (method.run state s.engine advice).2.2)
          inner := some (method, (method.run state s.engine advice).1) } :=
        ⟨htold.atRest, htold.problem.trans (hproblem.trans h.problem),
          htold.settings.trans (hsettings.trans h.settings), fun m st hm => by
            rw [Option.some.injEq, Prod.mk.injEq] at hm
            exact hm.1 ▸ hkeeps⟩
      split at hok
      all_goals
        rw [pure_eq_ok_iff, Prod.mk.injEq] at hok
        rw [← hok.2]
        exact ⟨hsettled, rfl⟩

theorem Settled.of_ascend (hp : p.Accepted) (h : Settled p settings s) (hok : s.ascend = .ok (status, s')) :
    Settled p settings s' ∧ s'.solution = s.solution := by
  unfold ascend at hok
  obtain ⟨⟨status?, s₁⟩, hinner, hok⟩ := bind_eq_ok_iff.1 hok
  obtain ⟨h₁, hsolution⟩ := h.of_runInner hinner
  cases status? with
  | some _ =>
      rw [pure_eq_ok_iff, Prod.mk.injEq] at hok
      rw [← hok.2]
      exact ⟨h₁, hsolution⟩
  | none =>
      simp only [withEngine, bind_eq_ok_iff, pure_eq_ok_iff, Prod.mk.injEq] at hok
      obtain ⟨⟨_, e⟩, hrun, rfl, rfl⟩ := hok
      obtain ⟨hrest, hproblem, hsettings⟩ := h₁.atRest.of_run (by rw [h₁.problem]; exact hp) hrun
      exact ⟨⟨hrest, hproblem.trans h₁.problem, hsettings.trans h₁.settings, h₁.inner⟩, hsolution⟩

theorem Settled.of_updatePoint {change : K} (h : Settled p settings s) (hok : s.updatePoint = .ok (change, s')) :
    (∃ x, s' = { s with solution := { s.solution with x := x } }) ∧ HasPoint p s' := by
  have hr := h.atRest.regular
  obtain ⟨z, hz, hzsize, hzcoord⟩ := hr.problem.shifted_ok hr.size_lambda
  obtain ⟨x, hx, hxsize, hxcoord⟩ := hr.problem.clip_ok hzsize
  unfold updatePoint at hok
  dsimp only at hok
  rw [hz, ok_bind, hx, ok_bind, pure_eq_ok_iff, Prod.mk.injEq] at hok
  obtain ⟨-, rfl⟩ := hok
  rw [h.problem] at hxsize hxcoord hzcoord
  refine ⟨⟨x, rfl⟩, hxsize, fun j hj => ?_⟩
  rw [hxcoord j hj, hzcoord j hj]
  rfl

/-- A round whose reconciliation changes nothing and whose point is feasible has found the solution. -/
theorem Settled.found_of_reconcile (h : Settled p settings s) (hpoint : HasPoint p s)
    (hreconcile : s.reconcile = .ok (false, s')) (hfeasible : s'.isFeasible = .ok true) :
    Found p settings.tolFeas s' := by
  obtain ⟨⟨e, rowsAdded, hs'⟩, -, hunchanged⟩ := of_reconcile h.atRest hreconcile
  obtain ⟨hengine, hdropped⟩ := hunchanged rfl (by rw [hpoint.size, h.problem])
  have hx : s'.solution.x = s.solution.x := by rw [hs']
  constructor
  · intro i hi hdrop
    rw [hengine] at hdrop
    rw [hx, ← h.problem, ← h.settings]
    exact hdropped i (by rw [h.problem]; exact hi) hdrop
  · intro i hact
    rw [← h.problem, ← h.settings, ← hengine]
    exact of_isFeasible (hengine ▸ h.atRest.regular) (by rw [hx, hpoint.size, hengine, h.problem]) hfeasible hact

theorem Settled.of_round (hp : p.Accepted) (h : Settled p settings s) {number : Nat} {status? : Option Status}
    (hok : s.round number = .ok (status?, s')) : Settled p settings s' ∧ HasPoint p s' ∧
      (status? = some .solutionFound ∨ status? = some .allRowsDropped → Found p settings.tolFeas s') := by
  unfold round at hok
  obtain ⟨⟨status, s₁⟩, hascend, hok⟩ := bind_eq_ok_iff.1 hok
  have h₀ : Settled p settings { s with solution := { s.solution with rounds := s.solution.rounds + 1 } } :=
    ⟨h.atRest, h.problem, h.settings, h.inner⟩
  obtain ⟨h₁, -⟩ := h₀.of_ascend hp hascend
  obtain ⟨⟨change, s₂⟩, hupdate, hok⟩ := bind_eq_ok_iff.1 hok
  obtain ⟨⟨x, hs₂⟩, hpoint⟩ := h₁.of_updatePoint hupdate
  have h₂ : Settled p settings s₂ := by
    rw [hs₂]
    exact ⟨h₁.atRest, h₁.problem, h₁.settings, h₁.inner⟩
  dsimp only at hok
  by_cases hmax : status = .maxIterations
  · rw [if_pos hmax, pure_eq_ok_iff, Prod.mk.injEq] at hok
    obtain ⟨rfl, rfl⟩ := hok
    rw [hmax]
    exact ⟨h₂, hpoint, by simp⟩
  rw [if_neg hmax] at hok
  obtain ⟨⟨changed, s₃⟩, hreconcile, hok⟩ := bind_eq_ok_iff.1 hok
  obtain ⟨⟨e, rowsAdded, hs₃⟩, hreshaped, -⟩ := of_reconcile h₂.atRest hreconcile
  have h₃ : Settled p settings s₃ := h₂.of_reshaped hreshaped rfl (by rw [hs₃])
  have hpoint₃ : HasPoint p s₃ := hpoint.of_eq hreshaped.lambda (by rw [hs₃])
  obtain ⟨feasible, hfeasible, hok⟩ := bind_eq_ok_iff.1 hok
  have h₄ : Settled p settings { s₃ with
      engine := s₃.engine.tell (.roundDone number status change changed feasible) } :=
    h₃.of_reshaped ((Engine.quiet_tell s₃.engine _).sameState.reshaped h₃.atRest) rfl rfl
  have hpoint₄ : HasPoint p { s₃ with
      engine := s₃.engine.tell (.roundDone number status change changed feasible) } := hpoint₃.of_eq rfl rfl
  dsimp only at hok
  by_cases hagain : (changed || !feasible) = true
  · rw [if_pos hagain, pure_eq_ok_iff, Prod.mk.injEq] at hok
    obtain ⟨rfl, rfl⟩ := hok
    exact ⟨h₄, hpoint₄, by simp⟩
  rw [if_neg hagain, pure_eq_ok_iff, Prod.mk.injEq] at hok
  rw [Bool.or_eq_true, Bool.not_eq_true', not_or, Bool.not_eq_true, Bool.not_eq_false] at hagain
  obtain ⟨rfl, rfl⟩ := hagain
  have hfound := h₂.found_of_reconcile hpoint hreconcile hfeasible
  rw [← hok.2]
  exact ⟨h₄, hpoint₄, fun _ => ⟨hfound.dropped, hfound.active⟩⟩

theorem Settled.of_roundsFrom (hp : p.Accepted) {number left : Nat} (h : Settled p settings s)
    (hpoint : left = 0 → HasPoint p s) (hok : s.roundsFrom number left = .ok (status, s')) :
    Settled p settings s' ∧ HasPoint p s' ∧
      (status = .solutionFound ∨ status = .allRowsDropped → Found p settings.tolFeas s') := by
  induction left generalizing s number with
  | zero =>
      rw [roundsFrom, pure_eq_ok_iff, Prod.mk.injEq] at hok
      obtain ⟨rfl, rfl⟩ := hok
      exact ⟨h, hpoint rfl, by simp⟩
  | succ left ih =>
      rw [roundsFrom] at hok
      obtain ⟨⟨status?, s₁⟩, hround, hok⟩ := bind_eq_ok_iff.1 hok
      obtain ⟨h₁, hpoint₁, hfound₁⟩ := h.of_round hp hround
      cases status? with
      | some _ =>
          rw [pure_eq_ok_iff, Prod.mk.injEq] at hok
          obtain ⟨rfl, rfl⟩ := hok
          exact ⟨h₁, hpoint₁, by simpa using hfound₁⟩
      | none => exact ih h₁ (fun _ => hpoint₁) hok

theorem Settled.of_rounds (hp : p.Accepted) (h : Settled p settings s) (hmax : settings.maxOuterIter ≠ 0)
    (hok : s.rounds = .ok (status, s')) : Settled p settings s' ∧ HasPoint p s' ∧
      (status = .solutionFound ∨ status = .allRowsDropped → Found p settings.tolFeas s') := by
  unfold rounds at hok
  by_cases hrows : s.engine.problem.nrows = 0
  · rw [if_pos hrows] at hok
    simp only [bind_eq_ok_iff, pure_eq_ok_iff, Prod.mk.injEq] at hok
    obtain ⟨⟨change, s₁⟩, hupdate, -, rfl⟩ := hok
    obtain ⟨⟨x, hs₁⟩, hpoint⟩ := h.of_updatePoint hupdate
    have h₁ : Settled p settings s₁ := by
      rw [hs₁]
      exact ⟨h.atRest, h.problem, h.settings, h.inner⟩
    refine ⟨h₁, hpoint, fun _ => ⟨fun i hi => ?_, fun i hact => ?_⟩⟩
    · rw [← h.problem, hrows] at hi
      exact absurd hi (Nat.not_lt_zero i)
    · have hi := h₁.atRest.regular.row_lt hact
      rw [h₁.problem, ← h.problem, hrows] at hi
      exact absurd hi (Nat.not_lt_zero i)
  · rw [if_neg hrows] at hok
    have hstart : ∃ s₁, Settled p settings s₁ ∧
        s₁.roundsFrom 0 s₁.engine.settings.maxOuterIter = .ok (status, s') := by
      split_ifs at hok
      · exact ⟨s, h, hok⟩
      · obtain ⟨s₁, hstart, hok⟩ := bind_eq_ok_iff.1 hok
        obtain ⟨hreshaped, hinner⟩ := reshaped_of_start h.atRest hstart
        exact ⟨s₁, h.of_reshaped hreshaped rfl hinner, hok⟩
    obtain ⟨s₁, h₁, hok⟩ := hstart
    rw [h₁.settings] at hok
    exact h₁.of_roundsFrom hp (fun hzero => absurd hzero hmax) hok

theorem Settled.of_solve (hp : p.Accepted) (h : Settled p settings s) (hmax : settings.maxOuterIter ≠ 0)
    (hok : s.solve = .ok (status, s')) : Settled p settings s' ∧ HasPoint p s' ∧
      s'.solution.lambda = s'.engine.lambda ∧
      (status = .solutionFound ∨ status = .allRowsDropped → Found p settings.tolFeas s') := by
  unfold solve at hok
  obtain ⟨⟨status', s₁⟩, hrounds, hok⟩ := bind_eq_ok_iff.1 hok
  have h₀ : Settled p settings { s with engine := { s.engine with timers := s.engine.timers.start "outer" } } :=
    h.of_reshaped (Engine.SameState.reshaped
      (Engine.Quiet.sameState ⟨_, s.engine.timers.start "outer", _, _, _, rfl⟩) h.atRest) rfl rfl
  obtain ⟨h₁, hpoint, hfound⟩ := h₀.of_rounds hp hmax hrounds
  have hend : ∃ e, Engine.Quiet s₁.engine e ∧ status = status' ∧ s' = { s₁ with
      engine := e
      solution := { s₁.solution with status := status', lambda := e.lambda } } := by
    dsimp only at hok
    split_ifs at hok
    · obtain ⟨shown, -, hok⟩ := bind_eq_ok_iff.1 hok
      rw [pure_eq_ok_iff, Prod.mk.injEq] at hok
      exact ⟨_, Engine.Quiet.trans ⟨_, _, _, _, _, rfl⟩ (Engine.quiet_print _ _ _), hok.1.symm, hok.2.symm⟩
    · rw [pure_bind_ok, pure_eq_ok_iff, Prod.mk.injEq] at hok
      exact ⟨_, Engine.Quiet.trans ⟨_, _, _, _, _, rfl⟩ (Engine.quiet_print _ _ _), hok.1.symm, hok.2.symm⟩
  obtain ⟨e, hquiet, rfl, rfl⟩ := hend
  have hstate := hquiet.sameState
  refine ⟨h₁.of_reshaped (hstate.reshaped h₁.atRest) rfl rfl, hpoint.of_eq hstate.lambda rfl, rfl, fun hstatus =>
    ⟨fun i hi hdrop => ?_, fun i hact => ?_⟩⟩
  · rw [hstate.rowAt] at hdrop
    exact (hfound hstatus).dropped i hi hdrop
  · rw [hstate.rowAt] at hact
    have hbound : e.boundAt i = s₁.engine.boundAt i := by
      rw [Engine.boundAt, Engine.boundAt, hstate.rowAt, hstate.problem]
    rw [hbound]
    exact (hfound hstatus).active i hact

/-- The projections of a problem that can come about: created with settings that pass their check, perhaps given
inner methods that keep the sides, and solved any number of times. -/
inductive Reachable (p : Problem K) (settings : Settings K) : Projection K σ → Prop where
  | create {s : Projection K σ} : create p settings = .ok (.ok s) → Reachable p settings s
  | setInner {s : Projection K σ} {method : InnerMethod K σ} (state : σ) : Reachable p settings s →
      method.KeepsSides → Reachable p settings { s with inner := some (method, state) }
  | solve {s s' : Projection K σ} {status : Status} : Reachable p settings s → s.solve = .ok (status, s') →
      Reachable p settings s'

theorem Reachable.settled (hp : p.Accepted) (h : Reachable p settings s) :
    Settled p settings s ∧ settings.maxOuterIter ≠ 0 := by
  induction h with
  | create hok =>
      unfold Projection.create at hok
      obtain ⟨e, hengine, hok⟩ := bind_eq_ok_iff.1 hok
      cases e with
      | error _ => simp at hok
      | ok e =>
          rw [pure_eq_ok_iff, Except.ok.injEq] at hok
          subst hok
          obtain ⟨hvalid, hrest, hproblem, hsettings⟩ := Engine.of_create hp.wellPosed hengine
          exact ⟨⟨hrest, hproblem, hsettings, nofun⟩, (Engine.pos_of_validate hvalid).2.2.2⟩
  | setInner state _ hkeeps ih =>
      refine ⟨⟨ih.1.atRest, ih.1.problem, ih.1.settings, fun m st hm => ?_⟩, ih.2⟩
      rw [Option.some.injEq, Prod.mk.injEq] at hm
      exact hm.1 ▸ hkeeps
  | solve _ hok ih => exact ⟨(ih.1.of_solve hp ih.2 hok).1, ih.2⟩

/-- Whatever the end of the rounds, the point belongs to the multipliers. If the projection is found, the point is
within the bounds up to the tolerance, and no feasible point is nearer by more than the tolerance times the size
of the multipliers. -/
theorem solve_sound (hp : p.Accepted) (h : Reachable p settings s) (hok : s.solve = .ok (status, s')) :
    s'.solution.x.size = p.ncols ∧
    (∀ j < p.ncols, coord s'.solution.x j = Bound.clamp (coord p.y j +
      ∑ i ∈ Finset.range p.nrows, p.a.coeff i j * coord s'.solution.lambda i) (p.loAt j) (p.hiAt j)) ∧
    (status = .solutionFound ∨ status = .allRowsDropped →
      (∀ i < p.nrows, p.RowWithin settings.tolFeas i (coord s'.solution.x)) ∧
      ∀ x', p.Feasible x' → p.distance (coord s'.solution.x) ≤ p.distance x' +
        settings.tolFeas * ∑ i ∈ Finset.range p.nrows, |coord s'.solution.lambda i|) := by
  obtain ⟨hsettled, hmax⟩ := h.settled hp
  obtain ⟨hs', hpoint, hlambda, hfound⟩ := hsettled.of_solve hp hmax hok
  rw [hlambda]
  refine ⟨hpoint.size, hpoint.eq, fun hstatus => ⟨fun i hi => ?_, fun x' hx' => ?_⟩⟩
  · by_cases hdrop : s'.engine.set.rowAt i = .dropped
    · exact (hfound hstatus).dropped i hi hdrop
    · have hact := ActiveSet.isActive_iff_ne.2 hdrop
      have hrow := (hfound hstatus).active i hact
      rw [← hs'.problem] at hrow ⊢
      exact hs'.atRest.regular.rowWithin_of_active hact hrow
  · have hactive := (hfound hstatus).active
    have heq := hpoint.eq
    rw [← hs'.problem] at hactive heq hx' ⊢
    exact hs'.atRest.distance_le heq hactive hx'

/-- A coarse projection: half of the way to the bound is near enough. -/
def coarse : Settings ℚ :=
  ⟨1, false, 10, 10, 1 / 2, 0, 0, false, false, 0⟩

/-- The projection onto a half-line before and after it is solved. -/
def projectHalfLine : Checked (Option (Problem ℚ × Projection ℚ Unit × Status × Projection ℚ Unit)) := do
  let .ok p ← Problem.halfLine | return none
  let .ok s ← create p coarse | return none
  let (status, s') ← s.solve
  return some (p, s, status, s')

theorem solve_sound_halfLine : ∃ (p : Problem ℚ) (s s' : Projection ℚ Unit), p.Accepted ∧ Reachable p coarse s ∧
    s.solve = .ok (.solutionFound, s') ∧ (∀ i < p.nrows, p.RowWithin (1 / 2) i (coord s'.solution.x)) ∧
    ∀ x', p.Feasible x' → p.distance (coord s'.solution.x) ≤ p.distance x' +
      1 / 2 * ∑ i ∈ Finset.range p.nrows, |coord s'.solution.lambda i| := by
  obtain ⟨result, hrun, hfound⟩ := exists_of_passes (x := projectHalfLine)
    (f := fun r => r.any fun r => r.2.2.1 == .solutionFound) (by decide +kernel)
  unfold projectHalfLine at hrun
  obtain ⟨p?, hp, hrun⟩ := bind_eq_ok_iff.1 hrun
  cases p? with
  | error _ =>
      rw [pure_eq_ok_iff] at hrun
      rw [← hrun] at hfound
      cases hfound
  | ok p =>
      obtain ⟨s?, hs, hrun⟩ := bind_eq_ok_iff.1 hrun
      cases s? with
      | error _ =>
          rw [pure_eq_ok_iff] at hrun
          rw [← hrun] at hfound
          cases hfound
      | ok s =>
          obtain ⟨⟨status, s'⟩, hsolve, hrun⟩ := bind_eq_ok_iff.1 hrun
          rw [pure_eq_ok_iff] at hrun
          subst hrun
          have hstatus : status = .solutionFound := beq_iff_eq.1 hfound
          subst hstatus
          have hsound := solve_sound (.create hp) (.create hs) hsolve
          exact ⟨p, s, s', .create hp, .create hs, hsolve, hsound.2.2 (.inl rfl)⟩

end Projection

end PolyProjection
