import Mathlib
import PolyProjection.Proofs.Engine.Calls
import PolyProjection.Proofs.Projection.Solve

/-! Accepted input makes nothing fail. An engine and a projection can be set up for every accepted problem and all valid
settings, and whatever is asked of them afterwards is carried out: no index is out of range, no check fails, nothing is
subtracted from less, and nothing is divided by zero. The multipliers may be anything, also of the wrong sign. -/

namespace PolyProjection

set_option linter.unusedSectionVars false

variable {K : Type} [Field K] [LinearOrder K] [IsStrictOrderedRing K] {σ : Type}

/-- The multipliers that an inner method replaces are those of rows of the problem. -/
def InnerMethod.InRange (method : InnerMethod K σ) : Prop :=
  ∀ state (e : Engine K) advice, ∀ x ∈ (method.run state e advice).2.1, x.1 < e.problem.nrows

namespace Engine

variable {p : Problem K} {settings : Settings K}

theorem create_ok (hp : p.Accepted) (hsettings : settings.validate = .ok ()) : ∃ e, create p settings = .ok (.ok e) :=
  ⟨_, create_eq_ok_iff.2 ⟨hsettings, _, LdlFactor.ofMatrix_ok hp.check hp.wellPosed.transpose, rfl⟩⟩

end Engine

namespace Projection

open Engine (Called Tracked)

variable {f : Fill} {p : Problem K} {settings : Settings K} {t : Timers} {s s' : Projection K σ} {e e' : Engine K} {i j : ℕ}

/-- What holds of a projection at all times, with `t` the timers when its work began. -/
structure Fit (f : Fill) (p : Problem K) (t : Timers) (s : Projection K σ) : Prop where
  problem : s.engine.problem = p
  sound : s.engine.Sound
  tracked : Tracked f s.engine
  timers : Timers.Nests 2 t s.engine.timers
  inner : ∀ method state, s.inner = some (method, state) → method.InRange

theorem Fit.of_called (h : Fit f p t s) {g : Engine K} (hg : Called f s.engine g) (hengine : s'.engine = g)
    (hinner : s'.inner = s.inner) : Fit f p t s' := by
  subst hengine
  exact ⟨hg.problem.trans h.problem, hg.sound, hg.tracked, h.timers.trans hg.timers, hinner ▸ h.inner⟩

/-- Times, counts and messages do not matter. -/
theorem Fit.of_quiet {t' : Timers} (h : Fit f p t s) (hq : Engine.Quiet s.engine s'.engine) (hinner : s'.inner = s.inner)
    (htimers : s'.engine.timers = t') : Fit f p t' s' :=
  ⟨hq.sameState.problem.trans h.problem, hq.sameState.sound h.sound, h.tracked.of_noted hq.noted,
    Timers.nests_of_eq htimers, hinner ▸ h.inner⟩

theorem Fit.refl_called (h : Fit f p t s) : Called f s.engine s.engine :=
  Called.refl h.sound h.tracked

section Steps

variable (hs : e.Sound) (ht : Tracked f e)

include hs ht

theorem startColumn_ok (hj : j < e.problem.ncols) : ∃ e', startColumn e j = .ok e' ∧ Called f e e' := by
  have hp := hs.regular.problem
  unfold startColumn
  rw [fetch_coord (by rw [hp.size_y]; exact hj), ok_bind, hp.fetch_lo hj, ok_bind]
  split_ifs
  · obtain ⟨b, e', hok, -⟩ := hs.bindColumn_ok hj .lower
    exact ⟨e', by rw [hok]; rfl, (Engine.called_of_bindColumn hs ht hok).1⟩
  · rw [hp.fetch_hi hj, ok_bind]
    split_ifs
    · obtain ⟨b, e', hok, -⟩ := hs.bindColumn_ok hj .upper
      exact ⟨e', by rw [hok]; rfl, (Engine.called_of_bindColumn hs ht hok).1⟩
    · exact ⟨e, rfl, Called.refl hs ht⟩

theorem moveColumn_ok (hj : j < e.problem.ncols) (z : K) :
    ∃ b e', moveColumn e j z = .ok (b, e') ∧ Called f e e' := by
  have hp := hs.regular.problem
  unfold moveColumn
  rw [hs.fetch_colStatus hj, ok_bind, hp.fetch_lo hj, ok_bind, hp.fetch_hi hj, ok_bind]
  cases columnMove (e.set.colAt j) (e.problem.loAt j) (e.problem.hiAt j) z with
  | stay => exact ⟨_, e, rfl, Called.refl hs ht⟩
  | bind side =>
      obtain ⟨b, e', hok, -⟩ := hs.bindColumn_ok hj side
      exact ⟨b, e', hok, (Engine.called_of_bindColumn hs ht hok).1⟩
  | free =>
      obtain ⟨b, e', hok, -⟩ := hs.freeColumn_ok hj
      exact ⟨b, e', hok, (Engine.called_of_freeColumn hs ht hj hok).1⟩

theorem addViolated_ok {x : Array K} (hx : x.size = e.problem.ncols) (hi : i < e.problem.nrows) :
    ∃ b e', addViolated x e i = .ok (b, e') ∧ Called f e e' := by
  have hp := hs.regular.problem
  unfold addViolated
  rw [hs.isRowActive_ok hi, ok_bind]
  split_ifs
  · exact ⟨_, e, rfl, Called.refl hs ht⟩
  · rw [hp.rowDot_ok hx hi, ok_bind, hp.fetch_bl hi, ok_bind, hp.fetch_bu hi, ok_bind]
    cases violatedSide? (e.problem.blAt i) (e.problem.buAt i) e.settings.tolFeas (e.problem.rowValue i (coord x)) with
    | none => exact ⟨_, e, rfl, Called.refl hs ht⟩
    | some side =>
        obtain ⟨b, e', hok, -⟩ := hs.addRow_ok hi side
        exact ⟨b, e', hok, (Engine.called_of_addRow hs ht hok).1⟩

theorem countMet_ok {ι : Type} (act : Engine K → ι → Checked (Bool × Engine K)) (items : List ι)
    (step : ∀ item ∈ items, ∀ g : Engine K, Called f e g → ∃ b g', act g item = .ok (b, g') ∧ Called f g g') :
    ∃ n e', countMet act e items = .ok (n, e') ∧ Called f e e' := by
  have hcount : ∃ r, countMet act e items = .ok r ∧ Called f e r.2 := by
    unfold countMet
    refine foldlM_carries (fun r : ℕ × Engine K => Called f e r.2) (Called.refl hs ht) fun item hitem r hr => ?_
    obtain ⟨b, g', hok, hcalled⟩ := step item hitem r.2 hr
    exact ⟨_, by dsimp only; rw [hok]; rfl, hr.trans hcalled⟩
  obtain ⟨⟨n, e'⟩, hok, hcalled⟩ := hcount
  exact ⟨n, e', hok, hcalled⟩

end Steps

section Rounds

variable (hp : p.Accepted) (h : Fit f p t s)

include hp h

theorem Fit.start_ok : ∃ s', s.start = .ok s' ∧ Fit f p t s' := by
  have hproblem := h.problem
  have hwell := hproblem ▸ hp.wellPosed
  unfold start
  dsimp only
  rw [filterM_of_forall fun i hi => hwell.isEquality_ok (List.mem_range.1 hi), ok_bind]
  obtain ⟨e₁, hrows, hcalled₁⟩ := foldlM_carries (Called f s.engine) h.refl_called
    (f := fun e i => do return (← e.addRow i .lower).2) (l := (List.range s.engine.problem.nrows).filter fun i =>
      (s.engine.problem.blAt i).isPoint (s.engine.problem.buAt i)) fun i hi g hg => by
    have hi : i < g.problem.nrows := hg.problem ▸ List.mem_range.1 (List.mem_of_mem_filter hi)
    obtain ⟨b, g', hok, -⟩ := hg.sound.addRow_ok hi .lower
    exact ⟨g', by rw [hok]; rfl, hg.trans (Engine.called_of_addRow hg.sound hg.tracked hok).1⟩
  obtain ⟨e₂, hcols, hcalled₂⟩ := foldlM_carries (Called f s.engine) hcalled₁ (f := startColumn)
    (l := List.range s.engine.problem.ncols) fun j hj g hg => by
    obtain ⟨g', hok, hcalled⟩ := startColumn_ok hg.sound hg.tracked (hg.problem ▸ List.mem_range.1 hj)
    exact ⟨g', hok, hg.trans hcalled⟩
  rw [hrows, ok_bind, hcols, ok_bind]
  exact ⟨_, rfl, h.of_called hcalled₂ rfl rfl⟩

theorem Fit.runInner_ok : ∃ status? s', s.runInner = .ok (status?, s') ∧ Fit f p t s' := by
  unfold runInner
  cases hinner : s.inner with
  | none => exact ⟨_, s, rfl, h⟩
  | some inner =>
      obtain ⟨method, state⟩ := inner
      dsimp only
      split_ifs
      · exact ⟨_, s, rfl, h⟩
      obtain ⟨nnz, hnnz⟩ : ∃ nnz, s.engine.problem.a.nnz = .ok nnz :=
        ⟨_, (h.problem ▸ hp.wellPosed).formatted.fetch_start le_rfl⟩
      rw [Engine.cheapAdvice, hnnz, ok_bind, pure_bind_ok]
      split_ifs
      · exact ⟨_, s, rfl, h⟩
      set advice := s.engine.flops.cheapAdvice s.engine.settings.coorCost s.engine.settings.ssorCost nnz
        s.engine.set.activeCount s.rowsAdded
      obtain ⟨g, hok, hcalled⟩ := Engine.called_of_setDual h.sound h.tracked
        (h.inner method state hinner state s.engine advice)
      rw [hok, ok_bind]
      have hfit : ∀ state', Fit f p t { s with
          engine := g.tell (.innerDone method.name (method.run state s.engine advice).2.2)
          inner := some (method, state') } := fun state' =>
        ⟨hcalled.problem.trans h.problem, (hcalled.of_events _).sound, (hcalled.of_events _).tracked,
          h.timers.trans hcalled.timers, fun m c hm => by
            rw [Option.some.injEq, Prod.mk.injEq] at hm
            exact hm.1 ▸ h.inner method state hinner⟩
      have hdone := hfit (method.run state s.engine advice).1
      split
      · exact ⟨_, _, rfl, hdone⟩
      · exact ⟨_, _, rfl, hdone⟩
      · exact ⟨_, _, rfl, hdone⟩

theorem Fit.ascend_ok : ∃ status s', s.ascend = .ok (status, s') ∧ Fit f p t s' := by
  obtain ⟨status?, s₁, hok, h₁⟩ := h.runInner_ok hp
  unfold ascend
  rw [hok, ok_bind]
  cases status? with
  | some status => exact ⟨status, s₁, rfl, h₁⟩
  | none =>
      obtain ⟨status, e', hrun, hcarried, -⟩ := h₁.sound.run_ok (h₁.problem ▸ hp) h₁.tracked
      exact ⟨status, { s₁ with engine := e' }, by dsimp only; rw [withEngine, hrun]; rfl,
        h₁.of_called hcarried.called rfl rfl⟩

theorem Fit.updatePoint_ok : ∃ change x, s.updatePoint =
    .ok (change, { s with solution := { s.solution with x := x } }) ∧ x.size = p.ncols := by
  have hwell := h.problem ▸ hp.wellPosed
  obtain ⟨z, hz, hsize, -⟩ := hwell.shifted_ok h.sound.regular.size_lambda
  obtain ⟨x, hx, hxsize, -⟩ := hwell.clip_ok hsize
  unfold updatePoint
  dsimp only
  rw [hz, ok_bind, hx, ok_bind]
  exact ⟨_, x, rfl, hxsize.trans (congrArg Problem.ncols h.problem)⟩

theorem Fit.reconcile_ok (hx : s.solution.x.size = p.ncols) :
    ∃ b s', s.reconcile = .ok (b, s') ∧ Fit f p t s' ∧ s'.solution = s.solution := by
  have hwell := h.problem ▸ hp.wellPosed
  obtain ⟨z, hz, hsize, -⟩ := hwell.shifted_ok h.sound.regular.size_lambda
  obtain ⟨moved, e₁, hmoved, hcalled₁⟩ := countMet_ok h.sound h.tracked
    (fun e j => do moveColumn e j (← fetch z j)) (List.range s.engine.problem.ncols) fun j hj g hg => by
    have hj := List.mem_range.1 hj
    rw [fetch_coord (by rw [hsize]; exact hj), ok_bind]
    exact moveColumn_ok hg.sound hg.tracked (hg.problem ▸ hj) _
  obtain ⟨added, e₂, hadded, hcalled₂⟩ := countMet_ok hcalled₁.sound hcalled₁.tracked
    (addViolated s.solution.x) (List.range s.engine.problem.nrows) fun i hi g hg => by
    have hproblem := hg.problem.trans hcalled₁.problem
    exact addViolated_ok hg.sound hg.tracked (by rw [hproblem, h.problem]; exact hx) (hproblem ▸ List.mem_range.1 hi)
  unfold reconcile
  dsimp only
  rw [hz, ok_bind, hmoved, ok_bind, hadded, ok_bind]
  exact ⟨_, _, rfl, h.of_called (hcalled₁.trans hcalled₂) rfl rfl, rfl⟩

theorem Fit.isFeasible_ok (hx : s.solution.x.size = p.ncols) : ∃ b, s.isFeasible = .ok b := by
  have hr := h.sound.regular
  unfold isFeasible
  dsimp only
  rw [hr.set.rows.toList_eq, ok_bind]
  exact ⟨_, allM_of_forall fun i hi => by
    have hi := hr.row_lt (ActiveSet.mem_activeList_iff.1 hi)
    rw [hr.problem.rowDot_ok (by rw [h.problem]; exact hx) hi, ok_bind, hr.rowBound_ok hi]
    rfl⟩

theorem Fit.round_ok (number : ℕ) : ∃ status? s', s.round number = .ok (status?, s') ∧ Fit f p t s' := by
  have hcounted : Fit f p t { s with solution := { s.solution with rounds := s.solution.rounds + 1 } } :=
    h.of_called h.refl_called rfl rfl
  obtain ⟨status, s₁, hascend, h₁⟩ := hcounted.ascend_ok hp
  obtain ⟨change, x, hpoint, hsize⟩ := h₁.updatePoint_ok hp
  have h₂ : Fit f p t { s₁ with solution := { s₁.solution with x := x } } := h₁.of_called h₁.refl_called rfl rfl
  unfold round
  rw [hascend, ok_bind]
  dsimp only
  rw [hpoint, ok_bind]
  dsimp only
  split_ifs
  · exact ⟨_, _, rfl, h₂⟩
  obtain ⟨changed, s₃, hreconcile, h₃, hsolution⟩ := h₂.reconcile_ok hp hsize
  obtain ⟨feasible, hfeasible⟩ := h₃.isFeasible_ok hp (by rw [hsolution]; exact hsize)
  have h₄ : Fit f p t { s₃ with engine := s₃.engine.tell (.roundDone number status change changed feasible) } :=
    h₃.of_called (h₃.refl_called.of_events _) rfl rfl
  rw [hreconcile, ok_bind]
  dsimp only
  rw [hfeasible, ok_bind]
  split_ifs <;> exact ⟨_, _, rfl, h₄⟩

omit h in
theorem Fit.roundsFrom_ok {number left : ℕ} (h : Fit f p t s) :
    ∃ status s', s.roundsFrom number left = .ok (status, s') ∧ Fit f p t s' := by
  induction left generalizing s number with
  | zero => exact ⟨_, s, rfl, h⟩
  | succ left ih =>
      obtain ⟨status?, s₁, hround, h₁⟩ := h.round_ok hp number
      rw [roundsFrom, hround, ok_bind]
      cases status? with
      | some status => exact ⟨status, s₁, rfl, h₁⟩
      | none => exact ih h₁

theorem Fit.rounds_ok : ∃ status s', s.rounds = .ok (status, s') ∧ Fit f p t s' := by
  unfold rounds
  split_ifs
  · obtain ⟨change, x, hpoint, -⟩ := h.updatePoint_ok hp
    rw [hpoint, ok_bind]
    exact ⟨_, _, rfl, h.of_called h.refl_called rfl rfl⟩
  · rw [pure_bind_ok]
    exact h.roundsFrom_ok hp
  · obtain ⟨s₁, hstart, h₁⟩ := h.start_ok hp
    rw [hstart, ok_bind]
    exact h₁.roundsFrom_ok hp

end Rounds

/-- What holds of a projection between two calls. No timer runs, and those that ran were not nested too deep. -/
structure Idle (f : Fill) (p : Problem K) (s : Projection K σ) : Prop where
  fit : Fit f p s.engine.timers s
  stack : s.engine.timers.stack = []
  levels : Timer.levelsOf s.engine.timers.roots ≤ Timers.maxDepth

theorem Idle.of_fit (h : Idle f p s) (hfit : Fit f p t s') {n : ℕ} (hn : n ≤ Timers.maxDepth)
    (hnests : Timers.Nests n s.engine.timers s'.engine.timers) : Idle f p s' where
  fit := ⟨hfit.problem, hfit.sound, hfit.tracked, Timers.nests_of_eq rfl, hfit.inner⟩
  stack := hnests.stack.trans h.stack
  levels := by
    have hlevels := hnests.levels
    have hbefore := h.levels
    rw [h.stack, List.length_nil] at hlevels
    omega

theorem Idle.solve_ok (hp : p.Accepted) (h : Idle f p s) : ∃ status s', s.solve = .ok (status, s') ∧ Idle f p s' := by
  have hstart : Fit f p (s.engine.timers.start "outer") { s with
      engine := { s.engine with timers := s.engine.timers.start "outer" } } :=
    h.fit.of_quiet ⟨_, _, _, _, _, rfl⟩ rfl rfl
  obtain ⟨status, s₁, hrounds, h₁⟩ := hstart.rounds_ok hp
  have hnests : Timers.Nests 3 s.engine.timers s₁.engine.timers.stop := h₁.timers.timed
  have hidle : Idle f p { s₁ with engine := { s₁.engine with timers := s₁.engine.timers.stop } } :=
    h.of_fit (h₁.of_quiet ⟨_, _, _, _, _, rfl⟩ rfl rfl) (by decide) hnests
  obtain ⟨lines, hlines⟩ := Timers.lines_ok hidle.levels
  obtain ⟨shown, hsolve⟩ : ∃ shown, s.solve = .ok (status, { s₁ with
      engine := { s₁.engine with timers := s₁.engine.timers.stop }.print 0 (.footer status s₁.engine.stats shown)
      solution := { s₁.solution with
        status := status
        lambda := ({ s₁.engine with timers := s₁.engine.timers.stop }.print 0
          (.footer status s₁.engine.stats shown)).lambda } }) := by
    unfold solve
    dsimp only
    rw [hrounds, ok_bind]
    dsimp only
    split_ifs
    · exact ⟨lines, by dsimp only at hlines; rw [hlines]; rfl⟩
    · exact ⟨[], rfl⟩
  obtain ⟨output, hprint⟩ := Engine.print_eq { s₁.engine with timers := s₁.engine.timers.stop } 0
    (.footer status s₁.engine.stats shown)
  rw [hprint] at hsolve
  exact ⟨status, _, hsolve, hidle.of_fit (hidle.fit.of_quiet ⟨_, _, _, _, _, rfl⟩ rfl rfl) (Nat.zero_le _)
    (Timers.nests_of_eq rfl)⟩

/-- A call to a projection: one to its engine, the choice of an inner method, or a solution. -/
inductive Call (K σ : Type) where
  | engine (call : Engine.Call K)
  | setInner (method : InnerMethod K σ) (state : σ)
  | solve

namespace Call

/-- The rows and columns that a call names exist, also those that an inner method names. -/
def InRange (p : Problem K) : Call K σ → Prop
  | engine call => call.InRange p
  | setInner method _ => method.InRange
  | solve => True

def make (s : Projection K σ) : Call K σ → Checked (Projection K σ)
  | engine call => return (← s.withEngine call.make).2
  | setInner method state => return { s with inner := some (method, state) }
  | solve => return (← s.solve).2

end Call

/-- The state after a number of calls. -/
def after (s : Projection K σ) (calls : List (Call K σ)) : Checked (Projection K σ) :=
  calls.foldlM Call.make s

theorem Idle.make_ok (hp : p.Accepted) (h : Idle f p s) {call : Call K σ} (hcall : call.InRange p) :
    ∃ s', call.make s = .ok s' ∧ Idle f p s' := by
  cases call with
  | engine call =>
      have hrange : call.InRange s.engine.problem := h.fit.problem ▸ hcall
      obtain ⟨answer, e', hok, hcalled, -⟩ := Engine.Call.make_ok h.fit.sound h.fit.tracked (h.fit.problem ▸ hp) hrange
      exact ⟨{ s with engine := e' }, by rw [Call.make, withEngine, hok]; rfl,
        h.of_fit (h.fit.of_called hcalled rfl rfl) (by decide) hcalled.timers⟩
  | setInner method state =>
      refine ⟨_, rfl, ⟨⟨h.fit.problem, h.fit.sound, h.fit.tracked, h.fit.timers, fun m st hm => ?_⟩, h.stack, h.levels⟩⟩
      rw [Option.some.injEq, Prod.mk.injEq] at hm
      exact hm.1 ▸ hcall
  | solve =>
      obtain ⟨status, s', hok, hidle⟩ := h.solve_ok hp
      exact ⟨s', by rw [Call.make, hok]; rfl, hidle⟩

theorem create_ok (hp : p.Accepted) (hsettings : settings.validate = .ok ()) :
    ∃ s : Projection K σ, create p settings = .ok (.ok s) ∧
      Idle (FillPattern.fill p.a hp.wellPosed.formatted) p s := by
  obtain ⟨e, hcreate⟩ := Engine.create_ok hp hsettings
  obtain ⟨-, -, hproblem, -⟩ := Engine.of_create hp.wellPosed hcreate
  have htimers := (Engine.tallied_of_create hcreate).2
  refine ⟨_, by rw [create, hcreate]; rfl, ⟨⟨hproblem, Engine.sound_of_create hp.wellPosed hcreate,
    Engine.tracked_of_create hp.wellPosed hcreate, Timers.nests_of_eq rfl, ?_⟩, ?_, ?_⟩⟩
  · intro method state hinner
    cases hinner
  · rw [htimers]
    rfl
  · rw [htimers]
    exact Nat.zero_le _

end Projection

end PolyProjection
