import Mathlib
import PolyProjection.Proofs.Engine.Run

/-! The engines that can come about, by requests, writes of multipliers and runs in any order, and the engines that a
run goes through. -/

namespace PolyProjection.Engine

set_option linter.unusedSectionVars false

variable {K : Type} [Field K] [LinearOrder K] [IsStrictOrderedRing K]

/-- The engines of a problem that can come about. -/
inductive Reachable (p : Problem K) (settings : Settings K) : Engine K → Prop where
  | create {e : Engine K} : create p settings = .ok (.ok e) → Reachable p settings e
  | addRow {e e' : Engine K} {i : Nat} {side : Side} {b : Bool} : Reachable p settings e →
      e.addRow i side = .ok (b, e') → Reachable p settings e'
  | bindColumn {e e' : Engine K} {j : Nat} {side : Side} {b : Bool} : Reachable p settings e →
      e.bindColumn j side = .ok (b, e') → Reachable p settings e'
  | freeColumn {e e' : Engine K} {j : Nat} {b : Bool} : Reachable p settings e →
      e.freeColumn j = .ok (b, e') → Reachable p settings e'
  | setDual {e e' : Engine K} {entries : List (Nat × K)} : Reachable p settings e →
      e.setDual entries = .ok e' → Reachable p settings e'
  | run {e e' : Engine K} {status : Status} : Reachable p settings e → e.run = .ok (status, e') →
      Reachable p settings e'

/-- The engines at the start of a sweep of a run of which the sweeps begin in `e`. -/
inductive SweepStart (e : Engine K) : Engine K → Prop where
  | first {e₁ e₂ : Engine K} {refactored : Bool} {schedule : Schedule} : e.rebase = .ok e₁ →
      e₁.commit false = .ok (refactored, e₂) → e₂.set.activeCount ≠ 0 →
      Schedule.seed e₂.problem.tree e₂.set.rows = .ok schedule → SweepStart e { e₂ with schedule := schedule }
  | next {g g' : Engine K} {number : Nat} : SweepStart e g → g.sweep number = .ok (none, g') → SweepStart e g'

/-- The engines within a run that begins in `e`: after the vectors have been computed, and in each sweep after each of
its jobs. What is counted, timed and told on the way does not matter. -/
inductive Underway (e : Engine K) : Engine K → Prop where
  | rebased {e₀ e₁ : Engine K} : Quiet e e₀ → e₀.rebase = .ok e₁ → Underway e e₁
  | processed {e₀ g g₀ g' : Engine K} {jobs later jobs' : List Job} : Quiet e e₀ → SweepStart e₀ g → Quiet g g₀ →
      g.schedule.jobs = jobs ++ later → g₀.processJobs jobs = .ok (jobs', g') → Underway e g'

/-- Settings with regularization one and few sweeps. -/
def plain : Settings ℚ :=
  ⟨1, false, 10, 10, 1, 0, 0, false, false, 0⟩

/-- The start of the first sweep of a run. -/
def firstSweep (e : Engine K) : Checked (Engine K) := do
  let e₁ ← e.rebase
  let (_, e₂) ← e₁.commit false
  let schedule ← Schedule.seed e₂.problem.tree e₂.set.rows
  if e₂.set.activeCount ≠ 0 then return { e₂ with schedule := schedule } else .error .wrongState

/-- The engine with the first `n` rows at their lower bounds. -/
def holdRows (e : Engine K) (n : ℕ) : Checked (Engine K) :=
  (List.range n).foldlM (fun e i => do return (← e.addRow i .lower).2) e

variable {p : Problem K} {settings : Settings K} {e e' g : Engine K}

theorem sweepStart_of_firstSweep (hok : e.firstSweep = .ok g) : e.SweepStart g := by
  unfold firstSweep at hok
  simp only [bind_eq_ok_iff] at hok
  obtain ⟨e₁, hrebase, ⟨_, e₂⟩, hcommit, schedule, hseed, hok⟩ := hok
  split_ifs at hok with hactive
  rw [pure_eq_ok_iff] at hok
  exact hok ▸ .first hrebase hcommit hactive hseed

theorem Reachable.holdRows (h : Reachable p settings e) {n : ℕ} (hok : e.holdRows n = .ok e') :
    Reachable p settings e' := by
  refine foldlM_keeps (Reachable p settings) hok h fun i _ f f' hf hstep => ?_
  obtain ⟨_, hrow, hret⟩ := bind_eq_ok_iff.1 hstep
  obtain rfl := pure_eq_ok_iff.1 hret
  exact .addRow hf hrow

/-- What holds of every engine between runs. -/
structure Rests (p : Problem K) (settings : Settings K) (e : Engine K) : Prop where
  regular : e.Regular
  problem : e.problem = p
  settings : e.settings = settings
  still : ∀ i, coord e.dlambda i = 0

theorem Reachable.rests (hp : p.Accepted) (h : Reachable p settings e) : Rests p settings e := by
  induction h with
  | create hok =>
      obtain ⟨-, hrest, hproblem, hsettings⟩ := of_create hp.wellPosed hok
      exact ⟨hrest.regular, hproblem, hsettings, hrest.still⟩
  | addRow _ hok ih =>
      rcases ih.regular.of_addRow hok with ⟨-, rfl⟩ | ⟨-, st, hadded⟩
      · exact ih
      · have hregular := hadded.regular ih.regular
        refine ⟨hregular, hadded.problem_eq.trans ih.problem, ?_, fun k => ?_⟩
        · obtain ⟨_, _, -, -, rfl⟩ := hadded.eq
          exact ih.settings
        · rw [hadded.dlambda]
          split_ifs
          · rfl
          · exact ih.still k
  | bindColumn _ hok ih =>
      rcases ih.regular.of_bindColumn hok with ⟨-, rfl⟩ | ⟨-, hbound⟩
      · exact ih
      · refine ⟨hbound.regular ih.regular, hbound.problem_eq.trans ih.problem, ?_, fun k => ?_⟩
        · obtain ⟨_, _, _, _, -, -, rfl⟩ := hbound.eq
          split <;> exact ih.settings
        · rw [hbound.lambda_eq.2]
          exact ih.still k
  | @freeColumn _ _ j _ _ hok ih =>
      rcases ih.regular.of_freeColumn hok with ⟨-, rfl⟩ | ⟨-, g, hreleased, rfl⟩
      · exact ih
      · have hregular := hreleased.regular ih.regular
        have hsame := (quiet_tell g (.columnFreed j)).sameState
        refine ⟨hsame.regular hregular, hsame.problem.trans (hreleased.problem_eq.trans ih.problem), ?_, ?_⟩
        all_goals
          obtain ⟨_, _, _, _, -, -, rfl⟩ := hreleased.eq
        · exact ih.settings
        · exact ih.still
  | setDual _ hok ih =>
      obtain ⟨lambda, rfl, hsize⟩ := of_setDual hok
      have hr := ih.regular
      exact ⟨⟨hr.problem, hr.set, hr.rows_fit, hr.cols_fit, hr.heap, hsize.trans hr.size_lambda, hr.size_dlambda⟩,
        ih.problem, ih.settings, ih.still⟩
  | run _ hok ih =>
      obtain ⟨_, _, _, _, -, -, -, -, -, hregular, hproblem, hsettings, hstill⟩ :=
        Regular.of_run (by rw [ih.problem]; exact hp) ih.regular hok
      exact ⟨hregular, hproblem.trans ih.problem, hsettings.trans ih.settings, hstill⟩

/-- At the start of a sweep the vectors have been computed and some steps been made, and each job covers its block. -/
theorem SweepStart.runs (hp : e.problem.Accepted) (hr : e.Regular) (h : e.SweepStart g) :
    ∃ e₁, Rebased e e₁ ∧ Runs e₁ g ∧ ∀ job ∈ g.schedule.jobs, job.Covers g.problem.tree := by
  induction h with
  | first hrebase hcommit _ hseed =>
      exact ⟨_, hr.of_rebase hrebase, (Relation.ReflTransGen.single (.commit hcommit)).tail
        (.schedule _), Schedule.covers_of_seed hseed⟩
  | next _ hsweep ih =>
      obtain ⟨e₁, hrebased, hruns, hcovers⟩ := ih
      obtain ⟨hr', hproblem, -⟩ := hruns.regular (hrebased.regular hr)
      obtain ⟨hruns', hcovers'⟩ := Runs.of_sweep (by
        rw [hproblem, hrebased.problem_eq]
        exact hp) hr' hcovers hsweep
      exact ⟨e₁, hrebased, hruns.trans hruns', hcovers'⟩

/-- Within a run the vectors have been computed and some steps been made. -/
theorem Underway.runs (hp : e.problem.Accepted) (hr : e.Regular) (h : e.Underway g) :
    ∃ e₀ e₁, Quiet e e₀ ∧ Rebased e₀ e₁ ∧ Runs e₁ g := by
  cases h with
  | rebased hquiet hrebase =>
      exact ⟨_, g, hquiet, (hquiet.sameState.regular hr).of_rebase hrebase, .refl⟩
  | processed hquiet hstart hquiet' hjobs hok =>
      have hr₀ := hquiet.sameState.regular hr
      have hp₀ : Problem.Accepted _ := (congrArg Problem.Accepted hquiet.sameState.problem).mpr hp
      obtain ⟨e₁, hrebased, hruns, hcovers⟩ := hstart.runs hp₀ hr₀
      have hruns₀ := hruns.tail (.quiet hquiet')
      obtain ⟨hr', hproblem, -⟩ := Runs.regular hruns₀ (hrebased.regular hr₀)
      refine ⟨_, e₁, hquiet, hrebased, hruns₀.trans (Runs.of_processJobs ?_ hr' ?_ hok).1⟩
      · rw [hproblem, hrebased.problem_eq]
        exact hp₀
      · rw [hquiet'.sameState.problem]
        exact fun job hjob => hcovers job (by rw [hjobs]; exact List.mem_append_left _ hjob)

end PolyProjection.Engine
